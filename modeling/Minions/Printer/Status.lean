import Minions.Data.Orbit
import Minions.Printer.Connection

/-! `printer_status` of `printd.c`, which reads the answer of the printer.
The answer is parsed in the buffer that it is read into, while more of it is read. The model
takes one step for each round of the three loops that may read; the content that `malloc` and
`realloc` give the buffer is unknown, and what is undefined ends the run: an access outside the
buffer, and a text of the printer for a format of `log_msg` that asks for arguments. What else is
logged is left out.
-/

namespace Minions.Printer

open Minions.Data

def HTTP_INFO (x : Int) : Prop := 100 ≤ x ∧ x ≤ 199

def HTTP_SUCCESS (x : Int) : Prop := 200 ≤ x ∧ x ≤ 299

def STATCLASS_OK (x : Nat) : Prop := x ≤ 0x00ff

instance (x : Int) : Decidable (HTTP_INFO x) := inferInstanceAs (Decidable (_ ∧ _))

instance (x : Int) : Decidable (HTTP_SUCCESS x) := inferInstanceAs (Decidable (_ ∧ _))

instance (x : Nat) : Decidable (STATCLASS_OK x) := inferInstanceAs (Decidable (_ ≤ _))

/-- `atoi`, which converts what `strtol` returns. -/
def atoi (text : List Byte) : Int := int32 (atol text)

/-- The buffer, its size and the pieces in which the rest of the answer arrives. After the last
piece a read finds the end of the file, an error or a timeout.
-/
structure Reader where
  buf : Nat → Byte
  bufsz : Nat
  chunks : List (List Byte)

namespace Reader

/-- The bytes from `i` up to `j`. -/
def text (r : Reader) (i j : Nat) : List Byte := (List.range' i (j - i)).map r.buf

/-- Store one byte at a place whose content the program has read. -/
def put (r : Reader) (i : Nat) (b : Byte) : Reader :=
  { r with buf := Function.update r.buf i b }

/-- Advance from `i` while the test holds of the place and the byte there. The byte is read
before the test, so that the run leaves the buffer if the test never fails in it.
-/
def skip (r : Reader) (test : Nat → Byte → Bool) (i : Nat) : Option Nat :=
  (List.range' i (r.bufsz - i)).find? fun j => !test j (r.buf j)

/-- Compare the bytes from `i` on with a pattern, up to the first difference. -/
def compare (r : Reader) (same : Byte → Byte → Bool) : Nat → List Byte → Option Bool
  | _, [] => some true
  | i, c :: cs =>
      if r.bufsz ≤ i then none
      else if same (r.buf i) c then r.compare same (i + 1) cs
      else some false

/-- `tread` to the place `off` of the buffer, up to its end. Nothing is read after the last
piece.
-/
def tread (r : Reader) (off : Nat) : Nat × Reader :=
  let data := (r.chunks.headD []).take (r.bufsz - off)
  (data.length,
    { r with
      buf := fun j => if off ≤ j ∧ j < off + data.length then data.getD (j - off) 0 else r.buf j
      chunks :=
        match r.chunks with
        | [] => []
        | chunk :: rest =>
            if chunk.length ≤ r.bufsz - off then rest else chunk.drop (r.bufsz - off) :: rest })

/-- `readmore`: the offset of the end of the data, and the buffer, which grows if the data is to
go behind its end.
-/
def readmore (r : Reader) (off : Nat) : Option (Nat × Reader) :=
  let r := if off ≥ r.bufsz then { r with bufsz := r.bufsz + IOBUFSZ } else r
  let (nr, r) := r.tread off
  if nr > 0 then some (off + nr, r) else none

end Reader

/-- Where a run of `printer_status` is: at the head of the loop that reads a status line, of the
loop that looks for the content length or of the loop that looks for the end of the header; or
it has returned, or has done what is undefined. The pointer `cp` of the source is `bp + i` at the
heads of the last two loops.
-/
inductive Stage
  | outer (r : Reader)
  | search (r : Reader) (i datsz : Nat)
  | blank (r : Reader) (i datsz : Nat) (len : Int)
  | returned (success : Bool)
  | undefined

/-- `strncasecmp` compares lower case letters. -/
def toLower (b : Byte) : Byte := if 65 ≤ b ∧ b ≤ 90 then b + 32 else b

def contentLength : List Byte := Printer.text "Content-Length:"

/-- The end of a header line and an empty line. -/
def blankLine : List Byte := [10, 13, 10]

/-- Each percent sign is doubled, so that a format asks for no argument. -/
def literal : List Byte → Bool
  | [] => true
  | 37 :: 37 :: rest => literal rest
  | 37 :: _ => false
  | _ :: rest => literal rest

/-- `log_msg(bp)` is defined: the buffer holds a string, and the string is literal. -/
def Reader.logs (r : Reader) : Bool :=
  match r.skip (fun _ b => b ≠ 0) 0 with
  | none => false
  | some nul => literal (r.text 0 nul)

/-- What follows a status line that ends at `eol`, by its code. -/
def statusCode (code : Int) (eol datsz : Nat) (r : Reader) : Stage :=
  if HTTP_INFO code then .outer r
  else if ¬ HTTP_SUCCESS code then if datsz < r.bufsz then .returned false else .undefined
  else .search r eol datsz

/-- The rest of a status line with a code from `statcode` up to `cp`. -/
def statusRest (statcode cp datsz : Nat) (r : Reader) : Stage :=
  match r.skip (fun _ b => b ≠ 13 ∧ b ≠ 10) (cp + 1) with
  | none => .undefined
  | some eol =>
      let r := r.put eol 0
      statusCode (atoi (r.text statcode cp)) eol datsz r

/-- What a round of the first loop does with the `datsz` bytes that it has read: find the status
code and the end of its line. A line without a code is logged.
-/
def statusLine (r : Reader) (datsz : Nat) : Stage :=
  match r.skip (fun _ b => isSpace b) 8 with
  | none => .undefined
  | some statcode =>
      match r.skip (fun _ b => isDigit b) statcode with
      | none => .undefined
      | some cp =>
          if cp = statcode then if r.logs then .outer r else .undefined
          else statusRest statcode cp datsz (r.put cp 0)

/-- Add the end of the data to `datsz`, or give up. -/
def more (r : Reader) (i datsz : Nat) (next : Reader → Nat → Stage) : Stage :=
  match r.readmore i with
  | none => .returned false
  | some (nr, r) => next r (datsz + nr)

/-- The comparison in the search for the content length, and what follows a match. -/
def searchMatch (i : Nat) (r : Reader) (datsz : Nat) : Stage :=
  match r.compare (fun b c => toLower b = toLower c) i contentLength with
  | none => .undefined
  | some false => .search r (i + 1) datsz
  | some true =>
      match r.skip (fun _ b => isSpace b) (i + contentLength.length) with
      | none => .undefined
      | some contentlen =>
          match r.skip (fun _ b => isDigit b) contentlen with
          | none => .undefined
          | some cp =>
              let len := atoi (r.text contentlen cp)
              let r := r.put cp 0
              let i := cp + 1
              if i ≥ datsz then more r i datsz fun r datsz => .blank r i datsz len
              else .blank r i datsz len

/-- One round of the search for the content length. -/
def searchRound (r : Reader) (i datsz : Nat) : Stage :=
  match r.skip (fun j b => b ≠ ascii 'C' ∧ b ≠ ascii 'c' ∧ j < datsz) i with
  | none => .undefined
  | some i =>
      if i ≥ datsz then more r i datsz (searchMatch i)
      else searchMatch i r datsz

/-- The number in the bytes from `i` up to `j`, most significant byte first. -/
def Reader.bigEndian (r : Reader) (i j : Nat) : Nat :=
  (r.text i j).foldl (fun acc b => 256 * acc + b.toNat) 0

/-- The IPP header behind the HTTP header. -/
def ippHeader (jobid : Int) (i : Nat) (r : Reader) : Stage :=
  if r.bufsz < i + 8 then .undefined
  else
    let status := r.bigEndian (i + 2) (i + 4)
    let request_id := int32 (r.bigEndian (i + 4) (i + 8))
    .returned (decide (request_id = jobid ∧ STATCLASS_OK status))

/-- What follows the end of the HTTP header. -/
def ippResponse (jobid : Int) (i : Nat) (len : Int) (r : Reader) (datsz : Nat) : Stage :=
  if (datsz : Int) - i < len then more r i datsz fun r _ => ippHeader jobid i r
  else ippHeader jobid i r

/-- The first place, of those that the search for the end of the header compares, where the
comparison does not fail.
-/
def blankFrom (r : Reader) (i datsz : Nat) : Option Nat :=
  (List.range' i (datsz - 2 - i)).find? fun j => r.compare (· = ·) j blankLine ≠ some false

/-- One round of the search for the end of the header. -/
def blankRound (jobid : Int) (r : Reader) (i datsz : Nat) (len : Int) : Stage :=
  match blankFrom r i datsz with
  | some j =>
      if r.compare (· = ·) j blankLine = none then .undefined
      else
        let i := j + 3
        if i ≥ datsz then more r i datsz (ippResponse jobid i len)
        else ippResponse jobid i len r datsz
  | none =>
      let i := max i (datsz - 2)
      if i ≥ datsz then more r i datsz fun r datsz => .blank r i datsz len
      else .blank r i datsz len

/-- One round of the loop at whose head the run is. -/
def statusStep (jobid : Int) : Stage → Option Stage
  | .outer r =>
      let (nr, r) := r.tread 0
      some (if nr > 0 then statusLine r nr else .returned false)
  | .search r i datsz => some (searchRound r i datsz)
  | .blank r i datsz len => some (blankRound jobid r i datsz len)
  | .returned _ => none
  | .undefined => none

/-- The call of `printer_status` when the memory holds `junk` and the answer comes in the
pieces.
-/
def printerStatus (junk : Nat → Byte) (chunks : List (List Byte)) : Stage :=
  .outer { buf := junk, bufsz := IOBUFSZ, chunks }

/-- `printer_status` returns the value. -/
def Returns (junk : Nat → Byte) (jobid : Int) (chunks : List (List Byte)) (success : Bool) : Prop :=
  Leads (statusStep jobid) (printerStatus junk chunks) (.returned success)

-----------------------------------------------------------------------------------------
-- Rounds go down
-----------------------------------------------------------------------------------------

/-- The number of bytes still to come. -/
def Reader.total (r : Reader) : Nat := (r.chunks.map List.length).sum

/-- A read takes its bytes from those that are left. -/
theorem Reader.total_tread (r : Reader) (off : Nat)
    : (r.tread off).2.total + (r.tread off).1 = r.total := by
  cases pieces : r.chunks with
  | nil => simp [Reader.tread, Reader.total, pieces]
  | cons chunk rest =>
      simp only [Reader.tread, Reader.total, pieces, List.headD_cons, List.length_take]
      by_cases fits : chunk.length ≤ r.bufsz - off
      · simp only [if_pos fits, List.map_cons, List.sum_cons]
        omega
      · simp only [if_neg fits, List.map_cons, List.sum_cons, List.length_drop]
        omega

/-- `readmore` that succeeds takes bytes. -/
theorem Reader.total_readmore {r r' : Reader} {off nr : Nat}
    (reads : r.readmore off = some (nr, r'))
    : r'.total < r.total := by
  simp only [Reader.readmore] at reads
  generalize grown : (if off ≥ r.bufsz then { r with bufsz := r.bufsz + IOBUFSZ } else r) = big
    at reads
  have same : big.total = r.total := by
    rw [← grown]
    split
    · rfl
    · rfl
  have conserved := big.total_tread off
  split at reads
  · rename_i some_
    cases reads
    omega
  · cases reads

/-- A skip stops inside the buffer. -/
theorem Reader.skip_range {r : Reader} {test : Nat → Byte → Bool} {i j : Nat}
    (skips : r.skip test i = some j)
    : i ≤ j ∧ j < r.bufsz := by
  have member := List.mem_of_find?_eq_some skips
  rw [List.mem_range'_1] at member
  omega

/-- The bytes still to come at a stage, and the places left to search. -/
def Stage.size : Stage → Nat × Nat
  | .outer r => (r.total, 1)
  | .search r i _ => (r.total, r.bufsz - i + 2)
  | .blank r _ _ _ => (r.total, 1)
  | .returned _ => (0, 0)
  | .undefined => (0, 0)

/-- The order in which the stages of a run go down. -/
def Stage.Below (s' s : Stage) : Prop := Prod.Lex (· < ·) (· < ·) s'.size s.size

/-- The stages can go down only so often. -/
theorem Stage.below_wellFounded : WellFounded Stage.Below :=
  InvImage.wf Stage.size (Prod.lex Nat.lt_wfRel Nat.lt_wfRel).wf

/-- A stage lies below what is left of bytes and places. -/
def Stage.Falls (total left : Nat) (s : Stage) : Prop :=
  s.size.1 < total ∨ s.size.1 ≤ total ∧ s.size.2 < left

/-- A stage that falls is below. -/
theorem Stage.Falls.below {s s' : Stage} (falls : s'.Falls s.size.1 s.size.2) : s'.Below s := by
  rw [Stage.Below, Prod.lex_def]
  unfold Stage.Falls at falls
  omega

/-- A stage that falls has no more bytes to come. -/
theorem Stage.Falls.le {s : Stage} {total left : Nat} (falls : s.Falls total left)
    : s.size.1 ≤ total := by
  rcases falls with less | ⟨le, -⟩
  · exact less.le
  · exact le

/-- A weaker bound. -/
theorem Stage.Falls.mono {s : Stage} {total left left' : Nat} (falls : s.Falls total left)
    (more : left ≤ left')
    : s.Falls total left' := by
  rcases falls with less | ⟨le, less⟩
  · exact .inl less
  · exact .inr ⟨le, by omega⟩

/-- A return falls. -/
theorem falls_returned (success : Bool) {total left : Nat} (pos : 0 < left)
    : (Stage.returned success).Falls total left :=
  .inr ⟨Nat.zero_le total, pos⟩

/-- Undefined behaviour falls. -/
theorem falls_undefined {total left : Nat} (pos : 0 < left) : Stage.undefined.Falls total left :=
  .inr ⟨Nat.zero_le total, pos⟩

/-- Reading more uses up bytes. -/
theorem falls_more {r : Reader} {i datsz left : Nat} {next : Reader → Nat → Stage}
    (pos : 0 < left) (within : ∀ r' datsz', (next r' datsz').size.1 ≤ r'.total)
    : (more r i datsz next).Falls r.total left := by
  unfold more
  cases reads : r.readmore i with
  | none => exact falls_returned _ pos
  | some result =>
      exact .inl (lt_of_le_of_lt (within _ _) (Reader.total_readmore reads))

/-- After the status code no more bytes are to come. -/
theorem size_statusCode (code : Int) (eol datsz : Nat) (r : Reader)
    : (statusCode code eol datsz r).size.1 ≤ r.total := by
  unfold statusCode
  split
  · exact le_refl _
  split
  · split
    · exact Nat.zero_le _
    · exact Nat.zero_le _
  · exact le_refl _

/-- After the status line no more bytes are to come. -/
theorem size_statusLine (r : Reader) (datsz : Nat) : (statusLine r datsz).size.1 ≤ r.total := by
  unfold statusLine
  split
  · exact Nat.zero_le _
  split
  · exact Nat.zero_le _
  split
  · split
    · exact le_refl _
    · exact Nat.zero_le _
  unfold statusRest
  split
  · exact Nat.zero_le _
  · exact size_statusCode ..

/-- The comparison moves the search on by one place, or ends the search. -/
theorem searchMatch_cases (i : Nat) (r : Reader) (datsz : Nat)
    : searchMatch i r datsz = .search r (i + 1) datsz
      ∨ (searchMatch i r datsz).Falls r.total 2 := by
  unfold searchMatch
  split
  · exact .inr (falls_undefined Nat.two_pos)
  · exact .inl rfl
  right
  split
  · exact falls_undefined Nat.two_pos
  split
  · exact falls_undefined Nat.two_pos
  dsimp only
  split
  · exact falls_more Nat.two_pos fun r' datsz' => le_refl _
  · exact .inr ⟨le_refl _, Nat.one_lt_two⟩

/-- A match of the search falls. -/
theorem falls_searchMatch {r : Reader} {i datsz : Nat} (inside : i < r.bufsz)
    : (searchMatch i r datsz).Falls r.total (r.bufsz - i + 2) := by
  rcases searchMatch_cases i r datsz with next | falls
  · rw [next]
    exact .inr ⟨le_refl _, by simp only [Stage.size]; omega⟩
  · exact falls.mono (by omega)

/-- After a match no more bytes are to come. -/
theorem size_searchMatch (i : Nat) (r : Reader) (datsz : Nat)
    : (searchMatch i r datsz).size.1 ≤ r.total := by
  rcases searchMatch_cases i r datsz with next | falls
  · rw [next]
    rfl
  · exact falls.le

/-- A round of the search falls. -/
theorem falls_searchRound (r : Reader) (i datsz : Nat)
    : (searchRound r i datsz).Falls r.total (r.bufsz - i + 2) := by
  unfold searchRound
  cases skips : r.skip (fun j b => b ≠ ascii 'C' ∧ b ≠ ascii 'c' ∧ j < datsz) i with
  | none => exact falls_undefined (by omega)
  | some j =>
      have range := Reader.skip_range skips
      dsimp only
      split
      · exact falls_more (by omega) (size_searchMatch j)
      · exact (falls_searchMatch range.2).mono (by omega)

/-- After the response nothing is to come. -/
theorem size_ippHeader (jobid : Int) (i : Nat) (r : Reader)
    : (ippHeader jobid i r).size = (0, 0) := by
  unfold ippHeader
  split
  · rfl
  · rfl

/-- The response falls. -/
theorem falls_ippResponse (jobid : Int) (i : Nat) (len : Int) (r : Reader) (datsz : Nat)
    : (ippResponse jobid i len r datsz).Falls r.total 1 := by
  unfold ippResponse
  split
  · exact falls_more Nat.zero_lt_one fun r' _ => by simp [size_ippHeader]
  · exact .inr (by simp [size_ippHeader])

/-- The search for the end of the header makes no progress: it stands before the end of the
data, and no comparison up to there succeeds.
-/
def Stuck : Stage → Prop
  | .blank r i datsz _ =>
      i < datsz ∧ ∀ j, i ≤ j → j + 2 < datsz → r.compare (· = ·) j blankLine = some false
  | _ => False

/-- No blank line is found. -/
theorem blankFrom_eq_none {r : Reader} {i datsz : Nat}
    : blankFrom r i datsz = none
      ↔ ∀ j, i ≤ j → j + 2 < datsz → r.compare (· = ·) j blankLine = some false := by
  simp only [blankFrom, List.find?_eq_none, List.mem_range'_1, decide_eq_true_eq, not_not]
  constructor
  · intro all j from_ below
    exact all j ⟨from_, by omega⟩
  · rintro all j ⟨from_, below⟩
    exact all j from_ (by omega)

/-- A round of the search for a blank line falls, unless it is stuck. -/
theorem falls_blankRound {jobid : Int} {r : Reader} {i datsz : Nat} {len : Int}
    (moves : ¬ Stuck (.blank r i datsz len))
    : (blankRound jobid r i datsz len).Falls r.total 1 := by
  unfold blankRound
  cases found : blankFrom r i datsz with
  | none =>
      have beyond : datsz ≤ i := by
        apply Classical.byContradiction
        intro before
        exact moves ⟨by omega, blankFrom_eq_none.mp found⟩
      dsimp only
      rw [if_pos (by omega)]
      exact falls_more Nat.zero_lt_one fun r' datsz' => le_refl _
  | some j =>
      dsimp only
      split
      · exact falls_undefined Nat.zero_lt_one
      split
      · refine falls_more Nat.zero_lt_one fun r' datsz' => ?_
        rcases falls_ippResponse jobid (j + 3) len r' datsz' with less | ⟨le, -⟩
        · exact less.le
        · exact le
      · exact falls_ippResponse jobid (j + 3) len r datsz

/-- The first read of a round. -/
theorem statusStep_outer (jobid : Int) (r : Reader)
    : statusStep jobid (.outer r)
      = some (if (r.tread 0).1 > 0 then statusLine (r.tread 0).2 (r.tread 0).1
          else .returned false) :=
  rfl

/-- A round of a search that is not stuck goes down. -/
theorem below_statusStep {jobid : Int} {s s' : Stage} (step : statusStep jobid s = some s')
    (moves : ¬ Stuck s)
    : s'.Below s := by
  cases s with
  | outer r =>
      rw [statusStep_outer] at step
      obtain rfl := Option.some.inj step
      have conserved := r.total_tread 0
      apply Stage.Falls.below (s := .outer r)
      by_cases some_ : (r.tread 0).1 > 0
      · have within := size_statusLine (r.tread 0).2 (r.tread 0).1
        have less : (statusLine (r.tread 0).2 (r.tread 0).1).size.1 < r.total := by omega
        rw [if_pos some_]
        exact .inl less
      · rw [if_neg some_]
        exact falls_returned _ Nat.zero_lt_one
  | search r i datsz =>
      cases step
      exact Stage.Falls.below (s := .search r i datsz) (falls_searchRound r i datsz)
  | blank r i datsz len =>
      cases step
      exact Stage.Falls.below (s := .blank r i datsz len) (falls_blankRound moves)
  | returned success => cases step
  | undefined => cases step

/-- A search that is stuck stays so. -/
theorem stuck_statusStep (jobid : Int) (s : Stage) (stuck : Stuck s)
    : ∃ s', statusStep jobid s = some s' ∧ Stuck s' := by
  match s, stuck with
  | .blank r i datsz len, ⟨before, fails⟩ =>
      have none_ : blankFrom r i datsz = none := blankFrom_eq_none.mpr fails
      have still : ¬ max i (datsz - 2) ≥ datsz := by omega
      refine ⟨.blank r (max i (datsz - 2)) datsz len, ?_, by omega, fun j from_ below => ?_⟩
      · simp only [statusStep, blankRound, none_, if_neg still]
      · exact fails j (by omega) below

-----------------------------------------------------------------------------------------
-- Whole calls
-----------------------------------------------------------------------------------------

/-- A run that is never stuck ends. -/
theorem statusStep_ends {jobid : Int} {start : Stage}
    (moves : ∀ s, Leads (statusStep jobid) start s → ¬ Stuck s)
    : ∃ s, Leads (statusStep jobid) start s ∧ statusStep jobid s = none :=
  exists_stop Stage.below_wellFounded fun s leads _ step => below_statusStep step (moves s leads)

/-- From a search that is stuck the run leads only to such searches. -/
theorem stuck_of_leads {jobid : Int} {s s' : Stage} (leads : Leads (statusStep jobid) s s')
    (stuck : Stuck s)
    : Stuck s' := by
  refine leads.invariant stuck fun a b step here => ?_
  obtain ⟨b', step', there⟩ := stuck_statusStep jobid a here
  rw [step] at step'
  cases step'
  exact there

/-- A run that gets stuck, or is undefined, does not return. -/
theorem Returns.sound {junk : Nat → Byte} {jobid : Int} {chunks : List (List Byte)} {success : Bool}
    (returns : Returns junk jobid chunks success) {s : Stage}
    (leads : Leads (statusStep jobid) (printerStatus junk chunks) s)
    : ¬ Stuck s ∧ s ≠ .undefined := by
  constructor
  · intro stuck
    exact stuck_of_leads (leads.to_stop returns rfl) stuck
  · rintro rfl
    cases leads.stop_unique returns rfl rfl

/-- For every content of the memory, every job and every sequence of pieces, `printer_status` runs
forever exactly if it comes to look for the end of the header before the end of the data, where
there is no blank line.
-/
theorem printerStatus_forever_iff (junk : Nat → Byte) (jobid : Int) (chunks : List (List Byte))
    : (∀ n, (orbit (statusStep jobid) n (printerStatus junk chunks)).isSome)
      ↔ ∃ s, Leads (statusStep jobid) (printerStatus junk chunks) s ∧ Stuck s := by
  constructor
  · intro forever
    apply Classical.byContradiction
    intro never
    obtain ⟨s, ⟨n, leads⟩, stop⟩ := statusStep_ends fun s leads stuck => never ⟨s, leads, stuck⟩
    have goes := isSome_of_orbit_succ leads (forever (n + 1))
    rw [stop] at goes
    cases goes
  · rintro ⟨s, ⟨m, leads⟩, stuck⟩ n
    apply orbit_isSome_of_le (Nat.le_add_left n m)
    rw [orbit_add, leads, Option.bind_some]
    exact orbit_isSome_of_invariant stuck (stuck_statusStep jobid) n

instance (s : Stage) : Decidable (Stuck s) :=
  match s with
  | .blank r i datsz _ =>
      decidable_of_iff (i < datsz ∧ blankFrom r i datsz = none)
        (and_congr_right fun _ => blankFrom_eq_none)
  | .outer _ | .search _ _ _ | .returned _ | .undefined => .isFalse id

/-- The HTTP header of an answer with eight bytes of IPP. -/
def httpHeader : List Byte := text "HTTP/1.1 200 OK\r\nContent-Length: 8\r\n\r\n"

/-- An IPP header that accepts job 7. -/
def ippAnswer : List Byte := [1, 1, 0, 0, 0, 0, 0, 7]

/-- An answer of which the last byte of the header comes late makes the printer thread run
forever.
-/
theorem printerStatus_does_not_return
    : ¬ ∀ (junk : Nat → Byte) (jobid : Int) (chunks : List (List Byte)),
        (∀ chunk ∈ chunks, chunk ≠ []) → ∃ success, Returns junk jobid chunks success := by
  intro always
  obtain ⟨success, returns⟩ := always (fun _ => 0) 7
    [httpHeader.take 37, httpHeader.drop 37 ++ ippAnswer] (by decide)
  have reached : ((orbit (statusStep 7) 2 (printerStatus (fun _ => 0)
      [httpHeader.take 37, httpHeader.drop 37 ++ ippAnswer])).any fun s => decide (Stuck s)) := by
    decide +kernel
  obtain ⟨s, leads, stuck⟩ := (Option.any_eq_true _ _).mp reached
  exact (returns.sound ⟨2, leads⟩).1 (of_decide_eq_true stuck)

-----------------------------------------------------------------------------------------
-- The pieces of an answer
-----------------------------------------------------------------------------------------

/-- The value of a run that has returned. -/
def Stage.success : Stage → Option Bool
  | .returned success => some success
  | _ => none

/-- A run of the stages that has returned. -/
theorem returns_of_orbit {junk : Nat → Byte} {jobid : Int} {chunks : List (List Byte)}
    {success : Bool} (n : Nat)
    (value : (orbit (statusStep jobid) n (printerStatus junk chunks)).bind Stage.success
      = some success)
    : Returns junk jobid chunks success := by
  obtain ⟨s, leads, here⟩ := Option.bind_eq_some_iff.mp value
  cases s with
  | returned b =>
      cases here
      exact ⟨n, leads⟩
  | outer r => cases here
  | search r i datsz => cases here
  | blank r i datsz len => cases here
  | undefined => cases here

/-- The result is determined. -/
theorem Returns.unique {junk : Nat → Byte} {jobid : Int} {chunks : List (List Byte)}
    {b c : Bool} (toB : Returns junk jobid chunks b) (toC : Returns junk jobid chunks c)
    : b = c := by
  cases toB.stop_unique toC rfl rfl
  rfl

/-- The values of `printer_status` on an answer do not depend on its pieces or on the memory. -/
def Determined (jobid : Int) (response : List Byte) : Prop :=
  ∃ success, ∀ (junk : Nat → Byte) (chunks : List (List Byte)),
    (∀ chunk ∈ chunks, chunk ≠ []) → chunks.flatten = response
    → Returns junk jobid chunks success

/-- A status code is looked for in all of a buffer of blanks. -/
theorem statusLine_blank {r : Reader} (datsz : Nat) (blank : ∀ j, 8 ≤ j → r.buf j = ascii ' ')
    : statusLine r datsz = .undefined := by
  have runs : r.skip (fun _ b => isSpace b) 8 = none := by
    rw [Reader.skip, List.find?_eq_none]
    intro j member
    rw [blank j (List.mem_range'_1.mp member).1]
    decide
  simp only [statusLine, runs]

/-- The first byte alone, in memory full of blanks, makes the run leave the buffer. -/
theorem leads_undefined (jobid : Int) (b : Byte) (rest : List (List Byte))
    : Leads (statusStep jobid) (printerStatus (fun _ => ascii ' ') ([b] :: rest)) .undefined := by
  have one : [b].take (IOBUFSZ - 0) = [b] := rfl
  refine ⟨1, ?_⟩
  rw [orbit, printerStatus, statusStep_outer]
  simp only [Reader.tread, List.headD_cons, one, List.length_singleton]
  rw [if_pos Nat.zero_lt_one, statusLine_blank]
  · rfl
  · intro j behind
    exact if_neg (by omega)

/-- For every job and every answer, `printer_status` returns one value, however the answer is
cut into pieces and whatever the memory holds, exactly if the answer is empty.
-/
theorem determined_iff_empty (jobid : Int) (response : List Byte)
    : Determined jobid response ↔ response = [] := by
  constructor
  · rintro ⟨success, returns⟩
    cases response with
    | nil => rfl
    | cons b rest =>
        have pieces : (([b] :: rest.map fun c => [c]) : List (List Byte)).flatten = b :: rest := by
          rw [List.flatten_cons, ← List.flatMap_def, List.flatMap_singleton']
          rfl
        have always := returns (fun _ => ascii ' ') _ (by simp) pieces
        exact absurd rfl (always.sound (leads_undefined jobid b _)).2
  · rintro rfl
    refine ⟨false, fun junk chunks nonempty flat => ?_⟩
    have none_ : chunks = [] := by
      cases chunks with
      | nil => rfl
      | cons chunk rest =>
          have empty : chunk = [] := (List.append_eq_nil_iff.mp flat).1
          exact absurd empty (nonempty chunk (by simp))
    subst none_
    exact ⟨1, rfl⟩

/-- An answer that comes whole is accepted; the same answer is not if its last four bytes come
later, in memory of zeros both times.
-/
theorem status_depends_on_pieces
    : ¬ ∀ (jobid : Int) (response : List Byte), Determined jobid response := by
  intro always
  obtain ⟨success, returns⟩ := always 7 (httpHeader ++ ippAnswer)
  have whole := returns (fun _ => 0) [httpHeader ++ ippAnswer] (by decide) (by decide)
  have parts := returns (fun _ => 0) [httpHeader ++ ippAnswer.take 4, ippAnswer.drop 4] (by decide)
    (by decide)
  have accepted : Returns (fun _ => 0) 7 [httpHeader ++ ippAnswer] true :=
    returns_of_orbit 3 (by decide +kernel)
  have refused : Returns (fun _ => 0) 7 [httpHeader ++ ippAnswer.take 4, ippAnswer.drop 4] false :=
    returns_of_orbit 3 (by decide +kernel)
  exact absurd ((accepted.unique whole).trans (parts.unique refused)) (by decide)

end Minions.Printer
