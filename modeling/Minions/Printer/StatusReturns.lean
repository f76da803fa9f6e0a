import Minions.Printer.Arrived

/-! When `printer_status` returns, whatever the memory holds.
A stage is considered for all buffers that agree with the received bytes. Each operation of the
parser has a rule that leads from such a stage to the next, or to a content of the memory with
which the run does not return.
-/

namespace Minions.Printer

open Minions.Data

variable {jobid : Int} {m : Arrived} {r : Reader} {i j datsz : Nat} {len : Int}
variable {same : Byte → Byte → Bool} {pattern : List Byte}

-----------------------------------------------------------------------------------------
-- Runs from every such reader
-----------------------------------------------------------------------------------------

/-- The run returns. -/
def Halts (jobid : Int) (s : Stage) : Prop :=
  ∃ success, Leads (statusStep jobid) s (.returned success)

/-- A stage halts exactly if the next one does. -/
theorem halts_step {s s' : Stage} (step : statusStep jobid s = some s')
    : Halts jobid s ↔ Halts jobid s' := by
  constructor
  · rintro ⟨success, leads⟩
    exact ⟨success, Leads.to_stop (Leads.step step (.refl _ _)) leads rfl⟩
  · rintro ⟨success, leads⟩
    exact ⟨success, leads.step step⟩

/-- A return halts. -/
theorem halts_returned (success : Bool) : Halts jobid (.returned success) :=
  ⟨success, .refl _ _⟩

/-- Undefined behaviour is no return. -/
theorem not_halts_undefined : ¬ Halts jobid .undefined := by
  rintro ⟨success, leads⟩
  cases leads.stop_unique (.refl _ _) rfl rfl

/-- A stage that is stuck does not halt. -/
theorem Stuck.not_halts {s : Stage} (stuck : Stuck s) : ¬ Halts jobid s := by
  rintro ⟨success, leads⟩
  exact stuck_of_leads leads stuck

/-- The run from the stage returns, whatever the memory holds behind the received bytes. -/
def Always (jobid : Int) (m : Arrived) (stage : Reader → Stage) : Prop :=
  ∀ r, m.Of r → Halts jobid (stage r)

variable {stage stage' : Reader → Stage}

/-- One buffer with undefined behaviour is enough. -/
theorem not_always (junk : Nat → Byte) (bad : stage (m.fill junk) = .undefined)
    : ¬ Always jobid m stage := by
  intro always
  have halts := always _ (of_fill m junk)
  rw [bad] at halts
  exact not_halts_undefined halts

/-- Stages that halt alike. -/
theorem always_congr (same : ∀ r, m.Of r → (Halts jobid (stage r) ↔ Halts jobid (stage' r)))
    : Always jobid m stage ↔ Always jobid m stage' :=
  forall₂_congr same

/-- Where all readers do the same. -/
theorem always_eq (same : ∀ r, m.Of r → stage r = stage' r)
    : Always jobid m stage ↔ Always jobid m stage' :=
  always_congr fun r of => by rw [same r of]

/-- A return halts in every buffer. -/
theorem always_returned (success : Bool) : Always jobid m fun _ => .returned success :=
  fun _ _ => halts_returned success

/-- Undefined behaviour halts in no buffer. -/
theorem always_undefined : ¬ Always jobid m fun _ => .undefined := not_always (fun _ => 0) rfl

/-- A null that is written inside the text. -/
theorem always_put {b : Byte} (inside : i < m.text.length)
    : Always jobid m (fun r => stage (r.put i b)) ↔ Always jobid (m.put i b) stage := by
  constructor
  · intro always r' of
    obtain ⟨r, before, rfl⟩ := of.unput inside
    exact always r before
  · intro always r of
    exact always _ (of.put b)

/-- A read, whatever the buffer held behind the text. -/
theorem always_tread (stage : Nat → Reader → Stage) {off : Nat} (inside : off ≤ m.text.length)
    : Always jobid m (fun r => stage (r.tread off).1 (r.tread off).2)
      ↔ Always jobid (m.tread off).2 (stage (m.tread off).1) := by
  constructor
  · intro always r' of
    obtain ⟨r, of, treads⟩ := of.untread inside
    have halts := always r of
    dsimp only at halts
    rwa [treads] at halts
  · intro always r of
    obtain ⟨nr, of'⟩ := of.tread inside
    dsimp only
    rw [nr]
    exact always _ of'

/-- A buffer that grows. -/
theorem always_grow (stage : Reader → Stage) {off : Nat}
    : Always jobid m (fun r =>
        stage (if off ≥ r.bufsz then { r with bufsz := r.bufsz + IOBUFSZ } else r))
      ↔ Always jobid (m.grow off) stage := by
  unfold Arrived.grow
  by_cases full : off ≥ m.bufsz
  · rw [if_pos full]
    constructor
    · intro always r of
      have halts := always { r with bufsz := m.bufsz } ⟨of.bytes, rfl, of.chunks⟩
      dsimp only at halts
      rw [if_pos full] at halts
      have same : r = { r with bufsz := m.bufsz + IOBUFSZ } := by
        rw [← show r.bufsz = m.bufsz + IOBUFSZ from of.bufsz]
      rw [same]
      exact halts
    · intro always r of
      dsimp only
      rw [if_pos (by rw [of.bufsz]; exact full)]
      exact always _ ⟨of.bytes, by rw [of.bufsz], of.chunks⟩
  · rw [if_neg full]
    refine always_eq fun r of => ?_
    rw [if_neg (by rw [of.bufsz]; exact full)]

/-- What follows a read of `nr` bytes to the place `i`. -/
def afterReading (i datsz : Nat) (next : Reader → Nat → Stage) (nr : Nat) (r : Reader) : Stage :=
  if nr > 0 then next r (datsz + (i + nr)) else .returned false

def readAt (i datsz : Nat) (next : Reader → Nat → Stage) (r : Reader) : Stage :=
  afterReading i datsz next (r.tread i).1 (r.tread i).2

/-- `readmore` enlarges the buffer where it has to. -/
theorem more_eq (r : Reader) (i datsz : Nat) (next : Reader → Nat → Stage)
    : more r i datsz next
      = readAt i datsz next
        (if i ≥ r.bufsz then { r with bufsz := r.bufsz + IOBUFSZ } else r) := by
  unfold more Reader.readmore readAt afterReading
  generalize (if i ≥ r.bufsz then { r with bufsz := r.bufsz + IOBUFSZ } else r) = grown
  by_cases some_ : (grown.tread i).1 > 0 <;> simp [some_]

/-- `readmore` and what follows. -/
theorem always_more {next : Reader → Nat → Stage} (inside : i ≤ m.text.length)
    : Always jobid m (fun r => more r i datsz next)
      ↔ m.More i datsz fun m' datsz' => Always jobid m' (next · datsz') := by
  have text : (m.grow i).text = m.text := by
    unfold Arrived.grow
    split <;> rfl
  calc Always jobid m (fun r => more r i datsz next)
    _ ↔ Always jobid (m.grow i) (readAt i datsz next) :=
      (always_eq fun r _ => more_eq r i datsz next).trans (always_grow _)
    _ ↔ Always jobid ((m.grow i).tread i).2 (afterReading i datsz next ((m.grow i).tread i).1) :=
      always_tread (afterReading i datsz next) (by rw [text]; exact inside)
    _ ↔ m.More i datsz fun m' datsz' => Always jobid m' (next · datsz') := by
      unfold Arrived.More afterReading
      by_cases some_ : ((m.grow i).tread i).1 > 0
      · simp only [some_, if_true, forall_const]
      · simp only [some_, if_false, false_implies, iff_true]
        exact always_returned false

-----------------------------------------------------------------------------------------
-- The last steps
-----------------------------------------------------------------------------------------

/-- The header of the response lies inside the buffer. -/
theorem always_ippHeader : Always jobid m (ippHeader jobid i) ↔ i + 8 ≤ m.bufsz := by
  by_cases room : i + 8 ≤ m.bufsz
  · refine iff_of_true (fun r of => ?_) room
    rw [ippHeader, if_neg (by rw [of.bufsz]; omega)]
    exact halts_returned _
  · refine iff_of_false (not_always (fun _ => 0) ?_) room
    rw [ippHeader, if_pos (by rw [(of_fill m _).bufsz]; omega)]

/-- The response halts as the condition says. -/
theorem always_ippResponse (inside : i ≤ m.text.length)
    : Always jobid m (fun r => ippResponse jobid i len r datsz)
      ↔ Arrived.Response i len m datsz := by
  unfold ippResponse Arrived.Response
  split
  · simp only [always_more inside, always_ippHeader]
  · exact always_ippHeader

/-- What is read comes behind the place `i`, and the end of the data is counted behind it. -/
theorem more_congr {next next' : Arrived → Nat → Prop} (inside : i ≤ m.text.length)
    (same : ∀ m' datsz', i ≤ m'.text.length → i < datsz' → (next m' datsz' ↔ next' m' datsz'))
    : m.More i datsz next ↔ m.More i datsz next' := by
  refine forall_congr' fun some_ => same _ _ ?_ (by omega)
  have text : (m.grow i).text = m.text := by
    unfold Arrived.grow
    split <;> rfl
  simp only [text, List.length_append, List.length_take, List.length_drop]
  omega

/-- A text that matches is as long as the pattern. -/
theorem compareText_length {text : List Byte} (whole : compareText same text pattern = some true)
    : pattern.length ≤ text.length := by
  induction pattern generalizing text with
  | nil => exact Nat.zero_le _
  | cons c cs ih =>
      cases text with
      | nil => cases whole
      | cons b bs =>
          rw [compareText] at whole
          split at whole
          · exact Nat.succ_le_succ (ih whole)
          · cases whole

/-- A text that ends before the comparison is clear is the beginning of the pattern. -/
theorem compareText_none {text : List Byte} (open_ : compareText same text pattern = none)
    : text.length < pattern.length
      ∧ ∀ k < text.length, same (text.getD k 0) (pattern.getD k 0) := by
  induction pattern generalizing text with
  | nil => simp [compareText] at open_
  | cons c cs ih =>
      cases text with
      | nil => exact ⟨Nat.succ_pos _, fun k below => absurd below (Nat.not_lt_zero k)⟩
      | cons b bs =>
          rw [compareText] at open_
          split at open_
          · next first =>
              obtain ⟨short, rest⟩ := ih open_
              refine ⟨Nat.succ_lt_succ short, ?_⟩
              intro k below
              cases k with
              | zero => exact first
              | succ k => exact rest k (Nat.lt_of_succ_lt_succ below)
          · cases open_

/-- In zeros no pattern without a zero goes on. -/
theorem compare_fill_true (zero : ∀ c ∈ pattern, same 0 c = false)
    (whole : (m.fill fun _ => 0).compare same i pattern = some true)
    : m.compare same i pattern = some true := by
  unfold Arrived.compare
  induction pattern generalizing i with
  | nil => simp [compareText]
  | cons c cs ih =>
      rw [Reader.compare] at whole
      split at whole
      · cases whole
      split at whole
      · next first =>
          by_cases known : i < m.text.length
          · rw [(of_fill m _).bytes i known, List.getD_eq_getElem _ _ known] at first
            rw [List.drop_eq_getElem_cons known, compareText, if_pos first]
            exact ih (fun c' member => zero c' (List.mem_cons_of_mem _ member)) whole
          · rw [fill_behind _ (by omega), zero c List.mem_cons_self] at first
            cases first
      · cases whole

/-- Where the end of the header has been received, every buffer finds it. -/
theorem blankFrom_of (of : m.Of r) (found : m.blankFrom i datsz = some j)
    : blankFrom r i datsz = some j ∧ r.compare (· = ·) j blankLine = some true
      ∧ j + 3 ≤ m.text.length := by
  simp only [Arrived.blankFrom, List.find?_range'_eq_some, decide_eq_true_eq,
    Bool.not_eq_true', decide_eq_false_iff_not] at found
  obtain ⟨here, range, first⟩ := found
  have whole := compareText_length here
  rw [List.length_drop, show blankLine.length = 3 from rfl] at whole
  refine ⟨?_, of.compare here, by omega⟩
  simp only [blankFrom, List.find?_range'_eq_some]
  refine ⟨by simp [of.compare here], range, ?_⟩
  intro k lower upper
  have decided : m.compare (· = ·) k blankLine = some false := by
    cases answer : m.compare (· = ·) k blankLine with
    | none =>
        have short := (compareText_none answer).1
        rw [List.length_drop, show blankLine.length = 3 from rfl] at short
        omega
    | some b =>
        cases b with
        | true => exact absurd answer (first k lower upper)
        | false => rfl
  simp [of.compare decided]

/-- Where it has not, the search may get stuck or leave the buffer. -/
theorem not_halts_blank (before : i < datsz) (absent : m.blankFrom i datsz = none)
    : ¬ Halts jobid (.blank (m.fill fun _ => 0) i datsz len) := by
  simp only [Arrived.blankFrom, List.find?_range'_eq_none, Bool.not_eq_true',
    decide_eq_false_iff_not] at absent
  cases found : blankFrom (m.fill fun _ => 0) i datsz with
  | none => exact Stuck.not_halts ⟨before, blankFrom_eq_none.mp found⟩
  | some j =>
      obtain ⟨here, range, -⟩ := List.find?_range'_eq_some.mp found
      rw [List.mem_range'_1] at range
      rw [decide_eq_true_eq] at here
      have undecided : (m.fill fun _ => 0).compare (· = ·) j blankLine = none := by
        cases answer : (m.fill fun _ => 0).compare (· = ·) j blankLine with
        | none => rfl
        | some b =>
            cases b with
            | true =>
                have zero : ∀ c ∈ blankLine, decide ((0 : Byte) = c) = false := by simp [blankLine]
                exact absurd (compare_fill_true zero answer) (absent j range.1 range.2)
            | false => exact absurd answer here
      rw [halts_step (s := .blank _ i datsz len) rfl, blankRound, found]
      simp only [undecided, if_true]
      exact not_halts_undefined

/-- The search for the end of the header, which stands before the end of the data. -/
theorem always_blank (before : i < datsz)
    : Always jobid m (fun r => .blank r i datsz len) ↔ Arrived.Ends i len m datsz := by
  unfold Arrived.Ends
  cases found : m.blankFrom i datsz with
  | none =>
      refine iff_of_false ?_ (by simp)
      intro always
      exact not_halts_blank before found (always _ (of_fill m _))
  | some j =>
      simp only [Option.some.injEq, exists_eq_left']
      have round : ∀ r, m.Of r → (Halts jobid (.blank r i datsz len)
          ↔ Halts jobid (if j + 3 ≥ datsz then more r (j + 3) datsz (ippResponse jobid (j + 3) len)
            else ippResponse jobid (j + 3) len r datsz)) := by
        intro r of
        obtain ⟨first, whole, -⟩ := blankFrom_of of found
        rw [halts_step (s := .blank r i datsz len) rfl, blankRound, first]
        simp only [whole, reduceCtorEq, if_false]
      have inside := (blankFrom_of (of_fill m fun _ => 0) found).2.2
      rw [always_congr round]
      split
      · rw [always_more inside]
        exact more_congr inside fun m' datsz' known _ => always_ippResponse known
      · exact always_ippResponse inside

-----------------------------------------------------------------------------------------
-- The content length
-----------------------------------------------------------------------------------------

/-- What follows blanks and digits. -/
def afterNumber (i : Nat) (next : Nat → Nat → Reader → Stage) (r : Reader) : Stage :=
  match r.skip (fun _ b => isSpace b) i with
  | none => .undefined
  | some j =>
      match r.skip (fun _ b => isDigit b) j with
      | none => .undefined
      | some k => next j k r

/-- Where the blanks or the digits go on to the end of what has been received, they may go on to
the end of the buffer.
-/
theorem always_afterNumber {next : Nat → Nat → Reader → Stage}
    : Always jobid m (afterNumber i next)
      ↔ ∃ j k, m.Number i j k ∧ Always jobid m (next j k) := by
  unfold afterNumber Arrived.Number
  cases blanks : m.skip isSpace i with
  | none =>
      refine iff_of_false (not_always (fun _ => ascii ' ') ?_) (by simp)
      rw [skip_fill_none (by decide) blanks]
  | some j =>
      simp only [Option.some.injEq, and_assoc, exists_and_left, exists_eq_left']
      cases digits : m.skip isDigit j with
      | none =>
          refine iff_of_false (not_always (fun _ => ascii '0') ?_) (by simp)
          rw [(of_fill m _).skip blanks]
          dsimp only
          rw [skip_fill_none (by decide) digits]
      | some k =>
          simp only [Option.some.injEq, exists_eq_left']
          refine always_eq fun r of => ?_
          rw [of.skip blanks]
          dsimp only
          rw [of.skip digits]

/-- What follows the content length, which is the text up to `cp`. -/
def afterLength (len : Int) (cp datsz : Nat) (r : Reader) : Stage :=
  if cp + 1 ≥ datsz then
    more r (cp + 1) datsz fun r' datsz' => .blank r' (cp + 1) datsz' len
  else .blank r (cp + 1) datsz len

/-- The header has been found. -/
theorem searchMatch_true
    (here : r.compare (fun b c => toLower b = toLower c) i contentLength = some true)
    : searchMatch i r datsz
      = afterNumber (i + contentLength.length)
        (fun j k r => afterLength (atoi (r.text j k)) k datsz (r.put k 0)) r := by
  rw [searchMatch, here]
  rfl

/-- The search for the end of the header, perhaps after a read. -/
theorem always_afterLength {cp : Nat} (inside : cp < m.text.length)
    : Always jobid m (afterLength len cp datsz)
      ↔ if cp + 1 ≥ datsz then m.More (cp + 1) datsz (Arrived.Ends (cp + 1) len)
        else Arrived.Ends (cp + 1) len m datsz := by
  unfold afterLength
  split
  · rw [always_more inside]
    exact more_congr inside fun m' datsz' _ before => always_blank before
  · exact always_blank (by omega)

/-- Where the content length has been received. -/
theorem always_searchMatch
    (here : m.compare (fun b c => toLower b = toLower c) i contentLength = some true)
    : Always jobid m (fun r => searchMatch i r datsz) ↔ m.Header i datsz := by
  rw [always_eq fun r of => searchMatch_true (of.compare here), always_afterNumber]
  unfold Arrived.Header
  refine exists_congr fun contentlen => exists_congr fun cp => and_congr_right fun number => ?_
  have inside := (Arrived.skip_range number.2).2
  have length : (m.put cp 0).text.length = m.text.length := List.length_set
  rw [always_eq fun r of => by rw [of.text inside.le], always_put inside,
    always_afterLength (by omega)]

-----------------------------------------------------------------------------------------
-- The search for the content length
-----------------------------------------------------------------------------------------

/-- The letter c in either case. -/
theorem toLower_c {b : Byte} (same : toLower b = toLower (ascii 'C'))
    : b = ascii 'C' ∨ b = ascii 'c' := by
  simp only [toLower, ascii] at same ⊢
  split at same
  · left
    grind
  · right
    grind

/-- Before the end of the data the search compares at each place. -/
theorem halts_search_at (before : i < datsz) (inside : i < r.bufsz)
    : Halts jobid (.search r i datsz) ↔ Halts jobid (searchMatch i r datsz) := by
  rw [halts_step (s := .search r i datsz) rfl]
  have size : r.bufsz - i = r.bufsz - (i + 1) + 1 := by omega
  by_cases letter : r.buf i ≠ ascii 'C' ∧ r.buf i ≠ ascii 'c'
  · have next : searchRound r i datsz = searchRound r (i + 1) datsz := by
      unfold searchRound Reader.skip
      rw [size, List.range'_succ, List.find?_cons_of_neg (by simp [letter, before])]
    have other : r.compare (fun b c => toLower b = toLower c) i contentLength = some false := by
      have first : contentLength = ascii 'C' :: contentLength.tail := by decide
      rw [first, Reader.compare, if_neg (by omega), if_neg]
      intro same
      rcases toLower_c (of_decide_eq_true same) with upper | lower
      · exact letter.1 upper
      · exact letter.2 lower
    rw [next, searchMatch, other, ← halts_step (s := .search r (i + 1) datsz) rfl]
  · have here : r.skip (fun j b => b ≠ ascii 'C' ∧ b ≠ ascii 'c' ∧ j < datsz) i = some i := by
      unfold Reader.skip
      rw [size, List.range'_succ,
        List.find?_cons_of_pos (by simpa [before, or_iff_not_imp_left] using letter)]
    rw [searchRound, here]
    simp only [if_neg (by omega : ¬ i ≥ datsz)]

/-- Over places where the comparison fails the search goes on, by induction on their number. -/
theorem halts_search_skip {n : Nat} (before : i + n ≤ datsz) (inside : i + n ≤ r.bufsz)
    (fails : ∀ k, i ≤ k → k < i + n
      → r.compare (fun b c => toLower b = toLower c) k contentLength = some false)
    : Halts jobid (.search r i datsz) ↔ Halts jobid (.search r (i + n) datsz) := by
  induction n generalizing i with
  | zero => rfl
  | succ n ih =>
      have next : searchMatch i r datsz = .search r (i + 1) datsz := by
        rw [searchMatch, fails i (le_refl i) (by omega)]
      rw [halts_search_at (by omega) (by omega), next, ih (by omega) (by omega), Nat.add_right_comm,
        Nat.add_assoc]
      intro k lower upper
      exact fails k (by omega) (by omega)

/-- A search behind the buffer does not halt. -/
theorem not_halts_search (outside : r.bufsz ≤ i) : ¬ Halts jobid (.search r i datsz) := by
  have none_ : r.skip (fun j b => b ≠ ascii 'C' ∧ b ≠ ascii 'c' ∧ j < datsz) i = none := by
    unfold Reader.skip
    rw [show r.bufsz - i = 0 by omega]
    rfl
  rw [halts_step (s := .search r i datsz) rfl, searchRound, none_]
  exact not_halts_undefined

/-- At the end of the data the search reads more. -/
theorem halts_search_end (behind : datsz ≤ i) (inside : i < r.bufsz)
    : Halts jobid (.search r i datsz) ↔ Halts jobid (more r i datsz (searchMatch i)) := by
  have size : r.bufsz - i = r.bufsz - (i + 1) + 1 := by omega
  have here : r.skip (fun j b => b ≠ ascii 'C' ∧ b ≠ ascii 'c' ∧ j < datsz) i = some i := by
    unfold Reader.skip
    rw [size, List.range'_succ, List.find?_cons_of_pos (by simp [behind])]
  rw [halts_step (s := .search r i datsz) rfl, searchRound, here]
  simp only [if_pos behind]

/-- A comparison fails at a byte that has been read and differs. -/
theorem compare_ne_false {r : Reader} (agrees : ∀ k < pattern.length,
      same (r.buf (i + k)) (pattern.getD k 0))
    : r.compare same i pattern ≠ some false := by
  induction pattern generalizing i with
  | nil => simp [Reader.compare]
  | cons c cs ih =>
      rw [Reader.compare]
      split
      · simp
      · have first : same (r.buf i) c := agrees 0 (Nat.succ_pos _)
        rw [if_pos first]
        apply ih
        intro k below
        have next := agrees (k + 1) (Nat.succ_lt_succ below)
        rw [show i + 1 + k = i + (k + 1) by omega]
        exact next

/-- Where the beginning of the content length is at the end of what has been received, the memory
may hold the rest of it, and blanks.
-/
theorem not_always_searchMatch
    (open_ : m.compare (fun b c => toLower b = toLower c) i contentLength = none)
    (inside : i ≤ m.text.length)
    : ¬ Always jobid m (fun r => searchMatch i r datsz) := by
  obtain ⟨short, agrees⟩ := compareText_none open_
  rw [List.length_drop] at short agrees
  let junk := fun j =>
    if j < i + contentLength.length then contentLength.getD (j - i) 0 else ascii ' '
  apply not_always junk
  have goes : (m.fill junk).compare (fun b c => toLower b = toLower c) i contentLength
      ≠ some false := by
    apply compare_ne_false
    intro k below
    by_cases known : i + k < m.text.length
    · have same := agrees k (by omega)
      rw [(of_fill m junk).bytes _ known]
      simpa [List.getD_eq_getElem?_getD, List.getElem?_drop] using same
    · rw [fill_behind _ (by omega)]
      simp [junk, below]
  cases answer : (m.fill junk).compare (fun b c => toLower b = toLower c) i contentLength with
  | none => rw [searchMatch, answer]
  | some b =>
      cases b with
      | false => exact absurd answer goes
      | true =>
          have blanks : (m.fill junk).skip (fun _ b => isSpace b) (i + contentLength.length)
              = none := by
            simp only [Reader.skip, List.find?_range'_eq_none]
            intro k lower upper
            rw [fill_behind _ (by omega)]
            have behind : ¬ k < i + contentLength.length := by omega
            simp only [junk, if_neg behind]
            decide
          rw [searchMatch_true answer, afterNumber, blanks]

/-- How many bytes are to come. -/
def Arrived.total (m : Arrived) : Nat := (m.fill fun _ => 0).total

/-- A read takes its bytes from those that are left. -/
theorem Arrived.total_tread (m : Arrived) {off : Nat} (inside : off ≤ m.text.length)
    : (m.tread off).2.total + (m.tread off).1 = m.total := by
  obtain ⟨nr, of⟩ := (of_fill m fun _ => 0).tread inside
  have total := (m.fill fun _ => 0).total_tread off
  have chunks := of.chunks
  simp only [Reader.total, nr, chunks] at total
  simpa [Arrived.total, Reader.total, Arrived.fill] using total

/-- A comparison that has failed has looked at a received byte. -/
theorem lt_of_compare_false (fails : m.compare same i pattern = some false)
    : i < m.text.length := by
  apply Classical.byContradiction
  intro outside
  unfold Arrived.compare at fails
  rw [List.drop_eq_nil_of_le (by omega)] at fails
  cases pattern <;> simp [compareText] at fails

/-- Over received places where the comparison fails the search goes on. -/
theorem always_search_skip (jobid : Int) (before : i ≤ j) (data : j ≤ datsz ∨ j = i)
    (inside : i ≤ m.text.length)
    (fails : ∀ k, i ≤ k → k < j
      → m.compare (fun b c => toLower b = toLower c) k contentLength = some false)
    : j ≤ m.text.length
      ∧ (Always jobid m (fun r => .search r i datsz)
        ↔ Always jobid m (fun r => .search r j datsz)) := by
  have known : j ≤ m.text.length := by
    by_cases some_ : i < j
    · have := lt_of_compare_false (fails (j - 1) (by omega) (by omega))
      omega
    · omega
  refine ⟨known, ?_⟩
  rcases data with below | rfl
  · obtain ⟨n, rfl⟩ := Nat.exists_eq_add_of_le before
    have fits := m.fits
    refine always_congr fun r of => halts_search_skip below (by rw [of.bufsz]; omega) ?_
    intro k lower upper
    exact of.compare (fails k lower upper)
  · rfl

/-- Where a comparison does not fail, it is the content length that has been found. -/
theorem Arrived.searched_found (first : m.lengthFrom i datsz = some j)
    : m.Searched i datsz
      ↔ m.compare (fun b c => toLower b = toLower c) j contentLength = some true
        ∧ m.Header j datsz := by
  constructor
  · intro searched
    cases searched with
    | found first' here header =>
        cases first.symm.trans first'
        exact ⟨here, header⟩
    | more none_ _ _ => cases first.symm.trans none_
  · rintro ⟨here, header⟩
    exact .found first here header

/-- Where every comparison fails, the search goes on in the next piece. -/
theorem Arrived.searched_more (none_ : m.lengthFrom i datsz = none)
    : m.Searched i datsz
      ↔ max i datsz < m.bufsz
        ∧ ((m.tread (max i datsz)).1 > 0 →
          (m.tread (max i datsz)).2.Searched (max i datsz)
            (datsz + (max i datsz + (m.tread (max i datsz)).1))) := by
  constructor
  · intro searched
    cases searched with
    | found first _ _ => cases none_.symm.trans first
    | more _ inside later => exact ⟨inside, later⟩
  · rintro ⟨inside, later⟩
    exact .more none_ inside later

/-- Behind the buffer the search does not go on. -/
theorem not_always_search (outside : ¬ i < m.bufsz)
    : ¬ Always jobid m (fun r => .search r i datsz) := by
  intro always
  exact not_halts_search (by rw [(of_fill m _).bufsz]; omega) (always _ (of_fill m fun _ => 0))

/-- The search up to the first place where the comparison does not fail. -/
theorem always_search_found (first : m.lengthFrom i datsz = some j) (inside : i ≤ m.text.length)
    : Always jobid m (fun r => .search r i datsz) ↔ m.Searched i datsz := by
  have fits := m.fits
  obtain ⟨here, range, earlier⟩ := List.find?_range'_eq_some.mp first
  rw [List.mem_range'_1] at range
  obtain ⟨known, skips⟩ := always_search_skip jobid range.1 (.inl (by omega : j ≤ datsz)) inside
    fun k lower upper => by simpa using earlier k lower upper
  rw [skips, Arrived.searched_found first]
  cases answer : m.compare (fun b c => toLower b = toLower c) j contentLength with
  | none =>
      refine iff_of_false ?_ (by simp)
      by_cases room : j < m.bufsz
      · rw [always_congr fun r of => halts_search_at (by omega) (by rw [of.bufsz]; exact room)]
        exact not_always_searchMatch answer known
      · exact not_always_search room
  | some b =>
      cases b with
      | false => simp [answer] at here
      | true =>
          have whole := compareText_length answer
          rw [List.length_drop, show contentLength.length = 15 from rfl] at whole
          rw [always_congr fun r of => halts_search_at (by omega) (by rw [of.bufsz]; omega),
            always_searchMatch answer]
          simp

/-- The search for the content length, by induction on the bytes to come. -/
theorem always_search {n : Nat} (few : m.total ≤ n) (inside : i ≤ m.text.length)
    : Always jobid m (fun r => .search r i datsz) ↔ m.Searched i datsz := by
  induction n using Nat.strong_induction_on generalizing m i datsz with
  | h n ih =>
  have fits := m.fits
  cases first : m.lengthFrom i datsz with
  | some j => exact always_search_found first inside
  | none =>
      have fails := List.find?_range'_eq_none.mp first
      obtain ⟨known, skips⟩ := always_search_skip jobid (le_max_left i datsz)
        (by omega : max i datsz ≤ datsz ∨ max i datsz = i) inside fun k lower upper => by
          simpa using fails k lower (by omega)
      rw [skips, Arrived.searched_more first]
      by_cases room : max i datsz < m.bufsz
      case neg => exact iff_of_false (not_always_search room) fun more => room more.1
      have same : m.grow (max i datsz) = m := if_neg (by omega)
      have later : (m.tread (max i datsz)).1 > 0 → (Always jobid (m.tread (max i datsz)).2
          (fun r => searchMatch (max i datsz) r (datsz + (max i datsz + (m.tread (max i datsz)).1)))
          ↔ (m.tread (max i datsz)).2.Searched (max i datsz)
            (datsz + (max i datsz + (m.tread (max i datsz)).1))) := by
        intro some_
        have total := m.total_tread known
        rw [← ih (m.tread (max i datsz)).2.total (by omega) (le_refl _) (by
          simp only [Arrived.tread, List.length_append, List.length_take, List.length_drop]
          omega)]
        refine always_congr fun r of => (halts_search_at (by omega) ?_).symm
        rw [of.bufsz]
        exact room
      rw [always_congr fun r of => halts_search_end (le_max_right i datsz)
        (by rw [of.bufsz]; exact room), always_more known, Arrived.More, same,
        and_iff_right room]
      exact imp_congr_right later

-----------------------------------------------------------------------------------------
-- The status line
-----------------------------------------------------------------------------------------

/-- A line without a code is logged, if it is a string that has been received. -/
theorem always_logs
    : Always jobid m (fun r => if r.logs then .outer r else .undefined)
      ↔ m.Logs ∧ Always jobid m .outer := by
  unfold Arrived.Logs
  cases string : m.skip (· ≠ 0) 0 with
  | none =>
      refine iff_of_false (not_always (fun _ => 1) ?_) (by simp)
      have logs : (m.fill fun _ => 1).logs = false := by
        rw [Reader.logs, skip_fill_none (by decide) string]
      simp only [logs, Bool.false_eq_true, if_false]
  | some nul =>
      have inside := (Arrived.skip_range string).2
      have logs : ∀ r, m.Of r → r.logs = literal (m.slice 0 nul) := by
        intro r of
        rw [Reader.logs, of.skip string]
        dsimp only
        rw [of.text inside.le]
      simp only [Option.some.injEq, exists_eq_left']
      by_cases safe : literal (m.slice 0 nul)
      · rw [always_eq fun r of => by rw [logs r of, if_pos safe]]
        exact (and_iff_right safe).symm
      · rw [always_eq fun r of => by rw [logs r of, if_neg safe]]
        exact iff_of_false always_undefined fun both => safe both.1

/-- Where the status line ends. -/
theorem always_statusCode {code : Int} {eol : Nat} (inside : eol ≤ m.text.length)
    : Always jobid m (statusCode code eol datsz)
      ↔ (HTTP_INFO code ∧ Always jobid m .outer)
        ∨ (¬ HTTP_INFO code ∧ ¬ HTTP_SUCCESS code ∧ datsz < m.bufsz)
        ∨ (¬ HTTP_INFO code ∧ HTTP_SUCCESS code ∧ m.Searched eol datsz) := by
  unfold statusCode
  by_cases info : HTTP_INFO code
  · simp [info]
  by_cases success : HTTP_SUCCESS code
  · simp only [info, success, not_true, if_false, false_and, not_false_eq_true, true_and, false_or]
    exact always_search (le_refl _) inside
  simp only [info, success, not_false_eq_true, if_true, if_false, true_and, false_and, false_or,
    or_false]
  by_cases room : datsz < m.bufsz
  · rw [always_eq fun r of => by rw [if_pos (by rw [of.bufsz]; exact room)]]
    exact iff_of_true (always_returned false) room
  · rw [always_eq fun r of => by rw [if_neg (by rw [of.bufsz]; exact room)]]
    exact iff_of_false always_undefined room

/-- The rest of a status line. -/
theorem always_statusRest {statcode cp : Nat}
    : Always jobid m (statusRest statcode cp datsz)
      ↔ ∃ eol, m.skip (fun b => b ≠ 13 ∧ b ≠ 10) (cp + 1) = some eol
        ∧ Always jobid (m.put eol 0)
          (statusCode (atoi ((m.put eol 0).slice statcode cp)) eol datsz) := by
  unfold statusRest
  cases line : m.skip (fun b => b ≠ 13 ∧ b ≠ 10) (cp + 1) with
  | none =>
      refine iff_of_false (not_always (fun _ => 0) ?_) (by simp)
      rw [skip_fill_none (by decide) line]
  | some eol =>
      obtain ⟨behind, inside⟩ := Arrived.skip_range line
      have length : (m.put eol 0).text.length = m.text.length := List.length_set
      simp only [Option.some.injEq, exists_eq_left']
      rw [← always_put inside]
      refine always_eq fun r of => ?_
      rw [of.skip line]
      dsimp only
      rw [(of.put 0).text (by omega)]

/-- A line with a code. -/
theorem always_code {statcode cp : Nat} (number : m.Number 8 statcode cp)
    : Always jobid m (fun r => statusRest statcode cp datsz (r.put cp 0))
      ↔ ∃ eol, (m.put cp 0).skip (fun b => b ≠ 13 ∧ b ≠ 10) (cp + 1) = some eol
        ∧ Always jobid (m.behind cp eol)
          (statusCode (atoi ((m.behind cp eol).slice statcode cp)) eol datsz) := by
  rw [always_put (Arrived.skip_range number.2).2, always_statusRest]
  rfl

/-- The end of the status line is inside the text. -/
theorem Arrived.Code.inside {statcode cp eol : Nat} (code : m.Code statcode cp eol)
    : eol ≤ (m.behind cp eol).text.length := by
  have below := (Arrived.skip_range code.line).2
  rw [Arrived.behind, show ((m.put cp 0).put eol 0).text.length = (m.put cp 0).text.length from
    List.length_set]
  exact below.le

/-- The status line in its parts. -/
theorem statusLine_eq (r : Reader) (datsz : Nat)
    : statusLine r datsz
      = afterNumber 8 (fun statcode cp r =>
          if cp = statcode then if r.logs then .outer r else .undefined
          else statusRest statcode cp datsz (r.put cp 0)) r :=
  rfl

/-- What a status line leads to, whatever the memory holds. -/
theorem always_statusLine
    : Always jobid m (statusLine · datsz)
      ↔ ∃ next, m.Line datsz next ∧ ∀ m' ∈ next, Always jobid m' .outer := by
  rw [always_eq fun r _ => statusLine_eq r datsz, always_afterNumber]
  constructor
  · rintro ⟨statcode, cp, number, always⟩
    by_cases none_ : cp = statcode
    · subst none_
      simp only [if_true] at always
      obtain ⟨logs, later⟩ := always_logs.mp always
      exact ⟨_, .bad number logs, by simpa using later⟩
    · simp only [if_neg none_] at always
      obtain ⟨eol, line, after⟩ := (always_code number).mp always
      have code : m.Code statcode cp eol := ⟨number, none_, line⟩
      rcases (always_statusCode code.inside).mp after with
        ⟨info, later⟩ | ⟨other, error, room⟩ | ⟨other, success, search⟩
      · exact ⟨_, .info code info, by simpa using later⟩
      · exact ⟨_, .error code other error room, by simp⟩
      · exact ⟨_, .success code other success search, by simp⟩
  · rintro ⟨next, line, later⟩
    cases line with
    | @bad statcode number logs =>
        refine ⟨statcode, statcode, number, ?_⟩
        simp only [if_true]
        exact always_logs.mpr ⟨logs, later _ rfl⟩
    | @info statcode cp eol code info =>
        refine ⟨statcode, cp, code.number, ?_⟩
        simp only [if_neg code.some_]
        exact (always_code code.number).mpr ⟨eol, code.line,
          (always_statusCode code.inside).mpr (.inl ⟨info, later _ rfl⟩)⟩
    | @error statcode cp eol code other error room =>
        refine ⟨statcode, cp, code.number, ?_⟩
        simp only [if_neg code.some_]
        exact (always_code code.number).mpr ⟨eol, code.line,
          (always_statusCode code.inside).mpr (.inr (.inl ⟨other, error, room⟩))⟩
    | @success statcode cp eol code other success search =>
        refine ⟨statcode, cp, code.number, ?_⟩
        simp only [if_neg code.some_]
        exact (always_code code.number).mpr ⟨eol, code.line,
          (always_statusCode code.inside).mpr (.inr (.inr ⟨other, success, search⟩))⟩

-----------------------------------------------------------------------------------------
-- Every sequence of pieces
-----------------------------------------------------------------------------------------

/-- A round of the outer loop and what follows. -/
theorem always_outer
    : Always jobid m .outer ↔ ((m.tread 0).1 > 0
      → ∃ next, (m.tread 0).2.Line (m.tread 0).1 next ∧ ∀ m' ∈ next, Always jobid m' .outer) := by
  have round : ∀ r : Reader, Halts jobid (.outer r)
      ↔ Halts jobid (if (r.tread 0).1 > 0 then statusLine (r.tread 0).2 (r.tread 0).1
        else .returned false) :=
    fun r => halts_step (statusStep_outer jobid r)
  rw [always_congr fun r _ => round r,
    always_tread (fun nr r => if nr > 0 then statusLine r nr else .returned false) (Nat.zero_le _),
    ← always_statusLine]
  by_cases some_ : (m.tread 0).1 > 0
  · simp only [some_, if_true, forall_const]
  · simp only [some_, if_false, false_implies, iff_true]
    exact always_returned false

/-- The text received by a status line has no more bytes to come than before. -/
theorem Arrived.Line.total_le {next : Option Arrived} (line : m.Line datsz next) {m' : Arrived}
    (here : m' ∈ next)
    : m'.total = m.total := by
  cases line with
  | bad => cases here; rfl
  | info => cases here; rfl
  | error => cases here
  | success => cases here

/-- By induction on the bytes to come. -/
theorem always_outer_iff {n : Nat} (few : m.total ≤ n)
    : Always jobid m .outer ↔ m.Complete := by
  induction n using Nat.strong_induction_on generalizing m with
  | h n ih =>
  have total := m.total_tread (Nat.zero_le _)
  rw [always_outer]
  constructor
  · intro always
    by_cases some_ : (m.tread 0).1 > 0
    · obtain ⟨next, line, later⟩ := always some_
      refine .line some_ line fun m' here => ?_
      have same := line.total_le here
      exact (ih m'.total (by omega) (le_refl _)).mp (later m' here)
    · exact .ended (by omega)
  · intro complete some_
    cases complete with
    | ended none_ => omega
    | line _ line later =>
        refine ⟨_, line, fun m' here => ?_⟩
        have same := line.total_le here
        exact (ih m'.total (by omega) (le_refl _)).mpr (later m' here)

/-- For every job and every sequence of pieces, `printer_status` returns whatever the memory holds
exactly if the pieces make a complete answer.
-/
theorem printerStatus_returns_iff (jobid : Int) (chunks : List (List Byte))
    : (∀ junk, ∃ success, Returns junk jobid chunks success) ↔ (arrived chunks).Complete := by
  have complete : Always jobid (arrived chunks) .outer ↔ (arrived chunks).Complete :=
    always_outer_iff (le_refl _)
  rw [← complete]
  constructor
  · rintro always ⟨buf, bufsz, chunks'⟩ ⟨-, size, pieces⟩
    obtain rfl : bufsz = IOBUFSZ := size
    obtain rfl : chunks' = chunks := pieces
    exact always buf
  · intro always junk
    exact always ⟨junk, IOBUFSZ, chunks⟩ ⟨fun j below => absurd below (Nat.not_lt_zero j), rfl, rfl⟩

end Minions.Printer
