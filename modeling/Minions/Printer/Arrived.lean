import Mathlib.Data.List.GetD
import Minions.Printer.Status

/-! The answers on which `printer_status` returns, whatever the memory holds.
Of the buffer only the bytes that have been received are known. A search that comes to the end of
them may go on through the memory behind, so an answer is complete if each search ends before.
-/

namespace Minions.Printer

open Minions.Data

-----------------------------------------------------------------------------------------
-- What has been received
-----------------------------------------------------------------------------------------

/-- The bytes that have been received, at the start of the buffer, and the pieces to come. -/
structure Arrived where
  text : List Byte
  bufsz : Nat
  chunks : List (List Byte)
  fits : text.length ≤ bufsz

/-- Whether a text begins with the pattern, unless it ends before that is clear. -/
def compareText (same : Byte → Byte → Bool) : List Byte → List Byte → Option Bool
  | _, [] => some true
  | [], _ :: _ => none
  | b :: bs, c :: cs => if same b c then compareText same bs cs else some false

namespace Arrived

/-- The first place from `i` on whose byte has not the property, if it has been received. -/
def skip (m : Arrived) (P : Byte → Bool) (i : Nat) : Option Nat :=
  (List.range' i (m.text.length - i)).find? fun j => !P (m.text.getD j 0)

/-- The bytes from `i` up to `j`. -/
def slice (m : Arrived) (i j : Nat) : List Byte := (m.text.drop i).take (j - i)

/-- The bytes from `i` on are compared with a pattern. -/
def compare (m : Arrived) (same : Byte → Byte → Bool) (i : Nat) (pattern : List Byte)
    : Option Bool :=
  compareText same (m.text.drop i) pattern

/-- A byte of the text is replaced. -/
def put (m : Arrived) (i : Nat) (b : Byte) : Arrived where
  text := m.text.set i b
  bufsz := m.bufsz
  chunks := m.chunks
  fits := by
    rw [List.length_set]
    exact m.fits

/-- The next piece, or what the buffer has room for, comes to the place `off`. -/
def tread (m : Arrived) (off : Nat) : Nat × Arrived :=
  let data := (m.chunks.headD []).take (m.bufsz - off)
  (data.length,
    { text := m.text.take off ++ data ++ m.text.drop (off + data.length)
      bufsz := m.bufsz
      chunks :=
        match m.chunks with
        | chunk :: rest =>
            if chunk.length ≤ m.bufsz - off then rest else chunk.drop (m.bufsz - off) :: rest
        | [] => []
      fits := by
        have fits := m.fits
        have short : data.length ≤ m.bufsz - off := List.length_take_le ..
        simp only [List.length_append, List.length_take, List.length_drop]
        omega })

/-- The buffer grows, if the next piece is to come behind it. -/
def grow (m : Arrived) (off : Nat) : Arrived :=
  if off ≥ m.bufsz then
    { m with bufsz := m.bufsz + IOBUFSZ, fits := Nat.le_add_right_of_le m.fits }
  else m

/-- What holds after more has been read to the place `i`, if there is more. -/
def More (m : Arrived) (i datsz : Nat) (next : Arrived → Nat → Prop) : Prop :=
  let (nr, m) := (m.grow i).tread i
  nr > 0 → next m (datsz + (i + nr))

/-- The first place before `datsz` where the content length is, or may be. -/
def lengthFrom (m : Arrived) (i datsz : Nat) : Option Nat :=
  (List.range' i (datsz - i)).find? fun j =>
    m.compare (fun b c => toLower b = toLower c) j contentLength ≠ some false

/-- The first place of those compared where the end of the header is. -/
def blankFrom (m : Arrived) (i datsz : Nat) : Option Nat :=
  (List.range' i (datsz - 2 - i)).find? fun j => m.compare (· = ·) j blankLine = some true

/-- The buffer has room for an IPP header, after more has been read if the length asks for it. -/
def Response (i : Nat) (len : Int) (m : Arrived) (datsz : Nat) : Prop :=
  if (datsz : Int) - i < len then m.More i datsz fun m _ => i + 8 ≤ m.bufsz
  else i + 8 ≤ m.bufsz

/-- The end of the header has been received, and behind it comes what the length says. -/
def Ends (i : Nat) (len : Int) (m : Arrived) (datsz : Nat) : Prop :=
  ∃ j, m.blankFrom i datsz = some j
    ∧ if j + 3 ≥ datsz then m.More (j + 3) datsz (Response (j + 3) len)
      else Response (j + 3) len m datsz

/-- Blanks from `i` on, digits from `j` up to `k`, and another byte have been received. -/
def Number (m : Arrived) (i j k : Nat) : Prop :=
  m.skip isSpace i = some j ∧ m.skip isDigit j = some k

/-- Behind the content length come its number and the end of the header. -/
def Header (i : Nat) (m : Arrived) (datsz : Nat) : Prop :=
  ∃ contentlen cp, m.Number (i + contentLength.length) contentlen cp
    ∧ if cp + 1 ≥ datsz then
        (m.put cp 0).More (cp + 1) datsz (Ends (cp + 1) (atoi (m.slice contentlen cp)))
      else Ends (cp + 1) (atoi (m.slice contentlen cp)) (m.put cp 0) datsz

/-- The content length has been received from `i` on, or is received with the next pieces, or there
are none.
-/
inductive Searched : Arrived → Nat → Nat → Prop
  | found {m : Arrived} {i datsz j : Nat} (first : m.lengthFrom i datsz = some j)
    (here : m.compare (fun b c => toLower b = toLower c) j contentLength = some true)
    (header : m.Header j datsz) : Searched m i datsz
  | more {m : Arrived} {i datsz : Nat} (none_ : m.lengthFrom i datsz = none)
    (inside : max i datsz < m.bufsz)
    (later : ((m.tread (max i datsz)).1 > 0) →
      Searched (m.tread (max i datsz)).2 (max i datsz)
        (datsz + (max i datsz + (m.tread (max i datsz)).1))) : Searched m i datsz

/-- The text up to its first NUL byte is a format for `log_msg`. -/
def Logs (m : Arrived) : Prop := ∃ nul, m.skip (· ≠ 0) 0 = some nul ∧ literal (m.slice 0 nul)

/-- A status code and the rest of its line, in a text of which the end of both is overwritten. -/
structure Code (m : Arrived) (statcode cp eol : Nat) : Prop where
  number : m.Number 8 statcode cp
  some_ : cp ≠ statcode
  line : (m.put cp 0).skip (fun b => b ≠ 13 ∧ b ≠ 10) (cp + 1) = some eol

/-- Behind the status line, with the ends of the code and of the line overwritten. -/
def behind (m : Arrived) (cp eol : Nat) : Arrived := (m.put cp 0).put eol 0

/-- What a status line leads to: another one, or the last step of the answer. -/
inductive Line (m : Arrived) (datsz : Nat) : Option Arrived → Prop
  | bad {statcode : Nat} (none_ : m.Number 8 statcode statcode) (logs : m.Logs)
    : Line m datsz (some m)
  | info {statcode cp eol : Nat} (code : m.Code statcode cp eol)
    (info : HTTP_INFO (atoi ((m.behind cp eol).slice statcode cp)))
    : Line m datsz (some (m.behind cp eol))
  | error {statcode cp eol : Nat} (code : m.Code statcode cp eol)
    (other : ¬ HTTP_INFO (atoi ((m.behind cp eol).slice statcode cp)))
    (error : ¬ HTTP_SUCCESS (atoi ((m.behind cp eol).slice statcode cp)))
    (inside : datsz < m.bufsz) : Line m datsz none
  | success {statcode cp eol : Nat} (code : m.Code statcode cp eol)
    (other : ¬ HTTP_INFO (atoi ((m.behind cp eol).slice statcode cp)))
    (success : HTTP_SUCCESS (atoi ((m.behind cp eol).slice statcode cp)))
    (search : Searched (m.behind cp eol) eol datsz) : Line m datsz none

/-- The answer is complete: it comes to its end or to its last step, with every line received. -/
inductive Complete : Arrived → Prop
  | ended {m : Arrived} (none_ : (m.tread 0).1 = 0) : Complete m
  | line {m : Arrived} {next : Option Arrived} (some_ : (m.tread 0).1 > 0)
    (line : Line (m.tread 0).2 (m.tread 0).1 next) (later : ∀ m' ∈ next, Complete m')
    : Complete m

end Arrived

/-- Before the first piece. -/
def arrived (chunks : List (List Byte)) : Arrived where
  text := []
  bufsz := IOBUFSZ
  chunks
  fits := Nat.zero_le _

-----------------------------------------------------------------------------------------
-- Readers that agree with what has been received
-----------------------------------------------------------------------------------------

variable {m : Arrived} {r : Reader} {i j : Nat}
variable {P : Byte → Bool} {same : Byte → Byte → Bool} {pattern : List Byte}

/-- The reader has received these bytes, and the rest of its buffer is anything. -/
structure Arrived.Of (m : Arrived) (r : Reader) : Prop where
  bytes : ∀ j < m.text.length, r.buf j = m.text.getD j 0
  bufsz : r.bufsz = m.bufsz
  chunks : r.chunks = m.chunks

/-- The reader whose memory holds the bytes `junk` behind the received ones. -/
def Arrived.fill (m : Arrived) (junk : Nat → Byte) : Reader where
  buf := fun j => if j < m.text.length then m.text.getD j 0 else junk j
  bufsz := m.bufsz
  chunks := m.chunks

/-- The bytes that have arrived are in every filled buffer. -/
theorem of_fill (m : Arrived) (junk : Nat → Byte) : m.Of (m.fill junk) where
  bytes := fun _ known => if_pos known
  bufsz := rfl
  chunks := rfl

/-- Behind them a filled buffer holds anything. -/
theorem fill_behind (junk : Nat → Byte) (behind : m.text.length ≤ j)
    : (m.fill junk).buf j = junk j :=
  if_neg (by omega)

/-- A search that ends among the received bytes ends there in every buffer. -/
theorem Arrived.Of.skip (of : m.Of r) (ends : m.skip P i = some j)
    : r.skip (fun _ b => P b) i = some j := by
  have fits := m.fits
  simp only [Arrived.skip, Reader.skip, List.find?_range'_eq_some, List.mem_range'_1, of.bufsz]
    at ends ⊢
  obtain ⟨stops, ⟨from_, below⟩, goes⟩ := ends
  refine ⟨?_, ⟨from_, by omega⟩, ?_⟩
  · rw [of.bytes j (by omega)]
    exact stops
  · intro k lower upper
    rw [of.bytes k (by omega)]
    exact goes k lower upper

/-- A search that does not end among them may leave the buffer. -/
theorem skip_fill_none {b : Byte} (holds : P b) (goes : m.skip P i = none)
    : (m.fill fun _ => b).skip (fun _ b => P b) i = none := by
  simp only [Arrived.skip, Reader.skip, List.find?_range'_eq_none] at goes ⊢
  intro k lower upper
  by_cases known : k < m.text.length
  · rw [(of_fill m _).bytes k known]
    exact goes k lower (by omega)
  · rw [fill_behind _ (by omega)]
    simp [holds]

/-- A skip stops inside the text. -/
theorem Arrived.skip_range (ends : m.skip P i = some j)
    : i ≤ j ∧ j < m.text.length := by
  have member := List.mem_of_find?_eq_some ends
  rw [List.mem_range'_1] at member
  omega

/-- A text inside what has arrived is the same in every buffer. -/
theorem Arrived.Of.text (of : m.Of r) (inside : j ≤ m.text.length)
    : r.text i j = m.slice i j := by
  apply List.ext_getElem
  · simp only [Reader.text, Arrived.slice, List.length_map, List.length_range', List.length_take,
      List.length_drop]
    omega
  · intro k _ below
    simp only [Arrived.slice, List.length_take, List.length_drop] at below
    simp only [Reader.text, Arrived.slice, List.getElem_map, List.getElem_range', Nat.one_mul,
      List.getElem_take, List.getElem_drop]
    rw [of.bytes (i + k) (by omega), List.getD_eq_getElem _ _ (by omega)]

/-- A null that the parser writes is written in every buffer. -/
theorem Arrived.Of.put (of : m.Of r) (b : Byte) : (m.put i b).Of (r.put i b) where
  bytes := by
    intro k known
    simp only [Arrived.put, List.length_set] at known
    by_cases here : k = i
    · subst here
      simp [Arrived.put, Reader.put, known]
    · simp [Arrived.put, Reader.put, here, Ne.symm here, of.bytes k known]
  bufsz := of.bufsz
  chunks := of.chunks

/-- What has been received decides a comparison, or is the beginning of the pattern. -/
theorem Arrived.Of.compare (of : m.Of r) {answer : Bool}
    (decided : m.compare same i pattern = some answer)
    : r.compare same i pattern = some answer := by
  unfold Arrived.compare at decided
  induction pattern generalizing i with
  | nil => simpa [compareText, Reader.compare] using decided
  | cons c cs ih =>
      have fits := m.fits
      have bufsz := of.bufsz
      by_cases known : i < m.text.length
      · rw [List.drop_eq_getElem_cons known, compareText] at decided
        have byte : r.buf i = m.text[i] := by
          rw [of.bytes i known, List.getD_eq_getElem _ _ known]
        rw [Reader.compare, if_neg (by omega), byte]
        split at decided
        · next yes =>
            rw [if_pos yes]
            exact ih decided
        · next no =>
            rw [if_neg no]
            exact decided
      · rw [List.drop_eq_nil_of_le (by omega), compareText] at decided
        cases decided

/-- The bytes of a text that is overwritten from `off` on, and made longer. -/
theorem getD_overwrite (text data : List Byte) {off : Nat} (inside : off ≤ text.length)
    : (text.take off ++ data ++ text.drop (off + data.length)).getD j 0
      = if off ≤ j ∧ j < off + data.length then data.getD (j - off) 0 else text.getD j 0 := by
  have front : (text.take off).length = off := List.length_take_of_le inside
  by_cases before : j < off
  · rw [if_neg (by omega), List.append_assoc, List.getD_append _ _ _ _ (by omega)]
    simp [List.getD_eq_getElem?_getD, before]
  by_cases new : j < off + data.length
  · rw [if_pos (by omega), List.append_assoc, List.getD_append_right _ _ _ _ (by omega), front,
      List.getD_append _ _ _ _ (by omega)]
  · rw [if_neg (by omega), List.getD_append_right _ _ _ _ (by rw [List.length_append]; omega)]
    have place : off + data.length + (j - (off + data.length)) = j := by omega
    simp only [List.getD_eq_getElem?_getD, List.getElem?_drop, List.length_append, front, place]

/-- More is received, in the buffer and in what is known of it. -/
theorem Arrived.Of.tread (of : m.Of r) {off : Nat} (inside : off ≤ m.text.length)
    : (r.tread off).1 = (m.tread off).1 ∧ (m.tread off).2.Of (r.tread off).2 := by
  have same : (r.tread off).1 = (m.tread off).1 := by
    simp only [Reader.tread, Arrived.tread, of.bufsz, of.chunks]
  refine ⟨same, ?_, of.bufsz, ?_⟩
  · intro j known
    simp only [Arrived.tread] at known ⊢
    rw [getD_overwrite _ _ inside]
    simp only [Reader.tread, of.bufsz, of.chunks]
    split
    · rfl
    · next old =>
        apply of.bytes
        simp only [List.length_append, List.length_take, List.length_drop] at known old
        omega
  · cases rest : m.chunks with
    | nil => simp only [Reader.tread, Arrived.tread, of.chunks, rest]
    | cons chunk chunks => simp only [Reader.tread, Arrived.tread, of.bufsz, of.chunks, rest]

/-- Every buffer with the bytes received afterwards comes from one with those received before. -/
theorem Arrived.Of.untread {off : Nat} {r' : Reader} (inside : off ≤ m.text.length)
    (of : (m.tread off).2.Of r')
    : ∃ r, m.Of r ∧ r.tread off = ((m.tread off).1, r') := by
  refine ⟨m.fill r'.buf, of_fill m _, ?_⟩
  obtain ⟨nr, treads⟩ := (of_fill m r'.buf).tread inside
  have text : m.text.length ≤ (m.tread off).2.text.length := by
    simp only [Arrived.tread, List.length_append, List.length_take, List.length_drop]
    omega
  have buf : ((m.fill r'.buf).tread off).2.buf = r'.buf := by
    funext j
    by_cases known : j < (m.tread off).2.text.length
    · rw [treads.bytes j known, of.bytes j known]
    · simp only [Reader.tread]
      rw [if_neg, fill_behind _ (by omega)]
      intro new
      simp only [Arrived.tread, List.length_append, List.length_take, List.length_drop] at known
      simp only [Arrived.fill, List.length_take] at new
      omega
  refine Prod.ext nr ?_
  cases r' with
  | mk buf' bufsz' chunks' =>
      have bufsz := treads.bufsz.trans of.bufsz.symm
      have chunks := treads.chunks.trans of.chunks.symm
      calc ((m.fill buf').tread off).2
        _ = ⟨((m.fill buf').tread off).2.buf, ((m.fill buf').tread off).2.bufsz,
            ((m.fill buf').tread off).2.chunks⟩ := rfl
        _ = ⟨buf', bufsz', chunks'⟩ := by rw [buf, bufsz, chunks]

/-- Every buffer with a byte replaced comes from one with the byte. -/
theorem Arrived.Of.unput {b : Byte} {r' : Reader} (inside : i < m.text.length)
    (of : (m.put i b).Of r')
    : ∃ r, m.Of r ∧ r.put i b = r' := by
  have length : (m.put i b).text.length = m.text.length := List.length_set
  refine ⟨m.fill r'.buf, of_fill m _, ?_⟩
  have puts := (of_fill m r'.buf).put (i := i) b
  have buf : ((m.fill r'.buf).put i b).buf = r'.buf := by
    funext j
    by_cases known : j < m.text.length
    · rw [puts.bytes j (by omega), of.bytes j (by omega)]
    · have other : j ≠ i := by omega
      rw [← fill_behind r'.buf (by omega : m.text.length ≤ j)]
      simp [Reader.put, other]
  cases r' with
  | mk buf' bufsz' chunks' =>
      have bufsz := of.bufsz
      have chunks := of.chunks
      simp only [Arrived.put] at bufsz chunks
      calc (m.fill buf').put i b
        _ = ⟨((m.fill buf').put i b).buf, m.bufsz, m.chunks⟩ := rfl
        _ = ⟨buf', bufsz', chunks'⟩ := by rw [buf, bufsz, chunks]

end Minions.Printer
