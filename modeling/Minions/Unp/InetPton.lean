import Minions.Data.Hex
import Minions.Data.Words
import Minions.Unp.GaPort

/-! Addresses as text, read: `libfree/inet_pton.c`. A string is the list of the bytes before
its NUL.
-/

namespace Minions.Unp.Inet

open Minions.Data
open Minions.Unp.Gai (Family)

inductive Errno where
  | EAFNOSUPPORT
  | ENOSPC
deriving DecidableEq

def IN6ADDRSZ : Nat := 16

def INADDRSZ : Nat := 4

def INT16SZ : Nat := 2

/-- `strchr(text, ch) - text`. -/
def strchr (text : List Byte) (ch : Byte) : Option Nat := text.idxOf? ch

-----------------------------------------------------------------------------------------
-- `inet_pton4`
-----------------------------------------------------------------------------------------

/-- `"0123456789"`. -/
def digits : List Byte := ['0', '1', '2', '3', '4', '5', '6', '7', '8', '9'].map ascii

/-- The variables of the loop. The octets of `tmp` before `*tp` are `done`, and `*tp` itself
is `cur`.
-/
structure Pton4 where
  sawDigit : Bool := false
  octets : Nat := 0
  done : List Byte := []
  cur : Byte := 0
deriving DecidableEq

/-- One character of `inet_pton4`'s loop; `none` is `return (0)`. -/
def Pton4.step (st : Pton4) (ch : Byte) : Option Pton4 :=
  match strchr digits ch with
  | some pch =>
      let new := st.cur.toNat * 10 + pch
      if new > 255 then none
      else if st.sawDigit then some { st with cur := UInt8.ofNat new }
      else if st.octets + 1 > 4 then none
      else some { st with cur := UInt8.ofNat new, octets := st.octets + 1, sawDigit := true }
  | none =>
      if ch = ascii '.' && st.sawDigit then
        if st.octets = 4 then none
        else some { st with done := st.done ++ [st.cur], cur := 0, sawDigit := false }
      else none

def inetPton4 (src : List Byte) : Option (List Byte) := do
  let st ← src.foldlM Pton4.step {}
  if st.octets < 4 then none else some (st.done ++ [st.cur])

-----------------------------------------------------------------------------------------
-- `inet_pton6`
-----------------------------------------------------------------------------------------

/-- `"0123456789abcdef"`. -/
def xdigitsL : List Byte :=
  ['0', '1', '2', '3', '4', '5', '6', '7', '8', '9', 'a', 'b', 'c', 'd', 'e', 'f'].map ascii

/-- `"0123456789ABCDEF"`. -/
def xdigitsU : List Byte :=
  ['0', '1', '2', '3', '4', '5', '6', '7', '8', '9', 'A', 'B', 'C', 'D', 'E', 'F'].map ascii

/-- `pch - xdigits`, the lower case table tried first. -/
def xdigit (ch : Byte) : Option Nat := (strchr xdigitsL ch).or (strchr xdigitsU ch)

/-- The variables of the loop; `tp` and `colonp` are indices into `tmp`. -/
structure Pton6 where
  tmp : List Byte := List.replicate IN6ADDRSZ 0
  tp : Nat := 0
  colonp : Option Nat := none
  curtok : List Byte
  sawXdigit : Bool := false
  val : Nat := 0
deriving DecidableEq

/-- Consecutive `*tp++ = b`. -/
def Pton6.put (st : Pton6) (bytes : List Byte) : Pton6 :=
  bytes.foldl (fun st b => { st with tmp := st.tmp.set st.tp b, tp := st.tp + 1 }) st

/-- `val` into `tmp` in network byte order, if there is room. -/
def Pton6.putVal (st : Pton6) : Option Pton6 :=
  if st.tp + INT16SZ > IN6ADDRSZ then none
  else some (st.put [UInt8.ofNat (st.val >>> 8), UInt8.ofNat st.val])

/-- `inet_pton6`'s loop over the characters left, up to its end or its `break`. -/
def Pton6.loop (st : Pton6) : List Byte → Option Pton6
  | [] => some st
  | ch :: src =>
      match xdigit ch with
      | some pch =>
          let val := st.val <<< 4 ||| pch
          if val > 0xffff then none
          else loop { st with val := val, sawXdigit := true } src
      | none =>
          if ch = ascii ':' then
            if !st.sawXdigit then
              if st.colonp.isSome then none
              else loop { st with curtok := src, colonp := some st.tp } src
            else
              (st.putVal).bind fun st =>
                loop { st with curtok := src, sawXdigit := false, val := 0 } src
          else if ch = ascii '.' && st.tp + INADDRSZ ≤ IN6ADDRSZ then
            (inetPton4 st.curtok).map fun quad => { st.put quad with sawXdigit := false }
          else none

/-- The shift by hand: what was stored from `colonp` on goes to the end of `tmp`. -/
def shift (tmp : List Byte) (colonp n : Nat) : List Byte :=
  (List.range n).foldl
    (fun tmp k => (tmp.set (IN6ADDRSZ - (k + 1)) (tmp.getD (colonp + n - (k + 1)) 0)).set
      (colonp + n - (k + 1)) 0)
    tmp

/-- What follows the loop. -/
def Pton6.finish (st : Pton6) : Option (List Byte) := do
  let st ← if st.sawXdigit then st.putVal else some st
  match st.colonp with
  | some colonp => some (shift st.tmp colonp (st.tp - colonp))
  | none => if st.tp ≠ IN6ADDRSZ then none else some st.tmp

/-- Leading `::` requires some special handling. -/
def leadingColons (src : List Byte) : Option (List Byte) :=
  if src.head? = some (ascii ':') then
    if src.tail.head? = some (ascii ':') then some src.tail else none
  else some src

def inetPton6 (src : List Byte) : Option (List Byte) := do
  let src ← leadingColons src
  let st ← Pton6.loop { curtok := src } src
  st.finish

/-- `inet_pton`: the bytes it stores for 1, `none` for 0, and the error for -1. -/
def inetPton (af : Family) (src : List Byte) : Except Errno (Option (List Byte)) :=
  match af with
  | .inet => .ok (inetPton4 src)
  | .inet6 => .ok (inetPton6 src)
  | _ => .error .EAFNOSUPPORT

-----------------------------------------------------------------------------------------
-- The dotted quad
-----------------------------------------------------------------------------------------

/-- Decimal digits, leading zeros included, of a number of one byte. -/
def Octet (group : List Byte) : Prop :=
  group ≠ [] ∧ (∀ b ∈ group, isDigit b = true) ∧ digitsValue group ≤ 255

/-- The byte of an octet. -/
def octetByte (group : List Byte) : Byte := UInt8.ofNat (digitsValue group)

/-- `text` is four octets with dots between them, and `addr` their bytes. -/
def DottedQuad (text addr : List Byte) : Prop :=
  ∃ front last, front.length = 3 ∧ (∀ group ∈ front, Octet group) ∧ Octet last
    ∧ text = unlines (ascii '.') front ++ last
    ∧ addr = front.map octetByte ++ [octetByte last]

/-- `strchr` finds the value of a digit. -/
theorem strchr_digits (ch : Byte)
    : strchr digits ch = if isDigit ch then some (ch.toNat - 48) else none := by
  have all : ∀ n < 256, strchr digits (UInt8.ofNat n)
      = if isDigit (UInt8.ofNat n) then some ((UInt8.ofNat n).toNat - 48) else none := by
    decide +kernel
  simpa using all ch.toNat ch.toNat_lt

/-- The characters of the digits. -/
theorem isDigit_range {ch : Byte} (digit : isDigit ch = true) : 48 ≤ ch.toNat ∧ ch.toNat ≤ 57 := by
  simpa [isDigit, UInt8.le_iff_toNat_le] using digit

/-- No digits have the value 0. -/
@[simp]
theorem digitsValue_nil : digitsValue [] = 0 := rfl

/-- One more digit. -/
theorem digitsValue_append (front : List Byte) (b : Byte)
    : digitsValue (front ++ [b]) = 10 * digitsValue front + (b.toNat - 48) := by
  simp [digitsValue]

/-- A byte holds an octet. -/
theorem octetByte_toNat {group : List Byte} (small : digitsValue group ≤ 255)
    : (octetByte group).toNat = digitsValue group := by
  simp only [octetByte, UInt8.toNat_ofNat']
  omega

/-- The variables after the groups `front`, each with its dot, and the digits `cur`. -/
def Pton4.at (front : List (List Byte)) (cur : List Byte) : Pton4 where
  sawDigit := !cur.isEmpty
  octets := front.length + if cur.isEmpty then 0 else 1
  done := front.map octetByte
  cur := octetByte cur

/-- One more digit of the current group. -/
theorem Pton4.step_digit {front : List (List Byte)} {cur : List Byte} {ch : Byte}
    (small : digitsValue cur ≤ 255) (digit : isDigit ch = true)
    : (Pton4.at front cur).step ch
      = if digitsValue (cur ++ [ch]) ≤ 255 ∧ (cur = [] → front.length < 4)
        then some (Pton4.at front (cur ++ [ch])) else none := by
  have value : (octetByte cur).toNat * 10 + (ch.toNat - 48) = digitsValue (cur ++ [ch]) := by
    rw [octetByte_toNat small, digitsValue_append]
    omega
  simp only [Pton4.step, strchr_digits, digit, if_true, Pton4.at, value]
  by_cases large : digitsValue (cur ++ [ch]) > 255
  · simp [large]
  · have fits : digitsValue (cur ++ [ch]) ≤ 255 := by omega
    cases cur with
    | nil =>
        by_cases room : front.length < 4
        · have stays : ¬ front.length + 1 > 4 := by omega
          simp only [List.nil_append] at fits large
          simp [octetByte, room, stays, large, fits]
        · have full : front.length + 1 > 4 := by omega
          simp only [List.nil_append] at fits large
          simp [room, full, large]
    | cons c cur =>
        simp only [List.cons_append] at fits large
        simp [octetByte, large, fits]

/-- A dot ends a group that has digits. -/
theorem Pton4.step_dot (front : List (List Byte)) (cur : List Byte)
    : (Pton4.at front cur).step (ascii '.')
      = if cur ≠ [] ∧ front.length ≠ 3 then some (Pton4.at (front ++ [cur]) []) else none := by
  have dot : strchr digits (ascii '.') = none := by decide
  cases cur with
  | nil => simp [Pton4.step, dot, Pton4.at]
  | cons c cur =>
      by_cases full : front.length = 3
      · simp [Pton4.step, dot, Pton4.at, full]
      · simp [Pton4.step, dot, Pton4.at, full, octetByte]

/-- Every other character is refused. -/
theorem Pton4.step_other {st : Pton4} {ch : Byte} (digit : isDigit ch = false)
    (dot : ch ≠ ascii '.')
    : st.step ch = none := by
  simp [Pton4.step, strchr_digits, digit, dot]

/-- What the loop has read when its variables are `st`. -/
def Pton4.Reads (text : List Byte) (st : Pton4) : Prop :=
  ∃ front cur, text = unlines (ascii '.') front ++ cur ∧ (∀ group ∈ front, Octet group)
    ∧ (cur ≠ [] → Octet cur) ∧ front.length ≤ 3 ∧ st = Pton4.at front cur

/-- Nothing has been read. -/
theorem Pton4.reads_init : Pton4.Reads [] {} :=
  ⟨[], [], rfl, by simp, by simp, by simp, rfl⟩

/-- One character extends what was read, by the kinds of characters. -/
theorem Pton4.reads_step {text : List Byte} {st st' : Pton4} {ch : Byte}
    (reads : Pton4.Reads text st) (step : st.step ch = some st')
    : Pton4.Reads (text ++ [ch]) st' := by
  obtain ⟨front, cur, rfl, octets, octet, short, rfl⟩ := reads
  have small : digitsValue cur ≤ 255 := by
    by_cases empty : cur = []
    · simp [empty]
    · exact (octet empty).2.2
  cases digit : isDigit ch with
  | true =>
      rw [Pton4.step_digit small digit, Option.ite_none_right_eq_some] at step
      obtain ⟨⟨fits, _⟩, same⟩ := step
      cases same
      refine ⟨front, cur ++ [ch], by simp, octets, fun _ => ⟨by simp, ?_, fits⟩, short, rfl⟩
      intro b member
      rcases List.mem_append.mp member with old | new
      · exact (octet (List.ne_nil_of_mem old)).2.1 b old
      · rw [List.mem_singleton.mp new]
        exact digit
  | false =>
      by_cases dot : ch = ascii '.'
      · subst dot
        rw [Pton4.step_dot, Option.ite_none_right_eq_some] at step
        obtain ⟨⟨nonempty, room⟩, same⟩ := step
        cases same
        refine ⟨front ++ [cur], [], by simp, ?_, by simp, by simp; omega, rfl⟩
        intro group member
        rcases List.mem_append.mp member with old | new
        · exact octets group old
        · rw [List.mem_singleton.mp new]
          exact octet nonempty
      · rw [Pton4.step_other digit dot] at step
        cases step

/-- The loop reads the rest of the text. -/
theorem Pton4.reads_run {text rest : List Byte} {st st' : Pton4}
    (reads : Pton4.Reads text st) (run : rest.foldlM Pton4.step st = some st')
    : Pton4.Reads (text ++ rest) st' := by
  induction rest generalizing text st with
  | nil =>
      cases run
      simpa using reads
  | cons ch rest ih =>
      rw [List.foldlM_cons] at run
      obtain ⟨next, step, run⟩ := Option.bind_eq_some_iff.mp run
      have := ih (Pton4.reads_step reads step) run
      simpa using this

/-- More digits do not lower the value. -/
theorem digitsValue_le_append (front back : List Byte)
    : digitsValue front ≤ digitsValue (front ++ back) := by
  induction back using List.reverseRecOn with
  | nil => simp
  | append_singleton back b ih =>
      rw [← List.append_assoc, digitsValue_append]
      omega

/-- The digits of a group are read one after the other. -/
theorem Pton4.run_digits {front : List (List Byte)} (room : front.length < 4) (rest : List Byte)
    (cur ds : List Byte) (digits : ∀ b ∈ ds, isDigit b = true)
    (small : digitsValue (cur ++ ds) ≤ 255)
    : (ds ++ rest).foldlM Pton4.step (Pton4.at front cur)
      = rest.foldlM Pton4.step (Pton4.at front (cur ++ ds)) := by
  induction ds generalizing cur with
  | nil => simp
  | cons d ds ih =>
      have regroup : cur ++ d :: ds = (cur ++ [d]) ++ ds := by simp
      rw [regroup] at small ⊢
      have fits := Nat.le_trans (digitsValue_le_append (cur ++ [d]) ds) small
      have before := Nat.le_trans (digitsValue_le_append cur [d]) fits
      rw [List.cons_append, List.foldlM_cons,
        Pton4.step_digit before (digits d (by simp)), if_pos ⟨fits, fun _ => room⟩]
      exact ih (cur ++ [d]) (fun b member => digits b (by simp [member])) small

/-- Groups with their dots are read one after the other. -/
theorem Pton4.run_groups (front more : List (List Byte)) (rest : List Byte)
    (room : front.length + more.length ≤ 3) (octets : ∀ group ∈ more, Octet group)
    : (unlines (ascii '.') more ++ rest).foldlM Pton4.step (Pton4.at front [])
      = rest.foldlM Pton4.step (Pton4.at (front ++ more) []) := by
  induction more generalizing front with
  | nil => simp
  | cons group more ih =>
      obtain ⟨nonempty, digits, small⟩ := octets group (by simp)
      simp only [List.length_cons] at room
      rw [unlines_cons, List.append_assoc, List.cons_append,
        Pton4.run_digits (by omega) _ [] group digits small, List.nil_append,
        List.foldlM_cons, Pton4.step_dot, if_pos ⟨nonempty, by omega⟩]
      have := ih (front ++ [group]) (by simp; omega) fun g member => octets g (by simp [member])
      simpa using this

/-- `inet_pton4` accepts exactly the dotted quads. -/
theorem inetPton4_eq_some {src addr : List Byte}
    : inetPton4 src = some addr ↔ DottedQuad src addr := by
  constructor
  · intro accepted
    obtain ⟨st, run, enough⟩ := Option.bind_eq_some_iff.mp accepted
    obtain ⟨front, cur, text, octets, octet, short, rfl⟩ := Pton4.reads_run Pton4.reads_init run
    rw [Option.ite_none_left_eq_some] at enough
    obtain ⟨four, same⟩ := enough
    cases same
    have nonempty : cur ≠ [] := by
      rintro rfl
      simp [Pton4.at] at four
      omega
    refine ⟨front, cur, ?_, octets, octet nonempty, by simpa using text, rfl⟩
    simp [Pton4.at, nonempty] at four
    omega
  · rintro ⟨front, last, three, octets, ⟨nonempty, digits, small⟩, rfl, rfl⟩
    have groups := Pton4.run_groups [] front last (by simp [three]) octets
    have read := @Pton4.run_digits front (by omega) [] [] last digits small
    simp only [List.nil_append, List.append_nil] at groups read
    have run : (unlines (ascii '.') front ++ last).foldlM Pton4.step {}
        = some (Pton4.at front last) := groups.trans (read.trans rfl)
    rw [inetPton4, run]
    simp [Pton4.at, nonempty, three]

end Minions.Unp.Inet
