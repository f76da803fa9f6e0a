import Minions.Unp.InetPton
import Mathlib.Tactic.Ring

/-! The texts that `inet_pton6` accepts. What one character does to the variables of the loop
is said once; the grammar and the values follow by induction on the text.
-/

namespace Minions.Unp.Inet

open Minions.Data

-----------------------------------------------------------------------------------------
-- The grammar
-----------------------------------------------------------------------------------------

/-- Hexadecimal digits, leading zeros included, of a number of 16 bits. -/
def Group (group : List Byte) : Prop :=
  group ≠ [] ∧ HexDigits group ∧ hexValue group ≤ 0xffff

/-- The two bytes of a group. -/
def groupBytes (group : List Byte) : List Byte :=
  [UInt8.ofNat (hexValue group >>> 8), UInt8.ofNat (hexValue group)]

/-- What may stand behind the last colon: nothing, a group or a dotted quad. -/
inductive Ending : List Byte → List Byte → Prop where
  | nothing : Ending [] []
  | group {text : List Byte} (group : Group text) : Ending text (groupBytes text)
  | quad {text addr : List Byte} (quad : DottedQuad text addr) : Ending text addr

/-- The address with the bytes `before` and `after` a `::`. Where they fill the address, those
after it are lost.
-/
def expand (before after : List Byte) : List Byte :=
  if before.length + after.length < IN6ADDRSZ then
    before ++ List.replicate (IN6ADDRSZ - (before.length + after.length)) 0 ++ after
  else before ++ List.replicate (IN6ADDRSZ - before.length) 0

/-- The addresses that texts denote. A text with a `::` begins with the groups before it, or
with another colon where there is none.
-/
inductive Denotes6 : List Byte → List Byte → Prop where
  | full {groups : List (List Byte)} {ending bytes : List Byte}
      (each : ∀ group ∈ groups, Group group) (last : Ending ending bytes)
      (size : (groups.flatMap groupBytes ++ bytes).length = IN6ADDRSZ)
      : Denotes6 (unlines (ascii ':') groups ++ ending) (groups.flatMap groupBytes ++ bytes)
  | squeezed {before after : List (List Byte)} {ending bytes : List Byte}
      (front : ∀ group ∈ before, Group group) (back : ∀ group ∈ after, Group group)
      (last : Ending ending bytes)
      (size : (before.flatMap groupBytes ++ (after.flatMap groupBytes ++ bytes)).length
        ≤ IN6ADDRSZ)
      : Denotes6
          ((if before = [] then [ascii ':'] else unlines (ascii ':') before)
            ++ ascii ':' :: (unlines (ascii ':') after ++ ending))
          (expand (before.flatMap groupBytes) (after.flatMap groupBytes ++ bytes))

-----------------------------------------------------------------------------------------
-- Digits
-----------------------------------------------------------------------------------------

/-- The digits of the parser are the hexadecimal ones. -/
theorem xdigit_eq (ch : Byte) : xdigit ch = hexVal ch := by
  have all : ∀ n < 256, xdigit (UInt8.ofNat n) = hexVal (UInt8.ofNat n) := by decide +kernel
  simpa using all ch.toNat ch.toNat_lt

/-- A decimal digit has its value. -/
theorem hexVal_of_isDigit {b : Byte} (digit : isDigit b = true)
    : hexVal b = some (b.toNat - 48) := by
  simp [hexVal, digit]

/-- The value after one more digit, as the loop computes it. -/
theorem hexValue_snoc {ds : List Byte} {b : Byte} {v : Nat} (digit : hexVal b = some v)
    : hexValue ds <<< 4 ||| v = hexValue (ds ++ [b]) := by
  have bound : v < 2 ^ 4 := hexVal_lt digit
  rw [← Nat.shiftLeft_add_eq_or_of_lt bound, hexValue, hexValue, hexValueFrom_append]
  simp [digit, Nat.shiftLeft_eq]
  ring

/-- A number with `k` decimal digits has `k` digits as a hexadecimal one, by the last digit. -/
theorem hexValue_lt_of_digitsValue {ds : List Byte} (digits : ∀ b ∈ ds, isDigit b = true)
    {k : Nat} (small : digitsValue ds < 10 ^ k)
    : hexValue ds < 16 ^ k := by
  induction ds using List.reverseRecOn generalizing k with
  | nil => simp [hexValue]
  | append_singleton ds b ih =>
      have digit : isDigit b = true := digits b (by simp)
      have front : ∀ c ∈ ds, isDigit c = true := fun c member => digits c (by simp [member])
      have range := isDigit_range digit
      rw [digitsValue_append] at small
      have value : hexValue (ds ++ [b]) = 16 * hexValue ds + (b.toNat - 48) := by
        simp [hexValue, hexVal_of_isDigit digit]
      rw [value]
      cases k with
      | zero =>
          have := ih front (k := 0) (by omega)
          omega
      | succ k =>
          have := ih front (k := k) (by omega)
          omega

/-- The first octet of a dotted quad is read as hexadecimal digits that fit. -/
theorem Octet.hex {group : List Byte} (octet : Octet group)
    : HexDigits group ∧ hexValue group ≤ 0xffff := by
  obtain ⟨_, digits, small⟩ := octet
  refine ⟨fun b member => by simp [hexVal_of_isDigit (digits b member)], ?_⟩
  have := hexValue_lt_of_digitsValue digits (k := 3) (by omega)
  omega

-----------------------------------------------------------------------------------------
-- The buffer
-----------------------------------------------------------------------------------------

/-- `tmp` after the bytes `w` were stored. -/
def stored (w : List Byte) : List Byte := w ++ List.replicate (IN6ADDRSZ - w.length) 0

/-- A byte is stored behind the others. -/
theorem stored_set {w : List Byte} (room : w.length < IN6ADDRSZ) (b : Byte)
    : (stored w).set w.length b = stored (w ++ [b]) := by
  obtain ⟨k, gap⟩ : ∃ k, IN6ADDRSZ - w.length = k + 1 := ⟨IN6ADDRSZ - w.length - 1, by omega⟩
  have after : IN6ADDRSZ - (w.length + 1) = k := by omega
  simp [stored, gap, after, List.replicate_succ]

/-- Bytes are stored behind those already there, by induction on them. -/
theorem Pton6.put_stored {st : Pton6} {w : List Byte} (tmp : st.tmp = stored w)
    (tp : st.tp = w.length) (bytes : List Byte) (room : w.length + bytes.length ≤ IN6ADDRSZ)
    : st.put bytes = { st with tmp := stored (w ++ bytes), tp := (w ++ bytes).length } := by
  induction bytes generalizing st w with
  | nil => simp [Pton6.put, ← tmp, ← tp]
  | cons b bytes ih =>
      simp only [List.length_cons] at room
      have first : st.tmp.set st.tp b = stored (w ++ [b]) := by
        rw [tmp, tp, stored_set (by omega)]
      have rest := @ih { st with tmp := st.tmp.set st.tp b, tp := st.tp + 1 } (w ++ [b]) first
        (by simp [tp]) (by simp; omega)
      simp only [Pton6.put, List.foldl_cons] at rest ⊢
      rw [rest]
      simp

/-- One round of the shift moves the last byte not yet moved, by the width of the gap. -/
theorem shift_round (u v : List Byte) (x : Byte) (d : Nat)
    : ((u ++ x :: (List.replicate d 0 ++ v)).set (u.length + d) x).set u.length 0
      = u ++ List.replicate d 0 ++ (if d = 0 then 0 else x) :: v := by
  cases d with
  | zero => simp
  | succ e =>
      have gap : List.replicate (e + 1) (0 : Byte) ++ v = List.replicate e 0 ++ 0 :: v := by
        rw [List.replicate_succ', List.append_assoc]
        rfl
      rw [gap]
      simp [List.replicate_succ]

/-- The buffer after `j` rounds of the shift. -/
def moved (w : List Byte) (j : Nat) : List Byte :=
  w.take (w.length - j) ++ List.replicate (IN6ADDRSZ - w.length) 0
    ++ if IN6ADDRSZ - w.length = 0 then List.replicate j 0 else w.drop (w.length - j)

/-- By the number of rounds. -/
theorem shift_rounds {w : List Byte} {colonp n : Nat} (ends : colonp + n = w.length)
    (fits : w.length ≤ IN6ADDRSZ) {j : Nat} (le : j ≤ n)
    : (List.range j).foldl
        (fun tmp k => (tmp.set (IN6ADDRSZ - (k + 1)) (tmp.getD (colonp + n - (k + 1)) 0)).set
          (colonp + n - (k + 1)) 0)
        (stored w)
      = moved w j := by
  induction j with
  | zero => simp [moved, stored]
  | succ j ih =>
      rw [List.range_succ, List.foldl_append, ih (by omega), List.foldl_cons, List.foldl_nil]
      obtain ⟨u, x, t, split, size⟩ : ∃ u x t, w = u ++ x :: t ∧ t.length = j := by
        have inside : w.length - (j + 1) < w.length := by omega
        refine ⟨w.take (w.length - (j + 1)), w[w.length - (j + 1)], w.drop (w.length - j), ?_, ?_⟩
        · have next : w.length - (j + 1) + 1 = w.length - j := by omega
          rw [← next, ← List.drop_eq_getElem_cons inside, List.take_append_drop]
        · rw [List.length_drop]
          omega
      have length : w.length = u.length + 1 + j := by simp [split, size]; omega
      have source : colonp + n - (j + 1) = u.length := by omega
      have target : IN6ADDRSZ - (j + 1) = u.length + (IN6ADDRSZ - w.length) := by omega
      have regroup : w = (u ++ [x]) ++ t := by simp [split]
      have kept : w.take (w.length - j) = u ++ [x] := by
        conv_lhs => rw [regroup]
        exact List.take_left' (by simp; omega)
      have gone : w.drop (w.length - j) = t := by
        conv_lhs => rw [regroup]
        exact List.drop_left' (by simp; omega)
      have kept' : w.take (w.length - (j + 1)) = u := by
        conv_lhs => rw [split]
        exact List.take_left' (by simp; omega)
      have gone' : w.drop (w.length - (j + 1)) = x :: t := by
        conv_lhs => rw [split]
        exact List.drop_left' (by simp; omega)
      rw [source, target]
      simp only [moved, kept, gone, kept', gone']
      generalize IN6ADDRSZ - w.length = d
      have round := shift_round u (if d = 0 then List.replicate j 0 else t) x d
      simp only [List.append_assoc, List.cons_append, List.nil_append] at round ⊢
      rw [show (u ++ x :: (List.replicate d 0 ++ if d = 0 then List.replicate j 0 else t)).getD
        u.length 0 = x by simp, round]
      by_cases full : d = 0
      · simp [full, List.replicate_succ]
      · simp [full]

/-- The shift opens the gap where `colonp` stands. -/
theorem shift_stored {w : List Byte} {colonp : Nat} (le : colonp ≤ w.length)
    (fits : w.length ≤ IN6ADDRSZ)
    : shift (stored w) colonp (w.length - colonp) = expand (w.take colonp) (w.drop colonp) := by
  have ends : colonp + (w.length - colonp) = w.length := by omega
  rw [shift, shift_rounds ends fits (Nat.le_refl _), moved, expand]
  have back : w.length - (w.length - colonp) = colonp := by omega
  have front : (w.take colonp).length = colonp := by simp [le]
  have whole : colonp + (w.drop colonp).length = w.length := by simp; omega
  rw [back, front, whole]
  by_cases full : w.length < IN6ADDRSZ
  · have gap : IN6ADDRSZ - w.length ≠ 0 := by omega
    simp [full, gap]
  · have size : w.length = IN6ADDRSZ := by omega
    simp [size]

-----------------------------------------------------------------------------------------
-- One character of the loop
-----------------------------------------------------------------------------------------

/-- The variables after the bytes `w` were stored and the digits `ds` of the next group were
read, with `text` still to come.
-/
def Pton6.at (w : List Byte) (colonp : Option Nat) (ds text : List Byte) : Pton6 where
  tmp := stored w
  tp := w.length
  colonp := colonp
  curtok := ds ++ text
  sawXdigit := !ds.isEmpty
  val := hexValue ds

/-- What `inet_pton6` returns from there. -/
def resume (w : List Byte) (colonp : Option Nat) (ds text : List Byte) : Option (List Byte) :=
  ((Pton6.at w colonp ds text).loop text).bind Pton6.finish

/-- What it returns at the end, when all bytes are stored. -/
def place (w : List Byte) (colonp : Option Nat) : Option (List Byte) :=
  match colonp with
  | some k => some (expand (w.take k) (w.drop k))
  | none => if w.length ≠ IN6ADDRSZ then none else some w

/-- `colonp` points at a byte that was stored, or behind the last. -/
def Inside (w : List Byte) (colonp : Option Nat) : Prop := ∀ k ∈ colonp, k ≤ w.length

/-- The place of the double colon stays inside. -/
theorem Inside.append {w : List Byte} {colonp : Option Nat} (inside : Inside w colonp)
    (bytes : List Byte)
    : Inside (w ++ bytes) colonp := by
  intro k member
  have := inside k member
  simp
  omega

/-- At the end the bytes are placed around the double colon. -/
theorem finish_placed {st : Pton6} {w : List Byte} (tmp : st.tmp = stored w)
    (tp : st.tp = w.length) (digits : st.sawXdigit = false) (inside : Inside w st.colonp)
    (fits : w.length ≤ IN6ADDRSZ)
    : st.finish = place w st.colonp := by
  cases colonp : st.colonp with
  | some k =>
      have le := inside k colonp
      simp [Pton6.finish, place, digits, colonp, tmp, tp, shift_stored le fits]
  | none =>
      by_cases full : w.length = IN6ADDRSZ
      · simp [Pton6.finish, place, digits, colonp, tmp, tp, full, stored]
      · simp [Pton6.finish, place, digits, colonp, tp, full]

/-- The value that was read is stored as the bytes of the group. -/
theorem putVal_at {w : List Byte} {colonp : Option Nat} {ds text : List Byte}
    : (Pton6.at w colonp ds text).putVal
      = if w.length + INT16SZ > IN6ADDRSZ then none
        else some { Pton6.at w colonp ds text with
          tmp := stored (w ++ groupBytes ds), tp := (w ++ groupBytes ds).length } := by
  by_cases room : w.length + INT16SZ > IN6ADDRSZ
  · simp [Pton6.putVal, Pton6.at, room]
  · have put := @Pton6.put_stored (Pton6.at w colonp ds text) w rfl rfl (groupBytes ds)
      (by simpa [groupBytes, INT16SZ] using room)
    have tp : (Pton6.at w colonp ds text).tp = w.length := rfl
    rw [Pton6.putVal, tp, if_neg room, if_neg room, ← put]
    rfl

/-- The parser at the end of the text. -/
theorem resume_end {w : List Byte} {colonp : Option Nat} {ds : List Byte}
    (inside : Inside w colonp) (fits : w.length ≤ IN6ADDRSZ)
    : resume w colonp ds []
      = if ds = [] then place w colonp
        else if w.length + INT16SZ > IN6ADDRSZ then none
        else place (w ++ groupBytes ds) colonp := by
  simp only [resume, Pton6.loop, Option.bind_some]
  by_cases empty : ds = []
  · rw [if_pos empty]
    exact finish_placed rfl rfl (by simp [Pton6.at, empty]) inside fits
  · rw [if_neg empty]
    have digits : (Pton6.at w colonp ds []).sawXdigit = true := by simp [Pton6.at, empty]
    by_cases room : w.length + INT16SZ > IN6ADDRSZ
    · simp [Pton6.finish, digits, putVal_at, room]
    · have last := @finish_placed
        { Pton6.at w colonp ds [] with
          tmp := stored (w ++ groupBytes ds), tp := (w ++ groupBytes ds).length
          sawXdigit := false }
        (w ++ groupBytes ds) rfl rfl rfl (inside.append _) (by simpa [groupBytes, INT16SZ] using room)
      rw [if_neg room]
      rw [show (Pton6.at w colonp ds []).colonp = colonp from rfl] at last
      rw [← last]
      simp [Pton6.finish, digits, putVal_at, room]

/-- The parser at a digit. -/
theorem resume_digit {w : List Byte} {colonp : Option Nat} {ds text : List Byte} {ch : Byte}
    (digit : (hexVal ch).isSome)
    : resume w colonp ds (ch :: text)
      = if hexValue (ds ++ [ch]) > 0xffff then none else resume w colonp (ds ++ [ch]) text := by
  obtain ⟨v, value⟩ := Option.isSome_iff_exists.mp digit
  have val : (Pton6.at w colonp ds (ch :: text)).val <<< 4 ||| v = hexValue (ds ++ [ch]) :=
    hexValue_snoc value
  have next : { Pton6.at w colonp ds (ch :: text) with
      val := hexValue (ds ++ [ch]), sawXdigit := true } = Pton6.at w colonp (ds ++ [ch]) text := by
    simp [Pton6.at]
  by_cases large : hexValue (ds ++ [ch]) > 0xffff
  · simp [resume, Pton6.loop, xdigit_eq, value, val, large]
  · simp only [resume, Pton6.loop, xdigit_eq, value, val, if_neg large, next]

/-- A colon is no digit. -/
theorem hexVal_colon : hexVal (ascii ':') = none := by decide

/-- A dot is no digit. -/
theorem hexVal_dot : hexVal (ascii '.') = none := by decide

/-- A colon with no digits before it. -/
theorem resume_colon {w : List Byte} {colonp : Option Nat} {text : List Byte}
    : resume w colonp [] (ascii ':' :: text)
      = if colonp.isSome then none else resume w (some w.length) [] text := by
  have digits : (Pton6.at w colonp [] (ascii ':' :: text)).sawXdigit = false := rfl
  have seen : (Pton6.at w colonp [] (ascii ':' :: text)).colonp = colonp := rfl
  have tp : (Pton6.at w colonp [] (ascii ':' :: text)).tp = w.length := rfl
  cases colonp with
  | some k => simp [resume, Pton6.loop, xdigit_eq, hexVal_colon, digits, seen]
  | none =>
      simp only [resume, Pton6.loop, xdigit_eq, hexVal_colon, if_true, digits, seen, tp,
        Bool.not_false, Option.isSome_none, Bool.false_eq_true, if_false]
      rfl

/-- A colon behind a group. -/
theorem resume_group {w : List Byte} {colonp : Option Nat} {ds text : List Byte} (hne : ds ≠ [])
    : resume w colonp ds (ascii ':' :: text)
      = if w.length + INT16SZ > IN6ADDRSZ then none
        else resume (w ++ groupBytes ds) colonp [] text := by
  have digits : (Pton6.at w colonp ds (ascii ':' :: text)).sawXdigit = true := by
    simp [Pton6.at, hne]
  by_cases room : w.length + INT16SZ > IN6ADDRSZ
  · simp [resume, Pton6.loop, xdigit_eq, hexVal_colon, digits, putVal_at, room]
  · simp only [resume, Pton6.loop, xdigit_eq, hexVal_colon, digits, putVal_at, if_neg room,
      if_true, Bool.not_true, Bool.false_eq_true, if_false, Option.bind_some]
    rfl

/-- An IPv4 address has four bytes. -/
theorem inetPton4_length {src addr : List Byte} (quad : inetPton4 src = some addr)
    : addr.length = INADDRSZ := by
  obtain ⟨front, last, three, _, _, _, rfl⟩ := inetPton4_eq_some.mp quad
  simp [three, INADDRSZ]

/-- A dot makes the rest of the text a dotted quad. -/
theorem resume_dot {w : List Byte} {colonp : Option Nat} {ds text : List Byte}
    (inside : Inside w colonp)
    : resume w colonp ds (ascii '.' :: text)
      = if w.length + INADDRSZ ≤ IN6ADDRSZ then
          (inetPton4 (ds ++ ascii '.' :: text)).bind fun quad => place (w ++ quad) colonp
        else none := by
  have other : ascii '.' ≠ ascii ':' := by decide
  have tp : (Pton6.at w colonp ds (ascii '.' :: text)).tp = w.length := rfl
  have curtok : (Pton6.at w colonp ds (ascii '.' :: text)).curtok = ds ++ ascii '.' :: text := rfl
  by_cases room : w.length + INADDRSZ ≤ IN6ADDRSZ
  · simp only [resume, Pton6.loop, xdigit_eq, hexVal_dot, if_neg other, tp, room, curtok,
      decide_true, Bool.and_self, if_true]
    cases parsed : inetPton4 (ds ++ ascii '.' :: text) with
    | none => rfl
    | some quad =>
        have size := inetPton4_length parsed
        have put := @Pton6.put_stored (Pton6.at w colonp ds (ascii '.' :: text)) w rfl rfl quad
          (by rw [size]; exact room)
        simp only [Option.map_some, Option.bind_some]
        rw [put]
        exact finish_placed rfl rfl rfl (inside.append _) (by simpa [size] using room)
  · simp [resume, Pton6.loop, xdigit_eq, hexVal_dot, other, tp, room]

/-- Every other character is refused. -/
theorem resume_other {w : List Byte} {colonp : Option Nat} {ds text : List Byte} {ch : Byte}
    (digit : hexVal ch = none) (colon : ch ≠ ascii ':') (dot : ch ≠ ascii '.')
    : resume w colonp ds (ch :: text) = none := by
  simp [resume, Pton6.loop, xdigit_eq, digit, colon, dot]

-----------------------------------------------------------------------------------------
-- What the loop accepts
-----------------------------------------------------------------------------------------

/-- From the middle of a text to its end: groups with a colon behind each, and then an ending
or the `::`.
-/
def Rest (w : List Byte) (colonp : Option Nat) (text addr : List Byte) : Prop :=
  ∃ groups rest, (∀ group ∈ groups, Group group) ∧ text = unlines (ascii ':') groups ++ rest
    ∧ ((∃ bytes, Ending rest bytes
          ∧ (w ++ (groups.flatMap groupBytes ++ bytes)).length ≤ IN6ADDRSZ
          ∧ place (w ++ (groups.flatMap groupBytes ++ bytes)) colonp = some addr)
      ∨ (colonp = none ∧ (w ++ groups.flatMap groupBytes).length ≤ IN6ADDRSZ
          ∧ ∃ after, rest = ascii ':' :: after
            ∧ resume (w ++ groups.flatMap groupBytes)
              (some (w ++ groups.flatMap groupBytes).length) [] after = some addr))

/-- A text that ends here. -/
theorem Rest.of_ending {w : List Byte} {colonp : Option Nat} {text bytes addr : List Byte}
    (last : Ending text bytes) (fits : (w ++ bytes).length ≤ IN6ADDRSZ)
    (placed : place (w ++ bytes) colonp = some addr)
    : Rest w colonp text addr :=
  ⟨[], text, by simp, rfl, Or.inl ⟨bytes, last, fits, placed⟩⟩

/-- A text that goes on behind a group. -/
theorem Rest.of_group {w : List Byte} {colonp : Option Nat} {ds text addr : List Byte}
    (group : Group ds) (rest : Rest (w ++ groupBytes ds) colonp text addr)
    : Rest w colonp (ds ++ ascii ':' :: text) addr := by
  obtain ⟨groups, rest, each, rfl, last⟩ := rest
  refine ⟨ds :: groups, rest, ?_, by simp, by simpa using last⟩
  intro g member
  rcases List.mem_cons.mp member with rfl | member
  · exact group
  · exact each g member

/-- What was accepted has the grammar, by induction on the text left. -/
theorem rest_of_resume {w : List Byte} {colonp : Option Nat} {ds text addr : List Byte}
    (fits : w.length ≤ IN6ADDRSZ) (inside : Inside w colonp) (digits : HexDigits ds)
    (small : hexValue ds ≤ 0xffff) (accepted : resume w colonp ds text = some addr)
    : Rest w colonp (ds ++ text) addr := by
  induction text generalizing w ds with
  | nil =>
      rw [resume_end inside fits] at accepted
      by_cases empty : ds = []
      · subst empty
        exact Rest.of_ending .nothing (by simpa using fits) (by simpa using accepted)
      · rw [if_neg empty, Option.ite_none_left_eq_some] at accepted
        obtain ⟨room, placed⟩ := accepted
        rw [List.append_nil]
        exact Rest.of_ending (.group ⟨empty, digits, small⟩)
          (by simpa [groupBytes, INT16SZ] using room) placed
  | cons ch text ih =>
      cases digit : hexVal ch with
      | some v =>
          rw [resume_digit (by simp [digit]), Option.ite_none_left_eq_some] at accepted
          obtain ⟨bound, accepted⟩ := accepted
          have extended : HexDigits (ds ++ [ch]) :=
            hexDigits_append.mpr ⟨digits, by simp [HexDigits, digit]⟩
          simpa using ih fits inside extended (by omega) accepted
      | none =>
          by_cases colon : ch = ascii ':'
          · subst colon
            by_cases empty : ds = []
            · subst empty
              rw [resume_colon, Option.ite_none_left_eq_some] at accepted
              obtain ⟨first, accepted⟩ := accepted
              exact ⟨[], ascii ':' :: text, by simp, rfl, Or.inr
                ⟨by simpa using first, by simpa using fits, text, rfl, by simpa using accepted⟩⟩
            · rw [resume_group empty, Option.ite_none_left_eq_some] at accepted
              obtain ⟨room, accepted⟩ := accepted
              refine Rest.of_group ⟨empty, digits, small⟩ (ih ?_ (inside.append _) ?_ ?_ accepted)
              · simpa [groupBytes, INT16SZ] using room
              · simp [HexDigits]
              · simp [hexValue]
          · by_cases dot : ch = ascii '.'
            · subst dot
              rw [resume_dot inside, Option.ite_none_right_eq_some] at accepted
              obtain ⟨room, accepted⟩ := accepted
              obtain ⟨quad, parsed, placed⟩ := Option.bind_eq_some_iff.mp accepted
              refine Rest.of_ending (.quad (inetPton4_eq_some.mp parsed)) ?_ placed
              rw [List.length_append, inetPton4_length parsed]
              exact room
            · rw [resume_other digit colon dot] at accepted
              cases accepted

/-- The parser over the digits of a group. -/
theorem resume_digits {w : List Byte} {colonp : Option Nat} (rest : List Byte) {ds more : List Byte}
    (digits : HexDigits more) (small : hexValue (ds ++ more) ≤ 0xffff)
    : resume w colonp ds (more ++ rest) = resume w colonp (ds ++ more) rest := by
  induction more generalizing ds with
  | nil => simp
  | cons b more ih =>
      have regroup : ds ++ b :: more = (ds ++ [b]) ++ more := by simp
      rw [regroup] at small ⊢
      have fits : hexValue (ds ++ [b]) ≤ 0xffff := by
        refine Nat.le_trans ?_ small
        simp only [hexValue, hexValueFrom_append]
        exact le_hexValueFrom _ _
      have tail : HexDigits more := fun c member => digits c (by simp [member])
      rw [List.cons_append, resume_digit (digits b (by simp)), if_neg (by omega)]
      exact ih tail small

/-- Groups with their colons are read one after the other. -/
theorem resume_groups {w : List Byte} {colonp : Option Nat} (rest : List Byte)
    {groups : List (List Byte)} (each : ∀ group ∈ groups, Group group)
    (fits : (w ++ groups.flatMap groupBytes).length ≤ IN6ADDRSZ)
    : resume w colonp [] (unlines (ascii ':') groups ++ rest)
      = resume (w ++ groups.flatMap groupBytes) colonp [] rest := by
  induction groups generalizing w with
  | nil => simp
  | cons group groups ih =>
      obtain ⟨nonempty, digits, small⟩ := each group (by simp)
      have room : ¬ w.length + INT16SZ > IN6ADDRSZ := by
        simp [groupBytes, INT16SZ] at fits ⊢
        omega
      rw [unlines_cons, List.append_assoc, List.cons_append,
        resume_digits _ digits (by simpa using small), List.nil_append, resume_group nonempty,
        if_neg room, ih (fun g member => each g (by simp [member])) (by simpa using fits)]
      simp

/-- A dotted quad begins with an octet and a dot. -/
theorem DottedQuad.head {text addr : List Byte} (quad : DottedQuad text addr)
    : ∃ first rest, Octet first ∧ text = first ++ ascii '.' :: rest := by
  obtain ⟨front, last, three, octets, _, rfl, _⟩ := quad
  cases front with
  | nil => simp at three
  | cons first front => exact ⟨first, _, octets first (by simp), by simp; rfl⟩

/-- The parser over an ending. -/
theorem resume_ending {w : List Byte} {colonp : Option Nat} {text bytes : List Byte}
    (last : Ending text bytes) (inside : Inside w colonp)
    (fits : (w ++ bytes).length ≤ IN6ADDRSZ)
    : resume w colonp [] text = place (w ++ bytes) colonp := by
  have before : w.length ≤ IN6ADDRSZ := by
    rw [List.length_append] at fits
    omega
  cases last with
  | nothing => simp [resume_end inside before]
  | group group =>
      obtain ⟨nonempty, digits, small⟩ := group
      have room : ¬ w.length + INT16SZ > IN6ADDRSZ := by
        simpa [groupBytes, INT16SZ] using fits
      have read := @resume_digits w colonp [] [] text digits (by simpa using small)
      rw [List.append_nil, List.nil_append] at read
      rw [read, resume_end inside before, if_neg nonempty, if_neg room]
  | quad quad =>
      obtain ⟨first, rest, octet, rfl⟩ := quad.head
      have parsed := inetPton4_eq_some.mpr quad
      have size := inetPton4_length parsed
      have room : w.length + INADDRSZ ≤ IN6ADDRSZ := by simpa [size] using fits
      rw [resume_digits _ octet.hex.1 (by simpa using octet.hex.2), resume_dot inside,
        if_pos room]
      simp [parsed]

/-- No text of the grammar but one with a leading `::` begins with a colon. -/
theorem head_ne_colon {text : List Byte} {b : Byte} (digit : (hexVal b).isSome)
    : (b :: text).head? ≠ some (ascii ':') := by
  intro head
  cases head
  simp [hexVal_colon] at digit

/-- A group does not start with a colon. -/
theorem Group.head {group : List Byte} (shape : Group group) (rest : List Byte)
    : (group ++ rest).head? ≠ some (ascii ':') := by
  obtain ⟨nonempty, digits, _⟩ := shape
  cases group with
  | nil => exact absurd rfl nonempty
  | cons b group => exact head_ne_colon (digits b (by simp))

/-- An ending does not start with a colon. -/
theorem Ending.head {text bytes : List Byte} (last : Ending text bytes)
    : text.head? ≠ some (ascii ':') := by
  cases last with
  | nothing => simp
  | group group => simpa using group.head []
  | quad quad =>
      obtain ⟨first, rest, octet, rfl⟩ := quad.head
      obtain ⟨nonempty, _, _⟩ := id octet
      cases first with
      | nil => exact absurd rfl nonempty
      | cons b first => exact head_ne_colon (octet.hex.1 b (by simp))

/-- Groups do not start with a colon. -/
theorem groups_head {groups : List (List Byte)} {rest : List Byte}
    (each : ∀ group ∈ groups, Group group) (last : rest.head? ≠ some (ascii ':'))
    : (unlines (ascii ':') groups ++ rest).head? ≠ some (ascii ':') := by
  cases groups with
  | nil => simpa using last
  | cons group groups =>
      rw [unlines_cons, List.append_assoc]
      exact (each group (by simp)).head _

-----------------------------------------------------------------------------------------
-- `inet_pton6`
-----------------------------------------------------------------------------------------

/-- Behind the `::`, in either direction. -/
theorem resume_squeezed {w after addr : List Byte} (fits : w.length ≤ IN6ADDRSZ)
    : resume w (some w.length) [] after = some addr
      ↔ ∃ groups ending bytes, (∀ group ∈ groups, Group group) ∧ Ending ending bytes
        ∧ (w ++ (groups.flatMap groupBytes ++ bytes)).length ≤ IN6ADDRSZ
        ∧ after = unlines (ascii ':') groups ++ ending
        ∧ addr = expand w (groups.flatMap groupBytes ++ bytes) := by
  have inside : Inside w (some w.length) := by
    intro k member
    cases member
    exact Nat.le_refl _
  constructor
  · intro accepted
    obtain ⟨groups, ending, each, text, last⟩ :=
      rest_of_resume fits inside (by simp [HexDigits]) (by simp [hexValue]) accepted
    rcases last with ⟨bytes, last, size, placed⟩ | ⟨squeezed, _⟩
    · refine ⟨groups, ending, bytes, each, last, size, by simpa using text, ?_⟩
      simpa [place, eq_comm] using placed
    · cases squeezed
  · rintro ⟨groups, ending, bytes, each, last, size, rfl, rfl⟩
    rw [← List.append_assoc] at size
    have before : (w ++ groups.flatMap groupBytes).length ≤ IN6ADDRSZ := by
      rw [List.length_append] at size
      omega
    rw [resume_groups _ each before, resume_ending last (inside.append _) size]
    simp [place]

/-- The parser after its leading colons. -/
theorem inetPton6_eq (src : List Byte)
    : inetPton6 src = (leadingColons src).bind (resume [] none []) := rfl

/-- What is accepted denotes the address. -/
theorem denotes_of_accepted {src addr : List Byte} (accepted : inetPton6 src = some addr)
    : Denotes6 src addr := by
  rw [inetPton6_eq] at accepted
  obtain ⟨text, leading, accepted⟩ := Option.bind_eq_some_iff.mp accepted
  by_cases colon : src.head? = some (ascii ':')
  · rw [leadingColons, if_pos colon, Option.ite_none_right_eq_some] at leading
    obtain ⟨second, same⟩ := leading
    cases same
    obtain ⟨after, tail⟩ : ∃ after, src.tail = ascii ':' :: after :=
      ⟨src.tail.tail, (List.cons_head?_tail second).symm⟩
    have whole : src = ascii ':' :: ascii ':' :: after := by
      rw [← tail]
      exact (List.cons_head?_tail colon).symm
    rw [tail, resume_colon] at accepted
    obtain ⟨groups, ending, bytes, each, last, size, rfl, rfl⟩ :=
      (@resume_squeezed [] after addr (by simp)).mp (by simpa using accepted)
    rw [whole]
    exact @Denotes6.squeezed [] groups ending bytes (by simp) each last (by simpa using size)
  · rw [leadingColons, if_neg colon] at leading
    cases leading
    obtain ⟨groups, rest, each, whole, last⟩ :=
      rest_of_resume (by simp) (by simp [Inside]) (by simp [HexDigits]) (by simp [hexValue])
        accepted
    rw [List.nil_append] at whole
    subst whole
    rcases last with ⟨bytes, last, _, placed⟩ | ⟨_, size, after, rfl, resumed⟩
    · simp only [List.nil_append, place, ne_eq, Option.ite_none_left_eq_some,
        not_not] at placed
      obtain ⟨full, same⟩ := placed
      cases same
      exact Denotes6.full each last full
    · obtain ⟨groups', ending, bytes, each', last, size', rfl, rfl⟩ :=
        (resume_squeezed size).mp resumed
      have nonempty : groups ≠ [] := by
        rintro rfl
        exact colon rfl
      have text := Denotes6.squeezed each each' last (by simpa using size')
      rw [if_neg nonempty] at text
      exact text

/-- What denotes an address is accepted. -/
theorem accepted_of_denotes {src addr : List Byte} (denotes : Denotes6 src addr)
    : inetPton6 src = some addr := by
  rw [inetPton6_eq]
  cases denotes with
  | @full groups ending bytes each last size =>
      have head := groups_head each last.head
      have before : ([] ++ groups.flatMap groupBytes).length ≤ IN6ADDRSZ := by
        rw [List.length_append] at size
        simp only [List.nil_append]
        omega
      have read := @resume_ending _ none _ _ last (by simp [Inside]) (le_of_eq size)
      rw [leadingColons, if_neg head, Option.bind_some, resume_groups _ each before,
        List.nil_append, read]
      simp [place, size]
  | @squeezed front back ending bytes each each' last size =>
      have room : (front.flatMap groupBytes).length ≤ IN6ADDRSZ := by
        rw [List.length_append] at size
        omega
      have after := (resume_squeezed room).mpr ⟨back, ending, bytes, each', last, size, rfl, rfl⟩
      by_cases empty : front = []
      · subst empty
        rw [if_pos rfl]
        simpa [leadingColons, resume_colon] using after
      · obtain ⟨group, groups, rfl⟩ := List.exists_cons_of_ne_nil empty
        have head : (unlines (ascii ':') (group :: groups)
            ++ ascii ':' :: (unlines (ascii ':') back ++ ending)).head? ≠ some (ascii ':') := by
          rw [unlines_cons, List.append_assoc]
          exact (each group (by simp)).head _
        rw [if_neg empty, leadingColons, if_neg head, Option.bind_some,
          resume_groups _ each (by simpa using room), List.nil_append, resume_colon]
        simpa using after

/-- `inet_pton6` accepts exactly the texts of the grammar, and stores what they denote. -/
theorem inetPton6_eq_some {src addr : List Byte}
    : inetPton6 src = some addr ↔ Denotes6 src addr :=
  ⟨denotes_of_accepted, accepted_of_denotes⟩

/-- `inet_pton` accepts dotted quads as IPv4 addresses and the grammar's texts as IPv6
addresses, and nothing else. Of an address that its groups fill, those after a `::` are
stored as zeros.
-/
theorem inetPton_accepts (af : Gai.Family) (src addr : List Byte)
    : inetPton af src = .ok (some addr)
      ↔ (af = .inet ∧ DottedQuad src addr) ∨ (af = .inet6 ∧ Denotes6 src addr) := by
  cases af with
  | inet => simp [inetPton, inetPton4_eq_some]
  | inet6 => simp [inetPton, inetPton6_eq_some]
  | «local» => simp [inetPton]
  | other number => simp [inetPton]

end Minions.Unp.Inet
