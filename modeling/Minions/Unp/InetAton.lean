import Minions.Unp.InetNtop

/-! The older reader of IPv4 addresses, `libfree/inet_aton.c`: a `u_long` has `w` bits. -/

namespace Minions.Unp.Inet

open Minions.Data

/-- The variables of the loop. -/
structure Aton where
  dots : Nat := 0
  acc : Nat := 0
  addr : Nat := 0
deriving DecidableEq

/-- The end of a part; the case `'\0'`. -/
def Aton.close (w : Nat) (st : Aton) : Option Aton :=
  if st.acc > 255 then none
  else some { st with addr := (st.addr <<< 8 ||| st.acc) % 2 ^ w, acc := 0 }

/-- One character; `none` is `return 0`. -/
def Aton.step (w : Nat) (st : Aton) (cc : Byte) : Option Aton :=
  if isDigit cc then some { st with acc := (st.acc * 10 + (cc.toNat - 48)) % 2 ^ w }
  else if cc = ascii '.' then
    if st.dots + 1 > 3 then none else { st with dots := st.dots + 1 }.close w
  else if cc = 0 then st.close w
  else none

/-- `htonl`, of the low 32 bits. -/
def htonl (addr : Nat) : List Byte :=
  [UInt8.ofNat (addr >>> 24), UInt8.ofNat (addr >>> 16), UInt8.ofNat (addr >>> 8),
    UInt8.ofNat addr]

/-- `inet_aton`, up to the string's NUL: the address it stores, or `none` for 0. -/
def inetAton (w : Nat) (cp : List Byte) : Option (List Byte) := do
  let st ← (cp ++ [0]).foldlM (Aton.step w) {}
  some (htonl (if st.dots < 3 then (st.addr <<< (8 * (3 - st.dots))) % 2 ^ w else st.addr))

-----------------------------------------------------------------------------------------
-- What it accepts
-----------------------------------------------------------------------------------------

/-- Decimal digits, none at all included, of a number of one byte as a `u_long` counts. -/
def Part (w : Nat) (part : List Byte) : Prop :=
  (∀ b ∈ part, isDigit b = true) ∧ digitsValue part % 2 ^ w ≤ 255

def partByte (w : Nat) (part : List Byte) : Byte := UInt8.ofNat (digitsValue part % 2 ^ w)

/-- One to four parts with dots between them; the address ends in zeros where parts are
missing.
-/
def Dotted (w : Nat) (text addr : List Byte) : Prop :=
  ∃ front last, front.length ≤ 3 ∧ (∀ part ∈ front, Part w part) ∧ Part w last
    ∧ text = unlines (ascii '.') front ++ last
    ∧ addr = (front ++ [last]).map (partByte w) ++ List.replicate (3 - front.length) 0

/-- The number with the parts as its bytes. -/
def partsNumber (w : Nat) (parts : List (List Byte)) : Nat :=
  parts.foldl (fun addr part => addr * 256 + digitsValue part % 2 ^ w) 0

/-- The variables after the parts `front`, each with its dot, and the digits `cur`. -/
def Aton.at (w : Nat) (front : List (List Byte)) (cur : List Byte) : Aton where
  dots := front.length
  acc := digitsValue cur % 2 ^ w
  addr := partsNumber w front

variable {w : Nat}

/-- The number of the parts with one more part. -/
theorem partsNumber_snoc (front : List (List Byte)) (part : List Byte)
    : partsNumber w (front ++ [part]) = partsNumber w front * 256 + digitsValue part % 2 ^ w := by
  simp [partsNumber]

/-- The number of the parts is bounded by their count. -/
theorem partsNumber_lt {parts : List (List Byte)} (each : ∀ part ∈ parts, Part w part)
    : partsNumber w parts < 256 ^ parts.length := by
  induction parts using List.reverseRecOn with
  | nil => simp [partsNumber]
  | append_singleton parts part ih =>
      have before := ih fun p member => each p (by simp [member])
      have last := (each part (by simp)).2
      rw [partsNumber_snoc, List.length_append, List.length_singleton, pow_succ]
      omega

/-- A digit lengthens the current part. -/
theorem Aton.step_digit (front : List (List Byte)) (cur : List Byte) {cc : Byte}
    (digit : isDigit cc = true)
    : (Aton.at w front cur).step w cc = some (Aton.at w front (cur ++ [cc])) := by
  have value : (digitsValue cur % 2 ^ w * 10 + (cc.toNat - 48)) % 2 ^ w
      = digitsValue (cur ++ [cc]) % 2 ^ w := by
    rw [digitsValue_append, Nat.add_mod, Nat.mul_mod, Nat.mod_mod, ← Nat.mul_mod, ← Nat.add_mod,
      Nat.mul_comm]
  simp [Aton.step, digit, Aton.at, value]

/-- The end of a part, whichever character ends it. -/
theorem Aton.close_at {front : List (List Byte)} (cur : List Byte) (dots : Nat) (wide : 32 ≤ w)
    (short : front.length ≤ 3) (each : ∀ part ∈ front, Part w part)
    : ({ Aton.at w front cur with dots := dots } : Aton).close w
      = if digitsValue cur % 2 ^ w ≤ 255
        then some { dots := dots, acc := 0, addr := partsNumber w (front ++ [cur]) } else none := by
  by_cases fits : digitsValue cur % 2 ^ w ≤ 255
  · have before := partsNumber_lt each
    have size : 256 ^ front.length ≤ 256 ^ 3 := Nat.pow_le_pow_right (by omega) short
    have room : 2 ^ 32 ≤ 2 ^ w := Nat.pow_le_pow_right (by omega) wide
    have value : (partsNumber w front <<< 8 ||| digitsValue cur % 2 ^ w) % 2 ^ w
        = partsNumber w (front ++ [cur]) := by
      rw [← Nat.shiftLeft_add_eq_or_of_lt (by omega), Nat.shiftLeft_eq, partsNumber_snoc]
      exact Nat.mod_eq_of_lt (by omega)
    simp [Aton.close, Aton.at, fits, Nat.not_lt.mpr fits, value]
  · simp [Aton.close, Aton.at, fits, Nat.lt_of_not_le fits]

/-- A dot ends the current part, if it fits and is not the last. -/
theorem Aton.step_dot {front : List (List Byte)} {cur : List Byte} (wide : 32 ≤ w)
    (short : front.length ≤ 3) (each : ∀ part ∈ front, Part w part)
    : (Aton.at w front cur).step w (ascii '.')
      = if front.length < 3 ∧ digitsValue cur % 2 ^ w ≤ 255
        then some (Aton.at w (front ++ [cur]) []) else none := by
  have digit : isDigit (ascii '.') = false := by decide
  have dots : (Aton.at w front cur).dots = front.length := rfl
  have close := Aton.close_at cur (front.length + 1) wide short each
  by_cases room : front.length < 3
  · have stays : ¬ front.length + 1 > 3 := by omega
    simp only [Aton.step, digit, Bool.false_eq_true, if_false, if_true, dots, if_neg stays]
    rw [close]
    simp [room, Aton.at]
  · have full : front.length + 1 > 3 := by omega
    simp [Aton.step, digit, dots, room, full]

/-- Any other character is refused. -/
theorem Aton.step_other {st : Aton} {cc : Byte} (digit : isDigit cc = false)
    (dot : cc ≠ ascii '.') (nul : cc ≠ 0)
    : st.step w cc = none := by
  simp [Aton.step, digit, dot, nul]

/-- What the loop has read when its variables are `st`. -/
def Aton.Reads (w : Nat) (text : List Byte) (st : Aton) : Prop :=
  ∃ front cur, text = unlines (ascii '.') front ++ cur ∧ front.length ≤ 3
    ∧ (∀ part ∈ front, Part w part) ∧ (∀ b ∈ cur, isDigit b = true) ∧ st = Aton.at w front cur

/-- A step reads one more character. -/
theorem Aton.reads_step (wide : 32 ≤ w) {text : List Byte} {st st' : Aton} {cc : Byte}
    (reads : Aton.Reads w text st) (nul : cc ≠ 0) (step : st.step w cc = some st')
    : Aton.Reads w (text ++ [cc]) st' := by
  obtain ⟨front, cur, rfl, short, each, digits, rfl⟩ := reads
  cases digit : isDigit cc with
  | true =>
      rw [Aton.step_digit front cur digit] at step
      cases step
      refine ⟨front, cur ++ [cc], by simp, short, each, ?_, rfl⟩
      intro b member
      rcases List.mem_append.mp member with old | new
      · exact digits b old
      · rw [List.mem_singleton.mp new]
        exact digit
  | false =>
      by_cases dot : cc = ascii '.'
      · subst dot
        rw [Aton.step_dot wide short each, Option.ite_none_right_eq_some] at step
        obtain ⟨⟨room, fits⟩, same⟩ := step
        cases same
        refine ⟨front ++ [cur], [], by simp, by simp; omega, ?_, by simp, rfl⟩
        intro part member
        rcases List.mem_append.mp member with old | new
        · exact each part old
        · rw [List.mem_singleton.mp new]
          exact ⟨digits, fits⟩
      · rw [Aton.step_other digit dot nul] at step
        cases step

/-- The loop reads the rest of the text. -/
theorem Aton.reads_run (wide : 32 ≤ w) {text rest : List Byte} {st st' : Aton}
    (reads : Aton.Reads w text st) (string : ∀ b ∈ rest, b ≠ 0)
    (run : rest.foldlM (Aton.step w) st = some st')
    : Aton.Reads w (text ++ rest) st' := by
  induction rest generalizing text st with
  | nil =>
      cases run
      simpa using reads
  | cons cc rest ih =>
      rw [List.foldlM_cons] at run
      obtain ⟨next, step, run⟩ := Option.bind_eq_some_iff.mp run
      have := ih (Aton.reads_step wide reads (string cc (by simp)) step)
        (fun b member => string b (by simp [member])) run
      simpa using this

/-- The loop over digits. -/
theorem Aton.run_digits (front : List (List Byte)) (rest cur : List Byte) {ds : List Byte}
    (digits : ∀ b ∈ ds, isDigit b = true)
    : (ds ++ rest).foldlM (Aton.step w) (Aton.at w front cur)
      = rest.foldlM (Aton.step w) (Aton.at w front (cur ++ ds)) := by
  induction ds generalizing cur with
  | nil => simp
  | cons d ds ih =>
      rw [List.cons_append, List.foldlM_cons, Aton.step_digit front cur (digits d (by simp))]
      have next := ih (cur ++ [d]) fun b member => digits b (by simp [member])
      simpa using next

/-- The loop over parts that end in dots. -/
theorem Aton.run_parts (wide : 32 ≤ w) (front more : List (List Byte)) (rest : List Byte)
    (room : front.length + more.length ≤ 3) (each : ∀ part ∈ front ++ more, Part w part)
    : (unlines (ascii '.') more ++ rest).foldlM (Aton.step w) (Aton.at w front [])
      = rest.foldlM (Aton.step w) (Aton.at w (front ++ more) []) := by
  induction more generalizing front with
  | nil => simp
  | cons part more ih =>
      obtain ⟨digits, fits⟩ := each part (by simp)
      simp only [List.length_cons] at room
      rw [unlines_cons, List.append_assoc, List.cons_append, Aton.run_digits front _ [] digits,
        List.nil_append, List.foldlM_cons,
        Aton.step_dot wide (by omega) fun p member => each p (by simp [member]),
        if_pos ⟨by omega, fits⟩]
      have := ih (front ++ [part]) (by simp; omega) (by simpa using each)
      simpa using this

/-- The NUL ends the last part. -/
theorem Aton.step_nul {front : List (List Byte)} {cur : List Byte} (wide : 32 ≤ w)
    (short : front.length ≤ 3) (each : ∀ part ∈ front, Part w part)
    : (Aton.at w front cur).step w 0
      = if digitsValue cur % 2 ^ w ≤ 255
        then some { dots := front.length, acc := 0, addr := partsNumber w (front ++ [cur]) }
        else none := by
  have digit : isDigit 0 = false := by decide
  have dot : (0 : Byte) ≠ ascii '.' := by decide
  have close := Aton.close_at cur front.length wide short each
  simp only [Aton.step, digit, Bool.false_eq_true, if_false, if_neg dot, if_true]
  exact close

/-- The bytes of an address in network order. -/
theorem htonl_bytes {a b c d : Nat} (hb : b ≤ 255) (hc : c ≤ 255) (hd : d ≤ 255)
    : htonl (((a * 256 + b) * 256 + c) * 256 + d)
      = [UInt8.ofNat a, UInt8.ofNat b, UInt8.ofNat c, UInt8.ofNat d] := by
  have low : ∀ m n : Nat, m % 256 = n % 256 → UInt8.ofNat m = UInt8.ofNat n := by
    intro m n same
    apply UInt8.toNat_inj.mp
    rw [UInt8.toNat_ofNat', UInt8.toNat_ofNat']
    exact same
  generalize number : ((a * 256 + b) * 256 + c) * 256 + d = n
  have first : UInt8.ofNat (n / 2 ^ 24) = UInt8.ofNat a := low _ _ (by omega)
  have second : UInt8.ofNat (n / 2 ^ 16) = UInt8.ofNat b := low _ _ (by omega)
  have third : UInt8.ofNat (n / 2 ^ 8) = UInt8.ofNat c := low _ _ (by omega)
  have fourth : UInt8.ofNat n = UInt8.ofNat d := low _ _ (by omega)
  simp only [htonl, Nat.shiftRight_eq_div_pow, first, second, third, fourth]

/-- The number is normalised to four bytes, by the number of parts. -/
theorem htonl_parts (wide : 32 ≤ w) {front : List (List Byte)} {last : List Byte}
    (short : front.length ≤ 3) (each : ∀ part ∈ front, Part w part) (fits : Part w last)
    : htonl (if front.length < 3
        then (partsNumber w (front ++ [last]) <<< (8 * (3 - front.length))) % 2 ^ w
        else partsNumber w (front ++ [last]))
      = (front ++ [last]).map (partByte w) ++ List.replicate (3 - front.length) 0 := by
  have room : 2 ^ 32 ≤ 2 ^ w := Nat.pow_le_pow_right (by omega) wide
  have size := fits.2
  obtain _ | ⟨a, _ | ⟨b, _ | ⟨c, _ | ⟨d, front⟩⟩⟩⟩ := front
  · rw [if_pos (by simp), Nat.mod_eq_of_lt (by simp [partsNumber, Nat.shiftLeft_eq]; omega)]
    have bytes := htonl_bytes (a := digitsValue last % 2 ^ w) (Nat.zero_le _) (Nat.zero_le _) (Nat.zero_le _)
    simpa [partsNumber, Nat.shiftLeft_eq, partByte, Nat.mul_assoc] using bytes
  · have ha := (each a (by simp)).2
    rw [if_pos (by simp), Nat.mod_eq_of_lt (by simp [partsNumber, Nat.shiftLeft_eq]; omega)]
    have bytes := htonl_bytes (a := digitsValue a % 2 ^ w) size (Nat.zero_le _) (Nat.zero_le _)
    simpa [partsNumber, Nat.shiftLeft_eq, partByte, Nat.mul_assoc] using bytes
  · have ha := (each a (by simp)).2
    have hb := (each b (by simp)).2
    rw [if_pos (by simp), Nat.mod_eq_of_lt (by simp [partsNumber, Nat.shiftLeft_eq]; omega)]
    have bytes := htonl_bytes (a := digitsValue a % 2 ^ w) hb size (Nat.zero_le _)
    simpa [partsNumber, Nat.shiftLeft_eq, partByte, Nat.mul_assoc] using bytes
  · have ha := (each a (by simp)).2
    have hb := (each b (by simp)).2
    have hc := (each c (by simp)).2
    rw [if_neg (by simp)]
    have bytes := htonl_bytes (a := digitsValue a % 2 ^ w) hb hc size
    simpa [partsNumber, partByte] using bytes
  · simp only [List.length_cons] at short
    omega

/-- `inet_aton` accepts exactly one to four parts with dots between them, empty ones too, and
what `inet_pton4` accepts it reads as the same address.
-/
theorem inetAton_accepts (wide : 32 ≤ w) {text addr : List Byte} (string : ∀ b ∈ text, b ≠ 0)
    : (inetAton w text = some addr ↔ Dotted w text addr)
      ∧ (inetPton4 text = some addr → inetAton w text = some addr) := by
  have start : ({} : Aton) = Aton.at w [] [] := rfl
  have accepts : Dotted w text addr → inetAton w text = some addr := by
    rintro ⟨front, last, short, each, fits, rfl, rfl⟩
    have parts := Aton.run_parts wide [] front (last ++ [0]) (by simpa using short)
      (by simpa using each)
    have digits := Aton.run_digits (w := w) front [0] [] fits.1
    have run : (unlines (ascii '.') front ++ last ++ [0]).foldlM (Aton.step w) {}
        = some { dots := front.length, acc := 0, addr := partsNumber w (front ++ [last]) } := by
      rw [List.append_assoc, start, parts, List.nil_append, digits, List.nil_append,
        List.foldlM_cons, Aton.step_nul wide short each, if_pos fits.2]
      rfl
    rw [inetAton, run]
    exact congrArg some (htonl_parts wide short each fits)
  refine ⟨⟨fun accepted => ?_, accepts⟩, fun accepted => accepts ?_⟩
  · obtain ⟨st, run, same⟩ := Option.bind_eq_some_iff.mp accepted
    cases same
    rw [List.foldlM_append] at run
    obtain ⟨before, read, last⟩ := Option.bind_eq_some_iff.mp run
    have reads : Aton.Reads w [] {} := ⟨[], [], rfl, by simp, by simp, by simp, start⟩
    obtain ⟨front, cur, whole, short, each, digits, rfl⟩ :=
      Aton.reads_run wide reads string read
    rw [List.foldlM_cons, Aton.step_nul wide short each] at last
    obtain ⟨next, closed, same⟩ := Option.bind_eq_some_iff.mp last
    cases same
    rw [Option.ite_none_right_eq_some] at closed
    obtain ⟨fits, same⟩ := closed
    cases same
    exact ⟨front, cur, short, each, ⟨digits, fits⟩, by simpa using whole,
      htonl_parts wide short each ⟨digits, fits⟩⟩
  · obtain ⟨front, last, three, octets, octet, rfl, rfl⟩ := inetPton4_eq_some.mp accepted
    have room : 2 ^ 32 ≤ 2 ^ w := Nat.pow_le_pow_right (by omega) wide
    have part : ∀ group, Octet group → Part w group ∧ partByte w group = octetByte group := by
      intro group octet
      have small : digitsValue group % 2 ^ w = digitsValue group :=
        Nat.mod_eq_of_lt (by have := octet.2.2; omega)
      exact ⟨⟨octet.2.1, by rw [small]; exact octet.2.2⟩, by rw [partByte, small, octetByte]⟩
    refine ⟨front, last, by omega, fun group member => (part group (octets group member)).1,
      (part last octet).1, rfl, ?_⟩
    have bytes : front.map (partByte w) = front.map octetByte :=
      List.map_congr_left fun group member => (part group (octets group member)).2
    simp [three, bytes, (part last octet).2]

/-- Witness: `1..2` has an empty part, which `inet_pton4` refuses. -/
theorem inetAton_accepts_empty
    : inetAton 64 (['1', '.', '.', '2'].map ascii) = some [1, 0, 2, 0] :=
  (inetAton_accepts (by decide) (by decide +kernel)).1.mpr
    ⟨[['1'].map ascii, []], ['2'].map ascii, by decide +kernel, by
      simp only [Part]
      decide +kernel, by
      simp only [Part]
      decide +kernel, by decide +kernel, by decide +kernel⟩

end Minions.Unp.Inet
