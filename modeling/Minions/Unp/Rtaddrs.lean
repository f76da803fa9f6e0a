import Mathlib.Data.Nat.Bitwise

/-! `get_rtaddrs`: the socket addresses that follow the header of a routing message, one for
each bit of a mask.
-/

namespace Minions.Unp.Rtaddrs

def rtaxMax : Nat := 8

def rtaxIfp : Nat := 4

def rtaxIfa : Nat := 5

def rtaxBrd : Nat := 7

def sizeofULong : Nat := 8

/-- `ROUNDUP` -/
def roundup (a size : Nat) : Nat :=
  if a &&& (size - 1) ≠ 0 then 1 + (a ||| (size - 1)) else a

/-- A pointer to a `sockaddr`: what the buffer holds from there on. -/
abbrev Sa := List UInt8

def Sa.len (sa : Sa) : Nat := (sa.getD 0 0).toNat

def Sa.family (sa : Sa) : Nat := (sa.getD 1 0).toNat

/-- What is copied of a `sockaddr`. -/
def Sa.value (sa : Sa) : List UInt8 := sa.take sa.len

/-- How far `NEXT_SA` goes. -/
def stride (len : Nat) : Nat := if len ≠ 0 then roundup len sizeofULong else sizeofULong

/-- `NEXT_SA` -/
def Sa.next (sa : Sa) : Sa := sa.drop (stride sa.len)

/-- The loop of `get_rtaddrs` from a bit on: so many elements of `rti_info`. -/
def rtaddrsFrom (addrs i : Nat) : Nat → Sa → List (Option Sa)
  | 0, _ => []
  | todo + 1, sa =>
      if addrs.testBit i then some sa :: rtaddrsFrom addrs (i + 1) todo sa.next
      else none :: rtaddrsFrom addrs (i + 1) todo sa

/-- `rti_info` after `get_rtaddrs` -/
def getRtaddrs (addrs : Nat) (sa : Sa) : List (Option Sa) := rtaddrsFrom addrs 0 rtaxMax sa

-----------------------------------------------------------------------------------------
-- Rounding
-----------------------------------------------------------------------------------------

/-- Rounding up does not make smaller. -/
theorem le_roundup (a size : Nat) : a ≤ roundup a size := by
  unfold roundup
  split
  · have le : a ≤ a ||| (size - 1) := Nat.left_le_or
    omega
  · exact Nat.le_refl a

/-- The macro rounds to a multiple of the size, a power of two. -/
theorem dvd_roundup (a k : Nat) : 2 ^ k ∣ roundup a (2 ^ k) := by
  have pos : 0 < 2 ^ k := Nat.two_pow_pos k
  unfold roundup
  rw [Nat.and_two_pow_sub_one_eq_mod]
  split
  · have low : (2 ^ k - 1) % 2 ^ k = 2 ^ k - 1 := Nat.mod_eq_of_lt (by omega)
    have ones : (a ||| (2 ^ k - 1)) % 2 ^ k = 2 ^ k - 1 := by
      rw [Nat.or_mod_two_pow, low]
      have below : a % 2 ^ k ||| (2 ^ k - 1) < 2 ^ k :=
        Nat.or_lt_two_pow (Nat.mod_lt a pos) (by omega)
      have above : 2 ^ k - 1 ≤ a % 2 ^ k ||| (2 ^ k - 1) := Nat.right_le_or
      omega
    have parts := Nat.div_add_mod (a ||| (2 ^ k - 1)) (2 ^ k)
    rw [ones] at parts
    refine ⟨(a ||| (2 ^ k - 1)) / 2 ^ k + 1, ?_⟩
    rw [Nat.mul_add, Nat.mul_one]
    omega
  · exact Nat.dvd_of_mod_eq_zero (by omega)

/-- An address is no longer than its stride. -/
theorem le_stride (len : Nat) : len ≤ stride len := by
  unfold stride
  split
  · exact le_roundup len sizeofULong
  · omega

/-- A stride is at least one word. -/
theorem sizeofULong_le_stride (len : Nat) : sizeofULong ≤ stride len := by
  unfold stride
  split
  · have le := le_roundup len sizeofULong
    exact Nat.le_of_dvd (by omega) (dvd_roundup len 3)
  · exact Nat.le_refl _

-----------------------------------------------------------------------------------------
-- Messages as they are laid out
-----------------------------------------------------------------------------------------

/-- A socket address with what fills it up to the next one. -/
structure SockAddr where
  bytes : Sa
  filled : bytes.length = stride bytes.len

/-- An address has at least its header. -/
theorem SockAddr.header_le (s : SockAddr) : 8 ≤ s.bytes.length := by
  rw [s.filled]
  exact sizeofULong_le_stride _

/-- The length byte is at most the number of bytes. -/
theorem SockAddr.len_le (s : SockAddr) : s.bytes.len ≤ s.bytes.length := by
  rw [s.filled]
  exact le_stride _

/-- A byte of a header is read from the address itself, whatever follows it. -/
theorem SockAddr.getD_append (s : SockAddr) (more : List UInt8) {i : Nat} (header : i < 8)
    : (s.bytes ++ more).getD i 0 = s.bytes.getD i 0 := by
  have long := s.header_le
  exact List.getD_append s.bytes more 0 i (by omega)

/-- The length lies in front of what follows. -/
@[simp]
theorem SockAddr.len_append (s : SockAddr) (more : List UInt8)
    : Sa.len (s.bytes ++ more) = s.bytes.len := by
  rw [Sa.len, s.getD_append more (by decide), Sa.len]

/-- The family lies in front of what follows. -/
@[simp]
theorem SockAddr.family_append (s : SockAddr) (more : List UInt8)
    : Sa.family (s.bytes ++ more) = s.bytes.family := by
  rw [Sa.family, s.getD_append more (by decide), Sa.family]

/-- The address lies in front of what follows. -/
@[simp]
theorem SockAddr.value_append (s : SockAddr) (more : List UInt8)
    : Sa.value (s.bytes ++ more) = s.bytes.value := by
  rw [Sa.value, s.len_append, List.take_append_of_le_length s.len_le, Sa.value]

/-- Behind an address comes what follows. -/
@[simp]
theorem SockAddr.next_append (s : SockAddr) (more : List UInt8)
    : Sa.next (s.bytes ++ more) = more := by
  rw [Sa.next, s.len_append, ← s.filled, List.drop_left]

/-- The addresses from a bit on, one after another. -/
def layout (sas : Nat → Option SockAddr) (i : Nat) : Nat → List UInt8
  | 0 => []
  | todo + 1 =>
      match sas i with
      | some s => s.bytes ++ layout sas (i + 1) todo
      | none => layout sas (i + 1) todo

/-- The mask and the addresses of a message, and what follows them in the buffer. -/
structure Addrs where
  addrs : Nat
  sas : Nat → Option SockAddr
  after : List UInt8
  present : ∀ i < rtaxMax, addrs.testBit i = (sas i).isSome

/-- What the buffer holds behind the header of the message. -/
def Addrs.area (m : Addrs) : List UInt8 := layout m.sas 0 rtaxMax ++ m.after

/-- What the buffer holds behind an address. -/
def Addrs.behind (m : Addrs) (i : Nat) : List UInt8 :=
  layout m.sas (i + 1) (rtaxMax - (i + 1)) ++ m.after

/-- The loop finds the addresses that are laid out, by induction on the bits to come. -/
theorem getD_rtaddrsFrom {addrs todo i j : Nat} {sas : Nat → Option SockAddr}
    (present : ∀ k, i ≤ k → k < i + todo → addrs.testBit k = (sas k).isSome)
    (after : List UInt8) (later : j < todo)
    : (rtaddrsFrom addrs i todo (layout sas i todo ++ after)).getD j none
      = (sas (i + j)).map fun s =>
          s.bytes ++ (layout sas (i + j + 1) (todo - (j + 1)) ++ after) := by
  induction todo generalizing i j with
  | zero => omega
  | succ todo ih =>
      have bit := present i (by omega) (by omega)
      have rest : ∀ k, i + 1 ≤ k → k < i + 1 + todo → addrs.testBit k = (sas k).isSome :=
        fun k low high => present k (by omega) (by omega)
      cases here : sas i with
      | none =>
          rw [here, Option.isSome_none] at bit
          simp only [rtaddrsFrom, layout, here, bit, Bool.false_eq_true, if_false]
          cases j with
          | zero => simp [here]
          | succ j =>
              have found := ih rest (j := j) (by omega)
              rw [List.getD_cons_succ, found]
              simp only [Nat.add_right_comm i 1 j, Nat.add_assoc, Nat.add_sub_add_right]
      | some s =>
          rw [here, Option.isSome_some] at bit
          simp only [rtaddrsFrom, layout, here, bit, if_true, List.append_assoc,
            SockAddr.next_append]
          cases j with
          | zero => simp [here]
          | succ j =>
              have found := ih rest (j := j) (by omega)
              rw [List.getD_cons_succ, found]
              simp only [Nat.add_right_comm i 1 j, Nat.add_assoc, Nat.add_sub_add_right]

/-- The address of each slot. -/
theorem getD_getRtaddrs (m : Addrs) {i : Nat} (slot : i < rtaxMax)
    : (getRtaddrs m.addrs m.area).getD i none
      = (m.sas i).map fun s => s.bytes ++ m.behind i := by
  have present : ∀ k, 0 ≤ k → k < 0 + rtaxMax → m.addrs.testBit k = (m.sas k).isSome :=
    fun k _ high => m.present k (by omega)
  rw [getRtaddrs, Addrs.area, getD_rtaddrsFrom present m.after slot]
  simp only [Nat.zero_add, Addrs.behind]

end Minions.Unp.Rtaddrs
