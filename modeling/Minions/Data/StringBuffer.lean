import Minions.Data.Decimal

/-! Buffers that hold C strings.
A program that appends to a string in place relies on the bytes at the front of the buffer. The
lemmas speak only of this front; what lies behind it may be anything.
-/

namespace Minions.Data

/-- A buffer of `size` bytes. -/
structure StringBuffer where
  mem : Nat → Byte
  size : Nat

namespace StringBuffer

/-- The string in the buffer. -/
def text (buf : StringBuffer) : List Byte :=
  ((List.range buf.size).map buf.mem).takeWhile (· ≠ 0)

/-- Store one byte. There is no state after a store outside the buffer. -/
def put (buf : StringBuffer) (i : Int) (b : Byte) : Option StringBuffer :=
  if 0 ≤ i ∧ i < buf.size then some { buf with mem := Function.update buf.mem i.toNat b }
  else none

/-- Store the characters from index `i` on, and a NUL behind them. -/
def strcpy (buf : StringBuffer) : Int → List Byte → Option StringBuffer
  | i, [] => buf.put i 0
  | i, b :: rest => (buf.put i b).bind fun buf => buf.strcpy (i + 1) rest

/-- Store `n` bytes from index `i` on: characters, and NULs when there are no more. -/
def strncpy (buf : StringBuffer) : Int → List Byte → Nat → Option StringBuffer
  | _, _, 0 => some buf
  | i, [], n + 1 => (buf.put i 0).bind fun buf => buf.strncpy (i + 1) [] n
  | i, b :: rest, n + 1 => (buf.put i b).bind fun buf => buf.strncpy (i + 1) rest n

/-- A store leaves all other bytes. -/
theorem put_mem {buf next : StringBuffer} {i j : Nat} {b : Byte}
    (stored : buf.put i b = some next) (other : j ≠ i)
    : next.mem j = buf.mem j := by
  simp only [put, Option.ite_none_right_eq_some, Option.some.injEq] at stored
  obtain ⟨_, rfl⟩ := stored
  simp [other]

/-- `strcpy` leaves what is behind its copy. -/
theorem strcpy_mem {chars : List Byte} {buf next : StringBuffer} {i j : Nat}
    (copied : buf.strcpy i chars = some next) (behind : i + chars.length < j)
    : next.mem j = buf.mem j := by
  induction chars generalizing buf i with
  | nil => exact put_mem copied (by simp only [List.length_nil] at behind; omega)
  | cons b rest ih =>
      simp only [List.length_cons] at behind
      obtain ⟨middle, stored, copied⟩ := Option.bind_eq_some_iff.mp copied
      exact (ih (i := i + 1) (by simpa using copied) (by omega)).trans
        (put_mem stored (by omega))

/-- The bytes are at the front of the buffer. -/
def Starts (buf : StringBuffer) (front : List Byte) : Prop :=
  ∀ i b, front[i]? = some b → buf.mem i = b

namespace Starts

variable {buf : StringBuffer} {front rest : List Byte}

/-- Every buffer starts with nothing. -/
theorem nil (buf : StringBuffer) : buf.Starts [] := by
  intro i b found
  cases found

/-- A buffer starts with the front of what it starts with. -/
theorem left (starts : buf.Starts (front ++ rest)) : buf.Starts front := by
  intro i b found
  obtain ⟨low, _⟩ := List.getElem?_eq_some_iff.mp found
  exact starts i b (by rw [List.getElem?_append_left low, found])

/-- Only the bytes matter, not the size. -/
theorem resize (starts : buf.Starts front) (size : Nat)
    : Starts { buf with size } front := starts

/-- A character is put behind the text, where there is room. -/
theorem put (starts : buf.Starts front) (room : front.length < buf.size) (b : Byte)
    : ∃ next, buf.put front.length b = some next ∧ next.Starts (front ++ [b])
        ∧ next.size = buf.size := by
  refine ⟨{ buf with mem := Function.update buf.mem front.length b },
    by simp [StringBuffer.put, room], ?_, rfl⟩
  intro i c found
  by_cases last : i = front.length
  · subst last
    simpa using found
  · have low : i < front.length := by
      have := (List.getElem?_eq_some_iff.mp found).1
      simp only [List.length_append, List.length_singleton] at this
      omega
    rw [List.getElem?_append_left low] at found
    simpa [last] using starts i c found

/-- A string is copied behind the text, where there is room for it and its null. -/
theorem strcpy (chars : List Byte) {front : List Byte} {buf : StringBuffer}
    (starts : buf.Starts front) (room : front.length + chars.length < buf.size)
    : ∃ next, buf.strcpy front.length chars = some next
        ∧ next.Starts (front ++ chars ++ [0]) ∧ next.size = buf.size := by
  induction chars generalizing front buf with
  | nil => simpa [StringBuffer.strcpy] using starts.put (by simpa using room) 0
  | cons b rest ih =>
      simp only [List.length_cons] at room
      obtain ⟨middle, stored, begins, same⟩ := starts.put (by omega) b
      obtain ⟨next, copied, ends, kept⟩ :=
        ih begins (by simp only [List.length_append, List.length_singleton]; omega)
      refine ⟨next, ?_, by simpa using ends, kept.trans same⟩
      simpa [StringBuffer.strcpy, stored] using copied

/-- The text goes on with the character behind it. -/
theorem snoc {b : Byte} (starts : buf.Starts front) (behind : buf.mem front.length = b)
    : buf.Starts (front ++ [b]) := by
  intro i c found
  by_cases low : i < front.length
  · exact starts i c (by rwa [List.getElem?_append_left low] at found)
  · obtain ⟨high, same⟩ := List.getElem?_eq_some_iff.mp found
    simp only [List.length_append, List.length_singleton] at high
    obtain rfl : i = front.length := by omega
    rw [behind]
    simpa using same

/-- The string ends inside, or at the NUL behind the bytes that are stored. -/
theorem strncpy (chars : List Byte) (n : Nat) {front : List Byte} {buf : StringBuffer}
    (starts : buf.Starts front) (room : front.length + n ≤ buf.size)
    (stop : buf.mem (front.length + n) = 0)
    : ∃ next, buf.strncpy front.length chars n = some next
        ∧ next.Starts (front ++ chars.take n ++ [0]) ∧ next.size = buf.size
        ∧ next.mem (front.length + n) = 0 := by
  induction n generalizing chars front buf with
  | zero =>
      refine ⟨buf, ?_, by simpa using starts.snoc stop, rfl, stop⟩
      cases chars <;> rfl
  | succ n ih =>
      have first : ∀ b, ∃ middle, buf.put front.length b = some middle
          ∧ middle.Starts (front ++ [b]) ∧ middle.size = buf.size
          ∧ middle.mem ((front ++ [b]).length + n) = 0 := by
        intro b
        obtain ⟨middle, stored, begins, same⟩ := starts.put (by omega) b
        refine ⟨middle, stored, begins, same, ?_⟩
        have last : (front ++ [b]).length + n = front.length + (n + 1) := by
          simp only [List.length_append, List.length_singleton]
          omega
        rw [last, put_mem stored (by omega), stop]
      have length : ∀ b : Byte, (front ++ [b]).length = front.length + 1 := fun b => by simp
      cases chars with
      | nil =>
          obtain ⟨middle, stored, begins, same, kept⟩ := first 0
          obtain ⟨next, copied, ends, size, last⟩ :=
            ih [] begins (by simp only [length]; omega) kept
          simp only [List.take_nil, List.append_nil] at ends
          refine ⟨next, ?_, by simpa using ends.left, size.trans same, ?_⟩
          · simpa [StringBuffer.strncpy, stored] using copied
          · simpa [Nat.add_assoc, Nat.add_comm 1] using last
      | cons b rest =>
          obtain ⟨middle, stored, begins, same, kept⟩ := first b
          obtain ⟨next, copied, ends, size, last⟩ :=
            ih rest begins (by simp only [length]; omega) kept
          refine ⟨next, ?_, by simpa using ends, size.trans same, ?_⟩
          · simpa [StringBuffer.strncpy, stored] using copied
          · simpa [Nat.add_assoc, Nat.add_comm 1] using last

/-- A string at the front, with its NUL, is the string in the buffer. -/
theorem text (starts : buf.Starts (front ++ [0])) (chars : 0 ∉ front)
    (room : front.length < buf.size)
    : buf.text = front := by
  have bytes : (List.range front.length).map buf.mem = front := by
    apply List.ext_getElem (by simp)
    intro i _ low
    simpa using starts.left i front[i] (List.getElem?_eq_getElem low)
  have stop : buf.mem front.length = 0 := starts front.length 0 (by simp)
  obtain ⟨behind, size⟩ : ∃ behind, buf.size = front.length + (behind + 1) :=
    ⟨buf.size - front.length - 1, by omega⟩
  rw [StringBuffer.text, size, List.range_add, List.map_append, bytes, List.range_succ_eq_map]
  rw [List.takeWhile_append_of_pos]
  · simp [stop]
  · intro b member
    simpa using fun zero : b = 0 => chars (zero ▸ member)

end Starts

end StringBuffer

end Minions.Data
