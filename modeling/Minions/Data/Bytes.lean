import Mathlib.Data.List.Basic

/-! Files as sequences of elements, read and overwritten at an offset.
An update that stays inside the file replaces a block by a block of the same length; an
update at the end of the file appends.
-/

namespace Minions.Data

variable {α : Type}

/-- The elements a read of `n` elements at `offset` returns; short at the end of file. -/
def pread (file : List α) (offset n : Nat) : List α := (file.drop offset).take n

/-- The file after writing `block` at `offset`. A gap before `offset` is filled with `z`,
as a write beyond the end of a file is.
-/
def pwrite (z : α) (file : List α) (offset : Nat) (block : List α) : List α :=
  file.take offset ++ List.replicate (offset - file.length) z ++ block
    ++ file.drop (offset + block.length)

/-- A read that starts at a known split and stops inside its block returns its front. -/
theorem pread_append_take {before block after : List α} {n : Nat} (h : n ≤ block.length)
    : pread (before ++ block ++ after) before.length n = block.take n := by
  simp [pread, List.append_assoc, List.take_append_of_le_length h]

/-- A read of a whole block at its offset returns the block. -/
theorem pread_append (before block after : List α)
    : pread (before ++ block ++ after) before.length block.length = block := by
  rw [pread_append_take (Nat.le_refl _), List.take_length]

/-- Reading at or past the end of file returns nothing. -/
theorem pread_end {file : List α} {offset n : Nat} (h : file.length ≤ offset)
    : pread file offset n = [] := by
  simp [pread, List.drop_eq_nil_of_le h]

/-- What is appended to a file does not change a read that was not short. -/
theorem pread_grown {file file' : List α} (begins : file <+: file') {offset n : Nat}
    (full : (pread file offset n).length = n)
    : pread file' offset n = pread file offset n := by
  obtain ⟨rest, rfl⟩ := begins
  have enough : n = 0 ∨ offset ≤ file.length ∧ n ≤ (file.drop offset).length := by
    simp only [pread, List.length_take, List.length_drop] at full ⊢
    omega
  rcases enough with rfl | ⟨inside, enough⟩
  · simp [pread]
  · rw [pread, List.drop_append_of_le_length inside, List.take_append_of_le_length enough, pread]

/-- A block that is read splits the file. -/
theorem exists_of_pread {file block : List α} {offset n : Nat} (h : pread file offset n = block)
    (hne : block ≠ [])
    : ∃ before after, file = before ++ block ++ after ∧ before.length = offset := by
  have inside : offset ≤ file.length := by
    apply Classical.byContradiction
    intro beyond
    rw [pread_end (by omega)] at h
    exact hne h.symm
  refine ⟨file.take offset, (file.drop offset).drop n, ?_, ?_⟩
  · rw [← h, pread, List.append_assoc, List.take_append_drop, List.take_append_drop]
  · rw [List.length_take]
    omega

/-- A written block stands in the file at its offset. -/
theorem exists_pwrite (z : α) (file : List α) (offset : Nat) (block : List α)
    : ∃ before after,
        pwrite z file offset block = before ++ block ++ after ∧ before.length = offset := by
  refine ⟨file.take offset ++ List.replicate (offset - file.length) z,
    file.drop (offset + block.length), rfl, ?_⟩
  simp only [List.length_append, List.length_take, List.length_replicate]
  omega

/-- A write leaves what stands before it. -/
theorem pwrite_behind (z : α) (before after block : List α)
    : pwrite z (before ++ after) before.length block
      = before ++ block ++ after.drop block.length := by
  have gap : before.length - (before ++ after).length = 0 := by
    simp only [List.length_append]
    omega
  rw [pwrite, gap, List.replicate_zero, List.append_nil, List.take_left, List.drop_append]
  simp

/-- Overwriting a block by one of the same length changes only that block. -/
theorem pwrite_append {z : α} {before block block' after : List α}
    (h : block'.length = block.length)
    : pwrite z (before ++ block ++ after) before.length block'
      = before ++ block' ++ after := by
  rw [List.append_assoc, pwrite_behind, h, List.drop_left]

/-- Writing at the end of file appends. -/
theorem pwrite_end {z : α} (file block : List α)
    : pwrite z file file.length block = file ++ block := by
  simp [pwrite]

/-- A write grows the file as far as the written block reaches. -/
theorem length_pwrite (z : α) (file : List α) (offset : Nat) (block : List α)
    : (pwrite z file offset block).length = max file.length (offset + block.length) := by
  simp only [pwrite, List.length_append, List.length_take, List.length_replicate,
    List.length_drop]
  omega

/-- Inside the written block the file holds the block. -/
theorem getElem?_pwrite_inside {z : α} {file block : List α} {offset p : Nat}
    (from_ : offset ≤ p) (below : p < offset + block.length)
    : (pwrite z file offset block)[p]? = block[p - offset]? := by
  have start : (file.take offset ++ List.replicate (offset - file.length) z).length = offset := by
    simp only [List.length_append, List.length_take, List.length_replicate]
    omega
  unfold pwrite
  rw [List.append_assoc, List.getElem?_append_right (by omega), start,
    List.getElem?_append_left (by omega)]

/-- Outside the written block, what the file held stays. -/
theorem getElem?_pwrite_outside {z x : α} {file block : List α} {offset p : Nat}
    (outside : p < offset ∨ offset + block.length ≤ p) (before : file[p]? = some x)
    : (pwrite z file offset block)[p]? = some x := by
  have inside : p < file.length := by
    apply Classical.byContradiction
    intro beyond
    rw [List.getElem?_eq_none (by omega)] at before
    cases before
  have start : (file.take offset ++ List.replicate (offset - file.length) z).length = offset := by
    simp only [List.length_append, List.length_take, List.length_replicate]
    omega
  unfold pwrite
  rcases outside with first | rest
  · rw [List.append_assoc, List.getElem?_append_left (by omega),
      List.getElem?_append_left (by rw [List.length_take]; omega), List.getElem?_take_of_lt first]
    exact before
  · rw [List.getElem?_append_right (by rw [List.length_append]; omega), List.length_append, start,
      List.getElem?_drop]
    rw [← before]
    congr 1
    omega

end Minions.Data
