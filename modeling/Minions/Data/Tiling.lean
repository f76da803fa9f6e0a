import Minions.Data.Bytes

/-! Files that are concatenations of self-contained blocks.
A list of values is rendered by concatenating their encodings, and a value is addressed
by the offset at which its encoding starts. Replacing a value by one whose encoding has the
same length, and appending a value, are exactly a write inside the file and a write at
its end; no other address is affected.
-/

namespace Minions.Data

variable {α β : Type} (enc : α → List β)

/-- The file contents of a list of blocks. -/
def render (xs : List α) : List β := xs.flatMap enc

/-- The block that starts at `offset` when the first one starts at `base`. -/
def tileAt (base : Nat) : List α → Nat → Option α
  | [], _ => none
  | x :: xs, offset =>
      if offset = base then some x else tileAt (base + (enc x).length) xs offset

/-- Replace the block that starts at `offset`. -/
def tilePut (base : Nat) : List α → Nat → α → List α
  | [], _, _ => []
  | x :: xs, offset, y =>
      if offset = base then y :: xs
      else x :: tilePut (base + (enc x).length) xs offset y

variable {enc}

/-- No tiles take no bytes. -/
@[simp] theorem render_nil : render enc [] = [] := rfl

/-- The first tile comes first. -/
@[simp] theorem render_cons (x : α) (xs : List α)
    : render enc (x :: xs) = enc x ++ render enc xs := rfl

/-- Two lists of tiles one after the other. -/
@[simp] theorem render_append (xs ys : List α)
    : render enc (xs ++ ys) = render enc xs ++ render enc ys := by
  simp [render]

/-- A block found at an offset splits the list there. Witness: recursion along the list;
each skipped block moves the base by its encoded length.
-/
theorem tileAt_split {base offset : Nat} {xs : List α} {x : α}
    (h : tileAt enc base xs offset = some x)
    : ∃ before after, xs = before ++ x :: after
        ∧ offset = base + (render enc before).length
        ∧ ∀ y, tilePut enc base xs offset y = before ++ y :: after := by
  induction xs generalizing base with
  | nil => simp [tileAt] at h
  | cons z zs ih =>
      simp only [tileAt] at h
      by_cases here : offset = base
      · simp only [here, if_true, Option.some.injEq] at h
        subst h
        exact ⟨[], zs, rfl, by simpa using here, fun y => by simp [tilePut, here]⟩
      · rw [if_neg here] at h
        obtain ⟨before, after, split, place, put⟩ := ih h
        refine ⟨z :: before, after, by simp [split], ?_, fun y => ?_⟩
        · simp only [render_cons, List.length_append]
          omega
        · simp [tilePut, here, put y]

/-- A block starts inside the rendered range. -/
theorem tileAt_range {base offset : Nat} {xs : List α} {x : α}
    (h : tileAt enc base xs offset = some x)
    : base ≤ offset ∧ offset + (enc x).length ≤ base + (render enc xs).length := by
  obtain ⟨before, after, rfl, rfl, -⟩ := tileAt_split h
  simp only [render_append, render_cons, List.length_append]
  omega

/-- Replacing a block by one of the same length changes no other address. -/
theorem tileAt_put {base offset : Nat} {xs : List α} {x y : α}
    (h : tileAt enc base xs offset = some x) (same : (enc y).length = (enc x).length)
    (other : Nat)
    : tileAt enc base (tilePut enc base xs offset y) other
      = if other = offset then some y else tileAt enc base xs other := by
  induction xs generalizing base with
  | nil => simp [tileAt] at h
  | cons z zs ih =>
      simp only [tileAt] at h
      by_cases here : offset = base
      · simp only [here, if_true, Option.some.injEq] at h
        subst h
        by_cases that : other = base <;> simp [tilePut, tileAt, here, that, same]
      · rw [if_neg here] at h
        have beyond := (tileAt_range h).1
        simp only [tilePut, if_neg here, tileAt]
        by_cases that : other = base
        · have apart : other ≠ offset := by omega
          simp [that, Ne.symm here]
        · rw [if_neg that, if_neg that, ih h]

/-- Two blocks at different offsets do not overlap. -/
theorem tileAt_disjoint {base left right : Nat} {xs : List α} {x y : α}
    (hx : tileAt enc base xs left = some x) (hy : tileAt enc base xs right = some y)
    (lt : left < right)
    : left + (enc x).length ≤ right := by
  obtain ⟨before, after, rfl, rfl, -⟩ := tileAt_split hx
  by_contra overlap
  obtain ⟨before', after', split, place, -⟩ := tileAt_split hy
  -- The front of `y` would have to be longer than that of `x` and shorter than its end.
  have longer : before.length < before'.length := by
    by_contra short
    have front : before' <+: before :=
      List.prefix_of_prefix_length_le (split ▸ List.prefix_append before' (y :: after'))
        (List.prefix_append before (x :: after)) (by omega)
    obtain ⟨rest, rfl⟩ := front
    simp only [render_append, List.length_append] at lt place
    omega
  have front : before ++ [x] <+: before' := by
    have whole : before ++ [x] <+: before ++ x :: after := ⟨after, by simp⟩
    refine List.prefix_of_prefix_length_le whole
      (split ▸ List.prefix_append before' (y :: after')) ?_
    simp only [List.length_append, List.length_cons, List.length_nil]
    omega
  obtain ⟨rest, rfl⟩ := front
  simp only [render_append, render_cons, render_nil, List.length_append, List.length_nil]
    at overlap place
  omega

section Nonempty

variable (nonempty : ∀ x : α, 0 < (enc x).length)
include nonempty

/-- No block starts at the end of the rendered range. -/
theorem tileAt_end (base : Nat) (xs : List α)
    : tileAt enc base xs (base + (render enc xs).length) = none := by
  cases found : tileAt enc base xs (base + (render enc xs).length) with
  | none => rfl
  | some x =>
      have range := tileAt_range found
      have positive := nonempty x
      omega

/-- Appending a block adds one address, the old end of the range. -/
theorem tileAt_append (base offset : Nat) (xs : List α) (y : α)
    : tileAt enc base (xs ++ [y]) offset
      = if offset = base + (render enc xs).length then some y
        else tileAt enc base xs offset := by
  induction xs generalizing base with
  | nil => by_cases here : offset = base <;> simp [tileAt, here]
  | cons z zs ih =>
      have positive := nonempty z
      simp only [List.cons_append, tileAt, render_cons, List.length_append]
      by_cases here : offset = base
      · have inner : offset ≠ base + ((enc z).length + (render enc zs).length) := by omega
        rw [if_pos here, if_neg inner, if_pos here]
      · rw [if_neg here, if_neg here, ih]
        simp only [Nat.add_assoc]

/-- A block starts where the blocks before it end. -/
theorem tileAt_of_split (base : Nat) (before after : List α) (x : α)
    : tileAt enc base (before ++ x :: after) (base + (render enc before).length) = some x := by
  induction before generalizing base with
  | nil => simp [tileAt]
  | cons z before ih =>
      have positive := nonempty z
      have beyond : base + (render enc (z :: before)).length ≠ base := by
        simp only [render_cons, List.length_append]
        omega
      rw [List.cons_append, tileAt, if_neg beyond, render_cons, List.length_append, ← Nat.add_assoc]
      exact ih _

/-- Every position of the rendered range lies in some block. -/
theorem tileAt_covers {base position : Nat} {xs : List α} (low : base ≤ position)
    (high : position < base + (render enc xs).length)
    : ∃ offset x, tileAt enc base xs offset = some x
        ∧ offset ≤ position
        ∧ position < offset + (enc x).length := by
  induction xs generalizing base with
  | nil => exact absurd high (by simp only [render_nil, List.length_nil]; omega)
  | cons z zs ih =>
      have positive := nonempty z
      by_cases here : position < base + (enc z).length
      · exact ⟨base, z, by simp [tileAt], low, here⟩
      · have beyond : position < base + (enc z).length + (render enc zs).length := by
          simp only [render_cons, List.length_append] at high
          omega
        obtain ⟨offset, x, found, le, lt⟩ := ih (Nat.le_of_not_lt here) beyond
        have after := (tileAt_range found).1
        refine ⟨offset, x, ?_, le, lt⟩
        have apart : offset ≠ base := by omega
        simp [tileAt, apart, found]

end Nonempty

/-- Where a block lies in a file that starts with `header`. -/
theorem render_split (header : List β) {offset : Nat} {xs : List α} {x : α}
    (h : tileAt enc header.length xs offset = some x)
    : ∃ before after, header ++ render enc xs = before ++ enc x ++ after
        ∧ before.length = offset
        ∧ ∀ y, header ++ render enc (tilePut enc header.length xs offset y)
            = before ++ enc y ++ after := by
  obtain ⟨before, after, split, place, put⟩ := tileAt_split h
  refine ⟨header ++ render enc before, render enc after, ?_, ?_, fun y => ?_⟩
  · simp [split]
  · simp [place]
  · simp [put y]

/-- A write of a same-length block is a replacement of the block. -/
theorem pwrite_render {z : β} (header : List β) {offset : Nat} {xs : List α} {x y : α}
    (h : tileAt enc header.length xs offset = some x)
    (same : (enc y).length = (enc x).length)
    : pwrite z (header ++ render enc xs) offset (enc y)
      = header ++ render enc (tilePut enc header.length xs offset y) := by
  obtain ⟨before, after, old, rfl, new⟩ := render_split header h
  rw [old, new, pwrite_append same]

/-- A write at the end of file is an appended block. -/
theorem pwrite_render_end {z : β} {header : List β} {xs : List α} {y : α}
    : pwrite z (header ++ render enc xs) (header ++ render enc xs).length (enc y)
      = header ++ render enc (xs ++ [y]) := by
  rw [pwrite_end]
  simp

end Minions.Data
