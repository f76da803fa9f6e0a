import Minions.Data.LinkedList

/-! Doubly linked lists in a heap.
`next a` and `prev a` are the two links of the cell at address `a`, if there is one; 0 is the
null pointer. A segment is a run of cells between a cell before it and a cell after it, so
that segments compose, and a list is a segment between null pointers.
-/

namespace Minions.Data

/-- The cells `l` are linked both ways. `first` and `last` are the ends of the run; the cell
before it is `before` and the cell after it is `after`.
-/
def Segment (next prev : Nat → Option Nat)
    : (before first : Nat) → List Nat → (last after : Nat) → Prop
  | before, first, [], last, after => first = after ∧ last = before
  | before, first, x :: rest, last, after =>
      first = x ∧ x ≠ 0 ∧ prev x = some before
      ∧ ∃ n, next x = some n ∧ Segment next prev x n rest last after

/-- A list with head `first` and tail `last`: both ends are null. -/
abbrev DLinked (next prev : Nat → Option Nat) (first : Nat) (l : List Nat) (last : Nat) : Prop :=
  Segment next prev 0 first l last 0

variable {next prev next' prev' : Nat → Option Nat} {b b' f t a a' x : Nat} {l l₁ l₂ : List Nat}

/-- A segment can be cut anywhere. -/
theorem Segment.append
    : Segment next prev b f (l₁ ++ l₂) t a
      ↔ ∃ m n, Segment next prev b f l₁ m n ∧ Segment next prev m n l₂ t a := by
  induction l₁ generalizing b f with
  | nil =>
      constructor
      · exact fun h => ⟨b, f, ⟨rfl, rfl⟩, h⟩
      · rintro ⟨m, n, ⟨rfl, rfl⟩, h⟩
        exact h
  | cons y rest ih =>
      constructor
      · rintro ⟨first, nonzero, back, n, forth, h⟩
        obtain ⟨m, k, h₁, h₂⟩ := ih.mp h
        exact ⟨m, k, ⟨first, nonzero, back, n, forth, h₁⟩, h₂⟩
      · rintro ⟨m, k, ⟨first, nonzero, back, n, forth, h₁⟩, h₂⟩
        exact ⟨first, nonzero, back, n, forth, ih.mpr ⟨m, k, h₁, h₂⟩⟩

/-- No cell of a segment is the null pointer. -/
theorem Segment.ne_zero (h : Segment next prev b f l t a) {y : Nat} (member : y ∈ l) : y ≠ 0 := by
  induction l generalizing b f with
  | nil => simp at member
  | cons z rest ih =>
      obtain ⟨-, nonzero, -, n, -, tail⟩ := h
      rcases List.mem_cons.mp member with rfl | later
      · exact nonzero
      · exact ih tail later

/-- Every cell of a segment exists. -/
theorem Segment.exists_ (h : Segment next prev b f l t a) {y : Nat} (member : y ∈ l)
    : (∃ n, next y = some n) ∧ ∃ p, prev y = some p := by
  induction l generalizing b f with
  | nil => simp at member
  | cons z rest ih =>
      obtain ⟨-, -, back, n, forth, tail⟩ := h
      rcases List.mem_cons.mp member with rfl | later
      · exact ⟨⟨n, forth⟩, b, back⟩
      · exact ih tail later

/-- The last cell of a segment is one of its cells. -/
theorem Segment.last_mem (h : Segment next prev b f l t a) (cons : l ≠ []) : t ∈ l := by
  induction l generalizing b f with
  | nil => exact absurd rfl cons
  | cons z rest ih =>
      obtain ⟨-, -, -, n, -, tail⟩ := h
      cases rest with
      | nil =>
          obtain ⟨-, rfl⟩ := tail
          simp
      | cons y rest' => exact List.mem_cons_of_mem _ (ih tail (by simp))

/-- The first cell of a segment is one of its cells. -/
theorem Segment.first_mem (h : Segment next prev b f l t a) (cons : l ≠ []) : f ∈ l := by
  cases l with
  | nil => exact absurd rfl cons
  | cons z rest => simp [h.1]

/-- A list is a singly linked list that starts at a virtual cell 0. -/
theorem Segment.linked {entry : Nat → Option Nat} (h : Segment next prev b f l t 0)
    (start : entry b = some f) (same : ∀ y ∈ l, entry y = next y)
    : Linked entry b l := by
  induction l generalizing b f with
  | nil =>
      obtain ⟨rfl, -⟩ := h
      exact start
  | cons z rest ih =>
      obtain ⟨rfl, nonzero, -, n, forth, tail⟩ := h
      refine ⟨start, nonzero, ih tail ?_ fun y member => same y (by simp [member])⟩
      rw [same f (by simp), forth]

/-- A list visits no cell twice. -/
theorem Segment.nodup (h : DLinked next prev f l t) : l.Nodup := by
  have linked : Linked (Function.update next 0 (some f)) 0 l :=
    h.linked (Function.update_self _ _ _) fun y member =>
      Function.update_of_ne (h.ne_zero member) _ _
  exact (List.nodup_cons.mp linked.nodup).2

/-- The head pointer is null exactly for the empty list. -/
theorem Segment.first_eq_zero (h : DLinked next prev f l t) : f = 0 ↔ l = [] := by
  constructor
  · intro zero
    by_contra cons
    exact h.ne_zero (h.first_mem cons) zero
  · rintro rfl
    exact h.1

/-- The tail pointer is null exactly for the empty list. -/
theorem Segment.last_eq_zero (h : DLinked next prev f l t) : t = 0 ↔ l = [] := by
  constructor
  · intro zero
    by_contra cons
    exact h.ne_zero (h.last_mem cons) zero
  · rintro rfl
    exact h.2

/-- A segment depends only on its cells. -/
theorem Segment.congr (h : Segment next prev b f l t a) (nexts : ∀ y ∈ l, next' y = next y)
    (prevs : ∀ y ∈ l, prev' y = prev y)
    : Segment next' prev' b f l t a := by
  induction l generalizing b f with
  | nil => exact h
  | cons z rest ih =>
      obtain ⟨rfl, nonzero, back, n, forth, tail⟩ := h
      exact ⟨rfl, nonzero, (prevs f (by simp)).trans back, n, (nexts f (by simp)).trans forth,
        ih tail (fun y member => nexts y (by simp [member]))
          fun y member => prevs y (by simp [member])⟩

/-- The last cell leads to the cell after the segment. -/
theorem Segment.next_last (h : Segment next prev b f l t a) (cons : l ≠ []) : next t = some a := by
  induction l generalizing b f with
  | nil => exact absurd rfl cons
  | cons z rest ih =>
      obtain ⟨-, -, -, n, forth, tail⟩ := h
      cases rest with
      | nil =>
          obtain ⟨rfl, rfl⟩ := tail
          exact forth
      | cons y rest' => exact ih tail (by simp)

/-- Following `next` and then `prev` leads back. -/
theorem Segment.prev_next (h : DLinked next prev f l t) {y z : Nat} (member : y ∈ l)
    (forth : next y = some z) (nonzero : z ≠ 0)
    : prev z = some y := by
  obtain ⟨l₁, l₂, rfl⟩ := List.append_of_mem member
  obtain ⟨m, n, -, -, -, -, k, link, tail⟩ := Segment.append.mp h
  obtain rfl : k = z := Option.some.inj (link.symm.trans forth)
  cases l₂ with
  | nil => exact absurd tail.1 nonzero
  | cons w rest =>
      obtain ⟨rfl, -, back, -⟩ := tail
      exact back

/-- Following `prev` and then `next` leads back. -/
theorem Segment.next_prev (h : DLinked next prev f l t) {y z : Nat} (member : y ∈ l)
    (back : prev y = some z) (nonzero : z ≠ 0)
    : next z = some y := by
  obtain ⟨l₁, l₂, rfl⟩ := List.append_of_mem member
  obtain ⟨m, n, front, rfl, -, link, -⟩ := Segment.append.mp h
  obtain rfl : m = z := Option.some.inj (link.symm.trans back)
  cases l₁ with
  | nil => exact absurd front.2 nonzero
  | cons w rest => exact front.next_last (by simp)

/-- The cells on either side of a cell of a list are cells of the list, where they exist. -/
theorem Segment.neighbours {m n : Nat} (h : DLinked next prev f (l₁ ++ x :: l₂) t)
    (forth : next x = some n) (back : prev x = some m)
    : (n ≠ 0 → n ∈ l₂) ∧ (m ≠ 0 → m ∈ l₁) := by
  obtain ⟨m', x', front, rfl, -, back', n', forth', tail⟩ := Segment.append.mp h
  obtain rfl : m' = m := Option.some.inj (back'.symm.trans back)
  obtain rfl : n' = n := Option.some.inj (forth'.symm.trans forth)
  constructor
  · intro nonzero
    refine tail.first_mem fun nil => nonzero ?_
    subst nil
    exact tail.1
  · intro nonzero
    refine front.last_mem fun nil => nonzero ?_
    subst nil
    exact front.2

/-- A cell of a list is its head if no cell is before it, and its tail if none is after it. -/
theorem Segment.ends {m n : Nat} (h : DLinked next prev f (l₁ ++ x :: l₂) t)
    (forth : next x = some n) (back : prev x = some m)
    : (x = f ↔ m = 0) ∧ (x = t ↔ n = 0) := by
  obtain ⟨nodup₁, nodup₂, apart⟩ := List.nodup_append.mp h.nodup
  have outside : x ∉ l₂ := (List.nodup_cons.mp nodup₂).1
  obtain ⟨m', x', front, rfl, nonzero, back', n', forth', tail⟩ := Segment.append.mp h
  obtain rfl : m' = m := Option.some.inj (back'.symm.trans back)
  obtain rfl : n' = n := Option.some.inj (forth'.symm.trans forth)
  refine ⟨⟨fun head => ?_, fun zero => ?_⟩, ⟨fun last => ?_, fun zero => ?_⟩⟩
  · cases l₁ with
    | nil => exact front.2
    | cons y rest =>
        exact absurd head.symm (apart f (front.first_mem (by simp)) x' List.mem_cons_self)
  · cases l₁ with
    | nil => exact front.1.symm
    | cons y rest => exact absurd zero (front.ne_zero (front.last_mem (by simp)))
  · cases l₂ with
    | nil => exact tail.1
    | cons y rest => exact absurd (last ▸ tail.last_mem (by simp)) outside
  · cases l₂ with
    | nil => exact tail.2.symm
    | cons y rest => exact absurd zero (tail.ne_zero (tail.first_mem (by simp)))

/-- The cell after a segment is replaced: the last cell of the segment is made to lead there, or
the segment is empty.
-/
theorem Segment.retarget (h : Segment next prev b f l t a) (nodup : l.Nodup)
    (prevs : ∀ y ∈ l, prev' y = prev y) (nexts : ∀ y ∈ l, y ≠ t → next' y = next y)
    (link : l ≠ [] → next' t = some a')
    : Segment next' prev' b (if l = [] then a' else f) l t a' := by
  induction l generalizing b f with
  | nil => exact ⟨rfl, h.2⟩
  | cons z rest ih =>
      obtain ⟨rfl, nonzero, back, n, forth, tail⟩ := h
      obtain ⟨outside, nodup'⟩ := List.nodup_cons.mp nodup
      refine ⟨if_neg (by simp), nonzero, (prevs f (by simp)).trans back, ?_⟩
      cases rest with
      | nil =>
          obtain ⟨rfl, rfl⟩ := tail
          exact ⟨a', link (by simp), rfl, rfl⟩
      | cons w rest' =>
          have last := tail.last_mem (by simp)
          have apart : f ≠ t := fun eq => outside (eq ▸ last)
          refine ⟨n, (nexts f (by simp) apart).trans forth, ?_⟩
          have rest := ih tail nodup' (fun y member => prevs y (by simp_all))
            (fun y member => nexts y (by simp_all)) (fun _ => link (by simp))
          rwa [if_neg (by simp)] at rest

/-- The cell before a segment is replaced: the first cell of the segment is made to lead back
there, or the segment is empty.
-/
theorem Segment.rebase (h : Segment next prev b f l t a) (nodup : l.Nodup)
    (nexts : ∀ y ∈ l, next' y = next y) (prevs : ∀ y ∈ l, y ≠ f → prev' y = prev y)
    (link : l ≠ [] → prev' f = some b')
    : Segment next' prev' b' f l (if l = [] then b' else t) a := by
  cases l with
  | nil => exact ⟨h.1, rfl⟩
  | cons z rest =>
      obtain ⟨rfl, nonzero, back, n, forth, tail⟩ := h
      obtain ⟨outside, nodup'⟩ := List.nodup_cons.mp nodup
      rw [if_neg (by simp)]
      refine ⟨rfl, nonzero, link (by simp), n, (nexts f (by simp)).trans forth, ?_⟩
      exact tail.congr (fun y member => nexts y (by simp [member])) fun y member =>
        prevs y (by simp [member]) fun eq => outside (eq ▸ member)

/-- A fresh cell is linked at the end. -/
theorem DLinked.pushBack (h : DLinked next prev f l t) (nonzero : x ≠ 0)
    (back : prev' x = some t) (forth : next' x = some 0)
    (prevs : ∀ y ∈ l, prev' y = prev y) (nexts : ∀ y ∈ l, y ≠ t → next' y = next y)
    (link : l ≠ [] → next' t = some x)
    : DLinked next' prev' (if l = [] then x else f) (l ++ [x]) x :=
  Segment.append.mpr ⟨t, x, h.retarget h.nodup prevs nexts link, rfl, nonzero, back, 0, forth,
    rfl, rfl⟩

/-- A fresh cell is linked at the front. -/
theorem DLinked.pushFront (h : DLinked next prev f l t) (nonzero : x ≠ 0)
    (back : prev' x = some 0) (forth : next' x = some f)
    (nexts : ∀ y ∈ l, next' y = next y) (prevs : ∀ y ∈ l, y ≠ f → prev' y = prev y)
    (link : l ≠ [] → prev' f = some x)
    : DLinked next' prev' x (x :: l) (if l = [] then x else t) :=
  ⟨rfl, nonzero, back, f, forth, h.rebase h.nodup nexts prevs link⟩

/-- A cell is taken out: its neighbours are made to lead to each other. -/
theorem DLinked.remove {m n : Nat} (h : DLinked next prev f (l₁ ++ x :: l₂) t)
    (back : prev x = some m) (forth : next x = some n)
    (nexts : ∀ y ∈ l₁ ++ l₂, y ≠ m → next' y = next y)
    (prevs : ∀ y ∈ l₁ ++ l₂, y ≠ n → prev' y = prev y)
    (linkNext : m ≠ 0 → next' m = some n) (linkPrev : n ≠ 0 → prev' n = some m)
    : DLinked next' prev' (if m = 0 then n else f) (l₁ ++ l₂) (if n = 0 then m else t) := by
  have nodup := h.nodup
  obtain ⟨nodup₁, nodup₂, apart⟩ := List.nodup_append.mp nodup
  have unique₂ := (List.nodup_cons.mp nodup₂).2
  have outside : ∀ {y}, y ∈ l₁ → y ∉ l₂ := fun member member' =>
    apart _ member _ (List.mem_cons_of_mem _ member') rfl
  obtain ⟨m', x', front, rfl, -, back', n', forth', tail⟩ := Segment.append.mp h
  obtain rfl : m' = m := Option.some.inj (back'.symm.trans back)
  obtain rfl : n' = n := Option.some.inj (forth'.symm.trans forth)
  have first : m' = 0 ↔ l₁ = [] := by
    constructor
    · intro zero
      by_contra cons
      exact front.ne_zero (front.last_mem cons) zero
    · rintro rfl
      exact front.2
  have last : n' = 0 ↔ l₂ = [] := by
    constructor
    · intro zero
      by_contra cons
      exact tail.ne_zero (tail.first_mem cons) zero
    · rintro rfl
      exact tail.1
  refine Segment.append.mpr ⟨m', n', ?_, ?_⟩
  · have moved : Segment next' prev' 0 (if l₁ = [] then n' else f) l₁ m' n' := by
      refine front.retarget nodup₁ (fun y member => prevs y (by simp [member]) fun eq => ?_)
        (fun y member => nexts y (by simp [member])) (fun cons => linkNext (mt first.mp cons))
      subst eq
      exact outside member (tail.first_mem (mt last.mpr (front.ne_zero member)))
    simpa only [first] using moved
  · have moved : Segment next' prev' m' n' l₂ (if l₂ = [] then m' else t) 0 := by
      refine tail.rebase unique₂ (fun y member => nexts y (by simp [member]) fun eq => ?_)
        (fun y member => prevs y (by simp [member])) (fun cons => linkPrev (mt last.mp cons))
      subst eq
      exact outside (front.last_mem (mt first.mpr (tail.ne_zero member))) member
    simpa only [last] using moved

end Minions.Data
