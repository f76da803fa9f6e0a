import Minions.Data.LinkedList
import Minions.Termios.Ttyname

/-! The list of directories of `ttyname.c`. `add` appends a node to it, and `cleanup` leaves it
empty.
-/

namespace Minions.Termios

open Minions.Data

/-- What a cell of the list holds: cell 0 is `head`. -/
def State.next (s : State) (a : Nat) : Option Nat :=
  if a = 0 then some s.head else (s.nodes a).map (·.d_next)

def State.name (s : State) (a : Nat) : Option (List Byte) := (s.nodes a).map (·.d_name)

/-- The list consists of the nodes, and `pathname` is a buffer whose last byte is 0. -/
structure Holds (s : State) (l : List Nat) : Prop where
  linked : Linked s.next 0 l
  tail : s.tail = lastCell 0 l
  positive : 0 < s.fresh
  unused : ∀ a, s.fresh ≤ a → s.nodes a = none
  size : s.pathname.size = _POSIX_PATH_MAX + 1
  stop : s.pathname.mem _POSIX_PATH_MAX = 0

/-- The list with the names of some more directories at its end. -/
structure Appended (s : State) (l : List Nat) (s' : State) (new : List Nat)
    (queue : List (List Byte)) : Prop where
  holds : Holds s' (l ++ new)
  old : ∀ a ∈ l, s'.name a = s.name a
  names : new.map s'.name = queue.map some

variable {s s' s'' : State} {l new new' : List Nat} {queue queue' : List (List Byte)}

/-- The list is empty at the start. -/
theorem Holds.init : Holds .init [] where
  linked := rfl
  tail := rfl
  positive := Nat.one_pos
  unused _ _ := rfl
  size := rfl
  stop := rfl

/-- The cells of the list have been allocated. -/
theorem Holds.below_fresh (holds : Holds s l) {a : Nat} (member : a ∈ l) : a < s.fresh := by
  by_contra high
  have cell := holds.linked.isSome (List.mem_cons_of_mem _ member)
  simp [State.next, holds.linked.ne_zero member, holds.unused a (by omega)] at cell

/-- The path buffer does not matter to the list. -/
theorem Holds.buffer (holds : Holds s l) (pathname : StringBuffer)
    (size : pathname.size = _POSIX_PATH_MAX + 1) (stop : pathname.mem _POSIX_PATH_MAX = 0)
    : Holds { s with pathname } l :=
  { holds with size, stop }

/-- Nothing is appended. -/
theorem Holds.refl (holds : Holds s l) : Appended s l s [] [] where
  holds := by simpa using holds
  old _ _ := rfl
  names := rfl

/-- Two appends one after the other. -/
theorem Appended.trans (first : Appended s l s' new queue)
    (second : Appended s' (l ++ new) s'' new' queue')
    : Appended s l s'' (new ++ new') (queue ++ queue') where
  holds := by simpa using second.holds
  old a member := (second.old a (by simp [member])).trans (first.old a member)
  names := by
    have kept : new.map s''.name = new.map s'.name :=
      List.map_congr_left fun a member => second.old a (by simp [member])
    rw [List.map_append, List.map_append, second.names, kept, first.names]

/-- A fresh node behind the last one, or behind `head` in an empty list. -/
theorem Holds.append {path : List Byte} (holds : Holds s l)
    (link : s'.next s.tail = some s.fresh) (node : s'.nodes s.fresh = some ⟨0, path⟩)
    (nexts : ∀ b, b ≠ s.fresh → b ≠ s.tail → s'.next b = s.next b)
    (names : ∀ b, b ≠ s.fresh → s'.name b = s.name b)
    (tail : s'.tail = s.fresh) (fresh : s'.fresh = s.fresh + 1)
    (pathname : s'.pathname = s.pathname)
    : Appended s l s' [s.fresh] [path] := by
  have outside : s.fresh ∉ 0 :: l := by
    intro member
    rcases List.mem_cons.mp member with zero | inList
    · exact holds.positive.ne' zero
    · exact (holds.below_fresh inList).false
  have others : ∀ b ∈ 0 :: l, b ≠ s.fresh := fun b member eq => outside (eq ▸ member)
  have nonzero : s.fresh ≠ 0 := holds.positive.ne'
  constructor
  · exact {
      linked := by
        apply holds.linked.snoc outside nonzero
        · rwa [← holds.tail]
        · simp [State.next, nonzero, node]
        · exact fun b member notLast => nexts b (others b member) (holds.tail ▸ notLast)
      tail := by
        rw [lastCell_append]
        exact tail
      positive := by omega
      unused := by
        intro a high
        have none : s.name a = none := by simp [State.name, holds.unused a (by omega)]
        rw [← names a (by omega)] at none
        exact Option.map_eq_none_iff.mp none
      size := pathname ▸ holds.size
      stop := pathname ▸ holds.stop
    }
  · exact fun a member => names a (others a (List.mem_cons_of_mem _ member))
  · simp [State.name, node]

/-- `add` appends the path in the buffer. -/
theorem appended_add (holds : Holds s l) (real : isDots s.pathname.text = false)
    (searched : s.pathname.text ≠ ascii "/dev/fd")
    : ∃ s', add s = some s' ∧ s'.pathname = s.pathname
        ∧ Appended s l s' [s.fresh] [s.pathname.text] := by
  have nonzero : s.fresh ≠ 0 := holds.positive.ne'
  by_cases empty : s.tail = 0
  · let s' : State := {
      head := s.fresh
      tail := s.fresh
      pathname := s.pathname
      nodes := Function.update s.nodes s.fresh (some ⟨0, s.pathname.text⟩)
      fresh := s.fresh + 1
    }
    refine ⟨s', by simp [add, real, searched, empty, s'], rfl,
      holds.append (by simp [State.next, empty, s']) (by simp [s']) ?_ ?_ rfl rfl rfl⟩
    · intro b notFresh notTail
      simp [State.next, s', notFresh, show b ≠ 0 from empty ▸ notTail]
    · intro b notFresh
      simp [State.name, s', notFresh]
  · have inList : s.tail ∈ l := by
      rcases lastCell_mem 0 l with entry | member
      · exact absurd (holds.tail.trans entry) empty
      · exact holds.tail ▸ member
    have old : s.tail ≠ s.fresh := (holds.below_fresh inList).ne
    obtain ⟨last, found⟩ : ∃ last, s.nodes s.tail = some last := by
      have cell := holds.linked.isSome (List.mem_cons_of_mem _ inList)
      simpa [State.next, empty, Option.isSome_iff_exists] using cell
    let s' : State := {
      head := s.head
      tail := s.fresh
      pathname := s.pathname
      nodes := Function.update (Function.update s.nodes s.fresh (some ⟨0, s.pathname.text⟩)) s.tail
        (some { last with d_next := s.fresh })
      fresh := s.fresh + 1
    }
    refine ⟨s', by simp [add, real, searched, empty, old, found, s'], rfl,
      holds.append (by simp [State.next, empty, s']) (by simp [old.symm, s']) ?_ ?_ rfl rfl rfl⟩
    · intro b notFresh notTail
      simp [State.next, s', notFresh, notTail]
    · intro b notFresh
      by_cases isTail : b = s.tail
      · simp [State.name, s', isTail, found]
      · simp [State.name, s', notFresh, isTail]

/-- A node of the list links to the one behind it. -/
theorem Holds.node {front back : List Nat} {a : Nat} (holds : Holds s (front ++ a :: back))
    : a ≠ 0 ∧ ∃ node, s.nodes a = some node ∧ node.d_next = back.headD 0 := by
  have nonzero : a ≠ 0 := holds.linked.ne_zero (by simp)
  have behind : Linked s.next (lastCell 0 (front ++ [a])) back := by
    apply Linked.drop
    simpa using holds.linked
  have entry := behind.next_entry
  rw [lastCell_append] at entry
  simp only [lastCell, State.next, nonzero, if_false, Option.map_eq_some_iff] at entry
  exact ⟨nonzero, entry⟩

/-- Freeing the list. No unused address comes into use. -/
theorem freeAll_frees {next : Nat → Option Nat} {a n : Nat} (linked : Linked next a l)
    (nodes : ∀ b ∈ l, (s.nodes b).map (·.d_next) = next b) (enough : l.length < n)
    : ∃ left, freeAll n (l.headD 0) s = some { s with nodes := left }
        ∧ ∀ b, s.nodes b = none → left b = none := by
  induction l generalizing s a n with
  | nil =>
      obtain ⟨n, rfl⟩ : ∃ k, n = k + 1 := ⟨n - 1, by simp only [List.length_nil] at enough; omega⟩
      exact ⟨s.nodes, rfl, fun _ unused => unused⟩
  | cons b rest ih =>
      obtain ⟨n, rfl⟩ : ∃ k, n = k + 1 := ⟨n - 1, by simp only [List.length_cons] at enough; omega⟩
      obtain ⟨_, nonzero, behind⟩ := linked
      obtain ⟨node, found, link⟩ :=
        Option.map_eq_some_iff.mp ((nodes b List.mem_cons_self).trans behind.next_entry)
      obtain ⟨left, freed, unused⟩ :=
        ih (s := { s with nodes := Function.update s.nodes b none }) behind
          (by
            intro c member
            have other : c ≠ b := fun eq => behind.not_mem (eq ▸ member)
            simpa [other] using nodes c (List.mem_cons_of_mem _ member))
          (by simpa using enough)
      refine ⟨left, by simpa [freeAll, nonzero, found, link] using freed, ?_⟩
      intro c none
      apply unused
      by_cases same : c = b
      · simp [same]
      · simpa [same] using none

/-- The head pointer is the first cell. -/
theorem Holds.head (holds : Holds s l) : s.head = l.headD 0 := by
  simpa [State.next] using holds.linked.next_entry

/-- After `cleanup` the list is empty again. -/
theorem cleanup_empties {n : Nat} (holds : Holds s l) (enough : l.length < n)
    : ∃ s', cleanup n s = some s' ∧ Holds s' [] ∧ s'.pathname = s.pathname := by
  obtain ⟨left, freed, unused⟩ := freeAll_frees (s := s) holds.linked
    (by
      intro b member
      simp [State.next, holds.linked.ne_zero member])
    enough
  refine ⟨{ s with head := 0, tail := 0, nodes := left }, ?_, ?_, rfl⟩
  · rw [cleanup, holds.head, freed]
    rfl
  · exact {
      linked := rfl
      tail := rfl
      positive := holds.positive
      unused := fun a high => unused a (holds.unused a high)
      size := holds.size
      stop := holds.stop
    }

end Minions.Termios
