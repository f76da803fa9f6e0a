import Minions.Logic.System
import Mathlib.Data.List.Pairwise

/-! Linearizability of a run.
A history is the list of labels of a run. A call is named by the step at which it was invoked.
`Linearizes` is the usual notion: a legal sequential order of calls that holds every completed
call with its answer and respects real-time order. It follows from a `Timeline`, which places
each call at one step between its invocation and its response, and a timeline follows from
tracking the progress of every process along the run.
-/

namespace Minions.Logic

variable {S : Sig} {Pid Op Res A : Type}

/-- The call of `op` that `p` invoked at step `i` responds with `res` at step `j`. -/
structure Completes (labels : List (Label S Pid Op Res)) (i j : Nat) (p : Pid) (op : Op)
    (res : Res)
    : Prop where
  invoked : labels[i]? = some (.invoke p op)
  responds : labels[j]? = some (.respond p op res)
  after : i < j
  first : ∀ {k op' res'}, i < k → k < j → labels[k]? ≠ some (.respond p op' res')

/-- The call that `p` invoked at step `i` has not responded. -/
structure Pending (labels : List (Label S Pid Op Res)) (p : Pid) (i : Nat) : Prop where
  invoked : ∃ op, labels[i]? = some (.invoke p op)
  silent : ∀ {k op res}, i < k → labels[k]? ≠ some (.respond p op res)

/-- A call and its answer. `start` is the step of its invocation. -/
structure Entry (Pid Op Res : Type) where
  start : Nat
  pid : Pid
  op : Op
  res : Res

/-- The entries, run one after the other, lead from one state of the object to another. -/
inductive Replay (answers : Op → A → Res → A → Prop) (a₀ : A)
    : List (Entry Pid Op Res) → A → Prop
  | nil : Replay answers a₀ [] a₀
  | snoc {order e a a'} (before : Replay answers a₀ order a)
    (step : answers e.op a e.res a')
    : Replay answers a₀ (order ++ [e]) a'

/-- `order` is a linearization of the history: a legal sequential run of distinct calls of the
history, with every completed call and its answer in it, in which no call stands before a
call that had responded when it was invoked.
-/
structure Linearizes (answers : Op → A → Res → A → Prop) (a₀ : A)
    (labels : List (Label S Pid Op Res)) (order : List (Entry Pid Op Res)) (a : A)
    : Prop where
  legal : Replay answers a₀ order a
  invoked : ∀ e ∈ order, labels[e.start]? = some (.invoke e.pid e.op)
  distinct : order.Pairwise fun e e' => e.start ≠ e'.start
  complete : ∀ {i j p op res}, Completes labels i j p op res → ⟨i, p, op, res⟩ ∈ order
  realTime : order.Pairwise fun e e' =>
    ∀ {j res}, Completes labels e'.start j e'.pid e'.op res → ¬ j < e.start

/-- What an object answers, at which steps a call may take effect, when it is invoked or at a
system call, and which system calls it may still make afterwards.
-/
structure Behavior (S : Sig) (Op Res A : Type) where
  answers : Op → A → Res → A → Prop
  atInvoke : Op → Res → Prop
  atCall : Op → Res → S.Call → Prop
  afterwards : Op → S.Call → Prop

/-- A call that took effect at step `point`. -/
structure Happening (Pid Op Res : Type) extends Entry Pid Op Res where
  point : Nat

/-- The calls of a history in the order in which they took effect. `states t` is the state of the
object before step `t`.
-/
structure Timeline (B : Behavior S Op Res A) (labels : List (Label S Pid Op Res))
    (states : Nat → A) (effects : List (Happening Pid Op Res))
    : Prop where
  sorted : effects.Pairwise fun e e' => e.point < e'.point
  distinct : effects.Pairwise fun e e' => e.start ≠ e'.start
  invoked : ∀ e ∈ effects, labels[e.start]? = some (.invoke e.pid e.op)
  within : ∀ e ∈ effects, e.start ≤ e.point ∧ e.point < labels.length
  changes : ∀ e ∈ effects, B.answers e.op (states e.point) e.res (states (e.point + 1))
  keeps : ∀ t < labels.length, (∀ e ∈ effects, e.point ≠ t) → states (t + 1) = states t
  marked : ∀ e ∈ effects,
    (e.point = e.start ∧ B.atInvoke e.op e.res)
    ∨ ∃ c, labels[e.point]? = some (.act e.pid c) ∧ B.atCall e.op e.res c
  complete : ∀ {i j p op res}, Completes labels i j p op res
    → ∃ t, ⟨⟨i, p, op, res⟩, t⟩ ∈ effects ∧ t < j
  settled : ∀ e ∈ effects, ∀ {t c}, e.point < t → labels[t]? = some (.act e.pid c)
    → (∀ {k op res}, e.start < k → k < t → labels[k]? ≠ some (.respond e.pid op res))
    → B.afterwards e.op c

/-- How far a process has come with its call: whether the call has taken effect, and with
which answer.
-/
inductive Progress (Op Res : Type)
  | quiet
  | todo (op : Op)
  | done (op : Op) (res : Res)
deriving DecidableEq

variable [DecidableEq Pid]

/-- The process takes effect with its call. -/
def Fires (B : Behavior S Op Res A) (p : Pid) (op : Op) (res : Res)
    (x y : A × (Pid → Progress Op Res))
    : Prop :=
  B.answers op x.1 res y.1 ∧ y.2 = Function.update x.2 p (.done op res)

/-- How the state of the object and the progress of the processes may change at a step. -/
def Tracks (B : Behavior S Op Res A)
    : Label S Pid Op Res → A × (Pid → Progress Op Res) → A × (Pid → Progress Op Res) → Prop
  | .invoke p op, x, y =>
      x.2 p = .quiet
      ∧ (y = (x.1, Function.update x.2 p (.todo op))
        ∨ ∃ res, Fires B p op res x y ∧ B.atInvoke op res)
  | .act p c, x, y =>
      (y = x ∧ ∀ {op res}, x.2 p = .done op res → B.afterwards op c)
      ∨ ∃ op res, x.2 p = .todo op ∧ Fires B p op res x y ∧ B.atCall op res c
  | .silent _, x, y => y = x
  | .respond p op res, x, y =>
      x.2 p = .done op res ∧ y = (x.1, Function.update x.2 p .quiet)
  | .stop _ _, _, _ => False

/-- A history along which the object is tracked. -/
inductive Tracked (B : Behavior S Op Res A) (start : A × (Pid → Progress Op Res))
    : List (Label S Pid Op Res) → A × (Pid → Progress Op Res) → Prop
  | nil : Tracked B start [] start
  | snoc {labels label x y} (before : Tracked B start labels x) (step : Tracks B label x y)
    : Tracked B start (labels ++ [label]) y

-----------------------------------------------------------------------------------------
-- One more step of a history
-----------------------------------------------------------------------------------------

section Snoc

variable {labels : List (Label S Pid Op Res)} {label : Label S Pid Op Res}

/-- The entries of a list with one more entry. -/
theorem getElem?_snoc {α : Type} {xs : List α} {x y : α} {i : Nat}
    : (xs ++ [x])[i]? = some y ↔ xs[i]? = some y ∨ i = xs.length ∧ x = y := by
  rcases Nat.lt_trichotomy i xs.length with lt | rfl | gt
  · simp [List.getElem?_append_left lt, Nat.ne_of_lt lt]
  · simp
  · have before : xs[i]? = none := List.getElem?_eq_none (by omega)
    have after : (xs ++ [x])[i]? = none :=
      List.getElem?_eq_none (by rw [List.length_append, List.length_singleton]; omega)
    rw [before, after]
    simp [Nat.ne_of_gt gt]

/-- An entry is inside the list. -/
theorem lt_of_getElem? {α : Type} {xs : List α} {y : α} {i : Nat} (h : xs[i]? = some y)
    : i < xs.length :=
  (List.getElem?_eq_some_iff.mp h).1

omit [DecidableEq Pid] in
/-- A completed call had completed before the last step, or the last step is its response. -/
theorem Completes.cases {i j : Nat} {p : Pid} {op : Op} {res : Res}
    (h : Completes (labels ++ [label]) i j p op res)
    : Completes labels i j p op res
      ∨ j = labels.length ∧ label = .respond p op res ∧ labels[i]? = some (.invoke p op)
        ∧ Pending labels p i := by
  have silent : ∀ {k op' res'}, i < k → k < j → labels[k]? ≠ some (.respond p op' res') :=
    fun low high at_ => h.first low high (getElem?_snoc.mpr (Or.inl at_))
  rcases getElem?_snoc.mp h.invoked with invoked | ⟨rfl, -⟩
  · rcases getElem?_snoc.mp h.responds with responds | ⟨rfl, last⟩
    · exact Or.inl ⟨invoked, responds, h.after, silent⟩
    · refine Or.inr ⟨rfl, last, invoked, ⟨_, invoked⟩, fun after at_ => ?_⟩
      exact silent after (lt_of_getElem? at_) at_
  · -- The call was invoked at the last step, after which nothing happened.
    have last := lt_of_getElem? h.responds
    have after := h.after
    simp at last
    omega

omit [DecidableEq Pid] in
/-- A pending call was pending before the last step, or was invoked by it. -/
theorem Pending.cases {p : Pid} {i : Nat} (h : Pending (labels ++ [label]) p i)
    : Pending labels p i ∨ i = labels.length ∧ ∃ op, label = .invoke p op := by
  obtain ⟨op, invoked⟩ := h.invoked
  rcases getElem?_snoc.mp invoked with before | ⟨rfl, last⟩
  · exact Or.inl ⟨⟨op, before⟩, fun after at_ =>
      h.silent after (getElem?_snoc.mpr (Or.inl at_))⟩
  · exact Or.inr ⟨rfl, op, last⟩

variable {B : Behavior S Op Res A} {states : Nat → A} {effects : List (Happening Pid Op Res)}

omit [DecidableEq Pid] in
/-- A step at which no call takes effect. -/
theorem Timeline.keep (h : Timeline B labels states effects)
    (answered : ∀ {p op res i}, label = .respond p op res → Pending labels p i
      → labels[i]? = some (.invoke p op) → ∃ t, ⟨⟨i, p, op, res⟩, t⟩ ∈ effects)
    (settled : ∀ e ∈ effects, ∀ {c}, label = .act e.pid c → Pending labels e.pid e.start
      → B.afterwards e.op c)
    : Timeline B (labels ++ [label])
        (Function.update states (labels.length + 1) (states labels.length)) effects := by
  have old : ∀ t ≤ labels.length,
      Function.update states (labels.length + 1) (states labels.length) t = states t :=
    fun t le => Function.update_of_ne (by omega) _ _
  refine ⟨h.sorted, h.distinct, ?_, ?_, ?_, ?_, ?_, ?_, ?_⟩
  · exact fun e member => getElem?_snoc.mpr (Or.inl (h.invoked e member))
  · intro e member
    have bounds := h.within e member
    simp
    omega
  · intro e member
    have bounds := h.within e member
    rw [old _ (by omega), old _ (by omega)]
    exact h.changes e member
  · intro t lt none_
    simp only [List.length_append, List.length_singleton] at lt
    by_cases last : t = labels.length
    · subst last
      rw [Function.update_self, old _ (Nat.le_refl _)]
    · rw [old _ (by omega), old _ (by omega)]
      exact h.keeps t (by omega) none_
  · intro e member
    rcases h.marked e member with first | ⟨c, at_, mark⟩
    · exact Or.inl first
    · exact Or.inr ⟨c, getElem?_snoc.mpr (Or.inl at_), mark⟩
  · intro i j p op res completes
    rcases completes.cases with before | ⟨rfl, last, invoked, pending⟩
    · exact h.complete before
    · obtain ⟨t, member⟩ := answered last pending invoked
      exact ⟨t, member, (h.within _ member).2⟩
  · intro e member t c after at_ silent
    have silent' : ∀ {k op res}, e.start < k → k < t → labels[k]? ≠ some (.respond e.pid op res) :=
      fun low high was => silent low high (getElem?_snoc.mpr (Or.inl was))
    rcases getElem?_snoc.mp at_ with before | ⟨rfl, last⟩
    · exact h.settled e member after before silent'
    · refine settled e member last ⟨⟨_, h.invoked e member⟩, fun low was => ?_⟩
      exact silent' low (lt_of_getElem? was) was

omit [DecidableEq Pid] in
/-- A step at which a call takes effect. -/
theorem Timeline.add (h : Timeline B labels states effects) {e : Happening Pid Op Res} {a : A}
    (point : e.point = labels.length)
    (invoked : (labels ++ [label])[e.start]? = some (.invoke e.pid e.op))
    (fresh : ∀ e' ∈ effects, e'.start ≠ e.start)
    (answers : B.answers e.op (states labels.length) e.res a)
    (marked : e.start = labels.length ∧ B.atInvoke e.op e.res
      ∨ ∃ c, label = .act e.pid c ∧ B.atCall e.op e.res c)
    (active : ∀ {p op res}, label ≠ .respond p op res)
    (settled : ∀ e' ∈ effects, ∀ {c}, label = .act e'.pid c → ¬ Pending labels e'.pid e'.start)
    : Timeline B (labels ++ [label]) (Function.update states (labels.length + 1) a)
        (effects ++ [e]) := by
  have old : ∀ t ≤ labels.length,
      Function.update states (labels.length + 1) a t = states t :=
    fun t le => Function.update_of_ne (by omega) _ _
  have either : ∀ e' ∈ effects ++ [e], e' ∈ effects ∨ e' = e := fun e' member => by
    simpa using member
  refine ⟨?_, ?_, ?_, ?_, ?_, ?_, ?_, ?_, ?_⟩
  · refine List.pairwise_append.mpr ⟨h.sorted, List.pairwise_singleton _ _, ?_⟩
    intro e₁ before e₂ last
    obtain rfl : e₂ = e := by simpa using last
    rw [point]
    exact (h.within e₁ before).2
  · refine List.pairwise_append.mpr ⟨h.distinct, List.pairwise_singleton _ _, ?_⟩
    intro e₁ before e₂ last
    obtain rfl : e₂ = e := by simpa using last
    exact fresh e₁ before
  · intro e' member
    rcases either e' member with before | rfl
    · exact getElem?_snoc.mpr (Or.inl (h.invoked e' before))
    · exact invoked
  · intro e' member
    simp only [List.length_append, List.length_singleton]
    rcases either e' member with before | rfl
    · have bounds := h.within e' before
      omega
    · have bound := lt_of_getElem? invoked
      simp only [List.length_append, List.length_singleton] at bound
      omega
  · intro e' member
    rcases either e' member with before | rfl
    · have bounds := h.within e' before
      rw [old _ (by omega), old _ (by omega)]
      exact h.changes e' before
    · rw [point, Function.update_self, old _ (Nat.le_refl _)]
      exact answers
  · intro t lt none_
    have apart : t ≠ labels.length := fun same =>
      none_ e (by simp) (point.trans same.symm)
    simp only [List.length_append, List.length_singleton] at lt
    rw [old _ (by omega), old _ (by omega)]
    exact h.keeps t (by omega) fun e' before => none_ e' (by simp [before])
  · intro e' member
    rcases either e' member with before | rfl
    · rcases h.marked e' before with first | ⟨c, at_, mark⟩
      · exact Or.inl first
      · exact Or.inr ⟨c, getElem?_snoc.mpr (Or.inl at_), mark⟩
    · rcases marked with ⟨start, mark⟩ | ⟨c, at_, mark⟩
      · exact Or.inl ⟨point.trans start.symm, mark⟩
      · exact Or.inr ⟨c, getElem?_snoc.mpr (Or.inr ⟨point, at_⟩), mark⟩
  · intro i j p op res completes
    rcases completes.cases with before | ⟨-, last, -, -⟩
    · obtain ⟨t, member, lt⟩ := h.complete before
      exact ⟨t, by simp [member], lt⟩
    · exact absurd last active
  · intro e' member t c after at_ silent
    have low := lt_of_getElem? at_
    simp only [List.length_append, List.length_singleton] at low
    rcases either e' member with before | rfl
    · have silent' : ∀ {k op res}, e'.start < k → k < t
          → labels[k]? ≠ some (.respond e'.pid op res) :=
        fun low high was => silent low high (getElem?_snoc.mpr (Or.inl was))
      rcases getElem?_snoc.mp at_ with old | ⟨rfl, last⟩
      · exact h.settled e' before after old silent'
      · refine absurd ⟨⟨_, h.invoked e' before⟩, fun low was => ?_⟩ (settled e' before last)
        exact silent' low (lt_of_getElem? was) was
    · omega

omit [DecidableEq Pid] in
/-- A call takes effect once. -/
theorem Timeline.unique (h : Timeline B labels states effects) {e e' : Happening Pid Op Res}
    (member : e ∈ effects) (member' : e' ∈ effects) (same : e.start = e'.start)
    : e = e' := by
  have symm : Std.Symm fun e e' : Happening Pid Op Res => e.start ≠ e'.start :=
    ⟨fun _ _ ne => ne.symm⟩
  by_contra differ
  exact h.distinct.forall member member' differ same

-----------------------------------------------------------------------------------------
-- A tracked history has a timeline
-----------------------------------------------------------------------------------------

/-- Where the call of `p` stands, by the progress of `p`. -/
def Standing (labels : List (Label S Pid Op Res)) (effects : List (Happening Pid Op Res))
    (p : Pid)
    : Progress Op Res → Prop
  | .quiet => ∀ i, ¬ Pending labels p i
  | .todo op =>
      ∃ i, labels[i]? = some (.invoke p op)
        ∧ (∀ {i'}, Pending labels p i' → i' = i)
        ∧ ∀ e ∈ effects, e.start ≠ i
  | .done op res =>
      ∃ i t, (∀ {i'}, Pending labels p i' → i' = i) ∧ ⟨⟨i, p, op, res⟩, t⟩ ∈ effects

omit [DecidableEq Pid] in
/-- A step of another process leaves a call where it stands. -/
theorem Standing.other {p : Pid} {x : Progress Op Res} {added : List (Happening Pid Op Res)}
    (h : Standing labels effects p x) (other : label.pid ≠ p)
    (apart : ∀ e ∈ added, (labels ++ [label])[e.start]? = some (.invoke e.pid e.op) ∧ e.pid ≠ p)
    : Standing (labels ++ [label]) (effects ++ added) p x := by
  have pending : ∀ {i}, Pending (labels ++ [label]) p i → Pending labels p i := by
    intro i new
    rcases new.cases with old | ⟨-, op, rfl⟩
    · exact old
    · exact absurd rfl other
  cases x with
  | quiet => exact fun i new => h i (pending new)
  | todo op =>
      obtain ⟨i, invoked, only, fresh⟩ := h
      have kept : (labels ++ [label])[i]? = some (.invoke p op) :=
        getElem?_snoc.mpr (Or.inl invoked)
      refine ⟨i, kept, fun new => only (pending new), fun e member same => ?_⟩
      rcases List.mem_append.mp member with before | after
      · exact fresh e before same
      · obtain ⟨started, ne⟩ := apart e after
        rw [same, kept, Option.some.injEq, Label.invoke.injEq] at started
        exact ne started.1.symm
  | done op res =>
      obtain ⟨i, t, only, member⟩ := h
      exact ⟨i, t, fun new => only (pending new), List.mem_append_left _ member⟩

omit [DecidableEq Pid] in
/-- A step of `p` that is neither an invocation nor a response leaves its call where it
stands.
-/
theorem Standing.stay {p : Pid} {x : Progress Op Res} (h : Standing labels effects p x)
    (inner : ∀ {op}, label ≠ .invoke p op)
    : Standing (labels ++ [label]) effects p x := by
  have pending : ∀ {i}, Pending (labels ++ [label]) p i → Pending labels p i := by
    intro i new
    rcases new.cases with old | ⟨-, op, rfl⟩
    · exact old
    · exact absurd rfl inner
  cases x with
  | quiet => exact fun i new => h i (pending new)
  | todo op =>
      obtain ⟨i, invoked, only, fresh⟩ := h
      exact ⟨i, getElem?_snoc.mpr (Or.inl invoked), fun new => only (pending new), fresh⟩
  | done op res =>
      obtain ⟨i, t, only, member⟩ := h
      exact ⟨i, t, fun new => only (pending new), member⟩

/-- Where the calls stand once the progress of `p` is another. -/
theorem Standing.update {stat : Pid → Progress Op Res} {p : Pid} {new : Progress Op Res}
    (own : Standing labels effects p new)
    (others : ∀ q, q ≠ p → Standing labels effects q (stat q)) (q : Pid)
    : Standing labels effects q (Function.update stat p new q) := by
  by_cases same : q = p
  · subst same
    rw [Function.update_self]
    exact own
  · rw [Function.update_of_ne same]
    exact others q same

/-- The timeline of a history, the sequential run it describes, and where every call stands. -/
structure Chronicle (B : Behavior S Op Res A) (a₀ : A) (labels : List (Label S Pid Op Res))
    (states : Nat → A) (effects : List (Happening Pid Op Res))
    (x : A × (Pid → Progress Op Res))
    : Prop where
  timeline : Timeline B labels states effects
  first : states 0 = a₀
  last : states labels.length = x.1
  legal : Replay B.answers a₀ (effects.map Happening.toEntry) x.1
  standing : ∀ p, Standing labels effects p (x.2 p)

variable {a₀ : A} {x y : A × (Pid → Progress Op Res)}

omit [DecidableEq Pid] in
/-- A step at which no call takes effect extends a chronicle. -/
theorem Chronicle.keep {stat : Pid → Progress Op Res}
    (h : Chronicle B a₀ labels states effects x)
    (answered : ∀ {p op res i}, label = .respond p op res → Pending labels p i
      → labels[i]? = some (.invoke p op) → ∃ t, ⟨⟨i, p, op, res⟩, t⟩ ∈ effects)
    (settled : ∀ e ∈ effects, ∀ {c}, label = .act e.pid c → Pending labels e.pid e.start
      → B.afterwards e.op c)
    (standing : ∀ p, Standing (labels ++ [label]) effects p (stat p))
    : Chronicle B a₀ (labels ++ [label])
        (Function.update states (labels.length + 1) (states labels.length)) effects
        (x.1, stat) := by
  refine ⟨h.timeline.keep answered settled, ?_, ?_, h.legal, standing⟩
  · rw [Function.update_of_ne (by omega)]
    exact h.first
  · rw [List.length_append, List.length_singleton, Function.update_self]
    exact h.last

/-- A step at which the call of `p` takes effect extends a chronicle. -/
theorem Chronicle.fire {p : Pid} {op : Op} {res : Res} {i : Nat}
    (h : Chronicle B a₀ labels states effects x) (fires : Fires B p op res x y)
    (mover : label.pid = p)
    (invoked : (labels ++ [label])[i]? = some (.invoke p op))
    (only : ∀ {i'}, Pending (labels ++ [label]) p i' → i' = i)
    (fresh : ∀ e ∈ effects, e.start ≠ i)
    (marked : i = labels.length ∧ B.atInvoke op res
      ∨ ∃ c, label = .act p c ∧ B.atCall op res c)
    (active : ∀ {p op res}, label ≠ .respond p op res)
    (settled : ∀ e ∈ effects, ∀ {c}, label = .act e.pid c → ¬ Pending labels e.pid e.start)
    : Chronicle B a₀ (labels ++ [label]) (Function.update states (labels.length + 1) y.1)
        (effects ++ [⟨⟨i, p, op, res⟩, labels.length⟩]) y := by
  obtain ⟨answers, stat⟩ := fires
  have now : B.answers op (states labels.length) res y.1 := by
    rw [h.last]
    exact answers
  refine ⟨h.timeline.add rfl invoked fresh now marked active settled, ?_, ?_, ?_, fun q => ?_⟩
  · rw [Function.update_of_ne (by omega)]
    exact h.first
  · rw [List.length_append, List.length_singleton, Function.update_self]
  · rw [List.map_append]
    exact h.legal.snoc answers
  · rw [stat]
    refine Standing.update ?_ (fun q ne => ?_) q
    · exact ⟨i, labels.length, only, by simp⟩
    · refine (h.standing q).other (fun eq => ne (eq.symm.trans mover)) fun e member => ?_
      obtain rfl : e = ⟨⟨i, p, op, res⟩, labels.length⟩ := by simpa using member
      exact ⟨invoked, fun eq => ne eq.symm⟩

/-- An invocation, at which the call may take effect at once. -/
theorem Chronicle.invoke {p : Pid} {op : Op} (h : Chronicle B a₀ labels states effects x)
    (step : Tracks B (.invoke p op) x y)
    : ∃ states' effects',
        Chronicle B a₀ (labels ++ [Label.invoke p op]) states' effects' y := by
  obtain ⟨quiet, change⟩ := step
  have idle : ∀ i, ¬ Pending labels p i := by
    have standing := h.standing p
    rwa [quiet] at standing
  have invoked : (labels ++ [Label.invoke p op])[labels.length]? = some (.invoke p op) :=
    getElem?_snoc.mpr (Or.inr ⟨rfl, rfl⟩)
  have only : ∀ {i}, Pending (labels ++ [Label.invoke p op]) p i → i = labels.length := by
    intro i new
    rcases new.cases with old | ⟨eq, -⟩
    · exact absurd old (idle i)
    · exact eq
  have fresh : ∀ e ∈ effects, e.start ≠ labels.length := fun e member =>
    Nat.ne_of_lt (lt_of_getElem? (h.timeline.invoked e member))
  rcases change with rfl | ⟨res, fires, mark⟩
  · refine ⟨_, _, h.keep nofun (fun _ _ _ => nofun) fun q => ?_⟩
    refine Standing.update ?_ (fun q ne => ?_) q
    · exact ⟨labels.length, invoked, only, fresh⟩
    · have kept : Standing (labels ++ [Label.invoke p op]) (effects ++ []) q (x.2 q) :=
        (h.standing q).other (fun eq => ne eq.symm) (by simp)
      rwa [List.append_nil] at kept
  · exact ⟨_, _, h.fire fires rfl invoked only fresh (Or.inl ⟨rfl, mark⟩) nofun
      fun _ _ _ => nofun⟩

/-- A system call, at which the call under way may take effect. -/
theorem Chronicle.act {p : Pid} {c : S.Call} (h : Chronicle B a₀ labels states effects x)
    (step : Tracks B (.act p c) x y)
    : ∃ states' effects',
        Chronicle B a₀ (labels ++ [Label.act p c]) states' effects' y := by
  have standing := h.standing p
  rcases step with ⟨rfl, later⟩ | ⟨op, res, todo, fires, mark⟩
  · refine ⟨_, _, h.keep nofun (fun e member c' eq pending => ?_) fun q =>
      (h.standing q).stay nofun⟩
    obtain ⟨rfl, rfl⟩ := Label.act.inj eq
    cases progress : y.2 e.pid with
    | quiet =>
        rw [progress] at standing
        exact absurd pending (standing e.start)
    | todo op =>
        rw [progress] at standing
        obtain ⟨i, -, only, fresh⟩ := standing
        exact absurd (only pending) (fresh e member)
    | done op res =>
        rw [progress] at standing
        obtain ⟨i, t, only, member'⟩ := standing
        have same : e.op = op :=
          congrArg (fun x => x.op) (h.timeline.unique member member' (only pending))
        rw [same]
        exact later progress
  · rw [todo] at standing
    obtain ⟨i, invoked, only, fresh⟩ := standing
    refine ⟨_, _, h.fire fires rfl (getElem?_snoc.mpr (Or.inl invoked)) ?_ fresh
      (Or.inr ⟨c, rfl, mark⟩) nofun fun e member c' eq pending => ?_⟩
    · intro i' new
      rcases new.cases with old | ⟨-, _, eq⟩
      · exact only old
      · cases eq
    · obtain ⟨rfl, -⟩ := Label.act.inj eq
      exact fresh e member (only pending)

/-- A response, to a call that has taken effect. -/
theorem Chronicle.respond {p : Pid} {op : Op} {res : Res}
    (h : Chronicle B a₀ labels states effects x) (step : Tracks B (.respond p op res) x y)
    : ∃ states' effects',
        Chronicle B a₀ (labels ++ [Label.respond p op res]) states' effects' y := by
  obtain ⟨done, rfl⟩ := step
  have standing := h.standing p
  rw [done] at standing
  obtain ⟨i, t, only, member⟩ := standing
  refine ⟨_, _, h.keep ?_ (fun _ _ _ => nofun) fun q => ?_⟩
  · intro p' op' res' i' eq pending _
    obtain ⟨rfl, rfl, rfl⟩ := Label.respond.inj eq
    obtain rfl := only pending
    exact ⟨t, member⟩
  · refine Standing.update ?_ (fun q _ => ?_) q
    · intro i' new
      rcases new.cases with old | ⟨-, _, eq⟩
      · obtain ⟨_, before⟩ := old.invoked
        exact new.silent (lt_of_getElem? before) (getElem?_snoc.mpr (Or.inr ⟨rfl, rfl⟩))
      · cases eq
    · exact (h.standing q).stay nofun

/-- One step of a tracked history extends its chronicle. -/
theorem Chronicle.step (h : Chronicle B a₀ labels states effects x)
    (step : Tracks B label x y)
    : ∃ states' effects', Chronicle B a₀ (labels ++ [label]) states' effects' y := by
  cases label with
  | invoke p op => exact h.invoke step
  | act p c => exact h.act step
  | silent p =>
      obtain rfl := step
      exact ⟨_, _, h.keep nofun (fun _ _ _ => nofun) fun q => (h.standing q).stay nofun⟩
  | respond p op res => exact h.respond step
  | stop p reason => exact step.elim

/-- Every history along which the object is tracked, from a state with no call under way, has a
timeline. Witness: induction on the history; every step extends the timeline by at most one
effect.
-/
theorem Tracked.chronicle (h : Tracked B (a₀, fun _ => .quiet) labels x)
    : ∃ states effects, Chronicle B a₀ labels states effects x := by
  induction h with
  | nil =>
      refine ⟨fun _ => a₀, [], ⟨?_, rfl, rfl, .nil, fun p i pending => ?_⟩⟩
      · refine ⟨.nil, .nil, nofun, nofun, nofun, fun t lt => ?_, nofun, fun completes => ?_,
          fun _ member => absurd member List.not_mem_nil⟩
        · simp at lt
        · simpa using completes.invoked
      · obtain ⟨op, invoked⟩ := pending.invoked
        simp at invoked
  | snoc before step ih =>
      obtain ⟨states, effects, chronicle⟩ := ih
      exact chronicle.step step

omit [DecidableEq Pid] in
/-- The order in which the calls took effect is a linearization. Witness: a call that responded
before another was invoked took effect before it.
-/
theorem Chronicle.linearizes (h : Chronicle B a₀ labels states effects x)
    : Linearizes B.answers a₀ labels (effects.map Happening.toEntry) x.1 := by
  refine ⟨h.legal, ?_, ?_, ?_, ?_⟩
  · intro e member
    obtain ⟨e', member', rfl⟩ := List.mem_map.mp member
    exact h.timeline.invoked e' member'
  · exact List.pairwise_map.mpr h.timeline.distinct
  · intro i j p op res completes
    obtain ⟨t, member, -⟩ := h.timeline.complete completes
    exact List.mem_map.mpr ⟨_, member, rfl⟩
  · refine List.pairwise_map.mpr (h.timeline.sorted.imp_of_mem ?_)
    intro e e' member member' before j res completes early
    obtain ⟨t, found, lt⟩ := h.timeline.complete completes
    have same : t = e'.point := congrArg Happening.point (h.timeline.unique found member' rfl)
    have bounds := h.timeline.within e member
    omega

end Snoc

end Minions.Logic
