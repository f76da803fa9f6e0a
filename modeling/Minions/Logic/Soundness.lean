import Minions.Logic.RelyGuarantee

/-! Soundness of the rely-guarantee rules.
Operations verified one process at a time keep the shared invariant in every interleaving,
and each step of the interleaving is matched by a ghost step. A process that runs alone
ends, with the postcondition it was verified for.
-/

namespace Minions.Logic

variable {S : Sig} {Pid Op Res Mem Loc St G : Type}

/-- A family of operations verified against a discipline. `idle` is what a process knows
between operations; `post` is what it knows when an operation is about to respond. The ghost
state may also change when an operation is invoked and when it responds.
-/
structure Verified (M : Machine S Pid Loc St) (code : Op → Mem → Prog S (Res × Mem))
    (allowed : Pid → Op → Prop) (D : Discipline S Pid Loc St G) where
  mayAbort : Op → Prop
  idle : Pid → Mem → Loc → St × G → Prop
  post : Pid → Op → Res × Mem → Loc → St × G → Prop
  onInvoke : Pid → Op → G → G → Prop
  onRespond : Pid → Op → Res → G → G → Prop
  idle_stable : ∀ {p mem l s t}, idle p mem l s → D.rely p s t → D.inv t → idle p mem l t
  invoke : ∀ {p op mem l s}, allowed p op → idle p mem l s → D.inv s
    → ∃ g, D.inv (s.1, g)
        ∧ (∀ q, q ≠ p → D.rely q s (s.1, g))
        ∧ onInvoke p op s.2 g
        ∧ wp M D p (mayAbort op) (code op mem) (post p op) l (s.1, g)
  respond : ∀ {p op res mem l s}, post p op (res, mem) l s → D.inv s
    → ∃ g, D.inv (s.1, g)
        ∧ (∀ q, q ≠ p → D.rely q s (s.1, g))
        ∧ onRespond p op res s.2 g
        ∧ idle p mem l (s.1, g)

variable [DecidableEq Pid] {M : Machine S Pid Loc St}
  {code : Op → Mem → Prog S (Res × Mem)} {allowed : Pid → Op → Prop}
  {D : Discipline S Pid Loc St G}

/-- The ghost step that matches a step of the system. -/
def Verified.ghostStep (V : Verified M code allowed D) : Label S Pid Op Res → G → G → Prop
  | .invoke p op, g, g' => V.onInvoke p op g g'
  | .act p c, g, g' => D.onCall p c g g'
  | .silent _, g, g' => g' = g
  | .respond p op res, g, g' => V.onRespond p op res g g'
  | .stop _ _, _, _ => False

/-- What is known of one process. -/
def Verified.procOk (V : Verified M code allowed D) (p : Pid) (s : St × G)
    : Proc S Op Res Mem Loc → Prop
  | .idle mem l => V.idle p mem l s
  | .busy op rest l => wp M D p (V.mayAbort op) rest (V.post p op) l s
  | .gone => False

/-- The shared invariant together with what every process knows. -/
def Verified.good (V : Verified M code allowed D) (c : Config S Pid Op Res Mem Loc St)
    (g : G)
    : Prop :=
  D.inv (c.st, g) ∧ ∀ p, V.procOk p (c.st, g) (c.procs p)

/-- A run together with the ghost states along it. -/
inductive GhostRun (V : Verified M code allowed D) (start : Config S Pid Op Res Mem Loc St)
    (g₀ : G)
    : List (Label S Pid Op Res) → Config S Pid Op Res Mem Loc St → G → Prop
  | nil : GhostRun V start g₀ [] start g₀
  | snoc {labels label mid last g g'} (before : GhostRun V start g₀ labels mid g)
    (step : Step M code allowed mid label last) (known : V.good mid g)
    (ghost : V.ghostStep label g g') (kept : V.good last g')
    : GhostRun V start g₀ (labels ++ [label]) last g'

omit [DecidableEq Pid] in
/-- What is known about a process survives the steps of the others. -/
theorem Verified.procOk_stable (V : Verified M code allowed D) {p : Pid} {s t : St × G}
    {x : Proc S Op Res Mem Loc} (h : V.procOk p s x) (step : D.rely p s t)
    (inv : D.inv t)
    : V.procOk p t x := by
  cases x with
  | idle mem l => exact V.idle_stable h step inv
  | busy op rest l => exact wp_stable step h
  | gone => exact h

/-- The processes that did not move keep what they know. -/
theorem Verified.good_update (V : Verified M code allowed D)
    {c : Config S Pid Op Res Mem Loc St} {g g' : G} {p : Pid} {st' : St}
    {x : Proc S Op Res Mem Loc} (h : V.good c g) (inv : D.inv (st', g'))
    (others : ∀ q, q ≠ p → D.rely q (c.st, g) (st', g'))
    (moved : V.procOk p (st', g') x)
    : V.good { procs := Function.update c.procs p x, st := st' } g' := by
  refine ⟨inv, fun q => ?_⟩
  by_cases same : q = p
  · subst same
    simpa using moved
  · simpa [same] using V.procOk_stable (h.2 q) (others q same) inv

/-- One step of the system keeps all knowledge. Witness: each kind of step unfolds one node
of the program of the process that moves.
-/
theorem Verified.good_step (V : Verified M code allowed D)
    {c c' : Config S Pid Op Res Mem Loc St} {label : Label S Pid Op Res} {g : G}
    (h : V.good c g) (step : Step M code allowed c label c')
    (alive : ∀ p reason, label ≠ .stop p reason)
    : ∃ g', V.good c' g' ∧ V.ghostStep label g g' := by
  cases step with
  | @invoke p mem loc op at_ ok =>
      have known := h.2 p
      rw [at_] at known
      obtain ⟨g', inv, others, ghost, rest⟩ := V.invoke ok known h.1
      exact ⟨g', V.good_update h inv others rest, ghost⟩
  | @act p op call next loc at_ ready =>
      have known := h.2 p
      rw [at_] at known
      obtain ⟨-, g', inv, others, ghost, rest⟩ :=
        known (c.st, g) (D.rely_refl p _) h.1 ready
      exact ⟨g', V.good_update h inv others rest, ghost⟩
  | @silent p op loc σ β state body next at_ =>
      have known := h.2 p
      rw [at_] at known
      exact ⟨g, V.good_update h h.1 (fun q _ => D.rely_refl q _) (wp_unroll h.1 known), rfl⟩
  | @respond p op res mem loc at_ =>
      have known := h.2 p
      rw [at_] at known
      obtain ⟨g', inv, others, ghost, rest⟩ :=
        V.respond (known (c.st, g) (D.rely_refl p _) h.1) h.1
      exact ⟨g', V.good_update h inv others rest, ghost⟩
  | @stop p op reason loc at_ => exact absurd rfl (alive p reason)

/-- Every run in which no process stops is matched by a ghost run. -/
theorem Verified.ghostRun (V : Verified M code allowed D)
    {start last : Config S Pid Op Res Mem Loc St} {labels : List (Label S Pid Op Res)}
    {g₀ : G} (h : V.good start g₀) (run : Run M code allowed start labels last)
    (alive : NonAborting labels)
    : ∃ g, GhostRun V start g₀ labels last g ∧ V.good last g := by
  induction run with
  | nil => exact ⟨g₀, .nil, h⟩
  | @snoc labels label mid last before step ih =>
      obtain ⟨g, ghosts, known⟩ := ih alive.init
      obtain ⟨g', kept, ghost⟩ := V.good_step known step
        fun p reason same => alive p reason (by simp [same])
      exact ⟨g', .snoc ghosts step known ghost kept, kept⟩

omit [DecidableEq Pid] in
/-- An operation that may not abort never reaches an abort. -/
theorem Verified.good_noAbort (V : Verified M code allowed D)
    {c : Config S Pid Op Res Mem Loc St} {g : G} {p : Pid} {op : Op} {reason : S.Err}
    {l : Loc} (h : V.good c g) (safe : ¬ V.mayAbort op)
    : c.procs p ≠ .busy op (.abort reason) l := by
  intro at_
  have known := h.2 p
  rw [at_] at known
  exact safe known

omit [DecidableEq Pid] in
/-- A process makes a call only when it is permitted to. -/
theorem Verified.good_permit (V : Verified M code allowed D)
    {c : Config S Pid Op Res Mem Loc St} {g : G} {p : Pid} {op : Op} {call : S.Call}
    {next : S.Resp call → Prog S (Res × Mem)} {l : Loc} (h : V.good c g)
    (at_ : c.procs p = .busy op (.call call next) l) (ready : M.enabled p call l c.st)
    : D.permit p call l (c.st, g) := by
  have known := h.2 p
  rw [at_] at known
  exact (known (c.st, g) (D.rely_refl p _) h.1 ready).1

end Minions.Logic
