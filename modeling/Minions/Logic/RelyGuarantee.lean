import Minions.Logic.System

/-! Rely-guarantee reasoning with ghost state.
A process keeps its own assertion as long as the others only do what it relies on; every
call must keep the shared invariant and respect what each other process relies on, and may
change the ghost state as it does so. Loops carry a variant, so a proof about a process
also shows that it needs finitely many of its own steps.
-/

namespace Minions.Logic

variable {S : Sig} {Pid Op Res Mem Loc St G : Type}

/-- The shared invariant, what each process relies on, when a process may make a call and
which ghost updates the call may make.
-/
structure Discipline (S : Sig) (Pid Loc St G : Type) where
  inv : St × G → Prop
  rely : Pid → St × G → St × G → Prop
  permit : Pid → S.Call → Loc → St × G → Prop
  onCall : Pid → S.Call → G → G → Prop
  rely_refl : ∀ p s, rely p s s
  rely_trans : ∀ {p s t u}, rely p s t → rely p t u → rely p s u

variable (M : Machine S Pid Loc St) (D : Discipline S Pid Loc St G)

/-- `wp M D p ab prog Q l s`: from `s`, whatever the other processes do, `prog` run by `p`
keeps the discipline, ends, and ends with `Q`; it may abort only if `ab`.
-/
def wp (p : Pid) (ab : Prop)
    : {α : Type} → Prog S α → (α → Loc → St × G → Prop) → Loc → St × G → Prop
  | _, .ret a, Q, l, s => ∀ s', D.rely p s s' → D.inv s' → Q a l s'
  | _, .abort _, _, _, _ => ab
  | _, .call c next, Q, l, s =>
      ∀ s', D.rely p s s' → D.inv s' → M.enabled p c l s'.1
        → D.permit p c l s'
          ∧ ∃ g, D.inv ((M.exec p c l s'.1).2.2, g)
            ∧ (∀ q, q ≠ p → D.rely q s' ((M.exec p c l s'.1).2.2, g))
            ∧ D.onCall p c s'.2 g
            ∧ wp p ab (next (M.exec p c l s'.1).1) Q (M.exec p c l s'.1).2.1
                ((M.exec p c l s'.1).2.2, g)
  | _, .loop (σ := σ) state body next, Q, l, s =>
      ∃ I : Nat → σ → Loc → St × G → Prop,
        (∀ s', D.rely p s s' → D.inv s' → ∃ n, I n state l s')
        ∧ ∀ n x l' s', I n x l' s' → D.inv s'
            → wp p ab (body x)
                (fun r l s =>
                  r.elim (fun y => ∃ m < n, I m y l s) (fun b => wp p ab (next b) Q l s))
                l' s'

variable {M D} {p : Pid} {ab : Prop} {α β : Type}

-----------------------------------------------------------------------------------------
-- Structural rules
-----------------------------------------------------------------------------------------

/-- What the others do while `p` waits does not disturb `p`'s assertion. Witness: every
node of the program quantifies over the states its process may find.
-/
theorem wp_stable {prog : Prog S α} {Q : α → Loc → St × G → Prop} {l : Loc} {s t : St × G}
    (step : D.rely p s t) (h : wp M D p ab prog Q l s)
    : wp M D p ab prog Q l t := by
  cases prog with
  | ret a => exact fun s' hr => h s' (D.rely_trans step hr)
  | abort reason => exact h
  | call c next => exact fun s' hr => h s' (D.rely_trans step hr)
  | loop state body next =>
      obtain ⟨I, start, round⟩ := h
      exact ⟨I, fun s' hr => start s' (D.rely_trans step hr), round⟩

/-- Weaken the postcondition, which is only asked for in states that keep the invariant. -/
theorem wp_mono {prog : Prog S α} {Q Q' : α → Loc → St × G → Prop}
    (weaken : ∀ a l s, D.inv s → Q a l s → Q' a l s) {l : Loc} {s : St × G}
    (h : wp M D p ab prog Q l s)
    : wp M D p ab prog Q' l s := by
  induction prog generalizing l s with
  | ret a => exact fun s' hr hi => weaken a l s' hi (h s' hr hi)
  | abort reason => exact h
  | call c next ih =>
      intro s' hr hi ready
      obtain ⟨may, g, keep, others, ghost, rest⟩ := h s' hr hi ready
      exact ⟨may, g, keep, others, ghost, ih _ weaken rest⟩
  | loop state body next bodyIH nextIH =>
      obtain ⟨I, start, round⟩ := h
      refine ⟨I, start, fun n x l' s' hI hi => ?_⟩
      refine bodyIH x (fun r l s _ post => ?_) (round n x l' s' hI hi)
      cases r with
      | inl y => exact post
      | inr b => exact nextIH b weaken post

/-- Sequential composition. -/
theorem wp_bind {prog : Prog S α} {f : α → Prog S β} {Q : β → Loc → St × G → Prop}
    {l : Loc} {s : St × G} (inv : D.inv s)
    (h : wp M D p ab prog (fun a l s => wp M D p ab (f a) Q l s) l s)
    : wp M D p ab (prog.bind f) Q l s := by
  induction prog generalizing l s with
  | ret a => exact h s (D.rely_refl p s) inv
  | abort reason => exact h
  | call c next ih =>
      intro s' hr hi ready
      obtain ⟨may, g, keep, others, ghost, rest⟩ := h s' hr hi ready
      exact ⟨may, g, keep, others, ghost, ih _ keep rest⟩
  | loop state body next bodyIH nextIH =>
      obtain ⟨I, start, round⟩ := h
      refine ⟨I, start, fun n x l' s' hI hi => ?_⟩
      refine wp_mono (fun r l s hi post => ?_) (round n x l' s' hI hi)
      cases r with
      | inl y => exact post
      | inr b => exact nextIH b hi post

/-- The postcondition also holds in every state the others may lead to after the end. -/
theorem wp_closed {prog : Prog S α} {Q : α → Loc → St × G → Prop} {l : Loc} {s : St × G}
    (h : wp M D p ab prog Q l s)
    : wp M D p ab prog (fun a l s => ∀ t, D.rely p s t → D.inv t → Q a l t) l s := by
  induction prog generalizing l s with
  | ret a => exact fun s' hr _ t hr' hi' => h t (D.rely_trans hr hr') hi'
  | abort reason => exact h
  | call c next ih =>
      intro s' hr hi ready
      obtain ⟨may, g, keep, others, ghost, rest⟩ := h s' hr hi ready
      exact ⟨may, g, keep, others, ghost, ih _ rest⟩
  | loop state body next bodyIH nextIH =>
      obtain ⟨I, start, round⟩ := h
      refine ⟨I, start, fun n x l' s' hI hi => ?_⟩
      refine wp_mono (fun r l s _ post => ?_) (round n x l' s' hI hi)
      cases r with
      | inl y => exact post
      | inr b => exact nextIH b post

/-- A loop may be unrolled once. -/
theorem wp_unroll {σ : Type} {state : σ} {body : σ → Prog S (σ ⊕ β)}
    {next : β → Prog S α} {Q : α → Loc → St × G → Prop} {l : Loc} {s : St × G}
    (inv : D.inv s) (h : wp M D p ab (.loop state body next) Q l s)
    : wp M D p ab (Prog.unroll state body next) Q l s := by
  obtain ⟨I, start, round⟩ := h
  obtain ⟨n, first⟩ := start s (D.rely_refl p s) inv
  refine wp_bind inv (wp_mono (fun r l s hi post => ?_) (wp_closed (round n state l s first inv)))
  cases r with
  | inl y =>
      refine ⟨I, fun s' hr hi' => ?_, round⟩
      obtain ⟨m, -, found⟩ := post s' hr hi'
      exact ⟨m, found⟩
  | inr b => exact post s (D.rely_refl p s) hi

/-- Return, when the assertion is stable. -/
theorem wp_ret {a : α} {Q : α → Loc → St × G → Prop} {l : Loc} {s : St × G}
    (h : ∀ s', D.rely p s s' → D.inv s' → Q a l s')
    : wp M D p ab (.ret a) Q l s := h

/-- A call that changes neither the shared state nor the ghost state. -/
theorem wp_call_read {c : S.Call} {next : S.Resp c → Prog S α}
    {Q : α → Loc → St × G → Prop} {l : Loc} {s : St × G}
    (quiet : ∀ s', D.inv s' → (M.exec p c l s'.1).2.2 = s'.1)
    (may : ∀ s', D.inv s' → D.permit p c l s') (ghost : ∀ g, D.onCall p c g g)
    (h : ∀ s', D.rely p s s' → D.inv s'
      → wp M D p ab (next (M.exec p c l s'.1).1) Q (M.exec p c l s'.1).2.1 s')
    : wp M D p ab (.call c next) Q l s := by
  intro s' hr hi _
  have same : ((M.exec p c l s'.1).2.2, s'.2) = s' := by rw [quiet s' hi]
  refine ⟨may s' hi, s'.2, by rw [same]; exact hi, fun q _ => by rw [same]; exact D.rely_refl q s',
    ghost _, by rw [same]; exact h s' hr hi⟩

/-- A loop whose rounds decrease a variant. -/
theorem wp_loop {σ : Type} {state : σ} {body : σ → Prog S (σ ⊕ β)}
    {next : β → Prog S α} {Q : α → Loc → St × G → Prop} {l : Loc} {s : St × G}
    (I : Nat → σ → Loc → St × G → Prop)
    (start : ∀ s', D.rely p s s' → D.inv s' → ∃ n, I n state l s')
    (round : ∀ n x l' s', I n x l' s' → D.inv s'
      → wp M D p ab (body x)
          (fun r l s =>
            r.elim (fun y => ∃ m < n, I m y l s) (fun b => wp M D p ab (next b) Q l s))
          l' s')
    : wp M D p ab (.loop state body next) Q l s :=
  ⟨I, start, round⟩

end Minions.Logic
