import Minions.Logic.Soundness

/-! One process alone.
A verified program that no other process disturbs ends within a bounded number of loop
rounds; the state it ends in is one the others could have been left with.
-/

namespace Minions.Logic

variable {S : Sig} {Pid Loc St G : Type} {α β σ W : Type}

/-- The calls of process `p` on its own part of the kernel's state and the shared state,
when it never has to wait.
-/
def Machine.alone (M : Machine S Pid Loc St) (p : Pid) (c : S.Call) (w : Loc × St)
    : S.Resp c × (Loc × St) :=
  M.exec p c w.1 w.2

/-- With enough fuel the program ends as stated. -/
def Prog.Ends (exec : (c : S.Call) → W → S.Resp c × W) (prog : Prog S α) (w : W)
    (out : Prog.Outcome S.Err α) (w' : W)
    : Prop :=
  ∃ bound, ∀ fuel ≥ bound, prog.run exec fuel w = (out, w')

/-- With enough fuel and enough rounds a loop ends as stated. -/
def Prog.LoopEnds (exec : (c : S.Call) → W → S.Resp c × W) (body : σ → Prog S (σ ⊕ β))
    (state : σ) (w : W) (out : Prog.Outcome S.Err β) (w' : W)
    : Prop :=
  ∃ bound, ∀ fuel ≥ bound, ∀ rounds ≥ bound,
    Prog.iterate (fun s w => (body s).run exec fuel w) rounds state w = (out, w')

section Ends

variable {exec : (c : S.Call) → W → S.Resp c × W}

/-- A program that returns ends with its value. -/
theorem Prog.Ends.ret (a : α) (w : W) : (Prog.ret a : Prog S α).Ends exec w (.done a) w :=
  ⟨0, fun _ _ => rfl⟩

/-- A program that aborts ends with its reason. -/
theorem Prog.Ends.abort (reason : S.Err) (w : W)
    : (Prog.abort reason : Prog S α).Ends exec w (.stopped reason) w :=
  ⟨0, fun _ _ => rfl⟩

/-- The program ends, with a value or not, in a state that satisfies `P`. -/
def Prog.EndsIn (exec : (c : S.Call) → W → S.Resp c × W) (prog : Prog S α) (w : W) (P : W → Prop)
    : Prop :=
  ∃ out w', prog.Ends exec w out w' ∧ P w'

/-- A program that returns ends where it is. -/
theorem Prog.EndsIn.ret {a : α} {w : W} {P : W → Prop} (h : P w)
    : (Prog.ret a : Prog S α).EndsIn exec w P :=
  ⟨_, w, .ret a w, h⟩

/-- A program that aborts ends where it is. -/
theorem Prog.EndsIn.abort {reason : S.Err} {w : W} {P : W → Prop} (h : P w)
    : (Prog.abort reason : Prog S α).EndsIn exec w P :=
  ⟨_, w, .abort reason w, h⟩

/-- A call and what follows it. -/
theorem Prog.EndsIn.call {c : S.Call} {next : S.Resp c → Prog S α} {w : W} {P : W → Prop}
    (h : (next (exec c w).1).EndsIn exec (exec c w).2 P)
    : (Prog.call c next).EndsIn exec w P :=
  h

/-- A round that continues postpones the end of the loop. -/
theorem Prog.LoopEnds.again {body : σ → Prog S (σ ⊕ β)} {state state' : σ} {w w' w'' : W}
    {out : Prog.Outcome S.Err β}
    (first : (body state).Ends exec w (.done (.inl state')) w')
    (rest : Prog.LoopEnds exec body state' w' out w'')
    : Prog.LoopEnds exec body state w out w'' := by
  obtain ⟨b, first⟩ := first
  obtain ⟨b', rest⟩ := rest
  refine ⟨max b b' + 1, fun fuel hf rounds hr => ?_⟩
  obtain ⟨rounds, rfl⟩ : ∃ k, rounds = k + 1 := ⟨rounds - 1, by omega⟩
  simp only [Prog.iterate, first fuel (by omega)]
  exact rest fuel (by omega) rounds (by omega)

/-- A round that leaves, or aborts, ends the loop. -/
theorem Prog.LoopEnds.leave {body : σ → Prog S (σ ⊕ β)} {state : σ} {w w' : W}
    {out : Prog.Outcome S.Err (σ ⊕ β)} {out' : Prog.Outcome S.Err β}
    (first : (body state).Ends exec w out w')
    (ends : (∃ b, out = .done (.inr b) ∧ out' = .done b)
      ∨ ∃ e, out = .stopped e ∧ out' = .stopped e)
    : Prog.LoopEnds exec body state w out' w' := by
  obtain ⟨b, first⟩ := first
  refine ⟨b + 1, fun fuel hf rounds hr => ?_⟩
  obtain ⟨rounds, rfl⟩ : ∃ k, rounds = k + 1 := ⟨rounds - 1, by omega⟩
  simp only [Prog.iterate, first fuel (by omega)]
  rcases ends with ⟨b, rfl, rfl⟩ | ⟨e, rfl, rfl⟩ <;> rfl

/-- A loop that ends with a value goes on with the rest of the program. -/
theorem Prog.LoopEnds.next {body : σ → Prog S (σ ⊕ β)} {state : σ} {next : β → Prog S α}
    {w w' w'' : W} {b : β} {out : Prog.Outcome S.Err α}
    (loop : Prog.LoopEnds exec body state w (.done b) w')
    (rest : (next b).Ends exec w' out w'')
    : (Prog.loop state body next).Ends exec w out w'' := by
  obtain ⟨n, loop⟩ := loop
  obtain ⟨n', rest⟩ := rest
  refine ⟨max n n', fun fuel hf => ?_⟩
  simp only [Prog.run, loop fuel (by omega) fuel (by omega)]
  exact rest fuel (by omega)

/-- A loop that aborts aborts the program. -/
theorem Prog.LoopEnds.stopped {body : σ → Prog S (σ ⊕ β)} {state : σ}
    {next : β → Prog S α} {w w' : W} {e : S.Err}
    (loop : Prog.LoopEnds exec body state w (.stopped e) w')
    : (Prog.loop state body next).Ends exec w (.stopped e) w' := by
  obtain ⟨n, loop⟩ := loop
  refine ⟨n, fun fuel hf => ?_⟩
  simp only [Prog.run, loop fuel hf fuel hf]

/-- Running a composition runs its parts in turn. -/
theorem Prog.run_bind (fuel : Nat) (prog : Prog S α) (f : α → Prog S β) (w : W)
    : (prog.bind f).run exec fuel w
      = match prog.run exec fuel w with
        | (.done a, w') => (f a).run exec fuel w'
        | (.stopped e, w') => (.stopped e, w')
        | (.timeout, w') => (.timeout, w') := by
  induction prog generalizing w with
  | ret a => rfl
  | abort reason => rfl
  | call c next ih => exact ih _ f _
  | loop state body next bodyIH nextIH =>
      simp only [Prog.loop_bind, Prog.run]
      split
      · exact nextIH _ f _
      · rfl
      · rfl

/-- A part that ends with a value goes on with the rest. -/
theorem Prog.Ends.bind {prog : Prog S α} {f : α → Prog S β} {w w' w'' : W} {a : α}
    {out : Prog.Outcome S.Err β} (first : prog.Ends exec w (.done a) w')
    (rest : (f a).Ends exec w' out w'')
    : (prog.bind f).Ends exec w out w'' := by
  obtain ⟨n, first⟩ := first
  obtain ⟨n', rest⟩ := rest
  refine ⟨max n n', fun fuel enough => ?_⟩
  rw [Prog.run_bind, first fuel (by omega)]
  exact rest fuel (by omega)

/-- A part that aborts aborts the whole. -/
theorem Prog.Ends.bind_stopped {prog : Prog S α} {f : α → Prog S β} {w w' : W} {e : S.Err}
    (first : prog.Ends exec w (.stopped e) w')
    : (prog.bind f).Ends exec w (.stopped e) w' := by
  obtain ⟨n, first⟩ := first
  refine ⟨n, fun fuel enough => ?_⟩
  rw [Prog.run_bind, first fuel enough]

/-- More rounds, and more fuel for each, do not change how a loop ends. -/
theorem Prog.iterate_mono {ε : Type} {step step' : σ → W → Prog.Outcome ε (σ ⊕ β) × W}
    (same : ∀ s w, (step s w).1 ≠ .timeout → step' s w = step s w) {n n' : Nat} (le : n ≤ n')
    (s : σ) (w : W) (ends : (Prog.iterate step n s w).1 ≠ .timeout)
    : Prog.iterate step' n' s w = Prog.iterate step n s w := by
  induction n generalizing n' s w with
  | zero => exact absurd rfl ends
  | succ n ih =>
      obtain ⟨n', rfl⟩ : ∃ k, n' = k + 1 := ⟨n' - 1, by omega⟩
      simp only [Prog.iterate] at ends ⊢
      rcases result : step s w with ⟨out, w'⟩
      have first : step' s w = step s w := by
        apply same
        rintro stuck
        rw [result] at stuck ends
        simp only at stuck
        simp [stuck] at ends
      rw [first, result]
      rw [result] at ends
      match out with
      | .done (.inl s') => exact ih (by omega) _ _ ends
      | .done (.inr b) => rfl
      | .stopped e => rfl
      | .timeout => rfl

/-- More fuel does not change how a program ends. Witness: induction on the program. -/
theorem Prog.run_mono {fuel fuel' : Nat} (le : fuel ≤ fuel') (prog : Prog S α) (w : W)
    (ends : (prog.run exec fuel w).1 ≠ .timeout)
    : prog.run exec fuel' w = prog.run exec fuel w := by
  induction prog generalizing w with
  | ret a => rfl
  | abort reason => rfl
  | call c next ih => exact ih _ _ ends
  | loop state body next bodyIH nextIH =>
      simp only [Prog.run] at ends ⊢
      rcases result : Prog.iterate (fun s w => (body s).run exec fuel w) fuel state w with ⟨out, w'⟩
      rw [result] at ends
      have rounds := Prog.iterate_mono (n := fuel) (fun s w => bodyIH s w) le state w
      rw [result] at rounds
      match out with
      | .done b =>
          rw [rounds nofun]
          exact nextIH b w' ends
      | .stopped e => rw [rounds nofun]
      | .timeout => exact absurd rfl ends

/-- One run that does not exhaust its fuel shows how the program ends. -/
theorem Prog.Ends.of_run {prog : Prog S α} {w : W} (fuel : Nat)
    (ends : (prog.run exec fuel w).1 ≠ .timeout)
    : prog.Ends exec w (prog.run exec fuel w).1 (prog.run exec fuel w).2 :=
  ⟨fuel, fun _ enough => Prog.run_mono enough prog w ends⟩

/-- One run that ends with a value shows how the program ends. -/
theorem Prog.Ends.of_done {prog : Prog S α} {w w' : W} {fuel : Nat} {a : α}
    (run : prog.run exec fuel w = (.done a, w'))
    : prog.Ends exec w (.done a) w' := by
  have ends : prog.Ends exec w _ _ := Prog.Ends.of_run fuel (by rw [run]; nofun)
  rwa [run] at ends

/-- A run with enough fuel that has a value shows that the program ends with it. -/
theorem Prog.Ends.of_value {prog : Prog S α} {w : W} (fuel : Nat)
    (ends : (prog.run exec fuel w).1.value.isSome = true)
    : ∃ a w', prog.Ends exec w (.done a) w' := by
  rcases result : prog.run exec fuel w with ⟨out, w'⟩
  rw [result] at ends
  match out with
  | .done a => exact ⟨a, w', .of_done result⟩

/-- One run shows a part of the value with which the program ends, and the world it leaves. -/
theorem Prog.Ends.of_value_run {γ : Type} {prog : Prog S α} {w : W} (fuel : Nat) {f : α → γ}
    {c : γ} (value : (prog.run exec fuel w).1.value.map f = some c)
    : ∃ a, prog.Ends exec w (.done a) (prog.run exec fuel w).2 ∧ f a = c := by
  rcases result : prog.run exec fuel w with ⟨out, w'⟩
  rw [result] at value
  match out with
  | .done a => exact ⟨a, .of_done result, Option.some.inj value⟩

/-- The same, for a part of the value. -/
theorem Prog.Ends.of_value_map {γ : Type} {prog : Prog S α} {w : W} (fuel : Nat) {f : α → γ}
    {c : γ} (value : (prog.run exec fuel w).1.value.map f = some c)
    : ∃ a w', prog.Ends exec w (.done a) w' ∧ f a = c := by
  obtain ⟨a, ends, same⟩ := Prog.Ends.of_value_run fuel value
  exact ⟨a, _, ends, same⟩

/-- Results do not depend on how much fuel was enough. -/
theorem Prog.Ends.unique {prog : Prog S α} {w w₁ w₂ : W} {o₁ o₂ : Prog.Outcome S.Err α}
    (h₁ : prog.Ends exec w o₁ w₁) (h₂ : prog.Ends exec w o₂ w₂)
    : o₁ = o₂ ∧ w₁ = w₂ := by
  obtain ⟨b₁, h₁⟩ := h₁
  obtain ⟨b₂, h₂⟩ := h₂
  have same := (h₁ (max b₁ b₂) (by omega)).symm.trans (h₂ (max b₁ b₂) (by omega))
  exact ⟨congrArg Prod.fst same, congrArg Prod.snd same⟩

/-- A composition that ends with a value has had a value of its first part. -/
theorem Prog.Ends.of_bind {prog : Prog S α} {f : α → Prog S β} {w w'' : W} {b : β}
    (h : (prog.bind f).Ends exec w (.done b) w'')
    : ∃ a w', prog.Ends exec w (.done a) w' ∧ (f a).Ends exec w' (.done b) w'' := by
  obtain ⟨bound, h⟩ := h
  have whole := h bound (Nat.le_refl bound)
  rw [Prog.run_bind] at whole
  rcases result : prog.run exec bound w with ⟨out, w'⟩
  rw [result] at whole
  match out with
  | .done a => exact ⟨a, w', .of_done result, .of_done whole⟩

/-- What every call keeps is kept by every run, however it ends. Witness: induction on the
program, and on the rounds of a loop.
-/
theorem Prog.run_keeps {K : W → Prop} (step : ∀ c w, K w → K (exec c w).2) (fuel : Nat)
    (prog : Prog S α) {w : W} (keeps : K w)
    : K (prog.run exec fuel w).2 := by
  induction prog generalizing w with
  | ret a => exact keeps
  | abort reason => exact keeps
  | call c next ih => exact ih _ (step c w keeps)
  | loop state body next bodyIH nextIH =>
      have rounds : ∀ n x w, K w
          → K (Prog.iterate (fun s w => (body s).run exec fuel w) n x w).2 := by
        intro n
        induction n with
        | zero => exact fun _ _ keeps => keeps
        | succ n ih =>
            intro x w keeps
            have one := bodyIH x keeps
            rw [Prog.iterate]
            rcases result : (body x).run exec fuel w with ⟨out, w'⟩
            rw [result] at one
            match out with
            | .done (.inl y) => exact ih y w' one
            | .done (.inr b) => exact one
            | .stopped e => exact one
            | .timeout => exact one
      have loop := rounds fuel state w keeps
      rw [Prog.run]
      rcases result : Prog.iterate (fun s w => (body s).run exec fuel w) fuel state w
        with ⟨out, w'⟩
      rw [result] at loop
      match out with
      | .done b => exact nextIH b loop
      | .stopped e => exact loop
      | .timeout => exact loop

/-- What every call keeps is kept by a program that ends. -/
theorem Prog.Ends.keeps {K : W → Prop} {prog : Prog S α} {w w' : W}
    {out : Prog.Outcome S.Err α} (ends : prog.Ends exec w out w')
    (step : ∀ c w, K w → K (exec c w).2) (keeps : K w)
    : K w' := by
  obtain ⟨bound, ends⟩ := ends
  have run := Prog.run_keeps step bound prog keeps
  rwa [ends bound (Nat.le_refl bound)] at run

-----------------------------------------------------------------------------------------
-- Programs that always end
-----------------------------------------------------------------------------------------

/-- No run of the program exhausts its fuel. -/
def Prog.Direct (exec : (c : S.Call) → W → S.Resp c × W) (prog : Prog S α) : Prop :=
  ∀ fuel w, (prog.run exec fuel w).1 ≠ .timeout

/-- A program that returns has no loop. -/
theorem Prog.Direct.ret (a : α) : (Prog.ret a : Prog S α).Direct exec := fun _ _ => nofun

/-- A program that aborts has no loop. -/
theorem Prog.Direct.abort (reason : S.Err) : (Prog.abort reason : Prog S α).Direct exec :=
  fun _ _ => nofun

/-- A call has no loop if what follows has none. -/
theorem Prog.Direct.call {c : S.Call} {next : S.Resp c → Prog S α}
    (rest : ∀ r, (next r).Direct exec)
    : (Prog.call c next).Direct exec :=
  fun fuel _ => rest _ fuel _

/-- A choice between programs without loops has none. -/
theorem Prog.Direct.ite {cond : Prop} [Decidable cond] {x y : Prog S α} (hx : x.Direct exec)
    (hy : y.Direct exec)
    : (if cond then x else y).Direct exec := by
  split
  · exact hx
  · exact hy

/-- A program exhausts its fuel exactly if its first part does, where the rest always ends. -/
theorem Prog.timeout_bind_iff {first : Prog S α} {rest : α → Prog S β}
    (direct : ∀ a, (rest a).Direct exec) (fuel : Nat) (w : W)
    : ((first.bind rest).run exec fuel w).1 = .timeout
      ↔ (first.run exec fuel w).1 = .timeout := by
  rw [Prog.run_bind]
  rcases first.run exec fuel w with ⟨out, w'⟩
  cases out with
  | done a => simp [direct a fuel w']
  | stopped e => simp
  | timeout => simp

/-- Two programs without loops, one after the other, have none. -/
theorem Prog.Direct.bind {first : Prog S α} {rest : α → Prog S β} (head : first.Direct exec)
    (direct : ∀ a, (rest a).Direct exec)
    : (first.bind rest).Direct exec :=
  fun fuel w out => head fuel w ((Prog.timeout_bind_iff direct fuel w).mp out)

end Ends

variable (M : Machine S Pid Loc St) (D : Discipline S Pid Loc St G)

/-- A state that `p` can reach from `s` by its own verified calls. -/
structure Reaches (p : Pid) (solo : St → Prop) (s t : St × G) : Prop where
  inv : D.inv t
  alone : solo t.1
  others : ∀ q, q ≠ p → D.rely q s t
  ghost : Relation.ReflTransGen (fun g g' => ∃ c, D.onCall p c g g') s.2 t.2

variable {M D} {p : Pid} {ab : Prop} {solo : St → Prop}

/-- Steps that follow one another. -/
theorem Reaches.trans {s t u : St × G} (h₁ : Reaches D p solo s t)
    (h₂ : Reaches D p solo t u)
    : Reaches D p solo s u :=
  ⟨h₂.inv, h₂.alone, fun q hq => D.rely_trans (h₁.others q hq) (h₂.others q hq),
    h₁.ghost.trans h₂.ghost⟩

/-- No step. -/
theorem Reaches.refl {s : St × G} (inv : D.inv s) (alone : solo s.1)
    : Reaches D p solo s s :=
  ⟨inv, alone, fun q _ => D.rely_refl q s, .refl⟩

/-- How a verified program ends: with a value satisfying the postcondition, or by an
abort that was allowed.
-/
def EndsWith (ab : Prop) (Q : α → Prop) : Prog.Outcome S.Err α → Prop
  | .done a => Q a
  | .stopped _ => ab
  | .timeout => False

/-- A verified program run alone ends. Witness: induction on the program; a loop is run by
induction on its variant.
-/
theorem wp_alone (solo : St → Prop)
    (ready : ∀ c l st, solo st → M.enabled p c l st)
    (stays : ∀ c l st, solo st → solo (M.exec p c l st).2.2)
    {prog : Prog S α} {Q : α → Loc → St × G → Prop} {l : Loc} {s : St × G}
    (inv : D.inv s) (alone : solo s.1) (h : wp M D p ab prog Q l s)
    : ∃ out l' t, prog.Ends (M.alone p) (l, s.1) out (l', t.1)
        ∧ Reaches D p solo s t
        ∧ EndsWith ab (fun a => Q a l' t) out := by
  induction prog generalizing l s with
  | ret a =>
      exact ⟨.done a, l, s, ⟨0, fun _ _ => rfl⟩, .refl inv alone,
        h s (D.rely_refl p s) inv⟩
  | abort reason => exact ⟨.stopped reason, l, s, ⟨0, fun _ _ => rfl⟩, .refl inv alone, h⟩
  | call c next ih =>
      obtain ⟨-, g, keep, others, ghost, rest⟩ :=
        h s (D.rely_refl p s) inv (ready c l s.1 alone)
      obtain ⟨out, l', t, ⟨bound, ends⟩, reach, post⟩ := ih _ keep (stays c l s.1 alone) rest
      refine ⟨out, l', t, ⟨bound, ends⟩, ?_, post⟩
      exact Reaches.trans ⟨keep, stays c l s.1 alone, others, .single ⟨c, ghost⟩⟩ reach
  | @loop γ σ β state body next bodyIH nextIH =>
      obtain ⟨I, start, round⟩ := h
      have rounds : ∀ n x l s, I n x l s → D.inv s → solo s.1
          → ∃ out l' t, Prog.LoopEnds (M.alone p) body x (l, s.1) out (l', t.1)
              ∧ Reaches D p solo s t
              ∧ EndsWith ab (fun b => wp M D p ab (next b) Q l' t) out := by
        intro n
        induction n using Nat.strongRecOn with
        | ind n ih =>
            intro x l s hI inv alone
            obtain ⟨out, l', t, ends, reach, post⟩ :=
              bodyIH x inv alone (round n x l s hI inv)
            match out, post with
            | .done (.inl y), ⟨m, less, hI'⟩ =>
                obtain ⟨out', l'', u, loop, reach', post'⟩ :=
                  ih m less y l' t hI' reach.inv reach.alone
                exact ⟨out', l'', u, .again ends loop, reach.trans reach', post'⟩
            | .done (.inr b), post =>
                exact ⟨.done b, l', t, .leave ends (Or.inl ⟨b, rfl, rfl⟩), reach, post⟩
            | .stopped e, post =>
                exact ⟨.stopped e, l', t, .leave ends (Or.inr ⟨e, rfl, rfl⟩), reach, post⟩
      obtain ⟨n, first⟩ := start s (D.rely_refl p s) inv
      obtain ⟨out, l', t, loop, reach, post⟩ := rounds n state l s first inv alone
      match out, post with
      | .done b, post =>
          obtain ⟨out', l'', u, ends, reach', post'⟩ := nextIH b reach.inv reach.alone post
          exact ⟨out', l'', u, loop.next ends, reach.trans reach', post'⟩
      | .stopped e, post => exact ⟨.stopped e, l', t, loop.stopped, reach, post⟩

end Minions.Logic
