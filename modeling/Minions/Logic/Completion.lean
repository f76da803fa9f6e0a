import Minions.Logic.Linearizability
import Minions.Logic.Protocol

/-! What a process does alone, as a part of a run of several.
A program that ends when it runs alone makes the same calls in a run in which the other
processes rest for the while, if none of its calls has to wait.
-/

namespace Minions.Logic

variable {S : Sig} {Pid Op Res Mem Loc St T : Type} {α : Type}

/-- An invocation and the first response of its process behind it make a completed call. -/
theorem Completes.of_append {labels before middle after : List (Label S Pid Op Res)} {p : Pid}
    {op : Op} {res : Res}
    (eq : labels = before ++ .invoke p op :: (middle ++ .respond p op res :: after))
    (silent : ∀ op' res', .respond p op' res' ∉ middle)
    : Completes labels before.length (before.length + (middle.length + 1)) p op res where
  invoked := by simp [eq]
  responds := by
    rw [eq, List.getElem?_append_right (Nat.le_add_right ..), Nat.add_sub_cancel_left]
    simp
  after := by omega
  first := by
    intro k op' res' later sooner at_
    obtain ⟨n, rfl⟩ : ∃ n, k = before.length + (n + 1) := ⟨k - before.length - 1, by omega⟩
    rw [eq, List.getElem?_append_right (Nat.le_add_right ..), Nat.add_sub_cancel_left,
      List.getElem?_cons_succ, List.getElem?_append_left (by omega)] at at_
    exact silent op' res' (List.mem_of_getElem? at_)

/-- A step of process `p` inside an operation. -/
def Label.Inside (p : Pid) : Label S Pid Op Res → Prop
  | .act q _ => q = p
  | .silent q => q = p
  | _ => False

variable [DecidableEq Pid] {M : Machine S Pid Loc St} {code : Op → Mem → Prog S (Res × Mem)}
  {allowed : Pid → Op → Prop} {c c' mid last : Config S Pid Op Res Mem Loc St}
  {labels labels' : List (Label S Pid Op Res)} {p : Pid} {op : Op} {rest : Prog S (Res × Mem)}
  {loc loc' : Loc} {st st' : St}

/-- A run is continued by another one. -/
theorem Run.trans (first : Run M code allowed c labels mid)
    (later : Run M code allowed mid labels' last)
    : Run M code allowed c (labels ++ labels') last := by
  induction later with
  | nil => rwa [List.append_nil]
  | snoc before step ih =>
      rw [← List.append_assoc]
      exact .snoc ih step

/-- A run of one step. -/
theorem Run.one {label : Label S Pid Op Res} (step : Step M code allowed c label c')
    : Run M code allowed c [label] c' :=
  .snoc .nil step

/-- The configuration after a process has come to another state, and has changed the shared one. -/
def Config.put (c : Config S Pid Op Res Mem Loc St) (p : Pid) (x : Proc S Op Res Mem Loc) (st : St)
    : Config S Pid Op Res Mem Loc St :=
  ⟨Function.update c.procs p x, st⟩

@[simp] theorem Config.put_self {x : Proc S Op Res Mem Loc} : (c.put p x st).procs p = x :=
  Function.update_self ..

@[simp] theorem Config.put_other {x : Proc S Op Res Mem Loc} {q : Pid} (ne : q ≠ p)
    : (c.put p x st).procs q = c.procs q :=
  Function.update_of_ne ne ..

@[simp] theorem Config.put_st {x : Proc S Op Res Mem Loc} : (c.put p x st).st = st := rfl

@[simp] theorem Config.put_put {x y : Proc S Op Res Mem Loc}
    : (c.put p x st).put p y st' = c.put p y st' := by
  simp only [Config.put, Function.update_idem]

/-- Steps inside an operation of process `p` that lead from one configuration to another. -/
structure InsideRun (M : Machine S Pid Loc St) (code : Op → Mem → Prog S (Res × Mem))
    (allowed : Pid → Op → Prop) (p : Pid) (c : Config S Pid Op Res Mem Loc St)
    (labels : List (Label S Pid Op Res)) (c' : Config S Pid Op Res Mem Loc St)
    : Prop where
  run : Run M code allowed c labels c'
  inside : ∀ label ∈ labels, label.Inside p

/-- No step inside an operation. -/
theorem InsideRun.refl (at_ : c.procs p = .busy op rest loc)
    : InsideRun M code allowed p c [] (c.put p (.busy op rest loc) c.st) := by
  refine ⟨?_, nofun⟩
  rw [Config.put, ← at_, Function.update_eq_self]
  exact .nil

/-- Steps inside an operation that follow one another. -/
theorem InsideRun.trans (first : InsideRun M code allowed p c labels mid)
    (later : InsideRun M code allowed p mid labels' c')
    : InsideRun M code allowed p c (labels ++ labels') c' :=
  ⟨first.run.trans later.run, fun label member =>
    (List.mem_append.mp member).elim (first.inside label) (later.inside label)⟩

/-- The rest of a program that has ended is nothing. -/
theorem Prog.bind_ret (prog : Prog S α) : prog.bind .ret = prog := by
  induction prog with
  | ret a => rfl
  | abort reason => rfl
  | call c next ih => exact congrArg _ (funext ih)
  | loop state body next _ nextIH => exact congrArg _ (funext nextIH)

variable {P : Protocol S T} {K : T → St → Prop}
  (ready : ∀ {call t loc st}, P.may call t → K t st
    → M.enabled p call loc st ∧ K (P.next call t) (M.exec p call loc st).2.2)
include ready

/-- A program that follows a protocol under which no call waits does in a run what it does alone.
Witness: induction on the program, and on the rounds of a loop.
-/
theorem Follows.exists_inside {fuel : Nat} {prog : Prog S α} {f : α → Prog S (Res × Mem)} {a : α}
    {Q : α → T → Prop} {t : T} (follows : Follows P prog Q t)
    (at_ : c.procs p = .busy op (prog.bind f) loc) (known : K t c.st)
    (ends : prog.run (M.alone p) fuel (loc, c.st) = (.done a, loc', st'))
    : ∃ labels t', InsideRun M code allowed p c labels (c.put p (.busy op (f a) loc') st')
        ∧ Q a t' ∧ K t' st' := by
  induction prog generalizing c loc loc' st' t with
  | ret b =>
      cases ends
      exact ⟨[], t, .refl at_, follows, known⟩
  | abort reason => cases ends
  | call call next ih =>
      obtain ⟨enabled, known'⟩ := ready follows.1 known
      have one : InsideRun M code allowed p c [.act p call] (c.put p _ _) :=
        ⟨.one (.act at_ enabled), by simp [Label.Inside]⟩
      obtain ⟨labels, t', inside, post⟩ := ih _ (follows.2 _) (c.put_self ..) known' ends
      rw [Config.put_put] at inside
      exact ⟨_, t', one.trans inside, post⟩
  | @loop γ σ β state body next bodyIH nextIH =>
      obtain ⟨I, start, round⟩ := follows
      have rounds : ∀ n x {c : Config S Pid Op Res Mem Loc St} {loc loc' st' b t}, I x t
          → c.procs p = .busy op (.loop x body fun b => (next b).bind f) loc → K t c.st
          → Prog.iterate (fun x w => (body x).run (M.alone p) fuel w) n x (loc, c.st)
            = (.done b, loc', st')
          → ∃ labels t',
              InsideRun M code allowed p c labels (c.put p (.busy op ((next b).bind f) loc') st')
              ∧ Follows P (next b) Q t' ∧ K t' st' := by
        intro n
        induction n with
        | zero => exact fun _ {_ _ _ _ _ _} _ _ _ ends => by cases ends
        | succ n ih =>
            intro x c loc loc' st' b t inv at_ known ends
            rw [Prog.iterate] at ends
            rcases result : (body x).run (M.alone p) fuel (loc, c.st) with ⟨out, loc₁, st₁⟩
            rw [result] at ends
            have one : InsideRun M code allowed p c [.silent p] (c.put p _ _) :=
              ⟨.one (.silent at_), by simp [Label.Inside]⟩
            rcases out with (y | b') | reason | _
            · obtain ⟨labels, t', inside, inv', known'⟩ :=
                bodyIH x (round x t inv) (c.put_self ..) known result
              obtain ⟨labels', t'', inside', post⟩ := ih y inv' (c.put_self ..) known' ends
              rw [Config.put_put] at inside inside'
              exact ⟨_, t'', one.trans (inside.trans inside'), post⟩
            · cases ends
              obtain ⟨labels, t', inside, post⟩ :=
                bodyIH x (round x t inv) (c.put_self ..) known result
              rw [Config.put_put] at inside
              exact ⟨_, t', one.trans inside, post⟩
            · cases ends
            · cases ends
      rw [Prog.run] at ends
      rcases result : Prog.iterate (fun x w => (body x).run (M.alone p) fuel w) fuel state
        (loc, c.st) with ⟨out, loc₁, st₁⟩
      rw [result] at ends
      cases out with
      | done b =>
          obtain ⟨labels, t', inside, follows, known'⟩ := rounds fuel state start at_ known result
          obtain ⟨labels', t'', inside', post⟩ := nextIH b follows (c.put_self ..) known' ends
          rw [Config.put_put] at inside'
          exact ⟨_, t'', inside.trans inside', post⟩
      | stopped e => cases ends
      | timeout => cases ends

/-- A process completes its operation, while the other processes rest. -/
theorem Follows.exists_completion {prog : Prog S (Res × Mem)} {res : Res} {mem : Mem}
    {Q : Res × Mem → T → Prop} {t : T} (follows : Follows P prog Q t)
    (at_ : c.procs p = .busy op prog loc) (known : K t c.st)
    (ends : prog.Ends (M.alone p) (loc, c.st) (.done (res, mem)) (loc', st'))
    : ∃ labels t', (∀ label ∈ labels, label.Inside p)
        ∧ Run M code allowed c (labels ++ [.respond p op res]) (c.put p (.idle mem loc') st')
        ∧ Q (res, mem) t' ∧ K t' st' := by
  obtain ⟨bound, ends⟩ := ends
  have whole : prog.bind .ret = prog := prog.bind_ret
  rw [← whole] at at_
  obtain ⟨labels, t', inside, post⟩ :
      ∃ labels t', InsideRun M code allowed p c labels _ ∧ Q (res, mem) t' ∧ K t' st' :=
    follows.exists_inside ready at_ known (ends bound (Nat.le_refl bound))
  have last := inside.run.trans (.one (.respond (c.put_self ..)))
  exact ⟨labels, t', inside.inside, (Config.put_put (c := c)) ▸ last, post⟩

end Minions.Logic
