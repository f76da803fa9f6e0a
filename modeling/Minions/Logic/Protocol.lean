import Minions.Logic.Alone
import Mathlib.Logic.Relation

/-! Protocols that a program follows whatever answers it receives, and lock orders.
A process has a private protocol state, such as the locks it holds, that its own calls move
and no one else's. A program follows a protocol when each of its calls is admitted in the state
reached so far, for every possible answer to the earlier ones. Where the calls that wait are
admitted in the order of a ranking of the locks, processes do not wait for one another in a
cycle.
-/

namespace Minions.Logic

variable {S : Sig} {Pid Op Res Mem Loc St T : Type} {α β : Type}

/-- Which calls are admitted in a protocol state, and how they move it. -/
structure Protocol (S : Sig) (T : Type) where
  may : S.Call → T → Prop
  next : S.Call → T → T

variable (P : Protocol S T)

/-- The program makes only admitted calls from `t`, and returns in states that satisfy `Q`. -/
def Follows : {α : Type} → Prog S α → (α → T → Prop) → T → Prop
  | _, .ret a, Q, t => Q a t
  | _, .abort _, _, _ => True
  | _, .call c next, Q, t => P.may c t ∧ ∀ r, Follows (next r) Q (P.next c t)
  | _, .loop (σ := σ) state body next, Q, t =>
      ∃ I : σ → T → Prop, I state t
        ∧ ∀ x t, I x t
          → Follows (body x) (fun r t => r.elim (fun y => I y t) (fun b => Follows (next b) Q t)) t

variable {P}

/-- A weaker condition on the results. -/
theorem Follows.mono {prog : Prog S α} {Q Q' : α → T → Prop}
    (weaken : ∀ a t, Q a t → Q' a t) {t : T} (h : Follows P prog Q t)
    : Follows P prog Q' t := by
  induction prog generalizing t with
  | ret a => exact weaken a t h
  | abort reason => trivial
  | call c next ih => exact ⟨h.1, fun r => ih r weaken (h.2 r)⟩
  | loop state body next bodyIH nextIH =>
      obtain ⟨I, start, round⟩ := h
      refine ⟨I, start, fun x t hI => bodyIH x (fun r t post => ?_) (round x t hI)⟩
      cases r with
      | inl y => exact post
      | inr b => exact nextIH b weaken post

/-- Two programs one after the other. -/
theorem Follows.bind {prog : Prog S α} {f : α → Prog S β} {Q : β → T → Prop} {t : T}
    (h : Follows P prog (fun a t => Follows P (f a) Q t) t)
    : Follows P (prog.bind f) Q t := by
  induction prog generalizing t with
  | ret a => exact h
  | abort reason => trivial
  | call c next ih => exact ⟨h.1, fun r => ih r (h.2 r)⟩
  | loop state body next bodyIH nextIH =>
      obtain ⟨I, start, round⟩ := h
      refine ⟨I, start, fun x t hI => (round x t hI).mono fun r t post => ?_⟩
      cases r with
      | inl y => exact post
      | inr b => exact nextIH b post

/-- A loop that follows the protocol does so when it is unrolled once. -/
theorem Follows.unroll {σ : Type} {state : σ} {body : σ → Prog S (σ ⊕ β)}
    {next : β → Prog S α} {Q : α → T → Prop} {t : T}
    (h : Follows P (.loop state body next) Q t)
    : Follows P (Prog.unroll state body next) Q t := by
  obtain ⟨I, start, round⟩ := h
  refine Follows.bind ((round state t start).mono fun r t post => ?_)
  cases r with
  | inl y => exact ⟨I, post, round⟩
  | inr b => exact post

/-- A run of the program on its own leaves the protocol where the program says, and keeps what
every admitted call keeps. Witness: induction on the program, and on the rounds of a loop.
-/
theorem Follows.alone {W : Type} {exec : (c : S.Call) → W → S.Resp c × W} {held : W → T}
    {K : W → Prop}
    (step : ∀ c w, P.may c (held w) → K w
      → held (exec c w).2 = P.next c (held w) ∧ K (exec c w).2)
    {prog : Prog S α} {Q : α → T → Prop} {w w' : W} {fuel : Nat} {a : α}
    (follows : Follows P prog Q (held w)) (keeps : K w)
    (run : prog.run exec fuel w = (.done a, w'))
    : Q a (held w') ∧ K w' := by
  induction prog generalizing w w' with
  | ret b =>
      cases run
      exact ⟨follows, keeps⟩
  | abort reason => cases run
  | call c next ih =>
      obtain ⟨moved, keeps'⟩ := step c w follows.1 keeps
      refine ih _ (w := (exec c w).2) ?_ keeps' run
      rw [moved]
      exact follows.2 _
  | @loop γ σ β state body next bodyIH nextIH =>
      obtain ⟨I, start, round⟩ := follows
      -- Every round keeps the invariant, until one leaves with the rest to be followed.
      have rounds : ∀ n x w, I x (held w) → K w → ∀ b w',
          Prog.iterate (fun s w => (body s).run exec fuel w) n x w = (.done b, w')
          → Follows P (next b) Q (held w') ∧ K w' := by
        intro n
        induction n with
        | zero => exact fun _ _ _ _ _ _ ends => by cases ends
        | succ n ih =>
            intro x w inv keeps b w'' ends
            rw [Prog.iterate] at ends
            rcases result : (body x).run exec fuel w with ⟨out, w₁⟩
            rw [result] at ends
            rcases out with (y | c) | reason | _
            · obtain ⟨inv', keeps'⟩ := bodyIH x (round x _ inv) keeps result
              exact ih y w₁ inv' keeps' b w'' ends
            · cases ends
              exact bodyIH x (round x _ inv) keeps result
            · cases ends
            · cases ends
      rw [Prog.run] at run
      rcases result : Prog.iterate (fun s w => (body s).run exec fuel w) fuel state w
        with ⟨out, w₁⟩
      rw [result] at run
      cases out with
      | done b =>
          obtain ⟨rest, keeps'⟩ := rounds fuel state w start keeps b w₁ result
          exact nextIH b rest keeps' run
      | stopped reason => cases run
      | timeout => cases run

/-- A program that follows the protocol ends in a state that the protocol has tracked. -/
theorem Follows.ends {W : Type} {exec : (c : S.Call) → W → S.Resp c × W} (held : W → T)
    (K : W → Prop)
    (step : ∀ c w, P.may c (held w) → K w
      → held (exec c w).2 = P.next c (held w) ∧ K (exec c w).2)
    {prog : Prog S α} {Q : α → T → Prop} {w w' : W} {a : α}
    (follows : Follows P prog Q (held w)) (keeps : K w)
    (ends : prog.Ends exec w (.done a) w')
    : Q a (held w') ∧ K w' := by
  obtain ⟨bound, ends⟩ := ends
  exact follows.alone step keeps (ends bound (Nat.le_refl bound))

/-- Kernels that do the same for all admitted calls run the program alike, and it ends as it says.
Witness: induction on the program, and on the rounds of a loop.
-/
theorem Follows.run_congr {W : Type} {exec exec' : (c : S.Call) → W → S.Resp c × W}
    (same : ∀ c t w, P.may c t → exec' c w = exec c w) {prog : Prog S α} {Q : α → T → Prop} {t : T}
    (follows : Follows P prog Q t) (fuel : Nat) (w : W)
    : prog.run exec' fuel w = prog.run exec fuel w
      ∧ ∀ a w', prog.run exec fuel w = (.done a, w') → ∃ t', Q a t' := by
  induction prog generalizing t w with
  | ret b =>
      refine ⟨rfl, fun a w' run => ⟨t, ?_⟩⟩
      cases run
      exact follows
  | abort reason => exact ⟨rfl, fun a w' run => by cases run⟩
  | call c next ih =>
      simp only [Prog.run, same c t w follows.1]
      exact ih _ (follows.2 _) _
  | @loop γ σ β state body next bodyIH nextIH =>
      obtain ⟨I, start, round⟩ := follows
      have rounds : ∀ n x t w, I x t →
          Prog.iterate (fun s w => (body s).run exec' fuel w) n x w
            = Prog.iterate (fun s w => (body s).run exec fuel w) n x w
          ∧ ∀ b w', Prog.iterate (fun s w => (body s).run exec fuel w) n x w = (.done b, w')
            → ∃ t', Follows P (next b) Q t' := by
        intro n
        induction n with
        | zero => exact fun _ _ _ _ => ⟨rfl, fun _ _ ends => by cases ends⟩
        | succ n ih =>
            intro x t w inv
            obtain ⟨one, post⟩ := bodyIH x (round x t inv) w
            simp only [Prog.iterate, one]
            rcases result : (body x).run exec fuel w with ⟨out, w₁⟩
            rcases out with (y | b) | reason | _
            · obtain ⟨t₁, inv₁⟩ := post _ _ result
              exact ih y t₁ w₁ inv₁
            · refine ⟨rfl, fun b' w' ends => ?_⟩
              cases ends
              exact post _ _ result
            · exact ⟨rfl, fun _ _ ends => by cases ends⟩
            · exact ⟨rfl, fun _ _ ends => by cases ends⟩
      obtain ⟨loop, post⟩ := rounds fuel state t w start
      simp only [Prog.run, loop]
      rcases result : Prog.iterate (fun s w => (body s).run exec fuel w) fuel state w
        with ⟨out, w₁⟩
      cases out with
      | done b =>
          obtain ⟨t₁, rest⟩ := post b w₁ result
          exact nextIH b rest w₁
      | stopped reason => exact ⟨rfl, fun _ _ ends => by cases ends⟩
      | timeout => exact ⟨rfl, fun _ _ ends => by cases ends⟩

/-- Such a program ends in the same way under calls that agree where the protocol allows them. -/
theorem Follows.ends_congr {W : Type} {exec exec' : (c : S.Call) → W → S.Resp c × W}
    (same : ∀ c t w, P.may c t → exec' c w = exec c w) {prog : Prog S α} {Q : α → T → Prop} {t : T}
    (follows : Follows P prog Q t) {w w' : W} {out : Prog.Outcome S.Err α}
    (ends : prog.Ends exec w out w')
    : prog.Ends exec' w out w' := by
  obtain ⟨bound, ends⟩ := ends
  refine ⟨bound, fun fuel enough => ?_⟩
  rw [(follows.run_congr same fuel w).1]
  exact ends fuel enough

-----------------------------------------------------------------------------------------
-- Processes that follow a protocol
-----------------------------------------------------------------------------------------

/-- The protocol state of a process is a part of the shared state that only its own calls
move. Every operation starts and returns in the state `rest`, and keeps `J` of the
process's memory.
-/
structure Obeys (M : Machine S Pid Loc St) (code : Op → Mem → Prog S (Res × Mem))
    (P : Protocol S T) (held : Pid → St → T) (J : Mem → Prop) (rest : T)
    : Prop where
  own : ∀ p c l st, held p (M.exec p c l st).2.2 = P.next c (held p st)
  other : ∀ p q c l st, q ≠ p → held q (M.exec p c l st).2.2 = held q st
  leave : ∀ p st, held p (M.leave p st) = rest
  leave_other : ∀ p q st, q ≠ p → held q (M.leave p st) = held q st
  code : ∀ op mem, J mem → Follows P (code op mem) (fun r t => J r.2 ∧ t = rest) rest

/-- What is known of a process and its protocol state. -/
def InProtocol (P : Protocol S T) (J : Mem → Prop) (rest : T)
    : Proc S Op Res Mem Loc → T → Prop
  | .idle mem _, t => J mem ∧ t = rest
  | .busy _ prog _, t => Follows P prog (fun r t => J r.2 ∧ t = rest) t
  | .gone, t => t = rest

variable [DecidableEq Pid] {M : Machine S Pid Loc St} {code : Op → Mem → Prog S (Res × Mem)}
  {allowed : Pid → Op → Prop} {held : Pid → St → T} {J : Mem → Prop} {rest : T}

/-- One step keeps every process in the protocol. -/
theorem Obeys.step (h : Obeys M code P held J rest)
    {c c' : Config S Pid Op Res Mem Loc St} {label : Label S Pid Op Res}
    (known : ∀ p, InProtocol P J rest (c.procs p) (held p c.st))
    (step : Step M code allowed c label c') (q : Pid)
    : InProtocol P J rest (c'.procs q) (held q c'.st) := by
  have update : ∀ {p : Pid} {st : St} {x : Proc S Op Res Mem Loc},
      (∀ q, q ≠ p → held q st = held q c.st) → InProtocol P J rest x (held p st)
      → InProtocol P J rest (Function.update c.procs p x q) (held q st) := by
    intro p st x others moved
    by_cases same : q = p
    · subst same
      rwa [Function.update_self]
    · rw [Function.update_of_ne same, others q same]
      exact known q
  cases step with
  | @invoke p mem loc op at_ ok =>
      have before := known p
      rw [at_] at before
      refine update (fun _ _ => rfl) ?_
      show InProtocol P J rest (.busy op (code op mem) loc) (held p c.st)
      rw [before.2]
      exact h.code op mem before.1
  | @act p op call next loc at_ ready =>
      have before := known p
      rw [at_] at before
      refine update (fun q ne => h.other p q call loc c.st ne) ?_
      rw [h.own]
      exact before.2 _
  | @silent p op loc σ β state body next at_ =>
      have before := known p
      rw [at_] at before
      exact update (fun _ _ => rfl) before.unroll
  | @respond p op res mem loc at_ =>
      have before := known p
      rw [at_] at before
      exact update (fun _ _ => rfl) before
  | @stop p op reason loc at_ =>
      exact update (fun q ne => h.leave_other p q c.st ne) (h.leave p c.st)

/-- Every run keeps every process in the protocol. -/
theorem Obeys.run (h : Obeys M code P held J rest)
    {start last : Config S Pid Op Res Mem Loc St} {labels : List (Label S Pid Op Res)}
    (init : ∀ p, InProtocol P J rest (start.procs p) (held p start.st))
    (run : Run M code allowed start labels last)
    : ∀ p, InProtocol P J rest (last.procs p) (held p last.st) := by
  induction run with
  | nil => exact init
  | snoc before step ih => exact h.step ih step

-----------------------------------------------------------------------------------------
-- Lock orders
-----------------------------------------------------------------------------------------

/-- `blocks p c st q n`: the call `c` of `p` has to wait for a lock of rank `n` that `q`
holds. A process that waits holds only locks of lower rank.
-/
structure LockOrder (M : Machine S Pid Loc St) (P : Protocol S T) (held : Pid → St → T) where
  holds : T → Nat → Prop
  blocks : Pid → S.Call → St → Pid → Nat → Prop
  bound : Nat
  holder : ∀ {p c st q n}, blocks p c st q n → holds (held q st) n ∧ n ≤ bound
  ready : ∀ {p c l st}, (∀ q n, ¬ blocks p c st q n) → M.enabled p c l st
  climbs : ∀ {p c st q n n'}, P.may c (held p st) → blocks p c st q n → holds (held p st) n'
    → n' < n

/-- Process `p` stands before a call that has to wait for a lock of rank `n` of `q`. -/
def LockOrder.Waits (L : LockOrder M P held) (c : Config S Pid Op Res Mem Loc St) (p q : Pid)
    (n : Nat)
    : Prop :=
  ∃ op call next l, c.procs p = .busy op (.call call next) l ∧ L.blocks p call c.st q n

variable {L : LockOrder M P held} {c : Config S Pid Op Res Mem Loc St}

omit [DecidableEq Pid] in
/-- The ranks increase along processes that wait for one another. -/
theorem LockOrder.Waits.climbs (known : ∀ p, InProtocol P J rest (c.procs p) (held p c.st))
    {p q r : Pid} {n n' : Nat} (first : L.Waits c p q n) (second : L.Waits c q r n')
    : n < n' := by
  obtain ⟨_, _, _, _, _, block⟩ := first
  obtain ⟨op, call, next, l, at_, block'⟩ := second
  have follows := known q
  rw [at_] at follows
  exact L.climbs follows.1 block' (L.holder block).1

omit [DecidableEq Pid] in
/-- No processes wait for one another in a cycle. Witness: the rank of the last wait of a path is
at least that of the first, and the first wait of a cycle follows its last.
-/
theorem LockOrder.no_cycle (L : LockOrder M P held)
    (known : ∀ p, InProtocol P J rest (c.procs p) (held p c.st)) (p : Pid)
    : ¬ Relation.TransGen (fun p q => ∃ n, L.Waits c p q n) p p := by
  intro cycle
  have path : ∀ q, Relation.TransGen (fun p q => ∃ n, L.Waits c p q n) p q
      → ∃ r n n' x, L.Waits c p r n ∧ L.Waits c x q n' ∧ n ≤ n' := by
    intro q steps
    induction steps with
    | @single q edge =>
        obtain ⟨n, edge⟩ := edge
        exact ⟨q, n, n, p, edge, edge, Nat.le_refl n⟩
    | @tail y z _ edge ih =>
        obtain ⟨r, n, n', x, first, last, le⟩ := ih
        obtain ⟨n'', edge⟩ := edge
        have up := LockOrder.Waits.climbs known last edge
        exact ⟨r, n, n'', y, first, edge, by omega⟩
  obtain ⟨r, n, n', x, first, last, le⟩ := path p cycle
  have up := LockOrder.Waits.climbs known last first
  omega

/-- A process inside an operation that does not wait can make a step. -/
theorem LockOrder.exists_step (L : LockOrder M P held) (code : Op → Mem → Prog S (Res × Mem))
    (allowed : Pid → Op → Prop) {p : Pid} {op : Op} {prog : Prog S (Res × Mem)} {l : Loc}
    (at_ : c.procs p = .busy op prog l) (free : ∀ q n, ¬ L.Waits c p q n)
    : ∃ label c', Step M code allowed c label c' ∧ label.pid = p := by
  cases prog with
  | ret r => exact ⟨_, _, .respond at_, rfl⟩
  | abort reason => exact ⟨_, _, .stop at_, rfl⟩
  | call call next =>
      have ready : M.enabled p call l c.st :=
        L.ready fun q n block => free q n ⟨op, call, next, l, at_, block⟩
      exact ⟨_, _, .act at_ ready, rfl⟩
  | loop state body next => exact ⟨_, _, .silent at_, rfl⟩

/-- Whenever a process is inside an operation, some process inside an operation can make its next
step. Witness: induction on how far the rank of a wait is below the bound.
-/
theorem LockOrder.progress (L : LockOrder M P held)
    (known : ∀ p, InProtocol P J rest (c.procs p) (held p c.st))
    (atRest : ∀ n, ¬ L.holds rest n) {p : Pid} {op : Op} {prog : Prog S (Res × Mem)} {l : Loc}
    (at_ : c.procs p = .busy op prog l)
    : ∃ q op prog l label c', c.procs q = .busy op prog l
        ∧ Step M code allowed c label c' ∧ label.pid = q := by
  have waiting : ∀ k p q n, L.bound - n = k → L.Waits c p q n
      → ∃ q op prog l label c', c.procs q = .busy op prog l
          ∧ Step M code allowed c label c' ∧ label.pid = q := by
    intro k
    induction k using Nat.strongRecOn with
    | ind k ih =>
        intro p q n far wait
        have edge := wait
        obtain ⟨_, _, _, _, _, block⟩ := wait
        obtain ⟨holds, le⟩ := L.holder block
        -- Only a process inside an operation holds a lock.
        cases at_ : c.procs q with
        | idle mem l =>
            have idle := known q
            rw [at_] at idle
            rw [idle.2] at holds
            exact absurd holds (atRest n)
        | gone =>
            have gone := known q
            rw [at_] at gone
            rw [show held q c.st = rest from gone] at holds
            exact absurd holds (atRest n)
        | busy op prog l =>
            by_cases again : ∃ r n', L.Waits c q r n'
            · obtain ⟨r, n', next⟩ := again
              have up := LockOrder.Waits.climbs known edge next
              have high : n' ≤ L.bound := by
                obtain ⟨_, _, _, _, _, block'⟩ := next
                exact (L.holder block').2
              exact ih (L.bound - n') (by omega) q r n' rfl next
            · obtain ⟨label, c', step, pid⟩ := L.exists_step code allowed at_
                fun r n' next => again ⟨r, n', next⟩
              exact ⟨q, op, prog, l, label, c', at_, step, pid⟩
  by_cases waits : ∃ q n, L.Waits c p q n
  · obtain ⟨q, n, wait⟩ := waits
    exact waiting _ p q n rfl wait
  · obtain ⟨label, c', step, pid⟩ := L.exists_step code allowed at_
      fun q n wait => waits ⟨q, n, wait⟩
    exact ⟨p, op, prog, l, label, c', at_, step, pid⟩

end Minions.Logic
