import Mathlib.Logic.Relation

/-! Programs as trees of system calls.
A program is the sequential text of one process: it performs calls, receives their
answers and may loop. Nothing is said here about what a call does; the same tree is
run alone by `Prog.run` and interleaved with other processes in `Minions.Logic.System`.
-/

namespace Minions.Logic

/-- The calls a program may perform, the answer each one receives, and the reasons a
program may give when it stops the process.
-/
structure Sig where
  Call : Type
  Resp : Call → Type
  Err : Type

/-- A program over `S` that returns an `α`.
`loop` carries its state type: the body either continues with a new state or leaves.
-/
inductive Prog (S : Sig) : Type → Type 1
  | ret {α : Type} (value : α) : Prog S α
  | abort {α : Type} (reason : S.Err) : Prog S α
  | call {α : Type} (c : S.Call) (next : S.Resp c → Prog S α) : Prog S α
  | loop {α σ β : Type} (state : σ) (body : σ → Prog S (σ ⊕ β)) (next : β → Prog S α)
    : Prog S α

namespace Prog

variable {S : Sig} {α β σ : Type}

/-- Sequential composition: graft `f` at every return. -/
def bind : {α : Type} → Prog S α → (α → Prog S β) → Prog S β
  | _, ret value, f => f value
  | _, abort reason, _ => abort reason
  | _, call c next, f => call c (fun r => (next r).bind f)
  | _, loop state body next, f => loop state body (fun b => (next b).bind f)

instance : Monad (Prog S) where
  pure := ret
  bind := bind

/-- Perform one call and return its answer. -/
def perform (c : S.Call) : Prog S (S.Resp c) := call c ret

/-- Iterate `body` from `state` until it leaves. -/
def iter (state : σ) (body : σ → Prog S (σ ⊕ β)) : Prog S β := loop state body ret

/-- One iteration of a loop, followed by the rest of the loop. -/
def unroll (state : σ) (body : σ → Prog S (σ ⊕ β)) (next : β → Prog S α) : Prog S α :=
  (body state).bind fun
    | .inl state' => loop state' body next
    | .inr b => next b

@[simp] theorem pure_eq (a : α) : (pure a : Prog S α) = ret a := rfl

@[simp] theorem bind_eq (p : Prog S α) (f : α → Prog S β) : p >>= f = p.bind f := rfl

@[simp] theorem ret_bind (a : α) (f : α → Prog S β) : (ret a).bind f = f a := rfl

@[simp] theorem abort_bind (e : S.Err) (f : α → Prog S β) : (abort e).bind f = abort e :=
  rfl

@[simp] theorem call_bind (c : S.Call) (next : S.Resp c → Prog S α) (f : α → Prog S β)
    : (call c next).bind f = call c (fun r => (next r).bind f) :=
  rfl

@[simp] theorem perform_bind (c : S.Call) (f : S.Resp c → Prog S β)
    : (perform c).bind f = call c f :=
  rfl

@[simp] theorem loop_bind {γ : Type} (state : σ) (body : σ → Prog S (σ ⊕ γ))
    (next : γ → Prog S α) (f : α → Prog S β)
    : (loop state body next).bind f = loop state body (fun b => (next b).bind f) :=
  rfl

@[simp] theorem iter_bind (state : σ) (body : σ → Prog S (σ ⊕ α)) (f : α → Prog S β)
    : (iter state body).bind f = loop state body f :=
  rfl

/-- How a run ends: with a value, by stopping the process, or by exhausting the bound on
the number of iterations of one loop.
-/
inductive Outcome (ε α : Type)
  | done (value : α)
  | stopped (reason : ε)
  | timeout
deriving Repr, DecidableEq

/-- The value of a run that ended with one. -/
def Outcome.value {ε α : Type} : Outcome ε α → Option α
  | done a => some a
  | _ => none

/-- The reason for which a run has aborted. -/
def Outcome.reason {ε α : Type} : Outcome ε α → Option ε
  | stopped e => some e
  | _ => none

variable {W : Type}

/-- At most `fuel` rounds of a loop whose body is run by `step`. -/
def iterate {ε : Type} (step : σ → W → Outcome ε (σ ⊕ β) × W)
    : Nat → σ → W → Outcome ε β × W
  | 0, _, w => (.timeout, w)
  | fuel + 1, s, w =>
      match step s w with
      | (.done (.inl s'), w') => iterate step fuel s' w'
      | (.done (.inr b), w') => (.done b, w')
      | (.stopped e, w') => (.stopped e, w')
      | (.timeout, w') => (.timeout, w')

/-- Run a program alone on the world `w`; every loop may take `fuel` rounds. -/
def run (exec : (c : S.Call) → W → S.Resp c × W) (fuel : Nat)
    : {α : Type} → Prog S α → W → Outcome S.Err α × W
  | _, ret value, w => (.done value, w)
  | _, abort reason, w => (.stopped reason, w)
  | _, call c next, w => run exec fuel (next (exec c w).1) (exec c w).2
  | _, loop state body next, w =>
      match iterate (fun s w' => run exec fuel (body s) w') fuel state w with
      | (.done b, w') => run exec fuel (next b) w'
      | (.stopped e, w') => (.stopped e, w')
      | (.timeout, w') => (.timeout, w')

end Prog

end Minions.Logic
