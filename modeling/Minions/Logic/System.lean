import Minions.Logic.Program
import Mathlib.Logic.Function.Basic

/-! Processes that share a state and interleave at every call.
Each process has a private memory kept between operations and a private part of the
kernel's state; it invokes an operation, performs the calls of its program one at a time
and responds. A process whose program aborts leaves the system.
-/

namespace Minions.Logic

/-- What the calls do. A call that is not enabled blocks the process. `leave` is the
kernel's cleanup after a process that stopped.
-/
structure Machine (S : Sig) (Pid Loc St : Type) where
  enabled : Pid → S.Call → Loc → St → Prop
  exec : Pid → (c : S.Call) → Loc → St → S.Resp c × Loc × St
  leave : Pid → St → St

/-- One process: between operations, inside one, or gone. -/
inductive Proc (S : Sig) (Op Res Mem Loc : Type) : Type 1
  | idle (mem : Mem) (loc : Loc)
  | busy (op : Op) (rest : Prog S (Res × Mem)) (loc : Loc)
  | gone

/-- The processes and the state they share. -/
structure Config (S : Sig) (Pid Op Res Mem Loc St : Type) : Type 1 where
  procs : Pid → Proc S Op Res Mem Loc
  st : St

/-- What an observer sees of one step. -/
inductive Label (S : Sig) (Pid Op Res : Type)
  | invoke (p : Pid) (op : Op)
  | act (p : Pid) (c : S.Call)
  | silent (p : Pid)
  | respond (p : Pid) (op : Op) (res : Res)
  | stop (p : Pid) (reason : S.Err)

variable {S : Sig} {Pid Op Res Mem Loc St : Type}

/-- The process that makes a step. -/
def Label.pid : Label S Pid Op Res → Pid
  | .invoke p _ => p
  | .act p _ => p
  | .silent p => p
  | .respond p _ _ => p
  | .stop p _ => p

variable [DecidableEq Pid]

/-- Replace the state of one process. -/
def Config.setProc (c : Config S Pid Op Res Mem Loc St) (p : Pid)
    (x : Proc S Op Res Mem Loc)
    : Config S Pid Op Res Mem Loc St :=
  { c with procs := Function.update c.procs p x }

@[simp] theorem Config.setProc_st (c : Config S Pid Op Res Mem Loc St) (p : Pid)
    (x : Proc S Op Res Mem Loc)
    : (c.setProc p x).st = c.st := rfl

@[simp] theorem Config.setProc_self (c : Config S Pid Op Res Mem Loc St) (p : Pid)
    (x : Proc S Op Res Mem Loc)
    : (c.setProc p x).procs p = x := by
  simp [Config.setProc]

/-- One step of one process. Process `p` may invoke the operations that `allowed p` admits;
`code` is the program of an operation on the process's memory.
-/
inductive Step (M : Machine S Pid Loc St) (code : Op → Mem → Prog S (Res × Mem))
    (allowed : Pid → Op → Prop)
    : Config S Pid Op Res Mem Loc St → Label S Pid Op Res
      → Config S Pid Op Res Mem Loc St → Prop
  | invoke {c p mem loc op} (at_ : c.procs p = .idle mem loc) (ok : allowed p op)
    : Step M code allowed c (.invoke p op) (c.setProc p (.busy op (code op mem) loc))
  | act {c p op call next loc} (at_ : c.procs p = .busy op (.call call next) loc)
    (ready : M.enabled p call loc c.st)
    : Step M code allowed c (.act p call)
        { procs :=
            Function.update c.procs p
              (.busy op (next (M.exec p call loc c.st).1) (M.exec p call loc c.st).2.1)
          st := (M.exec p call loc c.st).2.2 }
  | silent {c p op loc} {σ β : Type} {state : σ} {body : σ → Prog S (σ ⊕ β)} {next}
    (at_ : c.procs p = .busy op (.loop state body next) loc)
    : Step M code allowed c (.silent p)
        (c.setProc p (.busy op (Prog.unroll state body next) loc))
  | respond {c p op res mem loc} (at_ : c.procs p = .busy op (.ret (res, mem)) loc)
    : Step M code allowed c (.respond p op res) (c.setProc p (.idle mem loc))
  | stop {c p op reason loc} (at_ : c.procs p = .busy op (.abort reason) loc)
    : Step M code allowed c (.stop p reason)
        { procs := Function.update c.procs p .gone, st := M.leave p c.st }

/-- A run and the labels of its steps, oldest first. -/
inductive Run (M : Machine S Pid Loc St) (code : Op → Mem → Prog S (Res × Mem))
    (allowed : Pid → Op → Prop) (start : Config S Pid Op Res Mem Loc St)
    : List (Label S Pid Op Res) → Config S Pid Op Res Mem Loc St → Prop
  | nil : Run M code allowed start [] start
  | snoc {labels label mid last} (before : Run M code allowed start labels mid)
    (step : Step M code allowed mid label last)
    : Run M code allowed start (labels ++ [label]) last

/-- No process of the run stopped. -/
def NonAborting (labels : List (Label S Pid Op Res)) : Prop :=
  ∀ p reason, Label.stop p reason ∉ labels

omit [DecidableEq Pid] in
/-- A run that does not abort has not aborted before its last step. -/
theorem NonAborting.init {labels : List (Label S Pid Op Res)} {label}
    (h : NonAborting (labels ++ [label]))
    : NonAborting labels :=
  fun p reason member => h p reason (List.mem_append_left _ member)

end Minions.Logic
