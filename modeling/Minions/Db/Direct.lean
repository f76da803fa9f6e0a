import Minions.Db.Rules
import Minions.Logic.Alone

/-! Runs of one process that nobody disturbs, one rule for each system call.
They say what a program does on files of any content, well formed or not.
-/

namespace Minions.Db

open Minions.Data Minions.Logic

variable {p : Pid} {α β : Type} {fuel : Nat} {l l' : Offsets} {d d' : Disk}

/-- The run of a program of process `p`, with a bound on the rounds of each loop. -/
def runs (p : Pid) (fuel : Nat) (prog : M α) (l : Offsets) (d : Disk)
    : Prog.Outcome Fatal α × (Offsets × Disk) :=
  prog.run (kernel.alone p) fuel (l, d)

/-- A part that ends with a value goes on with the rest. -/
theorem runs_bind {prog : M α} {k : α → M β} {a : α}
    (first : runs p fuel prog l d = (.done a, (l', d')))
    : runs p fuel (prog.bind k) l d = runs p fuel (k a) l' d' := by
  unfold runs at first
  rw [runs, Prog.run_bind, first]
  rfl

/-- A part that aborts aborts the whole. -/
theorem runs_bind_stopped {prog : M α} {k : α → M β} {e : Fatal}
    (first : runs p fuel prog l d = (.stopped e, (l', d')))
    : runs p fuel (prog.bind k) l d = (.stopped e, (l', d')) := by
  unfold runs at first
  rw [runs, Prog.run_bind, first]

/-- A seek to an offset of the file. -/
theorem runs_lseek {fd : Fd} {offset : Int} {whence : Whence} {k : Int → M α} {n : Nat}
    (target : seekTarget d l fd offset whence = n)
    : runs p fuel ((lseek fd offset whence).bind k) l d
      = runs p fuel (k n) (l.move fd n) d := by
  have exec : execCall p (.lseek fd offset whence) l d = ((n : Int), l.move fd n, d) := by
    simp only [execCall, target, Int.toNat_natCast]
    exact if_neg (by omega)
  change (k (execCall p (.lseek fd offset whence) l d).1).run _ _
    (execCall p (.lseek fd offset whence) l d).2 = _
  rw [exec]
  rfl

/-- A seek to before the start of the file. -/
theorem runs_lseek_negative {fd : Fd} {offset : Int} {whence : Whence} {k : Int → M α}
    (target : seekTarget d l fd offset whence < 0)
    : runs p fuel ((lseek fd offset whence).bind k) l d = runs p fuel (k (-1)) l d := by
  have exec : execCall p (.lseek fd offset whence) l d = ((-1 : Int), l, d) := if_pos target
  change (k (execCall p (.lseek fd offset whence) l d).1).run _ _
    (execCall p (.lseek fd offset whence) l d).2 = _
  rw [exec]
  rfl

/-- A read from the current offset. -/
theorem runs_read {fd : Fd} {n : Nat} {k : List Byte → M α}
    : runs p fuel ((read fd n).bind k) l d
      = runs p fuel (k (pread (d.file fd).data (l.at fd) n))
          (l.move fd (l.at fd + (pread (d.file fd).data (l.at fd) n).length)) d :=
  rfl

/-- A write at the current offset. -/
theorem runs_write {fd : Fd} {bytes : List Byte} {k : Int → M α}
    (small : bytes.length ≤ INT_MAX) (room : l.at fd + bytes.length ≤ OFF_MAX)
    : runs p fuel ((write fd bytes).bind k) l d
      = runs p fuel (k bytes.length) (l.move fd (l.at fd + bytes.length))
          (d.setFile fd
            { d.file fd with data := pwrite 0 (d.file fd).data (l.at fd) bytes }) := by
  have exec : execCall p (.write fd bytes) l d = ((bytes.length : Int),
      l.move fd (l.at fd + bytes.length),
      d.setFile fd { d.file fd with data := pwrite 0 (d.file fd).data (l.at fd) bytes }) :=
    if_pos room
  rw [write_small small]
  change (k (execCall p (.write fd bytes) l d).1).run _ _
    (execCall p (.write fd bytes) l d).2 = _
  rw [exec]
  rfl

/-- A write lock is granted to a process that is alone. -/
theorem runs_writewLock {fd : Fd} {start len : Nat} {k : Int → M α}
    : runs p fuel ((writewLock fd start len).bind k) l d
      = runs p fuel (k 0) l (d.setLocks p fd start len (some .wr)) :=
  rfl

/-- A read lock is granted to a process that is alone. -/
theorem runs_readwLock {fd : Fd} {start len : Nat} {k : Int → M α}
    : runs p fuel ((readwLock fd start len).bind k) l d
      = runs p fuel (k 0) l (d.setLocks p fd start len (some .rd)) :=
  rfl

/-- A lock is given up. -/
theorem runs_unLock {fd : Fd} {start len : Nat} {k : Int → M α}
    : runs p fuel ((unLock fd start len).bind k) l d
      = runs p fuel (k 0) l (d.setLocks p fd start len none) :=
  rfl

/-- Process `p` runs the program alone, and it ends as stated. -/
abbrev Yields (p : Pid) (prog : M α) (l : Offsets) (d : Disk) (out : Prog.Outcome Fatal α)
    (l' : Offsets) (d' : Disk)
    : Prop :=
  prog.Ends (kernel.alone p) (l, d) out (l', d')

variable {out : Prog.Outcome Fatal α} {l'' : Offsets} {d'' : Disk}

/-- Two programs that run alike end alike. -/
theorem Yields.of_runs {prog : M β} {prog' : M β} {out : Prog.Outcome Fatal β}
    (same : ∀ fuel, runs p fuel prog l d = runs p fuel prog' l' d')
    (rest : Yields p prog' l' d' out l'' d'')
    : Yields p prog l d out l'' d'' := by
  obtain ⟨bound, rest⟩ := rest
  exact ⟨bound, fun fuel enough => (same fuel).trans (rest fuel enough)⟩

/-- A program that returns. -/
theorem yields_ret (a : α) : Yields p (Prog.ret a) l d (.done a) l d := .ret a _

/-- `err_dump` ends the process. -/
theorem yields_errDump (message : String)
    : Yields p (errDump message : M α) l d (.stopped (.errDump message)) l d :=
  .abort _ _

/-- A seek and what follows. -/
theorem yields_lseek {fd : Fd} {offset : Int} {whence : Whence} {k : Int → M α} {n : Nat}
    (target : seekTarget d l fd offset whence = n)
    (rest : Yields p (k n) (l.move fd n) d out l'' d'')
    : Yields p ((lseek fd offset whence).bind k) l d out l'' d'' :=
  .of_runs (fun _ => runs_lseek target) rest

/-- A read and what follows. -/
theorem yields_read {fd : Fd} {n : Nat} {k : List Byte → M α} {b : List Byte}
    (found : pread (d.file fd).data (l.at fd) n = b)
    (rest : Yields p (k b) (l.move fd (l.at fd + b.length)) d out l'' d'')
    : Yields p ((read fd n).bind k) l d out l'' d'' := by
  subst found
  exact .of_runs (fun _ => runs_read) rest

/-- A write and what follows. -/
theorem yields_write {fd : Fd} {bytes : List Byte} {k : Int → M α}
    (small : bytes.length ≤ INT_MAX) (room : l.at fd + bytes.length ≤ OFF_MAX)
    (rest : Yields p (k bytes.length) (l.move fd (l.at fd + bytes.length))
      (d.setFile fd { d.file fd with data := pwrite 0 (d.file fd).data (l.at fd) bytes })
      out l'' d'')
    : Yields p ((write fd bytes).bind k) l d out l'' d'' :=
  .of_runs (fun _ => runs_write small room) rest

/-- A write lock and what follows. -/
theorem yields_writewLock {fd : Fd} {start len : Nat} {k : Int → M α}
    (rest : Yields p (k 0) l (d.setLocks p fd start len (some .wr)) out l'' d'')
    : Yields p ((writewLock fd start len).bind k) l d out l'' d'' :=
  .of_runs (fun _ => runs_writewLock) rest

/-- A read lock and what follows. -/
theorem yields_readwLock {fd : Fd} {start len : Nat} {k : Int → M α}
    (rest : Yields p (k 0) l (d.setLocks p fd start len (some .rd)) out l'' d'')
    : Yields p ((readwLock fd start len).bind k) l d out l'' d'' :=
  .of_runs (fun _ => runs_readwLock) rest

/-- An unlock and what follows. -/
theorem yields_unLock {fd : Fd} {start len : Nat} {k : Int → M α}
    (rest : Yields p (k 0) l (d.setLocks p fd start len none) out l'' d'')
    : Yields p ((unLock fd start len).bind k) l d out l'' d'' :=
  .of_runs (fun _ => runs_unLock) rest

end Minions.Db
