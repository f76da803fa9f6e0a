import Minions.Data.Bytes
import Minions.Data.CInt
import Minions.Data.Decimal
import Minions.Logic.System

/-! The part of the operating system that the db library uses: an index file and a data
file with their open file descriptions, and `fcntl` record locks.
A system call is atomic and, apart from the wait for a lock, always succeeds where its
arguments are valid: an `lseek` to a negative offset fails, a read stops at the end of file,
a write beyond the largest file offset or of more than `INT_MAX` bytes fails, and so does an
`open` with `O_EXCL` of a file that exists.
-/

namespace Minions.Db

open Minions.Data Minions.Logic

/-- The two files of one database. -/
inductive Fd
  | idx
  | dat
deriving Repr, DecidableEq

/-- Third argument of `lseek`. -/
inductive Whence
  | set
  | cur
  | end
deriving Repr, DecidableEq

/-- `F_RDLCK` and `F_WRLCK`. -/
inductive LockKind
  | rd
  | wr
deriving Repr, DecidableEq

/-- The flags of `open`, besides `O_RDWR`. The others make no difference here: they concern other
kinds of files or the programs that the process executes, or say when a write must have reached
the disk, or only make `open` fail.
-/
structure Oflag where
  creat : Bool := false
  trunc : Bool := false
  excl : Bool := false
  append : Bool := false
deriving Repr, DecidableEq

/-- The system calls of the library. `read` and `write` stand for the vectored forms too,
whose buffers are contiguous in the file. `lock` is `F_SETLKW` and `unlock` is `F_UNLCK`,
both relative to the start of the file; a length of 0 reaches to infinity. `open` always
asks for read and write access.
-/
inductive Call
  | open (fd : Fd) (oflag : Oflag)
  | close (fd : Fd)
  | lseek (fd : Fd) (offset : Int) (whence : Whence)
  | read (fd : Fd) (count : Nat)
  | write (fd : Fd) (bytes : List Byte)
  | lock (fd : Fd) (kind : LockKind) (start len : Nat)
  | unlock (fd : Fd) (start len : Nat)
  | fstat (fd : Fd)
deriving Repr, DecidableEq

/-- What a call returns. A read returns the bytes themselves; the count is their number. -/
@[reducible] def Call.Resp : Call → Type
  | .read _ _ => List Byte
  | .fstat _ => Nat
  | _ => Int

/-- The reasons the library gives when it ends the process. -/
inductive Fatal
  | errDump (message : String)
  | errQuit (message : String)
  | nullHandle
deriving Repr, DecidableEq

/-- The calls and errors of programs in this development. -/
abbrev Sys : Sig where
  Call := Call
  Resp := Call.Resp
  Err := Fatal

/-- A file system entry. -/
structure File where
  present : Bool
  data : List Byte
deriving Repr, DecidableEq

abbrev Pid := Nat

/-- What all processes share. `locks p fd b` is the lock that `p` holds on byte `b`. -/
structure Disk where
  idx : File
  dat : File
  locks : Pid → Fd → Nat → Option LockKind

/-- The file offsets of one process's two open file descriptions. -/
structure Offsets where
  idx : Nat
  dat : Nat
deriving Repr, DecidableEq

def Disk.file (d : Disk) : Fd → File
  | .idx => d.idx
  | .dat => d.dat

def Disk.setFile (d : Disk) (fd : Fd) (f : File) : Disk :=
  match fd with
  | .idx => { d with idx := f }
  | .dat => { d with dat := f }

def Offsets.at (o : Offsets) : Fd → Nat
  | .idx => o.idx
  | .dat => o.dat

def Offsets.move (o : Offsets) (fd : Fd) (n : Nat) : Offsets :=
  match fd with
  | .idx => { o with idx := n }
  | .dat => { o with dat := n }

/-- The bytes of a lock request. -/
def inRange (start len b : Nat) : Prop := start ≤ b ∧ (len = 0 ∨ b < start + len)

instance (start len b : Nat) : Decidable (inRange start len b) := by
  unfold inRange
  infer_instance

/-- Change the locks of process `p` on a range of bytes; its other locks stay. -/
def Disk.setLocks (d : Disk) (p : Pid) (fd : Fd) (start len : Nat)
    (kind : Option LockKind)
    : Disk :=
  { d with
    locks := fun q f b =>
      if q = p ∧ f = fd ∧ inRange start len b then kind else d.locks q f b }

/-- A lock request is granted when no other process holds a conflicting lock on any byte
of the range.
-/
def Disk.grants (d : Disk) (p : Pid) (fd : Fd) (kind : LockKind) (start len : Nat) : Prop :=
  ∀ q b, q ≠ p → inRange start len b →
    d.locks q fd b ≠ some .wr ∧ (kind = .wr → d.locks q fd b = none)

/-- The target of an `lseek`. -/
def seekTarget (d : Disk) (o : Offsets) (fd : Fd) (offset : Int) : Whence → Int
  | .set => offset
  | .cur => (o.at fd : Int) + offset
  | .end => ((d.file fd).data.length : Int) + offset

/-- The largest value of `off_t`. -/
def OFF_MAX : Nat := 2 ^ 63 - 1

/-- Whether `open` succeeds: `O_CREAT` makes a missing file, and with `O_EXCL` only a missing one
is opened.
-/
def File.opens (f : File) (oflag : Oflag) : Bool :=
  if f.present then !(oflag.creat && oflag.excl) else oflag.creat

/-- The effect of a call of process `p`, whose descriptors are without `O_APPEND`. -/
def execCall (p : Pid) : (c : Call) → Offsets → Disk → c.Resp × Offsets × Disk
  | .open fd oflag, o, d =>
      if (d.file fd).opens oflag then
        ((0 : Int), o.move fd 0,
          d.setFile fd ⟨true, if oflag.trunc then [] else (d.file fd).data⟩)
      else ((-1 : Int), o, d)
  | .close fd, o, d => ((0 : Int), o, d.setLocks p fd 0 0 none)
  | .lseek fd offset whence, o, d =>
      if seekTarget d o fd offset whence < 0 then ((-1 : Int), o, d)
      else
        (seekTarget d o fd offset whence,
          o.move fd (seekTarget d o fd offset whence).toNat, d)
  | .read fd count, o, d =>
      (pread (d.file fd).data (o.at fd) count,
        o.move fd (o.at fd + (pread (d.file fd).data (o.at fd) count).length), d)
  | .write fd bytes, o, d =>
      if o.at fd + bytes.length ≤ OFF_MAX then
        ((bytes.length : Int), o.move fd (o.at fd + bytes.length),
          d.setFile fd { d.file fd with data := pwrite 0 (d.file fd).data (o.at fd) bytes })
      else ((-1 : Int), o, d)
  | .lock fd kind start len, o, d => ((0 : Int), o, d.setLocks p fd start len (some kind))
  | .unlock fd start len, o, d => ((0 : Int), o, d.setLocks p fd start len none)
  | .fstat fd, o, d => ((d.file fd).data.length, o, d)

/-- The kernel as the processes of one database see it. -/
def kernel : Machine Sys Pid Offsets Disk where
  enabled p c _ d :=
    match c with
    | .lock fd kind start len => d.grants p fd kind start len
    | _ => True
  exec := execCall
  leave p d := { d with locks := fun q f b => if q = p then none else d.locks q f b }

/-- The effect of a call where the descriptors have `O_APPEND`: a write first moves the offset to
the end of the file.
-/
def execAppend (p : Pid) : (c : Call) → Offsets → Disk → c.Resp × Offsets × Disk
  | .write fd bytes, o, d => execCall p (.write fd bytes) (o.move fd (d.file fd).data.length) d
  | c, o, d => execCall p c o d

/-- The kernel for processes that open the two files with or without `O_APPEND`. -/
def kernelFor : Bool → Machine Sys Pid Offsets Disk
  | false => kernel
  | true => { kernel with exec := execAppend }

abbrev M := Prog Sys

def sysOpen (fd : Fd) (oflag : Oflag) : M Int := Prog.perform (S := Sys) (.open fd oflag)

def sysClose (fd : Fd) : M Int := Prog.perform (S := Sys) (.close fd)

def lseek (fd : Fd) (offset : Int) (whence : Whence) : M Int :=
  Prog.perform (S := Sys) (.lseek fd offset whence)

def read (fd : Fd) (count : Nat) : M (List Byte) := Prog.perform (S := Sys) (.read fd count)

/-- A write of more bytes than an `int` counts is refused with `EINVAL` before it touches the
file.
-/
def write (fd : Fd) (bytes : List Byte) : M Int :=
  if bytes.length ≤ INT_MAX then Prog.perform (S := Sys) (.write fd bytes) else return -1

def writewLock (fd : Fd) (start len : Nat) : M Int :=
  Prog.perform (S := Sys) (.lock fd .wr start len)

def readwLock (fd : Fd) (start len : Nat) : M Int :=
  Prog.perform (S := Sys) (.lock fd .rd start len)

def unLock (fd : Fd) (start len : Nat) : M Int := Prog.perform (S := Sys) (.unlock fd start len)

def fstat (fd : Fd) : M Nat := Prog.perform (S := Sys) (.fstat fd)

def errDump {α : Type} (message : String) : M α := Prog.abort (S := Sys) (.errDump message)

def errQuit {α : Type} (message : String) : M α := Prog.abort (S := Sys) (.errQuit message)

end Minions.Db
