import Minions.Data.CInt
import Minions.Data.StringBuffer

/-! The search for the name of a terminal in `ttyname.c`.
Directories that are still to be searched wait in a list that grows at its tail while the loop of
`ttyname` walks it. All paths are made in one static buffer, which is also what is returned.
-/

namespace Minions.Termios

open Minions.Data

def _POSIX_PATH_MAX : Nat := 256

/-- The types that the search tells apart. -/
inductive FileType
  | S_IFDIR
  | S_IFCHR
  | other
deriving Repr, DecidableEq

structure Stat where
  type : FileType
  st_ino : Nat
  st_dev : Nat
deriving Repr, DecidableEq

/-- What the calls of the search find. The names come in the order of `readdir`; those for a
directory and its parent are directories.
-/
structure FileSystem where
  isatty : Int → Bool
  fstat : Int → Option Stat
  stat : List Byte → Option Stat
  opendir : List Byte → Option (List (List Byte))
  names : ∀ path names, opendir path = some names → ∀ name ∈ names, 0 ∉ name ∧ 47 ∉ name
  dots : ∀ path st, stat (path ++ [47, 46]) = some st ∨ stat (path ++ [47, 46, 46]) = some st
    → st.type = .S_IFDIR

/-- `struct devdir`. -/
structure DevDir where
  d_next : Nat
  d_name : List Byte
deriving Repr, DecidableEq

/-- The static variables, and the memory from `malloc`: the address 0 is `NULL`, and the next
address to be given out is `fresh`.
-/
structure State where
  head : Nat
  tail : Nat
  pathname : StringBuffer
  nodes : Nat → Option DevDir
  fresh : Nat

/-- The state in which the program starts. -/
def State.init : State where
  head := 0
  tail := 0
  pathname := ⟨fun _ => 0, _POSIX_PATH_MAX + 1⟩
  nodes := fun _ => none
  fresh := 1

def ascii (text : String) : List Byte := text.toList.map fun c => UInt8.ofNat c.toNat

/-- The path ends in a slash and one or two dots. -/
def isDots (dirname : List Byte) : Bool :=
  match dirname.reverse with
  | 46 :: 47 :: _ => true
  | 46 :: 46 :: 47 :: _ => true
  | _ => false

/-- `add`, with the path that is in the buffer. -/
def add (s : State) : Option State :=
  let dirname := s.pathname.text
  if isDots dirname then some s
  else if dirname = ascii "/dev/fd" then some s
  else
    let ddp := s.fresh
    let s := {
      s with
      nodes := Function.update s.nodes ddp (some ⟨0, dirname⟩)
      fresh := ddp + 1
    }
    if s.tail = 0 then some { s with head := ddp, tail := ddp }
    else
      (s.nodes s.tail).map fun last =>
        {
          s with
          nodes := Function.update s.nodes s.tail (some { last with d_next := ddp })
          tail := ddp
        }

/-- The loop that `cleanup` frees the list with. -/
def freeAll : Nat → Nat → State → Option State
  | 0, _, _ => none
  | n + 1, ddp, s =>
      if ddp = 0 then some s
      else
        (s.nodes ddp).bind fun node =>
          freeAll n node.d_next { s with nodes := Function.update s.nodes ddp none }

def cleanup (n : Nat) (s : State) : Option State :=
  (freeAll n s.head s).map fun s => { s with head := 0, tail := 0 }

/-- The names that are passed over before anything is asked about them. -/
def aliases : List (List Byte) := [ascii "/dev/stdin", ascii "/dev/stdout", ascii "/dev/stderr"]

/-- `==` of names is their equality. -/
scoped instance : LawfulBEq (List Byte) := inferInstance

/-- The loop of `searchdir` over the names of a directory, and whether it ends at a match. -/
def readLoop (fs : FileSystem) (fdstat : Stat) (devlen : Nat)
    : List (List Byte) → State → Option (Bool × State)
  | [], s => some (false, s)
  | name :: rest, s =>
      (s.pathname.strncpy devlen name (sizeT (_POSIX_PATH_MAX - devlen))).bind fun pathname =>
        let s := { s with pathname }
        if pathname.text ∈ aliases then readLoop fs fdstat devlen rest s
        else
          match fs.stat pathname.text with
          | none => readLoop fs fdstat devlen rest s
          | some devstat =>
              if devstat.type = .S_IFDIR then (add s).bind (readLoop fs fdstat devlen rest)
              else if devstat.st_ino = fdstat.st_ino ∧ devstat.st_dev = fdstat.st_dev then
                some (true, s)
              else readLoop fs fdstat devlen rest s

/-- `searchdir`, which returns `pathname` or `NULL`. -/
def searchdir (fs : FileSystem) (fdstat : Stat) (dirname : List Byte) (s : State)
    : Option (Bool × State) :=
  (s.pathname.strcpy 0 dirname).bind fun pathname =>
    match fs.opendir dirname with
    | none => some (false, { s with pathname })
    | some names =>
        (pathname.strcpy pathname.text.length [47]).bind fun pathname =>
          readLoop fs fdstat pathname.text.length names { s with pathname }

/-- The loop of `ttyname`, which reads the link to the next directory when the one at `ddp` has
been searched.
-/
def searchAll (fs : FileSystem) (fdstat : Stat) : Nat → Nat → State → Option (Bool × State)
  | 0, _, _ => none
  | n + 1, ddp, s =>
      if ddp = 0 then some (false, s)
      else
        (s.nodes ddp).bind fun node =>
          (searchdir fs fdstat node.d_name s).bind fun (found, s) =>
            if found then some (true, s)
            else (s.nodes ddp).bind fun node => searchAll fs fdstat n node.d_next s

/-- `ttyname`, with a bound on the rounds of each loop over the list. It returns the string in
`pathname`, or `NULL`.
-/
def ttyname (fs : FileSystem) (n : Nat) (fd : Int) (s : State)
    : Option (Option (List Byte) × State) :=
  if ¬ fs.isatty fd then some (none, s)
  else
    match fs.fstat fd with
    | none => some (none, s)
    | some fdstat =>
        if fdstat.type ≠ .S_IFCHR then some (none, s)
        else
          (searchdir fs fdstat (ascii "/dev") s).bind fun (found, s) =>
            (if found then some (true, s) else searchAll fs fdstat n s.head s).bind
              fun (found, s) =>
                (cleanup n s).map fun s => (if found then some s.pathname.text else none, s)

/-- Calls one after another. -/
def ttynames (fs : FileSystem) (n : Nat) : List Int → State
    → Option (List (Option (List Byte)) × State)
  | [], s => some ([], s)
  | fd :: fds, s =>
      (ttyname fs n fd s).bind fun (rval, s) =>
        (ttynames fs n fds s).map fun (rvals, s) => (rval :: rvals, s)

end Minions.Termios
