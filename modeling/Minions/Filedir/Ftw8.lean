import Minions.Data.CInt
import Minions.Data.StringBuffer

/-! The tree walk of `ftw8.c`.
All levels of the recursion share one buffer for the path. Each level appends names behind its
own path and relies on the levels below to leave that path alone; only the size of the buffer,
which grows on the way down, says whether a name still fits.
-/

namespace Minions.Filedir

open Minions.Data

def NAME_MAX : Nat := 255

/-- The type that the callback is told. -/
inductive FtwType
  | FTW_F
  | FTW_D
  | FTW_DNR
  | FTW_NS
deriving Repr, DecidableEq

/-- A call of the callback. -/
structure FtwCall where
  path : List Byte
  type : FtwType
deriving Repr, DecidableEq

/-- What the calls of the walk find in the file system. `lstat` tells whether a path is a
directory; the names come in the order of `readdir`. The kernel bounds the paths that `lstat`
finds, so that the length of one, with a name behind it, is an `int`.
-/
structure FileSystem where
  lstat : List Byte → Option Bool
  opendir : List Byte → Option (List (List Byte))
  short : ∀ path, (lstat path).isSome → path.length + NAME_MAX + 2 < 2 ^ 31
  names : ∀ path names, opendir path = some names
    → ∀ name ∈ names, 0 ∉ name ∧ name.length ≤ NAME_MAX

/-- `fullpath`, of which `pathlen` is the size, and the calls that have been made. -/
structure WalkState where
  fullpath : StringBuffer
  calls : List FtwCall

/-- Call the callback, which may remember all earlier calls. -/
def visit (func : List FtwCall → Int) (s : WalkState) (type : FtwType) : Int × WalkState :=
  let calls := s.calls ++ [⟨s.fullpath.text, type⟩]
  (func calls, { s with calls })

/-- The loop over the names of a directory, whose path with its slash has `n` characters. -/
def readLoop (recurse : WalkState → Option (Int × WalkState)) (n : Int)
    : List (List Byte) → Int → WalkState → Option (Int × WalkState)
  | [], ret, s => some (ret, s)
  | name :: rest, ret, s =>
      if name = [46] ∨ name = [46, 46] then readLoop recurse n rest ret s
      else
        (s.fullpath.strcpy n name).bind fun fullpath =>
          (recurse { s with fullpath }).bind fun (ret, s) =>
            if ret ≠ 0 then some (ret, s) else readLoop recurse n rest ret s

/-- Expand the buffer unless a slash and a name fit behind `n` characters. -/
def expand (n : Int) (buf : StringBuffer) : StringBuffer :=
  if sizeT (n + NAME_MAX + 2) > buf.size then { buf with size := buf.size * 2 } else buf

/-- `dopath`, with a bound on the depth of the recursion. -/
def dopath (fs : FileSystem) (func : List FtwCall → Int)
    : Nat → WalkState → Option (Int × WalkState)
  | 0, _ => none
  | depth + 1, s =>
      match fs.lstat s.fullpath.text with
      | none => some (visit func s .FTW_NS)
      | some false => some (visit func s .FTW_F)
      | some true =>
          let (ret, s) := visit func s .FTW_D
          if ret ≠ 0 then some (ret, s)
          else
            let n := toInt s.fullpath.text.length
            ((expand n s.fullpath).put n 47).bind fun fullpath =>
              (fullpath.put (n + 1) 0).bind fun fullpath =>
                let s := { s with fullpath }
                match fs.opendir fullpath.text with
                | none => some (visit func s .FTW_DNR)
                | some names =>
                    (readLoop (dopath fs func depth) (n + 1) names ret s).bind fun (ret, s) =>
                      (s.fullpath.put n 0).map fun fullpath => (ret, { s with fullpath })

/-- `myftw`, with the buffer that `path_alloc` gives, whose content is unknown. -/
def myftw (fs : FileSystem) (func : List FtwCall → Int) (depth : Nat) (buf : StringBuffer)
    (pathname : List Byte)
    : Option (Int × WalkState) :=
  let buf :=
    if buf.size ≤ pathname.length then { buf with size := pathname.length * 2 } else buf
  (buf.strcpy 0 pathname).bind fun fullpath => dopath fs func depth { fullpath, calls := [] }

-----------------------------------------------------------------------------------------
-- Trees
-----------------------------------------------------------------------------------------

mutual

/-- A file tree as the walk sees it. -/
inductive Tree
  | unknown
  | file
  | unreadable
  | dir (entries : Forest)

/-- The entries of a directory, without the two for itself and its parent. -/
inductive Forest
  | nil
  | cons (name : List Byte) (tree : Tree) (rest : Forest)

end

/-- A path behind a directory. -/
def below (path name : List Byte) : List Byte := path ++ 47 :: name

mutual

/-- The calls for a tree at a path. -/
def preorder (path : List Byte) : Tree → List FtwCall
  | .unknown => [⟨path, .FTW_NS⟩]
  | .file => [⟨path, .FTW_F⟩]
  | .unreadable => [⟨path, .FTW_D⟩, ⟨below path [], .FTW_DNR⟩]
  | .dir entries => ⟨path, .FTW_D⟩ :: preorderAll path entries

/-- The calls for the entries of the directory at a path. -/
def preorderAll (path : List Byte) : Forest → List FtwCall
  | .nil => []
  | .cons name tree rest => preorder (below path name) tree ++ preorderAll path rest

end

mutual

/-- The file system shows the tree at the path. -/
def Shown (fs : FileSystem) (path : List Byte) : Tree → Prop
  | .unknown => fs.lstat path = none
  | .file => fs.lstat path = some false
  | .unreadable => fs.lstat path = some true ∧ fs.opendir (below path []) = none
  | .dir entries =>
      fs.lstat path = some true
        ∧ ∃ names, fs.opendir (below path []) = some names ∧ ShownAll fs path names entries

/-- The names, apart from the two for the directory itself and its parent, are the entries. -/
def ShownAll (fs : FileSystem) (path : List Byte) (names : List (List Byte)) : Forest → Prop
  | .nil => ∀ name ∈ names, name = [46] ∨ name = [46, 46]
  | .cons name tree rest =>
      ∃ dots names', names = dots ++ name :: names' ∧ (∀ dot ∈ dots, dot = [46] ∨ dot = [46, 46])
        ∧ ¬ (name = [46] ∨ name = [46, 46]) ∧ Shown fs (below path name) tree
        ∧ ShownAll fs path names' rest

end

/-- The calls of a list that are made when the walk stops at the first call that returns a value
other than 0, after those made before; and the value that it returns.
-/
def stopAt (func : List FtwCall → Int) : List FtwCall → List FtwCall → Int × List FtwCall
  | made, [] => (0, made)
  | made, call :: rest =>
      if func (made ++ [call]) ≠ 0 then (func (made ++ [call]), made ++ [call])
      else stopAt func (made ++ [call]) rest

mutual

/-- The depth of the recursion for a tree. -/
def Tree.depth : Tree → Nat
  | .unknown | .file | .unreadable => 1
  | .dir entries => entries.depth + 1

/-- The depth of the recursion for the entries of a directory. -/
def Forest.depth : Forest → Nat
  | .nil => 0
  | .cons _ tree rest => max tree.depth rest.depth

end

-----------------------------------------------------------------------------------------
-- The walk
-----------------------------------------------------------------------------------------

variable {fs : FileSystem} {func : List FtwCall → Int}

/-- A path below a directory is that directory's prefix and the name. -/
theorem below_eq (path name : List Byte) : below path name = below path [] ++ name := by
  simp [below]

/-- The second part of the calls is made if the first has not stopped. -/
theorem stopAt_append (made left right : List FtwCall)
    : stopAt func made (left ++ right)
      = if (stopAt func made left).1 ≠ 0 then stopAt func made left
        else stopAt func (stopAt func made left).2 right := by
  induction left generalizing made with
  | nil => simp [stopAt]
  | cons call rest ih =>
      by_cases stops : func (made ++ [call]) ≠ 0
      · simp [stopAt, stops]
      · simp [stopAt, stops, ih]

/-- One call is always made. -/
theorem stopAt_singleton (made : List FtwCall) (call : FtwCall)
    : stopAt func made [call] = (func (made ++ [call]), made ++ [call]) := by
  by_cases stops : func (made ++ [call]) = 0 <;> simp [stopAt, stops]

/-- The buffer holds the path, and has at least the size of a name with a slash and a NUL. -/
structure Holds (buf : StringBuffer) (path : List Byte) : Prop where
  starts : buf.Starts (path ++ [0])
  chars : 0 ∉ path
  room : path.length < buf.size
  size : NAME_MAX + 2 ≤ buf.size

/-- The buffer's text is the path that it holds. -/
theorem Holds.text {buf : StringBuffer} {path : List Byte} (holds : Holds buf path)
    : buf.text = path :=
  holds.starts.text holds.chars holds.room

/-- A visit makes one call with the path in the buffer. -/
theorem visit_eq {s : WalkState} {path : List Byte} (holds : Holds s.fullpath path)
    (type : FtwType)
    : visit func s type
      = ((stopAt func s.calls [⟨path, type⟩]).1,
          ⟨s.fullpath, (stopAt func s.calls [⟨path, type⟩]).2⟩) := by
  simp [visit, holds.text, stopAt_singleton]

/-- Doubling the buffer is enough: it was not full, and had the size of a name. -/
theorem Holds.expand {buf : StringBuffer} {path : List Byte} (holds : Holds buf path)
    (short : path.length + NAME_MAX + 2 < 2 ^ 31)
    : (expand path.length buf).Starts (path ++ [0])
      ∧ path.length + NAME_MAX + 2 ≤ (expand path.length buf).size
      ∧ buf.size ≤ (expand path.length buf).size := by
  have size : sizeT (path.length + NAME_MAX + 2) = path.length + NAME_MAX + 2 := by
    rw [sizeT_eq (by omega) (by omega)]
    omega
  have room := holds.room
  have least := holds.size
  simp only [Filedir.expand, size]
  split
  · exact ⟨holds.starts.resize _, by simp only; omega, by simp only; omega⟩
  · exact ⟨holds.starts, by omega, le_refl _⟩

/-- The result of a walk that makes the calls, up to the first that stops it, and leaves the front
of the buffer as it was.
-/
def Makes (func : List FtwCall → Int) (s : WalkState) (front : List Byte) (todo : List FtwCall)
    (result : Option (Int × WalkState))
    : Prop :=
  ∃ buf,
    result = some ((stopAt func s.calls todo).1, ⟨buf, (stopAt func s.calls todo).2⟩)
    ∧ buf.Starts front ∧ s.fullpath.size ≤ buf.size

/-- A visit makes the call of its path. -/
theorem makes_visit {s : WalkState} {path : List Byte} (holds : Holds s.fullpath path)
    (type : FtwType)
    : Makes func s path [⟨path, type⟩] (some (visit func s type)) :=
  ⟨s.fullpath, by rw [visit_eq holds], holds.starts.left, le_refl _⟩

/-- A directory whose call returns 0: the walk appends a slash, and room is left for a name. -/
theorem dopath_directory {s : WalkState} {path : List Byte} (depth : Nat)
    (holds : Holds s.fullpath path) (found : fs.lstat path = some true)
    (goesOn : func (s.calls ++ [⟨path, .FTW_D⟩]) = 0)
    : ∃ buf,
        Holds buf (below path []) ∧ path.length + NAME_MAX + 2 ≤ buf.size
        ∧ s.fullpath.size ≤ buf.size
        ∧ dopath fs func (depth + 1) s
          = match fs.opendir (below path []) with
            | none => some (visit func ⟨buf, s.calls ++ [⟨path, .FTW_D⟩]⟩ .FTW_DNR)
            | some names =>
                (readLoop (dopath fs func depth) (path.length + 1) names 0
                    ⟨buf, s.calls ++ [⟨path, .FTW_D⟩]⟩).bind fun (ret, s) =>
                  (s.fullpath.put path.length 0).map fun fullpath =>
                    (ret, { s with fullpath }) := by
  have short := fs.short path (by simp [found])
  have n : toInt path.length = path.length := toInt_eq (by omega) (by omega)
  obtain ⟨starts, room, larger⟩ := holds.expand short
  obtain ⟨middle, slash, begins, same⟩ := starts.left.put (by omega) 47
  obtain ⟨buf, stop, ends, kept⟩ :=
    begins.put (by simp only [List.length_append, List.length_singleton]; omega) 0
  have size : buf.size = (expand path.length s.fullpath).size := kept.trans same
  have inside : Holds buf (below path []) := {
    starts := ends
    chars := by simpa [below] using holds.chars
    room := by simp only [below, List.length_append, List.length_singleton]; omega
    size := by omega
  }
  refine ⟨buf, inside, by omega, by omega, ?_⟩
  simp only [List.length_append, List.length_singleton, Nat.cast_add, Nat.cast_one] at stop
  simp [dopath, holds.text, found, visit, goesOn, n, slash, stop, inside.text]

/-- The call for a directory stops the walk, or the walk goes on behind the slash. -/
theorem makes_directory {s : WalkState} {path : List Byte} {todo : List FtwCall} (depth : Nat)
    (holds : Holds s.fullpath path) (found : fs.lstat path = some true)
    (goesOn : ∀ buf, Holds buf (below path []) → path.length + NAME_MAX + 2 ≤ buf.size
      → Makes func ⟨buf, s.calls ++ [⟨path, .FTW_D⟩]⟩ path todo
          (match fs.opendir (below path []) with
          | none => some (visit func ⟨buf, s.calls ++ [⟨path, .FTW_D⟩]⟩ .FTW_DNR)
          | some names =>
              (readLoop (dopath fs func depth) (path.length + 1) names 0
                  ⟨buf, s.calls ++ [⟨path, .FTW_D⟩]⟩).bind fun (ret, s) =>
                (s.fullpath.put path.length 0).map fun fullpath =>
                  (ret, { s with fullpath })))
    : Makes func s path (⟨path, .FTW_D⟩ :: todo) (dopath fs func (depth + 1) s) := by
  by_cases stops : func (s.calls ++ [⟨path, .FTW_D⟩]) = 0
  · obtain ⟨buf, inside, room, larger, step⟩ := dopath_directory depth holds found stops
    obtain ⟨last, result, starts, size⟩ := goesOn buf inside room
    refine ⟨last, ?_, starts, le_trans larger size⟩
    rw [step, result]
    simp [stopAt, stops]
  · refine ⟨s.fullpath, ?_, holds.starts.left, le_refl _⟩
    simp [dopath, holds.text, found, visit, stops, stopAt]

/-- The entries `.` and `..` are passed over. -/
theorem readLoop_dots {recurse : WalkState → Option (Int × WalkState)} {n ret : Int}
    {s : WalkState} {dots names : List (List Byte)}
    (only : ∀ dot ∈ dots, dot = [46] ∨ dot = [46, 46])
    : readLoop recurse n (dots ++ names) ret s = readLoop recurse n names ret s := by
  induction dots with
  | nil => rfl
  | cons dot dots ih =>
      simp only [List.cons_append, readLoop, only dot List.mem_cons_self, if_true]
      exact ih fun dot member => only dot (List.mem_cons_of_mem _ member)

mutual

/-- The walk of a tree. The induction is on the tree: each level finds its own path intact, since
the levels below leave the front of the buffer as it was.
-/
theorem makes_dopath
    : (tree : Tree) → ∀ {path : List Byte} {s : WalkState} {depth : Nat},
      Shown fs path tree → Holds s.fullpath path → tree.depth ≤ depth
      → Makes func s path (preorder path tree) (dopath fs func depth s)
  | tree, path, s, 0, shown, holds, deep => by
      cases tree <;> simp [Tree.depth] at deep
  | .unknown, path, s, depth + 1, shown, holds, deep => by
      have missing : fs.lstat path = none := shown
      simpa [dopath, holds.text, missing, preorder] using makes_visit holds .FTW_NS
  | .file, path, s, depth + 1, shown, holds, deep => by
      have found : fs.lstat path = some false := shown
      simpa [dopath, holds.text, found, preorder] using makes_visit holds .FTW_F
  | .unreadable, path, s, depth + 1, shown, holds, deep => by
      obtain ⟨found, closed⟩ := shown
      apply makes_directory depth holds found
      intro buf inside room
      rw [closed]
      obtain ⟨last, result, starts, size⟩ :=
        makes_visit (s := ⟨buf, s.calls ++ [⟨path, .FTW_D⟩]⟩) inside .FTW_DNR
      exact ⟨last, result, starts.left, size⟩
  | .dir entries, path, s, depth + 1, shown, holds, deep => by
      obtain ⟨found, names, opened, all⟩ := shown
      simp only [Tree.depth, Nat.add_le_add_iff_right] at deep
      apply makes_directory depth holds found
      intro buf inside room
      rw [opened]
      obtain ⟨last, result, starts, size⟩ :=
        makes_readLoop (s := ⟨buf, s.calls ++ [⟨path, .FTW_D⟩]⟩) entries all
          (fs.names _ names opened) inside.starts.left holds.chars room deep
      -- The slash is erased again, also when a call has stopped the walk.
      obtain ⟨cut, erased, ends, same⟩ := starts.left.put (by simp only at size; omega) 0
      refine ⟨cut, ?_, ends.left, by simpa [same] using size⟩
      simp [result, erased]

/-- The loop over the names of a directory. -/
theorem makes_readLoop
    : (entries : Forest)
      → ∀ {path : List Byte} {names : List (List Byte)} {s : WalkState} {depth : Nat},
        ShownAll fs path names entries
        → (∀ name ∈ names, 0 ∉ name ∧ name.length ≤ NAME_MAX)
        → s.fullpath.Starts (below path []) → 0 ∉ path
        → path.length + NAME_MAX + 2 ≤ s.fullpath.size
        → entries.depth ≤ depth
        → Makes func s (below path []) (preorderAll path entries)
            (readLoop (dopath fs func depth) (path.length + 1) names 0 s)
  | .nil, path, names, s, depth, shown, named, starts, chars, room, deep => by
      rw [← List.append_nil names, readLoop_dots shown]
      exact ⟨s.fullpath, rfl, starts, le_refl _⟩
  | .cons name tree rest, path, names, s, depth, shown, named, starts, chars, room, deep => by
      obtain ⟨dots, names, rfl, only, proper, seen, others⟩ := shown
      simp only [Forest.depth, sup_le_iff] at deep
      obtain ⟨nameChars, nameLength⟩ := named name (by simp)
      obtain ⟨buf, copied, begins, same⟩ :=
        starts.strcpy name (by simp only [below, List.length_append, List.length_singleton]; omega)
      have copied : s.fullpath.strcpy (path.length + 1) name = some buf := by
        simpa [below] using copied
      have inside : Holds buf (below path name) := {
        starts := by simpa [below_eq path name] using begins
        chars := by simpa [below] using ⟨chars, nameChars⟩
        room := by simp only [below, List.length_append, List.length_cons]; omega
        size := by omega
      }
      obtain ⟨middle, result, kept, larger⟩ :=
        makes_dopath (s := ⟨buf, s.calls⟩) tree seen inside deep.1
      simp only at larger
      rw [below_eq] at kept
      have front : middle.Starts (below path []) := kept.left
      rw [readLoop_dots only]
      simp only [readLoop, proper, if_false, copied, result, Option.bind_some, preorderAll]
      by_cases stops : (stopAt func s.calls (preorder (below path name) tree)).1 = 0
      · obtain ⟨last, next, ends, grown⟩ :=
          makes_readLoop (s := ⟨middle, (stopAt func s.calls (preorder (below path name) tree)).2⟩)
            rest others (fun name member => named name (by simp [member])) front chars
            (by simp only; omega) deep.2
        refine ⟨last, ?_, ends, by simp only at grown; omega⟩
        simp [stopAt_append, stops, next]
      · refine ⟨middle, ?_, front, by omega⟩
        simp [stopAt_append, stops]

end

/-- The walk makes the calls of the tree in pre-order, up to the first that returns a value other
than 0, and returns this value. That it has a result means that no byte was stored outside the
buffer.
-/
theorem myftw_walks (fs : FileSystem) (func : List FtwCall → Int) (tree : Tree)
    (pathname : List Byte) (buf : StringBuffer)
    (shown : Shown fs pathname tree) (chars : 0 ∉ pathname) (least : NAME_MAX + 2 ≤ buf.size)
    : ∀ depth ≥ tree.depth, ∃ last,
        myftw fs func depth buf pathname
        = some ((stopAt func [] (preorder pathname tree)).1,
            ⟨last, (stopAt func [] (preorder pathname tree)).2⟩) := by
  intro depth deep
  let large := if buf.size ≤ pathname.length then { buf with size := pathname.length * 2 } else buf
  have size : pathname.length < large.size ∧ NAME_MAX + 2 ≤ large.size := by
    simp only [large]
    split
    · simp only
      omega
    · omega
  obtain ⟨fullpath, copied, starts, same⟩ :=
    (StringBuffer.Starts.nil large).strcpy pathname (by simpa using size.1)
  have holds : Holds fullpath pathname :=
    ⟨by simpa using starts, chars, by omega, by omega⟩
  obtain ⟨last, result, _, _⟩ :=
    makes_dopath (s := ⟨fullpath, []⟩) tree shown holds deep
  refine ⟨last, ?_⟩
  have stored : large.strcpy 0 pathname = some fullpath := by simpa using copied
  simp only [myftw]
  rw [stored]
  exact result

/-- A directory `d` with an unreadable directory `e` and a file `f`. -/
def sampleFiles : FileSystem where
  lstat path :=
    if path = [100] ∨ path = [100, 47, 101] then some true
    else if path = [100, 47, 102] then some false
    else none
  opendir path := if path = [100, 47] then some [[46], [101], [46, 46], [102]] else none
  short := by
    intro path found
    have bounded : path.length ≤ 3 := by
      split at found
      · next some => rcases some with rfl | rfl <;> decide
      · split at found
        · next some => subst some; decide
        · cases found
    simp only [NAME_MAX]
    omega
  names := by
    intro path names opened
    split at opened
    · obtain rfl := Option.some.inj opened
      decide
    · cases opened

/-- A walk over a directory with a file, a directory and one that cannot be read. -/
theorem myftw_walks_sample
    : ∃ last,
        myftw sampleFiles (fun _ => 0) 2 ⟨fun _ => 120, 257⟩ [100]
        = some (0, ⟨last, [⟨[100], .FTW_D⟩, ⟨[100, 47, 101], .FTW_D⟩,
            ⟨[100, 47, 101, 47], .FTW_DNR⟩, ⟨[100, 47, 102], .FTW_F⟩]⟩) :=
  myftw_walks sampleFiles (fun _ => 0)
    (.dir (.cons [101] .unreadable (.cons [102] .file .nil))) [100] ⟨fun _ => 120, 257⟩
    (by
      refine ⟨by decide, _, rfl, [[46]], _, rfl, by decide, by decide, ⟨by decide, by decide⟩,
        [[46, 46]], [], rfl, by decide, by decide, ?_, ?_⟩
      · show sampleFiles.lstat [100, 47, 102] = some false
        decide
      · intro name member
        cases member)
    (by decide) (by decide) 2 (by decide)

end Minions.Filedir
