import Minions.Termios.DevDirs

/-! The search of one directory in `ttyname.c`.
Each name is put behind the slash in the static buffer, so that the buffer always starts with the
path of the directory.
-/

namespace Minions.Termios

open Minions.Data

/-- The paths of the names in a directory, without the two for itself and its parent. -/
def entries (dirname : List Byte) (names : List (List Byte)) : List (List Byte) :=
  (names.filter fun name => ¬ (name = [46] ∨ name = [46, 46])).map (dirname ++ 47 :: ·)

/-- The entries of a directory without `.` and `..`. -/
theorem entries_cons (dirname name : List Byte) (rest : List (List Byte))
    : entries dirname (name :: rest)
      = if name = [46] ∨ name = [46, 46] then entries dirname rest
        else (dirname ++ 47 :: name) :: entries dirname rest := by
  split
  · next dots => rw [entries, List.filter_cons_of_neg (by simp only [dots]; decide), entries]
  · next dots =>
      rw [entries, List.filter_cons_of_pos (by simp only [dots]; decide), List.map_cons, entries]

def inside (fs : FileSystem) (dirname : List Byte) : List (List Byte) :=
  entries dirname ((fs.opendir dirname).getD [])

def isDir (fs : FileSystem) (path : List Byte) : Bool :=
  (fs.stat path).any fun st => st.type = .S_IFDIR

/-- The path is not that of a directory, and has the inode and the device. -/
def hasFile (fs : FileSystem) (fdstat : Stat) (path : List Byte) : Bool :=
  (fs.stat path).any fun st =>
    st.type ≠ .S_IFDIR ∧ st.st_ino = fdstat.st_ino ∧ st.st_dev = fdstat.st_dev

variable {s s' : State} {l new : List Nat} {queue : List (List Byte)}
variable {fs : FileSystem} {fdstat : Stat} {dirname name path : List Byte}

/-- The directories that are put into the list. -/
def added (fs : FileSystem) (path : List Byte) : Bool :=
  isDir fs path && path ∉ aliases && path ≠ ascii "/dev/fd"

/-- The entries that end the search. -/
def hit (fs : FileSystem) (fdstat : Stat) (path : List Byte) : Bool :=
  path ∉ aliases && hasFile fs fdstat path

/-- A path that ends in `.` or `..`. -/
theorem isDots_iff
    : isDots path = true
      ↔ ∃ front, path.reverse = [46] ++ 47 :: front ∨ path.reverse = [46, 46] ++ 47 :: front := by
  rw [isDots]
  split <;> simp_all

/-- The text before the first slash. -/
theorem takeWhile_slash {front back : List Byte} (plain : 47 ∉ front)
    : (front ++ 47 :: back).takeWhile (· ≠ 47) = front := by
  rw [List.takeWhile_append_of_pos]
  · simp
  · intro b member
    simpa using fun slash : b = 47 => plain (slash ▸ member)

/-- A path ends in dots exactly if its name is dots. -/
theorem isDots_below (plain : 47 ∉ name)
    : isDots (dirname ++ 47 :: name) = true ↔ name = [46] ∨ name = [46, 46] := by
  have plain : 47 ∉ name.reverse := by simpa using plain
  have reversed : (dirname ++ 47 :: name).reverse = name.reverse ++ 47 :: dirname.reverse := by
    simp
  rw [isDots_iff, reversed]
  constructor
  · rintro ⟨front, dots | dots⟩
    · have same := congrArg (List.takeWhile (· ≠ 47)) dots
      rw [takeWhile_slash plain, takeWhile_slash (by decide)] at same
      exact .inl (List.reverse_eq_iff.mp same)
    · have same := congrArg (List.takeWhile (· ≠ 47)) dots
      rw [takeWhile_slash plain, takeWhile_slash (by decide)] at same
      exact .inr (List.reverse_eq_iff.mp same)
  · rintro (rfl | rfl)
    · exact ⟨dirname.reverse, .inl rfl⟩
    · exact ⟨dirname.reverse, .inr rfl⟩

/-- A name behind the slash of the directory. Only a name that does not fit is cut. -/
theorem strncpy_name {pathname : StringBuffer} (starts : pathname.Starts (dirname ++ [47]))
    (chars : 0 ∉ dirname) (room : dirname.length + 1 < _POSIX_PATH_MAX) (nameChars : 0 ∉ name)
    (size : pathname.size = _POSIX_PATH_MAX + 1) (stop : pathname.mem _POSIX_PATH_MAX = 0)
    : ∃ next,
        pathname.strncpy (dirname.length + 1 : Nat) name
          (sizeT (_POSIX_PATH_MAX - (dirname.length + 1 : Nat))) = some next
        ∧ next.Starts (dirname ++ [47]) ∧ next.size = _POSIX_PATH_MAX + 1
        ∧ next.mem _POSIX_PATH_MAX = 0
        ∧ next.text = dirname ++ 47 :: name.take (_POSIX_PATH_MAX - (dirname.length + 1)) := by
  simp only [_POSIX_PATH_MAX] at *
  have space : sizeT ((256 : Nat) - (dirname.length + 1 : Nat)) = 256 - (dirname.length + 1) := by
    rw [sizeT_eq (by omega) (by omega)]
    omega
  have last : (dirname ++ [47]).length + (256 - (dirname.length + 1)) = 256 := by
    simp only [List.length_append, List.length_singleton]
    omega
  obtain ⟨next, copied, ends, same, kept⟩ :=
    starts.strncpy name (256 - (dirname.length + 1)) (by omega) (by rw [last, stop])
  refine ⟨next, ?_, ends.left.left, same.trans size, by rwa [last] at kept, ?_⟩
  · rw [space]
    simpa using copied
  · have text := ends.text
      (by
        simp only [List.mem_append, List.mem_singleton, not_or]
        exact ⟨⟨chars, by decide⟩, fun member => nameChars (List.mem_of_mem_take member)⟩)
      (by
        simp only [List.length_append, List.length_singleton, List.length_take]
        omega)
    simpa using text

/-- The result of a search through some paths. The directories among them wait at the end of the
list; after a match, only some of them do.
-/
def Finds (fs : FileSystem) (fdstat : Stat) (s : State) (l : List Nat) (paths : List (List Byte))
    (result : Option (Bool × State))
    : Prop :=
  ∃ s' new queue,
    result = some ((paths.find? (hit fs fdstat)).isSome, s')
    ∧ Appended s l s' new queue
    ∧ queue.length ≤ (paths.filter (added fs)).length
    ∧ (paths.find? (hit fs fdstat) = none → queue = paths.filter (added fs))
    ∧ ∀ path, paths.find? (hit fs fdstat) = some path → s'.pathname.text = path

variable {paths : List (List Byte)} {result : Option (Bool × State)} {pathname : StringBuffer}

/-- The path buffer does not matter. -/
theorem Appended.buffer (appended : Appended { s with pathname } l s' new queue)
    : Appended s l s' new queue :=
  ⟨appended.holds, appended.old, appended.names⟩

/-- The path buffer does not matter. -/
theorem Finds.buffer (finds : Finds fs fdstat { s with pathname } l paths result)
    : Finds fs fdstat s l paths result := by
  obtain ⟨s', new, queue, same, appended, rest⟩ := finds
  exact ⟨s', new, queue, same, appended.buffer, rest⟩

/-- No paths, no hit. -/
theorem Finds.none (holds : Holds s l) : Finds fs fdstat s l [] (some (false, s)) :=
  ⟨s, [], [], rfl, holds.refl, le_refl _, fun _ => rfl, fun _ found => by cases found⟩

/-- The first path is a hit. -/
theorem Finds.match (holds : Holds s l) (isHit : hit fs fdstat path = true)
    (text : s.pathname.text = path)
    : Finds fs fdstat s l (path :: paths) (some (true, s)) := by
  refine ⟨s, [], [], by simp [isHit], holds.refl, Nat.zero_le _, ?_, ?_⟩
  · intro nothing
    simp [isHit] at nothing
  · intro other found
    simp only [List.find?_cons, isHit, Option.some.injEq] at found
    exact text.trans found

/-- A path that is neither a match nor a directory to be searched. -/
theorem Finds.skip (missed : hit fs fdstat path = false) (left : added fs path = false)
    (finds : Finds fs fdstat s l paths result)
    : Finds fs fdstat s l (path :: paths) result := by
  simpa [Finds, missed, left] using finds

/-- A directory that now waits at the end of the list. -/
theorem Finds.push (missed : hit fs fdstat path = false) (taken : added fs path = true)
    (first : Appended s l s' new [path]) (finds : Finds fs fdstat s' (l ++ new) paths result)
    : Finds fs fdstat s l (path :: paths) result := by
  obtain ⟨s'', new', queue, same, appended, length, all, text⟩ := finds
  refine ⟨s'', new ++ new', path :: queue, ?_, by simpa using first.trans appended, ?_, ?_, ?_⟩
  · simpa [missed] using same
  · simpa [taken] using length
  · simpa [missed, taken] using all
  · simpa [missed] using text

/-- The names for the directory and its parent are not searched, even when they are cut. -/
theorem readLoop_dots {devlen : Nat} {rest : List (List Byte)} (dots : List Byte)
    (copied : s.pathname.strncpy devlen name (sizeT (_POSIX_PATH_MAX - devlen)) = some pathname)
    (text : pathname.text = dirname ++ 47 :: dots) (only : dots = [46] ∨ dots = [46, 46])
    : readLoop fs fdstat devlen (name :: rest) s
      = readLoop fs fdstat devlen rest { s with pathname } := by
  have real : isDots pathname.text = true := by
    rw [text, isDots_below (by rcases only with rfl | rfl <;> decide)]
    exact only
  rw [readLoop, copied, Option.bind_some]
  simp only
  split
  · rfl
  · split
    · rfl
    · next st found =>
        have isDir : st.type = .S_IFDIR := by
          apply fs.dots dirname st
          rcases only with rfl | rfl
          · exact .inl (text ▸ found)
          · exact .inr (text ▸ found)
        simp [isDir, add, real]

/-- One name. The search goes on in a state with the same front of the buffer. -/
theorem finds_name {devlen : Nat} {rest : List (List Byte)} (holds : Holds s l)
    (copied : s.pathname.strncpy devlen name (sizeT (_POSIX_PATH_MAX - devlen)) = some pathname)
    (size : pathname.size = _POSIX_PATH_MAX + 1) (stop : pathname.mem _POSIX_PATH_MAX = 0)
    (text : pathname.text = path) (real : isDots path = false)
    (later : ∀ {s' l'}, Holds s' l' → s'.pathname = pathname
      → Finds fs fdstat s' l' paths (readLoop fs fdstat devlen rest s'))
    : Finds fs fdstat s l (path :: paths) (readLoop fs fdstat devlen (name :: rest) s) := by
  have stored : Holds { s with pathname } l := holds.buffer pathname size stop
  have next := (later stored rfl).buffer
  rw [readLoop, copied, Option.bind_some]
  simp only [text]
  by_cases isAlias : path ∈ aliases
  · simpa [isAlias] using next.skip (by simp [hit, isAlias]) (by simp [added, isAlias])
  rw [if_neg isAlias]
  cases found : fs.stat path with
  | none => exact next.skip (by simp [hit, hasFile, found]) (by simp [added, isDir, found])
  | some devstat =>
      by_cases directory : devstat.type = .S_IFDIR
      · have missed : hit fs fdstat path = false := by simp [hit, hasFile, found, directory]
        simp only [directory, if_true]
        by_cases searched : path = ascii "/dev/fd"
        · have same : add { s with pathname } = some { s with pathname } := by
            simp [add, text, searched]
          simpa [same] using next.skip missed (by simp [added, searched])
        · obtain ⟨s', put, kept, appended⟩ :=
            appended_add stored (by simpa [text] using real) (by simpa [text] using searched)
          rw [put, Option.bind_some]
          exact ((later appended.holds kept).push missed
            (by simp [added, isDir, found, directory, isAlias, searched])
            (by simpa [text] using appended)).buffer
      · have left : added fs path = false := by simp [added, isDir, found, directory]
        simp only [directory, if_false]
        by_cases same : devstat.st_ino = fdstat.st_ino ∧ devstat.st_dev = fdstat.st_dev
        · rw [if_pos same]
          exact (Finds.match stored (by simp [hit, isAlias, hasFile, found, directory, same])
            text).buffer
        · rw [if_neg same]
          exact next.skip (by simpa [hit, isAlias, hasFile, found, directory] using same) left

/-- The loop finds the first hit among the entries. -/
theorem finds_readLoop {names : List (List Byte)}
    (holds : Holds s l) (starts : s.pathname.Starts (dirname ++ [47])) (chars : 0 ∉ dirname)
    (room : dirname.length + 1 < _POSIX_PATH_MAX)
    (plain : ∀ name ∈ names, 0 ∉ name ∧ 47 ∉ name)
    (short : ∀ path ∈ entries dirname names, path.length < _POSIX_PATH_MAX)
    : Finds fs fdstat s l (entries dirname names)
        (readLoop fs fdstat (dirname.length + 1) names s) := by
  induction names generalizing s l with
  | nil => exact .none holds
  | cons name rest ih =>
      obtain ⟨nameChars, noSlash⟩ := plain name List.mem_cons_self
      have plainRest : ∀ name ∈ rest, 0 ∉ name ∧ 47 ∉ name :=
        fun name member => plain name (List.mem_cons_of_mem _ member)
      obtain ⟨pathname, copied, begins, size, stop, text⟩ :=
        strncpy_name starts chars room nameChars holds.size holds.stop
      by_cases dots : name = [46] ∨ name = [46, 46]
      · have cut : name.take (_POSIX_PATH_MAX - (dirname.length + 1)) = [46]
            ∨ name.take (_POSIX_PATH_MAX - (dirname.length + 1)) = [46, 46] := by
          obtain ⟨k, space⟩ : ∃ k, _POSIX_PATH_MAX - (dirname.length + 1) = k + 1 :=
            ⟨_POSIX_PATH_MAX - (dirname.length + 1) - 1, by omega⟩
          rw [space]
          rcases dots with rfl | rfl
          · simp
          · cases k <;> simp
        have same : entries dirname (name :: rest) = entries dirname rest := by
          rw [entries_cons, if_pos dots]
        rw [readLoop_dots _ copied text cut, same]
        exact (ih (holds.buffer pathname size stop) begins plainRest (same ▸ short)).buffer
      · rw [entries_cons, if_neg dots] at short ⊢
        have fits := short _ List.mem_cons_self
        simp only [List.length_append, List.length_cons] at fits
        rw [List.take_of_length_le (by omega)] at text
        refine finds_name holds copied size stop text ?_ ?_
        · exact Bool.eq_false_iff.mpr fun skipped => dots ((isDots_below noSlash).mp skipped)
        · intro s' l' holds' same
          exact ih holds' (same ▸ begins) plainRest
            fun path member => short path (List.mem_cons_of_mem _ member)

/-- A directory for whose paths the buffer has room. -/
structure Fits (fs : FileSystem) (dirname : List Byte) : Prop where
  chars : 0 ∉ dirname
  short : dirname.length < _POSIX_PATH_MAX
  room : (fs.opendir dirname).isSome → dirname.length + 1 < _POSIX_PATH_MAX
  entries : ∀ path ∈ inside fs dirname, path.length < _POSIX_PATH_MAX

/-- The search of a directory finds the first hit among its entries. -/
theorem finds_searchdir (fdstat : Stat) (holds : Holds s l) (fits : Fits fs dirname)
    : Finds fs fdstat s l (inside fs dirname) (searchdir fs fdstat dirname s) := by
  have short := fits.short
  obtain ⟨first, copied, starts, size⟩ :=
    (StringBuffer.Starts.nil s.pathname).strcpy dirname
      (by simp only [List.length_nil, holds.size]; omega)
  have copied : s.pathname.strcpy (0 : Nat) dirname = some first := copied
  have stop : first.mem _POSIX_PATH_MAX = 0 := by
    rw [StringBuffer.strcpy_mem copied (by omega), holds.stop]
  have size := size.trans holds.size
  have text : first.text = dirname := starts.text fits.chars (by simp only [List.nil_append]; omega)
  have stored : Holds { s with pathname := first } l := holds.buffer first size stop
  simp only [Nat.cast_zero] at copied
  cases opened : fs.opendir dirname with
  | none =>
      simp only [searchdir, copied, Option.bind_some, opened, inside, Option.getD_none]
      exact (Finds.none stored).buffer
  | some names =>
      have room := fits.room (by simp [opened])
      have paths : inside fs dirname = entries dirname names := by simp [inside, opened]
      have begins : first.Starts dirname := by simpa using starts.left
      obtain ⟨second, slash, ends, same⟩ :=
        begins.strcpy [47] (by simp only [List.length_singleton, size]; omega)
      have kept : second.mem _POSIX_PATH_MAX = 0 := by
        rw [StringBuffer.strcpy_mem slash (by simp only [List.length_singleton]; omega), stop]
      have size := same.trans size
      have withSlash : second.text = dirname ++ [47] := by
        apply ends.text
        · simpa using fits.chars
        · simp only [List.length_append, List.length_singleton, size]
          omega
      simp only [searchdir, copied, Option.bind_some, opened, text, slash, withSlash, paths,
        List.length_append, List.length_singleton]
      exact (finds_readLoop (stored.buffer second size kept) ends.left fits.chars room
        (fs.names dirname names opened) (paths ▸ fits.entries)).buffer.buffer

end Minions.Termios
