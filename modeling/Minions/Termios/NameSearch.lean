import Minions.Data.BreadthFirst
import Minions.Termios.Searchdir

/-! The search of the tree under `/dev` in `ttyname.c`.
The list is a queue, so that the directories are searched in breadth-first order. Below some of
them nothing is searched.
-/

namespace Minions.Termios

open Minions.Data

variable {fs : FileSystem} {fdstat : Stat} {dirname name path : List Byte} {s : State}

/-- The loop of `ttyname` from some node on. The directories that it searches are those that a
queue serves, although the list grows while the loop walks it.
-/
theorem searchAll_serves {next : List Byte → List (List Byte)} (fdstat : Stat) (n : Nat)
    {front back : List Nat} {queue served : List (List Byte)} (holds : Holds s (front ++ back))
    (names : back.map s.name = queue.map some) (serves : serve next n queue = some served)
    (fits : ∀ dirname ∈ served,
      Fits fs dirname ∧ next dirname = (inside fs dirname).filter (added fs))
    : ∃ s' l',
        searchAll fs fdstat n (back.headD 0) s
          = some (((served.flatMap (inside fs)).find? (hit fs fdstat)).isSome, s')
        ∧ Holds s' l' ∧ l'.length ≤ front.length + served.length
        ∧ ∀ path, (served.flatMap (inside fs)).find? (hit fs fdstat) = some path
            → s'.pathname.text = path := by
  induction n generalizing s front back queue served with
  | zero => cases serves
  | succ n ih =>
      cases queue with
      | nil =>
          obtain rfl : served = [] := (Option.some.inj serves).symm
          obtain rfl : back = [] := by simpa using names
          exact ⟨s, front, rfl, by simpa using holds, by simp, by simp⟩
      | cons dirname queue =>
          obtain ⟨a, back, rfl⟩ : ∃ a rest, back = a :: rest := by
            cases back with
            | nil => cases names
            | cons a rest => exact ⟨a, rest, rfl⟩
          obtain ⟨later, laterServes, rfl⟩ := Option.map_eq_some_iff.mp serves
          simp only [List.map_cons, List.cons.injEq] at names
          obtain ⟨nonzero, node, found, _⟩ := holds.node
          have name : node.d_name = dirname := by simpa [State.name, found] using names.1
          obtain ⟨⟨dirFits, same⟩, rest⟩ := List.forall_mem_cons.mp fits
          obtain ⟨s', new, more, result, appended, length, all, text⟩ :=
            finds_searchdir fdstat holds dirFits
          have step : searchAll fs fdstat (n + 1) ((a :: back).headD 0) s
              = if ((inside fs dirname).find? (hit fs fdstat)).isSome then some (true, s')
                else (s'.nodes a).bind fun node => searchAll fs fdstat n node.d_next s' := by
            simp [searchAll, nonzero, found, name, result]
          simp only [step, List.flatMap_cons, List.find?_append]
          cases missed : (inside fs dirname).find? (hit fs fdstat) with
          | some path =>
              refine ⟨s', _, rfl, appended.holds, ?_, ?_⟩
              · have waiting := serve_length laterServes
                have shown := congrArg List.length appended.names
                have behind := congrArg List.length names.2
                simp only [List.length_map, List.length_append, List.length_cons, same]
                  at shown behind waiting ⊢
                omega
              · intro other isHit
                exact text other (by simpa [missed] using isHit)
          | none =>
              -- The link is read after the search, when the new directories are in the list.
              have grown : Holds s' (front ++ a :: (back ++ new)) := by simpa using appended.holds
              obtain ⟨_, node, found, link⟩ := grown.node
              have kept : (back ++ new).map s'.name = (queue ++ next dirname).map some := by
                have old : back.map s'.name = back.map s.name :=
                  List.map_congr_left fun b member => appended.old b (by simp [member])
                rw [List.map_append, List.map_append, old, names.2, appended.names, all missed,
                  same]
              have split : Holds s' ((front ++ [a]) ++ (back ++ new)) := by simpa using grown
              obtain ⟨last, l', result, holds', length, text⟩ := ih split kept laterServes rest
              refine ⟨last, l', ?_, holds', ?_, by simpa using text⟩
              · simpa [found, link] using result
              · simp only [List.length_append, List.length_cons, List.length_nil] at length ⊢
                omega

-----------------------------------------------------------------------------------------
-- The tree under /dev
-----------------------------------------------------------------------------------------

def children (fs : FileSystem) (path : List Byte) : List (List Byte) :=
  if isDir fs path then inside fs path else []

/-- A finite tree under `/dev` with paths for which the buffer has room. A directory that can be
opened leaves room for its slash and one more character.
-/
structure DevTree where
  fs : FileSystem
  depth : Nat
  ends : level (children fs) depth (inside fs (ascii "/dev")) = []
  short : ∀ path ∈ levels (children fs) depth (inside fs (ascii "/dev")),
    path.length < _POSIX_PATH_MAX
  room : ∀ path ∈ levels (children fs) depth (inside fs (ascii "/dev")),
    isDir fs path → (fs.opendir path).isSome → path.length + 1 < _POSIX_PATH_MAX

/-- All paths under `/dev`, in breadth-first order. -/
def DevTree.paths (t : DevTree) : List (List Byte) :=
  levels (children t.fs) t.depth (inside t.fs (ascii "/dev"))

def under (roots : List (List Byte)) (path : List Byte) : Bool :=
  roots.any fun root => (root ++ [47]).isPrefixOf path

/-- The first path with the inode and the device, leaving out the aliases and all that is under
some paths.
-/
def firstName (t : DevTree) (hidden : List (List Byte)) (fdstat : Stat) : Option (List Byte) :=
  t.paths.find? fun path =>
    hasFile t.fs fdstat path && path ∉ aliases && !under hidden path

-----------------------------------------------------------------------------------------
-- The order of the search
-----------------------------------------------------------------------------------------

/-- The directories below which nothing is searched. -/
def roots : List (List Byte) := ascii "/dev/fd" :: aliases

/-- The directories that are searched. -/
def opened (fs : FileSystem) (path : List Byte) : Bool := !under roots path && added fs path

/-- A path below a directory is under a root if the directory is the root or under it. -/
theorem prefix_below {root : List Byte} (plain : 47 ∉ name)
    : root ++ [47] <+: dirname ++ 47 :: name ↔ root = dirname ∨ root ++ [47] <+: dirname := by
  constructor
  · rintro ⟨rest, same⟩
    rw [List.append_assoc] at same
    rcases List.append_eq_append_iff.mp same with ⟨c, rfl, tails⟩ | ⟨c, rfl, tails⟩
    · cases c with
      | nil => exact .inl (by simp)
      | cons b c =>
          obtain ⟨rfl, _⟩ := List.cons.inj tails
          exact .inr ⟨c, by simp⟩
    · cases c with
      | nil => exact .inl (by simp)
      | cons b c =>
          obtain ⟨_, rfl⟩ := List.cons.inj tails
          simp at plain
  · rintro (rfl | ⟨rest, rfl⟩)
    · exact ⟨name, by simp⟩
    · exact ⟨rest ++ 47 :: name, by simp⟩

/-- A path is under one of the roots. -/
theorem under_iff
    : under paths path = true ↔ ∃ root ∈ paths, root ++ [47] <+: path := by
  simp [under]

/-- A path below a directory is under a root if the directory is a root or under one. -/
theorem under_below (plain : 47 ∉ name)
    : under roots (dirname ++ 47 :: name) = true
      ↔ dirname ∈ roots ∨ under roots dirname = true := by
  simp only [under_iff, prefix_below plain]
  constructor
  · rintro ⟨root, member, rfl | behind⟩
    · exact .inl member
    · exact .inr ⟨root, member, behind⟩
  · rintro (member | ⟨root, member, behind⟩)
    · exact ⟨dirname, member, .inl rfl⟩
    · exact ⟨root, member, .inr behind⟩

/-- A path inside a directory ends in a name. -/
theorem mem_inside (member : path ∈ inside fs dirname)
    : ∃ name, path = dirname ++ 47 :: name ∧ 0 ∉ name ∧ 47 ∉ name := by
  obtain ⟨name, kept, rfl⟩ := List.mem_map.mp member
  have listed := List.mem_of_mem_filter kept
  cases found : fs.opendir dirname with
  | none => simp [found] at listed
  | some names =>
      rw [found] at listed
      exact ⟨name, rfl, fs.names dirname names found name listed⟩

/-- A child lies in a directory that can be read. -/
theorem mem_children (member : path ∈ children fs dirname)
    : isDir fs dirname = true ∧ path ∈ inside fs dirname := by
  rw [children] at member
  split at member
  · next directory => exact ⟨directory, member⟩
  · cases member

/-- What is in a directory is under the roots unless the directory is searched. -/
theorem under_children (member : path ∈ children fs dirname)
    : (!under roots path) = opened fs dirname := by
  obtain ⟨directory, listed⟩ := mem_children member
  obtain ⟨name, rfl, _, plain⟩ := mem_inside listed
  rw [Bool.eq_iff_iff, Bool.not_eq_true', ← Bool.not_eq_true, under_below plain]
  simp [opened, added, directory, roots]
  tauto

/-- A directory that is opened is not under a root. -/
theorem seen_of_opened (isOpen : opened fs path = true) : (!under roots path) = true :=
  (Bool.and_eq_true_iff.mp isOpen).1

/-- What is opened is a directory. -/
theorem isDir_of_opened (isOpen : opened fs path = true) : isDir fs path = true := by
  simp only [opened, added, Bool.and_eq_true] at isOpen
  exact isOpen.2.1.1

/-- The directories that are searched after `/dev`. -/
def DevTree.served (t : DevTree) : List (List Byte) := t.paths.filter (opened t.fs)

/-- The directories in the order in which they are served. -/
theorem DevTree.served_eq (t : DevTree)
    : levels (fun path => (children t.fs path).filter (opened t.fs)) t.depth
        ((inside t.fs (ascii "/dev")).filter (opened t.fs)) = t.served :=
  levels_opened (fun _ _ => under_children) (fun _ => seen_of_opened) t.depth _

/-- The entries of `/dev` are not under a root. -/
theorem under_dev (member : path ∈ inside fs (ascii "/dev")) : (!under roots path) = true := by
  obtain ⟨name, rfl, _, plain⟩ := mem_inside member
  rw [Bool.not_eq_true', ← Bool.not_eq_true, under_below plain]
  decide

/-- What is not under the roots is what is in the directories that are searched. -/
theorem DevTree.paths_filter (t : DevTree)
    : t.paths.filter (fun path => !under roots path)
      = inside t.fs (ascii "/dev") ++ t.served.flatMap (inside t.fs) := by
  have same : t.served.flatMap (children t.fs) = t.served.flatMap (inside t.fs) := by
    apply List.flatMap_congr
    intro dirname member
    rw [children, if_pos (isDir_of_opened (List.of_mem_filter member))]
  rw [DevTree.paths, ← levels_of_ends _ t.ends,
    levels_visible (fun _ _ => under_children) (fun _ => seen_of_opened), t.served_eq, same,
    List.filter_eq_self.mpr fun _ => under_dev]

/-- The paths that the search meets are those of the tree. -/
theorem DevTree.mem_paths (t : DevTree)
    (member : path ∈ inside t.fs (ascii "/dev") ++ t.served.flatMap (inside t.fs))
    : path ∈ t.paths := by
  rw [← t.paths_filter] at member
  exact List.mem_of_mem_filter member

/-- No path has a null character. -/
theorem DevTree.chars (t : DevTree) : ∀ path ∈ t.paths, 0 ∉ path := by
  have below : ∀ {dirname}, 0 ∉ dirname → ∀ path ∈ inside t.fs dirname, 0 ∉ path := by
    intro dirname chars path member
    obtain ⟨name, rfl, nameChars, _⟩ := mem_inside member
    simpa using ⟨chars, nameChars⟩
  exact forall_mem_levels (fun _ chars _ member => below chars _ (mem_children member).2) _
    (below (by decide))

/-- `/dev` fits the buffer. -/
theorem DevTree.fits_dev (t : DevTree) : Fits t.fs (ascii "/dev") where
  chars := by decide
  short := by decide
  room _ := by decide
  entries path member := t.short path (t.mem_paths (List.mem_append_left _ member))

/-- Every directory that is served fits the buffer, and its children are those added. -/
theorem DevTree.fits (t : DevTree)
    : ∀ dirname ∈ t.served,
        Fits t.fs dirname
        ∧ (children t.fs dirname).filter (opened t.fs)
          = (inside t.fs dirname).filter (added t.fs) := by
  intro dirname member
  obtain ⟨inPaths, isOpen⟩ := List.mem_filter.mp member
  have directory := isDir_of_opened isOpen
  have same : children t.fs dirname = inside t.fs dirname := by rw [children, if_pos directory]
  constructor
  · exact {
      chars := t.chars dirname inPaths
      short := t.short dirname inPaths
      room := t.room dirname inPaths directory
      entries := fun path listed => t.short path
        (t.mem_paths (List.mem_append_right _ (List.mem_flatMap.mpr ⟨dirname, member, listed⟩)))
    }
  · rw [same]
    apply List.filter_congr
    intro path listed
    have visible := under_children (same ▸ listed)
    rw [opened, visible, isOpen, Bool.true_and]

/-- The queue of directories is served to its end. -/
theorem DevTree.serves (t : DevTree) {n : Nat} (enough : t.served.length < n)
    : serve (fun path => (children t.fs path).filter (opened t.fs)) n
        ((inside t.fs (ascii "/dev")).filter (opened t.fs)) = some t.served := by
  have ends : level (fun path => (children t.fs path).filter (opened t.fs)) t.depth
      ((inside t.fs (ascii "/dev")).filter (opened t.fs)) = [] := by
    rw [level_opened (fun _ _ => under_children) (fun _ => seen_of_opened), t.ends]
    rfl
  have all := serve_levels t.depth ends (n - t.served.length - 1)
  rwa [t.served_eq, show t.served.length + (n - t.served.length - 1) + 1 = n by omega] at all

/-- A descriptor of a terminal with the inode and the device. -/
def Terminal (fs : FileSystem) (fd : Int) (fdstat : Stat) : Prop :=
  fs.isatty fd ∧ fs.fstat fd = some fdstat ∧ fdstat.type = .S_IFCHR

/-- The first name is the first hit among the paths in their order. -/
theorem firstName_eq (t : DevTree) (fdstat : Stat)
    : firstName t roots fdstat
      = (inside t.fs (ascii "/dev") ++ t.served.flatMap (inside t.fs)).find?
          (hit t.fs fdstat) := by
  rw [← t.paths_filter, List.find?_filter, firstName]
  congr 1
  funext path
  rw [Bool.eq_iff_iff]
  simp only [hit, Bool.and_eq_true, decide_eq_true_eq]
  tauto

/-- One call, from a state with an empty list. -/
theorem ttyname_call (t : DevTree) {n : Nat} {fd : Int} (terminal : Terminal t.fs fd fdstat)
    (holds : Holds s []) (enough : t.served.length < n)
    : ∃ s', ttyname t.fs n fd s = some (firstName t roots fdstat, s') ∧ Holds s' [] := by
  obtain ⟨isatty, fstat, type⟩ := terminal
  obtain ⟨first, new, queue, result, appended, length, all, text⟩ :=
    finds_searchdir fdstat holds t.fits_dev
  have call : ttyname t.fs n fd s
      = (if ((inside t.fs (ascii "/dev")).find? (hit t.fs fdstat)).isSome then some (true, first)
          else searchAll t.fs fdstat n first.head first).bind fun r =>
        (cleanup n r.2).map fun s => (if r.1 then some s.pathname.text else none, s) := by
    simp [ttyname, isatty, fstat, type, result]
  have waiting : ((inside t.fs (ascii "/dev")).filter (added t.fs))
      = (inside t.fs (ascii "/dev")).filter (opened t.fs) := by
    apply List.filter_congr
    intro path listed
    rw [opened, under_dev listed, Bool.true_and]
  have shorter := serve_length (t.serves enough)
  rw [firstName_eq, List.find?_append, call]
  cases missed : (inside t.fs (ascii "/dev")).find? (hit t.fs fdstat) with
  | some path =>
      have names := congrArg List.length appended.names
      obtain ⟨last, cleaned, empty, same⟩ := cleanup_empties (n := n) appended.holds (by
        simp only [List.length_map, List.nil_append, waiting] at names length ⊢
        omega)
      refine ⟨last, ?_, empty⟩
      simp [cleaned, same, text path missed]
  | none =>
      have waits : new.map first.name
          = ((inside t.fs (ascii "/dev")).filter (opened t.fs)).map some := by
        rw [appended.names, all missed, waiting]
      obtain ⟨later, l, result, holds, length, text⟩ :=
        searchAll_serves fdstat n appended.holds waits (t.serves enough) t.fits
      obtain ⟨last, cleaned, empty, same⟩ :=
        cleanup_empties (n := n) holds (by simp only [List.length_nil] at length; omega)
      have head : first.head = new.headD 0 := appended.holds.head
      refine ⟨last, ?_, empty⟩
      simp only [head, result]
      cases found : (t.served.flatMap (inside t.fs)).find? (hit t.fs fdstat) with
      | none => simp [cleaned]
      | some path => simp [cleaned, same, text path found]

/-- Calls for terminals, from the state in which the program starts. Each call returns the first
path that has the inode and the device, whatever the calls before it have found.
-/
theorem ttynames_first (t : DevTree)
    : ∃ bound, ∀ n ≥ bound, ∀ terminals : List (Int × Stat),
        (∀ call ∈ terminals, Terminal t.fs call.1 call.2)
        → ∃ s, ttynames t.fs n (terminals.map (·.1)) .init
              = some (terminals.map fun call => firstName t roots call.2, s)
            ∧ s.head = 0 ∧ s.tail = 0 := by
  refine ⟨t.served.length + 1, ?_⟩
  intro n enough terminals
  have run : ∀ s, Holds s [] → (∀ call ∈ terminals, Terminal t.fs call.1 call.2)
      → ∃ s', ttynames t.fs n (terminals.map (·.1)) s
            = some (terminals.map fun call => firstName t roots call.2, s')
          ∧ Holds s' [] := by
    induction terminals with
    | nil => exact fun s holds _ => ⟨s, rfl, holds⟩
    | cons call rest ih =>
        intro s holds each
        obtain ⟨first, others⟩ := List.forall_mem_cons.mp each
        obtain ⟨middle, result, empty⟩ := ttyname_call t first holds enough
        obtain ⟨last, results, done⟩ := ih middle empty others
        exact ⟨last, by simp [ttynames, result, results], done⟩
  intro each
  obtain ⟨s, results, holds⟩ := run .init .init each
  exact ⟨s, results, holds.head, holds.tail⟩

/-- A terminal `t` in a directory of `/dev`. -/
def sampleFiles (dirname : List Byte) : FileSystem where
  isatty _ := true
  fstat _ := some ⟨.S_IFCHR, 5, 9⟩
  stat path :=
    if path = dirname then some ⟨.S_IFDIR, 1, 9⟩
    else if path = dirname ++ [47, 116] then some ⟨.S_IFCHR, 5, 9⟩
    else none
  opendir path :=
    if path = ascii "/dev" then some [[46], [46, 46], ascii "stdin", ascii "pts"]
    else if path = dirname then some [[46], [46, 46], [116]]
    else none
  names := by
    intro path names found
    split at found
    · obtain rfl := Option.some.inj found
      decide
    · split at found
      · obtain rfl := Option.some.inj found
        decide
      · cases found
  dots := by
    intro path st found
    have last : ∀ chars, path ++ chars = dirname ++ [47, 116] → chars.getLast? ≠ some 46 := by
      intro chars same dot
      have ends := congrArg List.getLast? same
      rw [List.getLast?_append, dot] at ends
      simp at ends
    rcases found with found | found
    · split at found
      · exact Option.some.inj found ▸ rfl
      · split at found
        · next same => exact absurd rfl (last _ same)
        · cases found
    · split at found
      · exact Option.some.inj found ▸ rfl
      · split at found
        · next same => exact absurd rfl (last _ same)
        · cases found

def samplePts : DevTree where
  fs := sampleFiles (ascii "/dev/pts")
  depth := 2
  ends := by decide
  short := by decide
  room := by decide

/-- Two descriptors of a terminal below `/dev/pts`. -/
theorem ttynames_first_pts
    : ∃ bound, ∀ n ≥ bound, ∃ s,
        ttynames samplePts.fs n [0, 1] .init
          = some ([some (ascii "/dev/pts/t"), some (ascii "/dev/pts/t")], s)
        ∧ s.head = 0 ∧ s.tail = 0 := by
  obtain ⟨bound, all⟩ := ttynames_first samplePts
  refine ⟨bound, fun n enough => ?_⟩
  exact all n enough [(0, ⟨.S_IFCHR, 5, 9⟩), (1, ⟨.S_IFCHR, 5, 9⟩)] (by
    intro call member
    simp only [List.mem_cons, List.not_mem_nil, or_false] at member
    rcases member with rfl | rfl <;> exact ⟨rfl, rfl, rfl⟩)

def sampleStdin : DevTree where
  fs := sampleFiles (ascii "/dev/stdin")
  depth := 2
  ends := by decide
  short := by decide
  room := by decide

/-- When `/dev/stdin` is a directory, a terminal in it is not found. -/
theorem ttyname_skips_directory
    : Terminal sampleStdin.fs 0 ⟨.S_IFCHR, 5, 9⟩
      ∧ firstName sampleStdin [ascii "/dev/fd"] ⟨.S_IFCHR, 5, 9⟩ = some (ascii "/dev/stdin/t")
      ∧ ∀ n ≥ 1, ∃ s, ttyname sampleStdin.fs n 0 .init = some (none, s) := by
  have terminal : Terminal sampleStdin.fs 0 ⟨.S_IFCHR, 5, 9⟩ := ⟨rfl, rfl, rfl⟩
  refine ⟨terminal, by decide, ?_⟩
  intro n enough
  obtain ⟨s, result, _⟩ := ttyname_call sampleStdin terminal .init enough
  exact ⟨s, result⟩

end Minions.Termios
