import Minions.Data.FileTree

/-! The bulk renaming of `mvi`.
The enumerator yields the entries of a directory by the paths that they have at first, parents
before children, and each entry is moved by the path it was yielded with. A move from a path
that is gone fails, and nobody looks at the error.
-/

namespace Minions.Objc

open Minions.Data
open Minions.Data.FileTree

abbrev Text := List Char

/-- The name of a directory entry. -/
abbrev Name := List Char

variable {Content : Type}

/-- What the program takes from the Foundation framework: the replacement of all matches of a
pattern in a text, regardless of case, and the entries that a directory enumerator yields for the
contents of a directory. It skips hidden entries and what is below packages.
-/
structure Foundation (Content : Type) where
  replacingWithPattern : Text → Text → Text → Text
  isHidden : Name → Bool
  isPackage : Name → Bool
  enumerator : FileTree Name Content → List (List Name × Name)

structure MviConfig where
  patternRegex : Option Text
  templateRegex : Option Text

/-- A text that names an entry of the directory it is looked up in. -/
def isComponent (name : Text) : Bool :=
  !name.isEmpty && name != ['.'] && name != ['.', '.'] && !name.contains '/'

/-- `moveItemAtURL` to a new name in the same directory; the error is discarded. The move to a
name that leads elsewhere is left out.
-/
def moveItem (t : FileTree Name Content) (path : List Name) (itemName newName : Name)
    : FileTree Name Content :=
  if isComponent newName then (t.move path itemName newName).getD t else t

/-- `mvURL`, for the entry with the given directory and name. -/
def mvURL (replacing : Text → Text) (t : FileTree Name Content) (url : List Name × Name)
    : FileTree Name Content :=
  moveItem t url.1 url.2 (replacing url.2)

/-- `main` with its operand, if there is one: the files and the exit status. -/
def main (sys : Foundation Content) (config : MviConfig) (operand : Option (List Name))
    (t : FileTree Name Content)
    : FileTree Name Content × Nat :=
  match config.patternRegex, config.templateRegex, operand with
  | some pattern, some template, some path =>
      let replacing := fun name => sys.replacingWithPattern name pattern template
      match t.sub path, path.getLast? with
      | some es, _ => (((sys.enumerator es).map (under path)).foldl (mvURL replacing) t, 0)
      | none, some name =>
          if ((t.sub path.dropLast).elim [] names).contains name then
            (mvURL replacing t (path.dropLast, name), 0)
          else (t, 129)
      | none, none => (t, 129)
  | some _, some _, none => (t, 0)
  | _, _, _ => (t, 129)

-----------------------------------------------------------------------------------------
-- The entries of a directory
-----------------------------------------------------------------------------------------

variable (sys : Foundation Content)

/-- The enumerator looks into the directory with this name. -/
def Foundation.descends (n : Name) : Bool := !sys.isHidden n && !sys.isPackage n

/-- The entries that the enumerator has to yield. -/
def visible : FileTree Name Content → List (List Name × Name)
  | .nil => []
  | .file n _ rest => (if sys.isHidden n then [] else [([], n)]) ++ visible rest
  | .dir n es rest =>
      (if sys.isHidden n then [] else [([], n)])
        ++ (if sys.descends n then (visible es).map (under [n]) else [])
        ++ visible rest

/-- Each entry of the list comes behind the directories above it. -/
def ParentsFirst : List (List Name × Name) → List (List Name × Name) → Prop
  | _, [] => True
  | seen, entry :: rest =>
      (∀ path dir path', entry.1 = path ++ dir :: path' → (path, dir) ∈ seen)
      ∧ ParentsFirst (entry :: seen) rest

/-- The enumerator yields the visible entries of a directory, parents before children. -/
structure Enumerates (es : FileTree Name Content) : Prop where
  mem_iff : ∀ entry, entry ∈ sys.enumerator es ↔ entry ∈ visible sys es
  parentsFirst : ParentsFirst [] (sys.enumerator es)

variable (f : Name → Name)

/-- The new name of an entry, which a hidden one does not get. -/
def shown (n : Name) : Name := if sys.isHidden n then n else f n

/-- An entry and another one beside it are called differently before and after. -/
def Apart (n m : Name) : Prop :=
  n ≠ m ∧ shown sys f n ≠ m ∧ shown sys f m ≠ n ∧ shown sys f n ≠ shown sys f m

/-- The replacements yield names, which collide with none in the same directory. -/
def NoClash : FileTree Name Content → Prop
  | .nil => True
  | .file n _ rest =>
      (sys.isHidden n = false → isComponent (f n) = true)
      ∧ (∀ m ∈ rest.names, Apart sys f n m)
      ∧ NoClash rest
  | .dir n es rest =>
      (sys.isHidden n = false → isComponent (f n) = true)
      ∧ (∀ m ∈ rest.names, Apart sys f n m)
      ∧ (sys.descends n = true → NoClash es)
      ∧ NoClash rest

/-- All visible entries have their names replaced. -/
def replaced : FileTree Name Content → FileTree Name Content
  | .nil => .nil
  | .file n c rest => .file (shown sys f n) c (replaced rest)
  | .dir n es rest =>
      .dir (shown sys f n) (if sys.descends n then replaced es else es) (replaced rest)

/-- The names are replaced of those entries that no directory with a changed name is above. -/
def reached : FileTree Name Content → FileTree Name Content
  | .nil => .nil
  | .file n c rest => .file (shown sys f n) c (reached rest)
  | .dir n es rest =>
      .dir (shown sys f n) (if sys.descends n && f n = n then reached es else es) (reached rest)

/-- The names are replaced of those that, of these entries, have been visited. -/
def partly (visited : List Name × Name → Bool) : FileTree Name Content → FileTree Name Content
  | .nil => .nil
  | .file n c rest =>
      .file (if visited ([], n) then shown sys f n else n) c (partly visited rest)
  | .dir n es rest =>
      .dir (if visited ([], n) then shown sys f n else n)
        (if sys.descends n && f n = n then partly (fun e => visited (under [n] e)) es else es)
        (partly visited rest)

-----------------------------------------------------------------------------------------
-- One visit
-----------------------------------------------------------------------------------------

section visits

variable {sys f} {t : FileTree Name Content} {visited visited' : List Name × Name → Bool}

/-- The visible entries of a list that starts with a file. -/
theorem mem_visible_file {n : Name} {c : Content} {entry : List Name × Name}
    : entry ∈ visible sys (.file n c t)
      ↔ (sys.isHidden n = false ∧ entry = ([], n)) ∨ entry ∈ visible sys t := by
  cases hn : sys.isHidden n <;> simp [visible, hn]

/-- The visible entries of a list that starts with a directory. -/
theorem mem_visible_dir {n : Name} {es : FileTree Name Content} {entry : List Name × Name}
    : entry ∈ visible sys (.dir n es t)
      ↔ (sys.isHidden n = false ∧ entry = ([], n))
        ∨ (sys.descends n = true ∧ ∃ inner ∈ visible sys es, under [n] inner = entry)
        ∨ entry ∈ visible sys t := by
  simp only [visible, List.mem_append, or_assoc]
  refine or_congr ?_ (or_congr ?_ Iff.rfl)
  · cases hn : sys.isHidden n <;> simp
  · cases hdesc : sys.descends n <;> simp

/-- A visible entry lies below one of the names. -/
theorem headD_mem_names {entry : List Name × Name} (h : entry ∈ visible sys t)
    : entry.1.headD entry.2 ∈ t.names := by
  induction t with
  | nil => cases h
  | file n c rest ih =>
      rcases mem_visible_file.mp h with ⟨-, rfl⟩ | h
      · exact List.mem_cons_self
      · exact List.mem_cons_of_mem _ (ih h)
  | dir n es rest _ ih =>
      rcases mem_visible_dir.mp h with ⟨-, rfl⟩ | ⟨-, inner, -, rfl⟩ | h
      · exact List.mem_cons_self
      · exact List.mem_cons_self
      · exact List.mem_cons_of_mem _ (ih h)

/-- Only visits below its own names matter to a list of entries. -/
theorem partly_congr
    (h : ∀ entry : List Name × Name,
      entry.1.headD entry.2 ∈ t.names → visited entry = visited' entry)
    : partly sys f visited t = partly sys f visited' t := by
  induction t generalizing visited visited' with
  | nil => rfl
  | file n c rest ih =>
      have hn := h ([], n) (by simp [names])
      simp only [partly, hn, ih fun e he => h e (List.mem_cons_of_mem _ he)]
  | dir n es rest ihEntries ih =>
      have hn := h ([], n) (by simp [names])
      have hes
          : partly sys f (fun e => visited (under [n] e)) es
            = partly sys f (fun e => visited' (under [n] e)) es :=
        ihEntries fun e _ => h (under [n] e) (by simp [under, names])
      simp only [partly, hn, hes, ih fun e he => h e (List.mem_cons_of_mem _ he)]

/-- The names, each before or after its visit. -/
theorem mem_names_partly {m : Name} (h : m ∈ (partly sys f visited t).names)
    : ∃ n ∈ t.names, m = n ∨ m = shown sys f n := by
  induction t with
  | nil => cases h
  | file n c rest ih =>
      rcases List.mem_cons.mp h with rfl | h
      · exact ⟨n, by simp [names], by cases visited ([], n) <;> simp⟩
      · obtain ⟨k, hk, hm⟩ := ih h
        exact ⟨k, List.mem_cons_of_mem _ hk, hm⟩
  | dir n es rest _ ih =>
      rcases List.mem_cons.mp h with rfl | h
      · exact ⟨n, by simp [names], by cases visited ([], n) <;> simp⟩
      · obtain ⟨k, hk, hm⟩ := ih h
        exact ⟨k, List.mem_cons_of_mem _ hk, hm⟩

/-- A move of a name to itself changes nothing. -/
theorem moveItem_self (t : FileTree Name Content) (path : List Name) (n : Name)
    : moveItem t path n n = t := by
  simp [moveItem, move_self]

/-- A move of what is not there changes nothing. -/
theorem moveItem_missing {path : List Name} {old : Name} (h : path.headD old ∉ t.names)
    (new : Name)
    : moveItem t path old new = t := by
  simp [moveItem, move_missing h]

/-- A file with another name is passed over. -/
theorem moveItem_file {m : Name} {path : List Name} {old new : Name} (hm : m ≠ path.headD old)
    (hnew : path = [] → m ≠ new) (c : Content) (rest : FileTree Name Content)
    : moveItem (.file m c rest) path old new = .file m c (moveItem rest path old new) := by
  cases hn : isComponent new with
  | false => simp [moveItem, hn]
  | true =>
      simp only [moveItem, hn, if_true, move_file hm hnew]
      cases rest.move path old new <;> rfl

/-- A directory that is not on the path is passed over. -/
theorem moveItem_dir {m : Name} {path : List Name} {old new : Name} (hm : m ≠ path.headD old)
    (hnew : path = [] → m ≠ new) (es rest : FileTree Name Content)
    : moveItem (.dir m es rest) path old new = .dir m es (moveItem rest path old new) := by
  cases hn : isComponent new with
  | false => simp [moveItem, hn]
  | true =>
      simp only [moveItem, hn, if_true, move_dir hm hnew]
      cases rest.move path old new <;> rfl

/-- A visit below a path takes place in the directory there. -/
theorem mvURL_under {path : List Name} {es : FileTree Name Content} (h : t.sub path = some es)
    (entry : List Name × Name)
    : mvURL f t (under path entry) = t.put path (mvURL f es entry) := by
  cases hn : isComponent (f entry.2) with
  | false => simp [mvURL, moveItem, under, hn, put_self h]
  | true =>
      simp only [mvURL, moveItem, under, hn, if_true, move_below h]
      cases es.move entry.1 entry.2 (f entry.2) with
      | none => exact (put_self h).symm
      | some es' => rfl

/-- No visible entry is hidden. -/
theorem isHidden_visible {entry : List Name × Name} (h : entry ∈ visible sys t)
    : sys.isHidden entry.2 = false := by
  induction t generalizing entry with
  | nil => cases h
  | file n c rest ih =>
      rcases mem_visible_file.mp h with ⟨hn, rfl⟩ | h
      · exact hn
      · exact ih h
  | dir n es rest ihEntries ih =>
      rcases mem_visible_dir.mp h with ⟨hn, rfl⟩ | ⟨-, inner, hinner, rfl⟩ | h
      · exact hn
      · have hhidden := ihEntries hinner
        exact hhidden
      · exact ih h

/-- The name of an entry, before or after its visit, is not met among the entries beside it. -/
theorem head_not_mem {n : Name} (h : ∀ m ∈ t.names, Apart sys f n m)
    : n ∉ (partly sys f visited t).names
      ∧ shown sys f n ∉ (partly sys f visited t).names := by
  constructor
  · intro hn
    obtain ⟨m, hm, rfl | hm'⟩ := mem_names_partly hn
    · exact (h _ hm).1 rfl
    · exact (h m hm).2.2.1 hm'.symm
  · intro hn
    obtain ⟨m, hm, hm' | hm'⟩ := mem_names_partly hn
    · exact (h m hm).2.1 hm'
    · exact (h m hm).2.2.2 hm'

/-- An entry is not in the way of a visit of an entry beside it. -/
theorem head_ne {n : Name} (h : ∀ m ∈ t.names, Apart sys f n m) {entry : List Name × Name}
    (hentry : entry ∈ visible sys t) (isVisited : Bool)
    : (if isVisited then shown sys f n else n) ≠ entry.1.headD entry.2
      ∧ (entry.1 = [] → (if isVisited then shown sys f n else n) ≠ f entry.2)
      ∧ entry ≠ ([], n) := by
  have hapart := h _ (headD_mem_names hentry)
  refine ⟨?_, fun hnil => ?_, ?_⟩
  · cases isVisited
    · exact hapart.1
    · exact hapart.2.1
  · have hshown : shown sys f entry.2 = f entry.2 := by simp [shown, isHidden_visible hentry]
    rw [hnil, List.headD_nil] at hapart
    rw [← hshown]
    cases isVisited
    · exact Ne.symm hapart.2.2.1
    · exact hapart.2.2.2
  · rintro rfl
    exact hapart.1 rfl

/-- A file is renamed, whether it has been visited before or not. -/
theorem mvURL_file {n : Name} (hcomp : isComponent (f n) = true)
    {rest : FileTree Name Content} (hn : n ∉ rest.names) (hfn : f n ∉ rest.names)
    (isVisited : Bool) (c : Content)
    : mvURL f (.file (if isVisited then f n else n) c rest) ([], n) = .file (f n) c rest := by
  by_cases hf : f n = n
  · simp [mvURL, hf, moveItem_self]
  · cases isVisited with
    | true =>
        refine moveItem_missing ?_ (f n)
        simp [names, hn, Ne.symm hf]
    | false => simp [mvURL, moveItem, hcomp, move, sub, names, hf, hfn, relabel, put]

/-- A directory is renamed, whether it has been visited before or not. -/
theorem mvURL_dir {n : Name} (hcomp : isComponent (f n) = true)
    {rest : FileTree Name Content} (hn : n ∉ rest.names) (hfn : f n ∉ rest.names)
    (isVisited : Bool) (es : FileTree Name Content)
    : mvURL f (.dir (if isVisited then f n else n) es rest) ([], n) = .dir (f n) es rest := by
  by_cases hf : f n = n
  · simp [mvURL, hf, moveItem_self]
  · cases isVisited with
    | true =>
        refine moveItem_missing ?_ (f n)
        simp [names, hn, Ne.symm hf]
    | false => simp [mvURL, moveItem, hcomp, move, sub, names, hf, hfn, relabel, put]

/-- A further visit is not noticed by entries whose names it does not begin with. -/
theorem partly_insert {entry : List Name × Name} (h : entry.1.headD entry.2 ∉ t.names)
    : partly sys f (fun e => visited e || e == entry) t = partly sys f visited t := by
  refine partly_congr fun e he => ?_
  have hne : e ≠ entry := by
    rintro rfl
    exact h he
  simp [hne]

/-- A visit inside a directory that has not got another name goes there, and one inside a
directory that has finds nothing.
-/
theorem mvURL_partly_inside {n : Name} {es rest : FileTree Name Content}
    (hapart : ∀ m ∈ rest.names, Apart sys f n m) (hdesc : sys.descends n = true)
    {inner : List Name × Name} (habove : visited ([], n) = true)
    (hvisit : f n = n
      → mvURL f (partly sys f (fun e => visited (under [n] e)) es) inner
        = partly sys f (fun e => visited (under [n] e) || e == inner) es)
    : mvURL f (partly sys f visited (.dir n es rest)) (under [n] inner)
      = partly sys f (fun e => visited e || e == under [n] inner) (.dir n es rest) := by
  have hshown : shown sys f n = f n := by
    simp only [Foundation.descends, Bool.and_eq_true, Bool.not_eq_true'] at hdesc
    simp [shown, hdesc.1]
  have hsame : partly sys f (fun e => visited e || e == under [n] inner) rest = _ :=
    partly_insert fun hm => (hapart n hm).1 rfl
  by_cases hf : f n = n
  · -- The directory is still where it was.
    have hsub
        : (FileTree.dir n (partly sys f (fun e => visited (under [n] e)) es)
            (partly sys f visited rest)).sub [n] = some _ :=
      sub_dir (s := .nil) (by simp [names]) _ _
    have hput := put_dir (s := .nil) (n := n) (by simp [names])
      (partly sys f (fun e => visited (under [n] e)) es) (partly sys f visited rest)
    have hinj : ∀ e, (under [n] e == under [n] inner) = (e == inner) := fun e => by
      rw [Bool.eq_iff_iff]
      simp [under, Prod.ext_iff]
    simp only [append] at hput
    simp only [partly, hsame, hshown, hf, hdesc, ite_self, decide_true, Bool.and_self,
      if_true, hinj]
    rw [mvURL_under hsub, hvisit hf, hput]
  · -- The directory has got its new name before, and nothing is found at the old path.
    obtain ⟨hfree, -⟩ := head_not_mem hapart
    simp only [partly, hsame, hshown, hf, habove, decide_false, Bool.and_false, Bool.true_or,
      if_true, Bool.false_eq_true, if_false]
    refine moveItem_missing ?_ _
    simpa [under, names, Ne.symm hf] using hfree

/-- With the directories above it visited, the visit of an entry replaces its name unless one of
them has got another name.
-/
theorem mvURL_partly (hclash : NoClash sys f t) {entry : List Name × Name}
    (hentry : entry ∈ visible sys t)
    (habove : ∀ path dir path', entry.1 = path ++ dir :: path' → visited (path, dir) = true)
    : mvURL f (partly sys f visited t) entry
      = partly sys f (fun e => visited e || e == entry) t := by
  induction t generalizing visited entry with
  | nil => cases hentry
  | file n c rest ih =>
      obtain ⟨hcomp, hapart, hrest⟩ := hclash
      rcases mem_visible_file.mp hentry with ⟨hn, rfl⟩ | hentry
      · have hshown : shown sys f n = f n := by simp [shown, hn]
        have hsame : partly sys f (fun e => visited e || e == ([], n)) rest = _ :=
          partly_insert fun hm => (hapart n hm).1 rfl
        obtain ⟨hfree, hfree'⟩ := head_not_mem hapart
        rw [hshown] at hfree'
        simpa [partly, hsame, hshown] using mvURL_file (hcomp hn) hfree hfree' (visited ([], n)) c
      · obtain ⟨hne, hnew, hother⟩ := head_ne hapart hentry (visited ([], n))
        have hpass := moveItem_file hne hnew c (partly sys f visited rest)
        simp only [partly, mvURL, hpass, Ne.symm hother, beq_iff_eq, Bool.or_eq_true, or_false]
        exact congrArg _ (ih hrest hentry habove)
  | dir n es rest ihEntries ih =>
      obtain ⟨hcomp, hapart, hes, hrest⟩ := hclash
      rcases mem_visible_dir.mp hentry with ⟨hn, rfl⟩ | ⟨hdesc, inner, hinner, rfl⟩ | hentry
      · have hshown : shown sys f n = f n := by simp [shown, hn]
        have hsame : partly sys f (fun e => visited e || e == ([], n)) rest = _ :=
          partly_insert fun hm => (hapart n hm).1 rfl
        have hinside : ∀ e, (under [n] e == ([], n)) = false := fun e => by simp [under]
        obtain ⟨hfree, hfree'⟩ := head_not_mem hapart
        rw [hshown] at hfree'
        simp only [partly, hsame, hshown, hinside, Bool.or_false, beq_self_eq_true,
          Bool.or_true, if_true]
        exact mvURL_dir (hcomp hn) hfree hfree' (visited ([], n)) _
      · refine mvURL_partly_inside hapart hdesc (habove [] n inner.1 rfl) fun _ => ?_
        refine ihEntries (hes hdesc) hinner fun path dir path' hsplit => ?_
        exact habove (n :: path) dir path' (by simp [under, hsplit])
      · obtain ⟨hne, hnew, hother⟩ := head_ne hapart hentry (visited ([], n))
        have hpass := moveItem_dir hne hnew
          (if sys.descends n && f n = n then partly sys f (fun e => visited (under [n] e)) es
            else es) (partly sys f visited rest)
        have hinside : ∀ e, (under [n] e == entry) = false := by
          intro e
          rw [beq_eq_false_iff_ne]
          rintro rfl
          exact (hapart n (headD_mem_names hentry)).1 rfl
        simp only [partly, mvURL, hpass, hinside, Ne.symm hother, beq_iff_eq, Bool.or_eq_true,
          Bool.or_false, or_false]
        exact congrArg _ (ih hrest hentry habove)

-----------------------------------------------------------------------------------------
-- The run
-----------------------------------------------------------------------------------------

/-- Before the first visit nothing is renamed. -/
theorem partly_none : partly sys f (fun _ => false) t = t := by
  induction t with
  | nil => rfl
  | file n c rest ih => simp [partly, ih]
  | dir n es rest ihEntries ih => simp [partly, ihEntries, ih]

/-- A hidden name is kept. -/
theorem shown_hidden {n : Name} (h : sys.isHidden n = true) : shown sys f n = n := by
  simp [shown, h]

/-- After the last visit everything visible is renamed. -/
theorem partly_all (h : ∀ entry ∈ visible sys t, visited entry = true)
    : partly sys f visited t = reached sys f t := by
  induction t generalizing visited with
  | nil => rfl
  | file n c rest ih =>
      have hrest := ih fun entry he => h entry (List.mem_append_right _ he)
      cases hn : sys.isHidden n with
      | true => simp [partly, reached, hrest, shown_hidden hn]
      | false =>
          have hhere := h ([], n) (by simp [visible, hn])
          simp [partly, reached, hrest, hhere]
  | dir n es rest ihEntries ih =>
      have hrest := ih fun entry he => h entry (List.mem_append_right _ he)
      have hname : (if visited ([], n) then shown sys f n else n) = shown sys f n := by
        cases hn : sys.isHidden n with
        | true => simp [shown_hidden hn]
        | false => simp [h ([], n) (by simp [visible, hn])]
      cases hdesc : sys.descends n with
      | false => simp [partly, reached, hrest, hname, hdesc]
      | true =>
          have hentries
              : partly sys f (fun e => visited (under [n] e)) es = reached sys f es :=
            ihEntries fun entry he => h (under [n] entry) (by
              refine List.mem_append_left _ (List.mem_append_right _ ?_)
              simpa [hdesc] using List.mem_map_of_mem he)
          simp only [partly, reached, hrest, hname, hentries]

/-- Visits in an order with parents first add up. -/
theorem foldl_mvURL (hclash : NoClash sys f t) {seen order : List (List Name × Name)}
    (hvisible : ∀ entry ∈ order, entry ∈ visible sys t) (horder : ParentsFirst seen order)
    : order.foldl (mvURL f) (partly sys f (fun e => seen.contains e) t)
      = partly sys f (fun e => (order.reverse ++ seen).contains e) t := by
  induction order generalizing seen with
  | nil => rfl
  | cons entry order ih =>
      obtain ⟨habove, hrest⟩ := horder
      have hstep : mvURL f (partly sys f (fun e => seen.contains e) t) entry = _ :=
        mvURL_partly hclash (hvisible entry List.mem_cons_self)
          (fun path dir path' hsplit => by simpa using habove path dir path' hsplit)
      have hseen : (fun e => seen.contains e || e == entry)
          = fun e => (entry :: seen).contains e := by
        funext e
        rw [List.contains_cons, Bool.or_comm]
      rw [List.foldl_cons, hstep, hseen,
        ih (fun e he => hvisible e (List.mem_cons_of_mem _ he)) hrest]
      simp

/-- The visits in the enumerator's order rename everything visible. -/
theorem foldl_mvURL_enumerator (hclash : NoClash sys f t) (henum : Enumerates sys t)
    : (sys.enumerator t).foldl (mvURL f) t = reached sys f t := by
  have hrun := foldl_mvURL hclash (fun entry he => (henum.mem_iff entry).mp he)
    henum.parentsFirst
  simp only [List.contains_nil, partly_none] at hrun
  rw [hrun]
  refine partly_all fun entry he => ?_
  simpa using (henum.mem_iff entry).mpr he

/-- Visits below a path happen in the directory there. -/
theorem foldl_mvURL_under {path : List Name} {es : FileTree Name Content}
    (h : t.sub path = some es) (order : List (List Name × Name))
    : (order.map (under path)).foldl (mvURL f) t
      = t.put path (order.foldl (mvURL f) es) := by
  induction order generalizing t es with
  | nil => exact (put_self h).symm
  | cons entry order ih =>
      rw [List.map_cons, List.foldl_cons, List.foldl_cons, mvURL_under h, ih (sub_put h _),
        put_put]

/-- What holds of all visible entries, by cases on a file. -/
theorem forall_visible_file {P : List Name × Name → Prop} {n : Name} {c : Content}
    : (∀ entry ∈ visible sys (.file n c t), P entry)
      ↔ (sys.isHidden n = false → P ([], n)) ∧ ∀ entry ∈ visible sys t, P entry := by
  cases hn : sys.isHidden n <;> simp [visible, hn, or_imp, forall_and]

/-- What holds of all visible entries, by cases on a directory. -/
theorem forall_visible_dir {P : List Name × Name → Prop} {n : Name}
    {es : FileTree Name Content}
    : (∀ entry ∈ visible sys (.dir n es t), P entry)
      ↔ (sys.isHidden n = false → P ([], n))
        ∧ (sys.descends n = true → ∀ entry ∈ visible sys es, P (under [n] entry))
        ∧ ∀ entry ∈ visible sys t, P entry := by
  simp only [visible, List.forall_mem_append, and_assoc]
  refine and_congr ?_ (and_congr ?_ Iff.rfl)
  · cases hn : sys.isHidden n <;> simp
  · cases hdesc : sys.descends n with
    | false => simp
    | true => simp only [if_true, List.forall_mem_map, forall_true_left]

/-- A name is kept exactly if it is hidden or is its own replacement. -/
theorem shown_eq_self_iff {n : Name}
    : shown sys f n = n ↔ (sys.isHidden n = false → f n = n) := by
  cases hn : sys.isHidden n <;> simp [shown, hn]

/-- A tree is kept exactly if every visible name is its own replacement. -/
theorem replaced_eq_self_iff
    : replaced sys f t = t ↔ ∀ entry ∈ visible sys t, f entry.2 = entry.2 := by
  induction t with
  | nil => simp [replaced, visible]
  | file n c rest ih =>
      simp only [replaced, FileTree.file.injEq, true_and, forall_visible_file, shown_eq_self_iff,
        ih]
  | dir n es rest ihEntries ih =>
      have hes : (if sys.descends n then replaced sys f es else es) = es
          ↔ (sys.descends n = true → replaced sys f es = es) := by
        cases sys.descends n <;> simp
      simp only [replaced, FileTree.dir.injEq, forall_visible_dir, shown_eq_self_iff, hes,
        ihEntries, ih, under]

/-- All names are replaced just if no entry that changes its name is below a directory that does
so.
-/
theorem reached_eq_replaced_iff
    : reached sys f t = replaced sys f t
      ↔ ∀ entry ∈ visible sys t, f entry.2 ≠ entry.2 → ∀ dir ∈ entry.1, f dir = dir := by
  induction t with
  | nil => simp [reached, replaced, visible]
  | file n c rest ih =>
      simp only [reached, replaced, FileTree.file.injEq, true_and, forall_visible_file, ih]
      simp
  | dir n es rest ihEntries ih =>
      have hes
          : (if sys.descends n && f n = n then reached sys f es else es)
              = (if sys.descends n then replaced sys f es else es)
            ↔ (sys.descends n = true → ∀ entry ∈ visible sys es,
                f entry.2 ≠ entry.2 → ∀ dir ∈ n :: entry.1, f dir = dir) := by
        cases hdesc : sys.descends n with
        | false => simp
        | true =>
            by_cases hf : f n = n
            · simp [hf, ihEntries]
            · simp only [hf, decide_false, Bool.and_false, Bool.false_eq_true, if_false, if_true,
                forall_true_left, List.forall_mem_cons, false_and, imp_false, not_not]
              rw [eq_comm, replaced_eq_self_iff]
      simp only [reached, replaced, FileTree.dir.injEq, true_and, forall_visible_dir, hes, ih,
        under, List.singleton_append]
      simp

/-- What is put at a path can be told from the result. -/
theorem put_inj {path : List Name} {es : FileTree Name Content} (h : t.sub path = some es)
    {new new' : FileTree Name Content}
    : t.put path new = t.put path new' ↔ new = new' := by
  refine ⟨fun heq => ?_, congrArg _⟩
  have hsub := sub_put h new
  rw [heq, sub_put h new'] at hsub
  exact (Option.some.inj hsub).symm

end visits

/-- Run on a directory, the program replaces all names below it just if no entry that changes its
name is below a directory that does so.
-/
theorem main_replaces_iff {sys : Foundation Content} {t es : FileTree Name Content}
    {path : List Name} (hsub : t.sub path = some es) {pattern template : Text}
    (hclash : NoClash sys (fun name => sys.replacingWithPattern name pattern template) es)
    (henum : Enumerates sys es)
    : (main sys ⟨some pattern, some template⟩ (some path) t).1
        = t.put path
            (replaced sys (fun name => sys.replacingWithPattern name pattern template) es)
      ↔ ∀ entry ∈ visible sys es,
          sys.replacingWithPattern entry.2 pattern template ≠ entry.2
          → ∀ dir ∈ entry.1, sys.replacingWithPattern dir pattern template = dir := by
  have hmain : (main sys ⟨some pattern, some template⟩ (some path) t).1
      = t.put path
          (reached sys (fun name => sys.replacingWithPattern name pattern template) es) := by
    simp only [main, hsub]
    rw [foldl_mvURL_under hsub, foldl_mvURL_enumerator hclash henum]
  rw [hmain, put_inj hsub, reached_eq_replaced_iff]

/-- The replacement of single letters, with directories that are entered when they are met. -/
def letters : Foundation Unit where
  replacingWithPattern text pattern template :=
    text.flatMap fun c => if [c.toLower] = pattern then template else [c]
  isHidden n := n.head? = some '.'
  isPackage _ := false
  enumerator :=
    visible ⟨fun text _ _ => text, fun n => n.head? = some '.', fun _ => false, fun _ => []⟩

/-- A directory with a file in it. -/
def oneFile (dir file : Name) : FileTree Name Unit := .dir dir (.file file () .nil) .nil

/-- The enumerator of a directory with one file. -/
theorem enumerates_oneFile {dir file : Name} (hdir : dir.head? ≠ some '.')
    (hfile : file.head? ≠ some '.')
    : Enumerates letters (oneFile dir file) := by
  refine ⟨fun _ => Iff.rfl, ?_⟩
  have hsplit : ∀ path dir' path', [dir] = path ++ dir' :: path' → path = [] ∧ dir' = dir := by
    intro path dir' path' h
    cases path with
    | nil => simp_all
    | cons n path => simp at h
  simp only [letters, oneFile, visible, hdir, hfile, Foundation.descends, decide_false,
    Bool.not_false, Bool.and_self, if_true, Bool.false_eq_true, if_false]
  simpa [ParentsFirst, under] using hsplit

/-- A directory with one file whose name is replaced. -/
theorem main_replaces_iff_file
    : (main letters ⟨some ['a'], some ['x']⟩ (some [['d']])
        (.dir ['d'] (oneFile ['b'] ['a']) .nil)).1
      = .dir ['d'] (oneFile ['b'] ['x']) .nil := by
  have hsub : (FileTree.dir ['d'] (oneFile ['b'] ['a']) .nil).sub [['d']] = some _ := rfl
  refine (main_replaces_iff hsub ?_ (enumerates_oneFile (by decide) (by decide))).mpr ?_
  · simp [oneFile, NoClash, letters, isComponent, names]
  · decide

/-- A file below a directory that changes its name as well keeps its own. -/
theorem main_keeps_name
    : Enumerates letters (oneFile ['a'] ['a'])
      ∧ NoClash letters (fun name => letters.replacingWithPattern name ['a'] ['x'])
          (oneFile ['a'] ['a'])
      ∧ (main letters ⟨some ['a'], some ['x']⟩ (some [['d']])
          (.dir ['d'] (oneFile ['a'] ['a']) .nil)).1
        = .dir ['d'] (oneFile ['x'] ['a']) .nil
      ∧ replaced letters (fun name => letters.replacingWithPattern name ['a'] ['x'])
          (oneFile ['a'] ['a'])
        = oneFile ['x'] ['x'] := by
  refine ⟨enumerates_oneFile (by decide) (by decide), ?_, by decide, by decide⟩
  simp [oneFile, NoClash, letters, isComponent, names]

end Minions.Objc
