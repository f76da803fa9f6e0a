import Mathlib.Data.List.Basic

/-! Trees of named files and directories, looked up and changed by path, and the renaming of
their entries one after the other.
-/

namespace Minions.Data

/-- What a directory holds, in the order in which it is listed. -/
inductive FileTree (Name Content : Type) where
  | nil
  | file (name : Name) (content : Content) (rest : FileTree Name Content)
  | dir (name : Name) (entries rest : FileTree Name Content)
deriving Repr, DecidableEq

namespace FileTree

variable {Name Content : Type}

/-- The names of the entries themselves. -/
def names : FileTree Name Content → List Name
  | nil => []
  | file n _ rest => n :: rest.names
  | dir n _ rest => n :: rest.names

def append : FileTree Name Content → FileTree Name Content → FileTree Name Content
  | nil, t => t
  | file n c rest, t => file n c (rest.append t)
  | dir n es rest, t => dir n es (rest.append t)

/-- The names of two parts are those of both. -/
@[simp]
theorem names_append (s t : FileTree Name Content)
    : (s.append t).names = s.names ++ t.names := by
  induction s with
  | nil => rfl
  | file n c rest ih => simp [append, names, ih]
  | dir n es rest _ ih => simp [append, names, ih]

/-- Parts of a directory can be put together in any grouping. -/
theorem append_assoc (s t u : FileTree Name Content)
    : (s.append t).append u = s.append (t.append u) := by
  induction s with
  | nil => rfl
  | file n c rest ih => simp [append, ih]
  | dir n es rest _ ih => simp [append, ih]

/-- Every entry at every depth has its name replaced. -/
def mapNames (f : Name → Name) : FileTree Name Content → FileTree Name Content
  | nil => nil
  | file n c rest => file (f n) c (rest.mapNames f)
  | dir n es rest => dir (f n) (es.mapNames f) (rest.mapNames f)

/-- Every name at every depth, with the mark of a directory, satisfies `P`. -/
def All (P : Bool → Name → Prop) : FileTree Name Content → Prop
  | nil => True
  | file n _ rest => P false n ∧ rest.All P
  | dir n es rest => P true n ∧ es.All P ∧ rest.All P

/-- In every directory the old and the new name of an entry differ from those of the others. -/
def Separated (f : Name → Name) : FileTree Name Content → Prop
  | nil => True
  | file n _ rest =>
      (∀ m ∈ rest.names, n ≠ m ∧ f n ≠ m ∧ f m ≠ n ∧ f n ≠ f m) ∧ rest.Separated f
  | dir n es rest =>
      (∀ m ∈ rest.names, n ≠ m ∧ f n ≠ m ∧ f m ≠ n ∧ f n ≠ f m)
      ∧ es.Separated f
      ∧ rest.Separated f

/-- How many directories lie within each other. -/
def height : FileTree Name Content → Nat
  | nil => 0
  | file _ _ rest => rest.height
  | dir _ es rest => max (es.height + 1) rest.height

/-- What holds of all entries holds of each name with its kind. -/
theorem All.names {P : Bool → Name → Prop} {t : FileTree Name Content} (h : t.All P)
    : ∀ n ∈ t.names, ∃ isDir, P isDir n := by
  induction t with
  | nil => simp [FileTree.names]
  | file n c rest ih =>
      simp only [FileTree.names, List.forall_mem_cons]
      exact ⟨⟨false, h.1⟩, ih h.2⟩
  | dir n es rest _ ih =>
      simp only [FileTree.names, List.forall_mem_cons]
      exact ⟨⟨true, h.1⟩, ih h.2.2⟩

variable [DecidableEq Name]

-----------------------------------------------------------------------------------------
-- Paths
-----------------------------------------------------------------------------------------

/-- The contents of the directory called `n`. -/
def child (n : Name) : FileTree Name Content → Option (FileTree Name Content)
  | nil => none
  | file m _ rest => if m = n then none else rest.child n
  | dir m es rest => if m = n then some es else rest.child n

/-- Change the contents of the directory called `n`. -/
def modify (n : Name) (g : FileTree Name Content → FileTree Name Content)
    : FileTree Name Content → FileTree Name Content
  | nil => nil
  | file m c rest => file m c (if m = n then rest else rest.modify n g)
  | dir m es rest => if m = n then dir m (g es) rest else dir m es (rest.modify n g)

/-- The contents of the directory at a path. -/
def sub : List Name → FileTree Name Content → Option (FileTree Name Content)
  | [], t => some t
  | n :: path, t => (t.child n).bind (sub path)

/-- Replace the contents of the directory at a path. -/
def put : FileTree Name Content → List Name → FileTree Name Content → FileTree Name Content
  | _, [], new => new
  | t, n :: path, new => t.modify n fun es => es.put path new

/-- The entries below a changed name are the changed ones. -/
theorem child_modify (n : Name) (g : FileTree Name Content → FileTree Name Content)
    (t : FileTree Name Content)
    : (t.modify n g).child n = (t.child n).map g := by
  induction t with
  | nil => rfl
  | file m c rest ih =>
      by_cases h : m = n
      · simp [modify, child, h]
      · simp [modify, child, h, ih]
  | dir m es rest _ ih =>
      by_cases h : m = n
      · simp [modify, child, h]
      · simp [modify, child, h, ih]

/-- Two changes below one name are one change. -/
theorem modify_modify (n : Name) (g h : FileTree Name Content → FileTree Name Content)
    (t : FileTree Name Content)
    : (t.modify n g).modify n h = t.modify n (fun es => h (g es)) := by
  induction t with
  | nil => rfl
  | file m c rest ih =>
      by_cases hm : m = n
      · simp [modify, hm]
      · simp [modify, hm, ih]
  | dir m es rest _ ih =>
      by_cases hm : m = n
      · simp [modify, hm]
      · simp [modify, hm, ih]

/-- Only the contents found under the name matter to a change. -/
theorem modify_congr {n : Name} {g h : FileTree Name Content → FileTree Name Content}
    {t es : FileTree Name Content} (ht : t.child n = some es) (hgh : g es = h es)
    : t.modify n g = t.modify n h := by
  induction t with
  | nil => cases ht
  | file m c rest ih =>
      by_cases hm : m = n
      · simp [child, hm] at ht
      · simp only [child, hm, if_false] at ht
        simp [modify, hm, ih ht]
  | dir m entries rest _ ih =>
      by_cases hm : m = n
      · simp only [child, hm, if_true, Option.some.injEq] at ht
        subst ht
        simp [modify, hm, hgh]
      · simp only [child, hm, if_false] at ht
        simp [modify, hm, ih ht]

/-- A change that does nothing. -/
theorem modify_id (n : Name) (t : FileTree Name Content) : t.modify n (fun es => es) = t := by
  induction t with
  | nil => rfl
  | file m c rest ih => simp [modify, ih]
  | dir m es rest _ ih => simp [modify, ih]

/-- A path is followed one part after the other. -/
theorem sub_append (path path' : List Name) (t : FileTree Name Content)
    : t.sub (path ++ path') = (t.sub path).bind (sub path') := by
  induction path generalizing t with
  | nil => rfl
  | cons n path ih =>
      simp only [List.cons_append, sub]
      cases t.child n with
      | none => rfl
      | some es => exact ih es

/-- What was put at a path is found there. -/
theorem sub_put {path : List Name} {t es : FileTree Name Content} (h : t.sub path = some es)
    (new : FileTree Name Content)
    : (t.put path new).sub path = some new := by
  induction path generalizing t with
  | nil => rfl
  | cons n path ih =>
      simp only [sub, Option.bind_eq_some_iff] at h
      obtain ⟨inner, hn, h⟩ := h
      simp only [put, sub, child_modify, hn, Option.map_some, Option.bind_some]
      exact ih h

/-- The later of two entries put at a path stays. -/
theorem put_put (path : List Name) (new new' t : FileTree Name Content)
    : (t.put path new).put path new' = t.put path new' := by
  induction path generalizing t with
  | nil => rfl
  | cons n path ih => simp [put, modify_modify, ih]

/-- Putting at a longer path puts below its first part. -/
theorem put_append {path : List Name} {t es : FileTree Name Content} (h : t.sub path = some es)
    (path' : List Name) (new : FileTree Name Content)
    : t.put (path ++ path') new = t.put path (es.put path' new) := by
  induction path generalizing t with
  | nil =>
      cases h
      rfl
  | cons n path ih =>
      simp only [sub, Option.bind_eq_some_iff] at h
      obtain ⟨inner, hn, h⟩ := h
      exact modify_congr hn (ih h)

/-- Putting back what was there changes nothing. -/
theorem put_self {path : List Name} {t es : FileTree Name Content} (h : t.sub path = some es)
    : t.put path es = t := by
  induction path generalizing t with
  | nil => exact (Option.some.inj h).symm
  | cons n path ih =>
      simp only [sub, Option.bind_eq_some_iff] at h
      obtain ⟨inner, hn, h⟩ := h
      exact (modify_congr hn (ih h)).trans (modify_id n t)

/-- A name that is not in the first part is looked up in the second. -/
theorem child_append {s : FileTree Name Content} {n : Name} (hn : n ∉ s.names)
    (t : FileTree Name Content)
    : (s.append t).child n = t.child n := by
  induction s with
  | nil => rfl
  | file m c rest ih =>
      simp only [names, List.mem_cons, not_or] at hn
      simp [append, child, Ne.symm hn.1, ih hn.2]
  | dir m es rest _ ih =>
      simp only [names, List.mem_cons, not_or] at hn
      simp [append, child, Ne.symm hn.1, ih hn.2]

/-- A name that is not in the first part is changed in the second. -/
theorem modify_append {s : FileTree Name Content} {n : Name} (hn : n ∉ s.names)
    (g : FileTree Name Content → FileTree Name Content) (t : FileTree Name Content)
    : (s.append t).modify n g = s.append (t.modify n g) := by
  induction s with
  | nil => rfl
  | file m c rest ih =>
      simp only [names, List.mem_cons, not_or] at hn
      simp [append, modify, Ne.symm hn.1, ih hn.2]
  | dir m es rest _ ih =>
      simp only [names, List.mem_cons, not_or] at hn
      simp [append, modify, Ne.symm hn.1, ih hn.2]

-----------------------------------------------------------------------------------------
-- Renaming
-----------------------------------------------------------------------------------------

/-- Give the entry called `old` its new name. -/
def relabel (old new : Name) : FileTree Name Content → Option (FileTree Name Content)
  | nil => none
  | file m c rest =>
      if m = old then some (file new c rest) else (rest.relabel old new).map (file m c)
  | dir m es rest =>
      if m = old then some (dir new es rest) else (rest.relabel old new).map (dir m es)

/-- Rename an entry of the directory at `path`: it has to be there, and its new name free. -/
def move (t : FileTree Name Content) (path : List Name) (old new : Name)
    : Option (FileTree Name Content) :=
  (t.sub path).bind fun es =>
    if new ∈ es.names then none else (es.relabel old new).map (t.put path)

/-- An entry, given by the path of its directory and its name, seen from further up. -/
def under (path : List Name) (entry : List Name × Name) : List Name × Name :=
  (path ++ entry.1, entry.2)

/-- All entries, each directory behind what is below it. -/
def postorder : FileTree Name Content → List (List Name × Name)
  | nil => []
  | file n _ rest => ([], n) :: rest.postorder
  | dir n es rest => es.postorder.map (under [n]) ++ ([], n) :: rest.postorder

omit [DecidableEq Name] in
/-- An entry below a path below a path. -/
theorem under_under (path path' : List Name) (entry : List Name × Name)
    : under path (under path' entry) = under (path ++ path') entry := by
  simp [under]

omit [DecidableEq Name] in
/-- Every entry is listed with names of directories above it. -/
theorem All.postorder {P : Bool → Name → Prop} {t : FileTree Name Content} (h : t.All P)
    : ∀ entry ∈ t.postorder, (∀ n ∈ entry.1, P true n) ∧ ∃ isDir, P isDir entry.2 := by
  induction t with
  | nil => simp [FileTree.postorder]
  | file n c rest ih =>
      simp only [FileTree.postorder, List.forall_mem_cons]
      exact ⟨⟨by simp, false, h.1⟩, ih h.2⟩
  | dir n es rest ihEntries ih =>
      intro entry hentry
      simp only [FileTree.postorder, List.mem_append, List.mem_map, List.mem_cons] at hentry
      rcases hentry with ⟨inner, hinner, rfl⟩ | rfl | hentry
      · obtain ⟨hpath, hname⟩ := ihEntries h.2.1 inner hinner
        exact ⟨by simpa [under] using ⟨h.1, hpath⟩, hname⟩
      · exact ⟨by simp, true, h.1⟩
      · exact ih h.2.2 entry hentry

/-- Rename an entry unless it is called as it shall be. -/
def renameStep (f : Name → Name) (t : FileTree Name Content) (entry : List Name × Name)
    : Option (FileTree Name Content) :=
  if f entry.2 = entry.2 then some t else t.move entry.1 entry.2 (f entry.2)

/-- Rename the listed entries one after the other. -/
def renameEach (f : Name → Name) (t : FileTree Name Content) (entries : List (List Name × Name))
    : Option (FileTree Name Content) :=
  entries.foldlM (renameStep f) t

/-- A name that is not in the first part is relabelled in the second. -/
theorem relabel_append {s : FileTree Name Content} {old : Name} (hold : old ∉ s.names)
    (new : Name) (t : FileTree Name Content)
    : (s.append t).relabel old new = (t.relabel old new).map s.append := by
  induction s with
  | nil => simp [append]
  | file m c rest ih =>
      simp only [names, List.mem_cons, not_or] at hold
      simp [append, relabel, Ne.symm hold.1, ih hold.2, Function.comp_def]
  | dir m es rest _ ih =>
      simp only [names, List.mem_cons, not_or] at hold
      simp [append, relabel, Ne.symm hold.1, ih hold.2, Function.comp_def]

/-- A name that does not occur has nothing below it. -/
theorem child_eq_none {n : Name} {t : FileTree Name Content} (hn : n ∉ t.names)
    : t.child n = none := by
  induction t with
  | nil => rfl
  | file m c rest ih =>
      simp only [names, List.mem_cons, not_or] at hn
      simp [child, Ne.symm hn.1, ih hn.2]
  | dir m es rest _ ih =>
      simp only [names, List.mem_cons, not_or] at hn
      simp [child, Ne.symm hn.1, ih hn.2]

/-- A name that does not occur cannot be relabelled. -/
theorem relabel_eq_none {old : Name} {t : FileTree Name Content} (hold : old ∉ t.names)
    (new : Name)
    : t.relabel old new = none := by
  induction t with
  | nil => rfl
  | file m c rest ih =>
      simp only [names, List.mem_cons, not_or] at hold
      simp [relabel, Ne.symm hold.1, ih hold.2]
  | dir m es rest _ ih =>
      simp only [names, List.mem_cons, not_or] at hold
      simp [relabel, Ne.symm hold.1, ih hold.2]

/-- Nothing is renamed whose path begins with a missing name. -/
theorem move_missing {t : FileTree Name Content} {path : List Name} {old : Name}
    (h : path.headD old ∉ t.names) (new : Name)
    : t.move path old new = none := by
  cases path with
  | nil =>
      have hnone : t.relabel old new = none := relabel_eq_none h new
      simp [move, sub, hnone]
  | cons n path =>
      have hnone : t.child n = none := child_eq_none h
      simp [move, sub, hnone]

/-- No entry can be renamed to its own name. -/
theorem move_self (t : FileTree Name Content) (path : List Name) (n : Name)
    : t.move path n n = none := by
  cases hsub : t.sub path with
  | none => simp [move, hsub]
  | some es =>
      by_cases hn : n ∈ es.names
      · simp [move, hsub, hn]
      · simp [move, hsub, relabel_eq_none hn]

/-- A rename passes an entry by that its path does not begin with. -/
theorem move_file {m : Name} {path : List Name} {old new : Name} (hm : m ≠ path.headD old)
    (hnew : path = [] → m ≠ new) (c : Content) (rest : FileTree Name Content)
    : (file m c rest).move path old new = (rest.move path old new).map (file m c) := by
  cases path with
  | nil =>
      have hmem : new ∈ (file m c rest).names ↔ new ∈ rest.names := by
        simp [names, Ne.symm (hnew rfl)]
      by_cases hn : new ∈ rest.names
      · simp [move, sub, hmem, hn]
      · simp [move, sub, hmem, hn, relabel, show m ≠ old from hm, put]
  | cons n path =>
      have hne : m ≠ n := hm
      have hput : (file m c rest).put (n :: path) = file m c ∘ rest.put (n :: path) := by
        funext new
        simp [put, modify, hne]
      simp only [move, sub, child, hne, if_false, hput]
      cases (rest.child n).bind (sub path) with
      | none => rfl
      | some es => by_cases hn : new ∈ es.names <;> simp [hn]

/-- A directory that is not on the path is passed over. -/
theorem move_dir {m : Name} {path : List Name} {old new : Name} (hm : m ≠ path.headD old)
    (hnew : path = [] → m ≠ new) (es rest : FileTree Name Content)
    : (dir m es rest).move path old new = (rest.move path old new).map (dir m es) := by
  cases path with
  | nil =>
      have hmem : new ∈ (dir m es rest).names ↔ new ∈ rest.names := by
        simp [names, Ne.symm (hnew rfl)]
      by_cases hn : new ∈ rest.names
      · simp [move, sub, hmem, hn]
      · simp [move, sub, hmem, hn, relabel, show m ≠ old from hm, put]
  | cons n path =>
      have hne : m ≠ n := hm
      have hput : (dir m es rest).put (n :: path) = dir m es ∘ rest.put (n :: path) := by
        funext new
        simp [put, modify, hne]
      simp only [move, sub, child, hne, if_false, hput]
      cases (rest.child n).bind (sub path) with
      | none => rfl
      | some inner => by_cases hn : new ∈ inner.names <;> simp [hn]

/-- A rename below a path is the rename in the directory there. -/
theorem move_below {path : List Name} {t es : FileTree Name Content} (h : t.sub path = some es)
    (path' : List Name) (old new : Name)
    : t.move (path ++ path') old new = (es.move path' old new).map (t.put path) := by
  simp only [move, sub_append, h, Option.bind_some]
  cases es.sub path' with
  | none => rfl
  | some inner =>
      have hput : t.put (path ++ path') = t.put path ∘ es.put path' :=
        funext (put_append h path')
      by_cases hnew : new ∈ inner.names
      · simp [hnew]
      · simp [hnew, hput]

/-- A rename below a path happens in the directory there. -/
theorem renameStep_below {path : List Name} {t es : FileTree Name Content}
    (h : t.sub path = some es) (f : Name → Name) (entry : List Name × Name)
    : renameStep f t (under path entry) = (renameStep f es entry).map (t.put path) := by
  by_cases hf : f entry.2 = entry.2
  · simp [renameStep, under, hf, put_self h]
  · simp [renameStep, under, hf, move_below h]

/-- Renaming what is below a path stays inside the directory there. -/
theorem renameEach_below {path : List Name} {t es : FileTree Name Content}
    (h : t.sub path = some es) (f : Name → Name) (entries : List (List Name × Name))
    : renameEach f t (entries.map (under path))
      = (renameEach f es entries).map (t.put path) := by
  induction entries generalizing t es with
  | nil => simp [renameEach, put_self h]
  | cons entry entries ih =>
      simp only [renameEach, List.map_cons, List.foldlM_cons, renameStep_below h] at ih ⊢
      cases hstep : renameStep f es entry with
      | none => rfl
      | some es' =>
          have hput : (t.put path es').put path = t.put path :=
            funext fun new => put_put path es' new t
          have hrest := ih (sub_put h es')
          rw [hput] at hrest
          simpa using hrest

/-- Renames of two lists happen one after the other. -/
theorem renameEach_append (f : Name → Name) (t : FileTree Name Content)
    (entries entries' : List (List Name × Name))
    : renameEach f t (entries ++ entries')
      = (renameEach f t entries).bind (renameEach f · entries') :=
  List.foldlM_append

/-- The first rename comes first. -/
theorem renameEach_cons (f : Name → Name) (t : FileTree Name Content)
    (entry : List Name × Name) (entries : List (List Name × Name))
    : renameEach f t (entry :: entries)
      = (renameStep f t entry).bind (renameEach f · entries) :=
  List.foldlM_cons

/-- A file gets its new name where no other entry has it. -/
theorem renameStep_file {f : Name → Name} {n : Name} {s rest : FileTree Name Content}
    (hs : ∀ m ∈ s.names, m ≠ n ∧ m ≠ f n) (hrest : f n ∉ rest.names) (c : Content)
    : renameStep f (s.append (file n c rest)) ([], n) = some (s.append (file (f n) c rest)) := by
  by_cases hf : f n = n
  · simp [renameStep, hf]
  · have hn : n ∉ s.names := fun h => (hs n h).1 rfl
    have hfn : f n ∉ s.names := fun h => (hs (f n) h).2 rfl
    simp [renameStep, hf, move, sub, names, hfn, hrest, relabel_append hn, relabel, put]

/-- A directory gets its new name where no other entry has it. -/
theorem renameStep_dir {f : Name → Name} {n : Name} {s rest : FileTree Name Content}
    (hs : ∀ m ∈ s.names, m ≠ n ∧ m ≠ f n) (hrest : f n ∉ rest.names)
    (es : FileTree Name Content)
    : renameStep f (s.append (dir n es rest)) ([], n) = some (s.append (dir (f n) es rest)) := by
  by_cases hf : f n = n
  · simp [renameStep, hf]
  · have hn : n ∉ s.names := fun h => (hs n h).1 rfl
    have hfn : f n ∉ s.names := fun h => (hs (f n) h).2 rfl
    simp [renameStep, hf, move, sub, names, hfn, hrest, relabel_append hn, relabel, put]

/-- A directory is found under its name. -/
theorem sub_dir {s : FileTree Name Content} {n : Name} (hn : n ∉ s.names)
    (es rest : FileTree Name Content)
    : (s.append (dir n es rest)).sub [n] = some es := by
  simp [sub, child_append hn, child]

/-- The entries of a directory are exchanged. -/
theorem put_dir {s : FileTree Name Content} {n : Name} (hn : n ∉ s.names)
    (es rest new : FileTree Name Content)
    : (s.append (dir n es rest)).put [n] new = s.append (dir n new rest) := by
  simp [put, modify_append hn, modify]

/-- With what is before it renamed already, the rest is renamed without a clash. -/
theorem renameEach_postorder_append {f : Name → Name} {t : FileTree Name Content}
    (ht : t.Separated f) {s : FileTree Name Content}
    (hs : ∀ m ∈ s.names, ∀ n ∈ t.names, m ≠ n ∧ m ≠ f n)
    : renameEach f (s.append t) t.postorder = some (s.append (t.mapNames f)) := by
  induction t generalizing s with
  | nil => rfl
  | file n c rest ih =>
      have hn := fun m hm => hs m hm n (by simp [names])
      have hrest : f n ∉ rest.names := fun h => (ht.1 _ h).2.1 rfl
      have hnext := ih ht.2 (s := s.append (file (f n) c nil)) (by
        intro m hm k hk
        simp only [names_append, names, List.mem_append, List.mem_singleton] at hm
        rcases hm with hm | rfl
        · exact hs m hm k (by simp [names, hk])
        · exact ⟨(ht.1 k hk).2.1, (ht.1 k hk).2.2.2⟩)
      simp only [append_assoc, append] at hnext
      simp [postorder, renameEach_cons, renameStep_file hn hrest, hnext, mapNames]
  | dir n es rest ihEntries ih =>
      have hn := fun m hm => hs m hm n (by simp [names])
      have hfresh : n ∉ s.names := fun h => (hn n h).1 rfl
      have hrest : f n ∉ rest.names := fun h => (ht.1 _ h).2.1 rfl
      have hinside := ihEntries ht.2.1 (s := nil) (by simp [names])
      have hnext := ih ht.2.2 (s := s.append (dir (f n) (es.mapNames f) nil)) (by
        intro m hm k hk
        simp only [names_append, names, List.mem_append, List.mem_singleton] at hm
        rcases hm with hm | rfl
        · exact hs m hm k (by simp [names, hk])
        · exact ⟨(ht.1 k hk).2.1, (ht.1 k hk).2.2.2⟩)
      simp only [append_assoc, append] at hinside hnext
      -- What is below the directory is renamed while its path is still the old one.
      simp only [postorder, renameEach_append, renameEach_cons,
        renameEach_below (sub_dir hfresh es rest), hinside, Option.map_some, Option.bind_some,
        put_dir hfresh, renameStep_dir hn hrest, hnext, mapNames]

/-- Renamed in an order that leaves each directory to the end, every entry is found. -/
theorem renameEach_postorder {f : Name → Name} {t : FileTree Name Content} (ht : t.Separated f)
    : renameEach f t t.postorder = some (t.mapNames f) :=
  renameEach_postorder_append ht (s := nil) (by simp [names])

end FileTree

end Minions.Data
