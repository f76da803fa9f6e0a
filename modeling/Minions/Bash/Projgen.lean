import Minions.Bash.Shell

/-! The renaming of a copied template in `projgen.sh`.
All paths are listed before the first of them is renamed. They stay valid until their turn since
`walkdir` prints a directory behind everything that is in it.
-/

namespace Minions.Bash

open Minions.Data
open Minions.Data.FileTree

variable {Content : Type}

def TEMPLATE_NAME : Name :=
  ['P', 'R', 'O', 'J', 'E', 'C', 'T', 'G', 'E', 'N', 'T', 'E', 'M', 'P', 'L', 'A', 'T', 'E']

/-- A round of the loop over the output of `ls`, where `walk` is the function itself. -/
def walkItem (sys : Builtins Content) (t : FileTree Name Content)
    (walk : Text → Shell → Option Shell) (sh : Shell) (item : Text)
    : Option Shell :=
  if testDir t sh (expand sys t sh item) then walk ((expand sys t sh item).headD []) sh
  else some (sh.echo (pathText sh.PWD ++ '/' :: item))

/-- `walkdir`, with a bound on the depth of the recursion. -/
def walkdir (sys : Builtins Content) (t : FileTree Name Content)
    : Nat → Text → Shell → Option Shell
  | 0, _, _ => none
  | depth + 1, arg, sh =>
      let sh := { sh with IFS_ORIG := sh.IFS }
      let sh := { sh with IFS := ['\t', '\n'] }
      let sh := pushd sys t sh (expand sys t sh arg)
      let items := expand sys t sh (substitution (ls t sh))
      (items.foldlM (walkItem sys t (walkdir sys t depth)) sh).map fun sh =>
        let sh := popd (sh.echo (pathText sh.PWD))
        { sh with IFS := sh.IFS_ORIG }

/-- A round of the renaming loop. -/
def renameItem (sys : Builtins Content) (name : Name) (sh : Shell)
    (t : FileTree Name Content) (item : Text)
    : Option (FileTree Name Content) :=
  let itemname := substitution (basename item)
  let itemdir := substitution (dirname item)
  let newname := replaceAll TEMPLATE_NAME name itemname
  if testNe (expand sys t sh newname) (expand sys t sh itemname) then
    mv t sh.PWD item (itemdir ++ '/' :: newname)
  else some t

/-- The renaming loop of `mainScript`; it ends with the first `mv` that fails. -/
def renameLoop (sys : Builtins Content) (name : Name) (depth : Nat) (sh : Shell)
    (t : FileTree Name Content)
    : Option (FileTree Name Content) :=
  let sh := { sh with IFS_ORIG := sh.IFS }
  let sh := { sh with IFS := ['\t', '\n'] }
  -- The walk runs in a shell of its own, of which only the output comes back.
  (walkdir sys t depth TEMPLATE_NAME { sh with stdout := [] }).bind fun sub =>
    (expand sys t sh (substitution sub.stdout)).foldlM (renameItem sys name sh) t

-----------------------------------------------------------------------------------------
-- The walk
-----------------------------------------------------------------------------------------

/-- A name that the script takes for itself where it stands for a file or a directory. -/
def Fits (isDir : Bool) (n : Name) : Prop :=
  Visible n ∧ (isDir = true → n.head? ≠ some '-' ∧ n.head? ≠ some '+')

/-- The path that is printed for an entry. -/
def entryText (entry : List Name × Name) : Text := slashed (entry.1 ++ [entry.2])

/-- The shell after it has printed the paths of some entries. -/
def Shell.print (sh : Shell) (entries : List (List Name × Name)) : Shell :=
  { sh with stdout := sh.stdout ++ unlines '\n' (entries.map entryText) }

/-- Printing two lists one after the other prints both. -/
theorem Shell.print_print (sh : Shell) (entries entries' : List (List Name × Name))
    : (sh.print entries).print entries' = sh.print (entries ++ entries') := by
  simp [Shell.print]

/-- Echoing the text of an entry prints the entry. -/
theorem Shell.echo_entryText (sh : Shell) (entry : List Name × Name)
    : sh.echo (entryText entry) = sh.print [entry] := by
  simp [Shell.print, Shell.echo]

/-- The text of a path with a last name is that of an entry. -/
theorem pathText_concat (path : List Name) (n : Name)
    : pathText (path ++ [n]) = entryText (path, n) := by
  simp [pathText, entryText]

/-- A name appended to the text of a path makes the text of an entry. -/
theorem pathText_append {path : List Name} (hne : path ≠ []) (n : Name)
    : pathText path ++ '/' :: n = entryText (path, n) := by
  rw [pathText, if_neg hne, entryText, slashed_concat]

/-- A visible name has plain characters only. -/
theorem Visible.chars_plain {n : Name} (hn : Visible n) : ∀ c ∈ n, plainChar c = true :=
  fun c hc => (hn.1.chars c hc).1

/-- A visible name expands to itself. -/
theorem expand_visible {sh : Shell} (hIFS : sh.IFS = ['\t', '\n']) {n : Name} (hn : Visible n)
    (sys : Builtins Content) (t : FileTree Name Content)
    : expand sys t sh n = [n] :=
  expand_plain hIFS hn.1.nonempty hn.chars_plain sys t

/-- The words of the output of `ls` are the names in the directory. -/
theorem expand_ls {sh : Shell} (hIFS : sh.IFS = ['\t', '\n']) {t es : FileTree Name Content}
    (hsub : t.sub sh.PWD = some es) (hes : ∀ n ∈ es.names, Visible n)
    (sys : Builtins Content)
    : expand sys t sh (substitution (ls t sh)) = es.names := by
  have hall : es.names.filter (·.head? != some '.') = es.names :=
    List.filter_eq_self.mpr fun n hn => by simpa using (hes n hn).2
  rw [ls, hsub, Option.elim_some, hall]
  exact expand_unlines hIFS (fun n hn => ⟨(hes n hn).1.nonempty, (hes n hn).chars_plain⟩) sys t

/-- `pushd` into a directory that exists goes there and remembers where it was. -/
theorem pushd_fits {n : Name} (hn : Fits true n) (sh : Shell) {t es : FileTree Name Content}
    (hsub : t.sub (sh.PWD ++ [n]) = some es) (sys : Builtins Content)
    : pushd sys t sh [n] = { sh with PWD := sh.PWD ++ [n], dirstack := sh.PWD :: sh.dirstack } := by
  simp [pushd, hn.2 rfl, resolve_name hn.1.1, hsub]

/-- A call prints what its loop prints and then the directory, and returns to where it was. -/
theorem walkdir_succ {sh : Shell} (hIFS : sh.IFS = ['\t', '\n']) {n : Name} (hn : Fits true n)
    {t es : FileTree Name Content} (hsub : t.sub (sh.PWD ++ [n]) = some es)
    (hes : ∀ n ∈ es.names, Visible n) {sys : Builtins Content} {depth : Nat}
    (hloop
      : ∀ inner : Shell,
          inner.IFS = ['\t', '\n']
          → inner.IFS_ORIG = ['\t', '\n']
          → inner.PWD = sh.PWD ++ [n]
          → es.names.foldlM (walkItem sys t (walkdir sys t depth)) inner
            = some (inner.print (es.postorder.map (under (sh.PWD ++ [n])))))
    : walkdir sys t (depth + 1) n sh
      = some (Shell.print { sh with IFS_ORIG := ['\t', '\n'] }
          (es.postorder.map (under (sh.PWD ++ [n])) ++ [(sh.PWD, n)])) := by
  let inside : Shell := { sh with IFS := ['\t', '\n'], IFS_ORIG := sh.IFS }
  have harg : expand sys t inside n = [n] := expand_visible rfl hn.1 sys t
  have hpushd : pushd sys t inside [n] = _ := pushd_fits hn inside hsub sys
  simp only [inside] at harg hpushd
  simp only [walkdir, harg, hpushd]
  rw [expand_ls rfl hsub hes, hloop _ rfl hIFS rfl]
  simp [Shell.print, Shell.echo, popd, pathText_concat, hIFS]

/-- The loop over some of the names in a directory prints everything below them, each directory
behind its contents.
-/
theorem walkItems {f : Name → Name} {t es : FileTree Name Content} (hfits : es.All Fits)
    (hsep : es.Separated f) {sys : Builtins Content} {depth : Nat} (hdepth : es.height ≤ depth)
    {sh : Shell} (hIFS : sh.IFS = ['\t', '\n']) (hORIG : sh.IFS_ORIG = ['\t', '\n'])
    (hPWD : sh.PWD ≠ []) {here : FileTree Name Content} (hsub : t.sub sh.PWD = some here)
    (hhere : ∀ n ∈ es.names, here.child n = es.child n)
    : es.names.foldlM (walkItem sys t (walkdir sys t depth)) sh
      = some (sh.print (es.postorder.map (under sh.PWD))) := by
  induction es generalizing depth sh here with
  | nil => simp [names, FileTree.postorder, Shell.print, unlines]
  | file n c rest ih =>
      simp only [names, List.forall_mem_cons] at hhere
      have hfind : t.sub (resolve sh.PWD n) = none := by
        simp [resolve_name hfits.1.1.1, sub_append, hsub, sub, hhere.1, child]
      have hitem : walkItem sys t (walkdir sys t depth) sh n = some (sh.print [(sh.PWD, n)]) := by
        simp [walkItem, expand_visible hIFS hfits.1.1, testDir, hfind, pathText_append hPWD,
          Shell.echo_entryText]
      have hrest
          : rest.names.foldlM (walkItem sys t (walkdir sys t depth)) (sh.print [(sh.PWD, n)])
            = _ :=
        ih hfits.2 hsep.2 hdepth hIFS hORIG hPWD hsub
          (fun m hm => by simpa [child, (hsep.1 m hm).1] using hhere.2 m hm)
      simp only [names, List.foldlM_cons, hitem]
      exact hrest.trans (by simp [FileTree.postorder, under, Shell.print])
  | dir n es rest ihEntries ih =>
      simp only [names, List.forall_mem_cons] at hhere
      simp only [height, Nat.max_le] at hdepth
      obtain ⟨below, rfl⟩ : ∃ below, depth = below + 1 := ⟨depth - 1, by omega⟩
      have hfind : t.sub (sh.PWD ++ [n]) = some es := by
        simp [sub_append, hsub, sub, hhere.1, child]
      have hcall : walkdir sys t (below + 1) n sh = _ :=
        walkdir_succ hIFS hfits.1 hfind
          (fun m hm => (hfits.2.1.names m hm).elim fun _ h => h.1)
          (fun inner hi ho hp => by
            rw [← hp]
            exact ihEntries hfits.2.1 hsep.2.1 (by omega) hi ho (by simp [hp]) (by rw [hp, hfind])
              (fun _ _ => rfl))
      have hitem : walkItem sys t (walkdir sys t (below + 1)) sh n
          = some (sh.print (es.postorder.map (under (sh.PWD ++ [n])) ++ [(sh.PWD, n)])) := by
        have hsame : { sh with IFS_ORIG := ['\t', '\n'] } = sh := by rw [← hORIG]
        rw [hsame] at hcall
        simp [walkItem, expand_visible hIFS hfits.1.1, testDir, resolve_name hfits.1.1.1, hfind,
          hcall]
      have hrest
          : rest.names.foldlM (walkItem sys t (walkdir sys t (below + 1)))
              (sh.print (es.postorder.map (under (sh.PWD ++ [n])) ++ [(sh.PWD, n)]))
            = _ :=
        ih hfits.2.2 hsep.2.2 hdepth.2 hIFS hORIG hPWD hsub
          (fun m hm => by simpa [child, (hsep.1 m hm).1] using hhere.2 m hm)
      simp only [names, List.foldlM_cons, hitem]
      have hunder : (es.postorder.map (under [n])).map (under sh.PWD)
          = es.postorder.map (under (sh.PWD ++ [n])) := by
        simp [Function.comp_def, under_under]
      refine hrest.trans ?_
      rw [FileTree.postorder, List.map_append, hunder, Shell.print_print]
      simp [Shell.print, under]

-----------------------------------------------------------------------------------------
-- The renaming
-----------------------------------------------------------------------------------------

/-- The text of an absolute path of plain names is plain. -/
theorem slashed_plain {path : List Name} (h : ∀ n ∈ path, Plain n)
    : ∀ c ∈ slashed path, plainChar c = true := by
  intro c hc
  obtain ⟨n, hn, hc⟩ := List.mem_flatMap.mp hc
  rcases List.mem_cons.mp hc with rfl | hc
  · decide
  · exact ((h n hn).chars c hc).1

/-- Command substitution leaves a plain text as it is. -/
theorem substitution_plain {text : Text} (h : ∀ c ∈ text, plainChar c = true)
    : substitution text = text := by
  rw [substitution, List.rdropWhile_eq_self_iff]
  intro hne heol
  have hlast := h _ (text.getLast_mem hne)
  rw [of_decide_eq_true heol] at hlast
  exact absurd hlast (by decide)

/-- The text of a path of plain names is plain. -/
theorem pathText_plain {path : List Name} (h : ∀ n ∈ path, Plain n)
    : ∀ c ∈ pathText path, plainChar c = true := by
  cases path with
  | nil => simp [pathText, plainChar, isGlobChar]
  | cons n path => simpa [pathText] using slashed_plain h

/-- A round of the loop renames the entry that its path belongs to. -/
theorem renameItem_entryText {sh : Shell} (hIFS : sh.IFS = ['\t', '\n']) {name : Name}
    (hname : Visible name) {entry : List Name × Name} (hpath : ∀ n ∈ entry.1, Plain n)
    (hentry : Visible entry.2) (sys : Builtins Content) (t : FileTree Name Content)
    : renameItem sys name sh t (entryText entry)
      = renameStep (replaceAll TEMPLATE_NAME name) t entry := by
  have hnew := visible_replaceAll hname hentry TEMPLATE_NAME
  have hbase : substitution (basename (entryText entry)) = entry.2 := by
    rw [entryText, basename_slashed hentry.1, substitution_plain hentry.chars_plain]
  have hdir : substitution (dirname (entryText entry)) = pathText entry.1 := by
    rw [entryText, dirname_slashed hentry.1 hpath, substitution_plain (pathText_plain hpath)]
  simp only [renameItem, hbase, hdir, expand_visible hIFS hnew, expand_visible hIFS hentry,
    testNe, renameStep, bne_iff_ne, ne_eq, ite_not]
  rw [entryText, mv_slashed hpath hentry.1 hnew.1]

/-- The loop over the items renames one entry after the other. -/
theorem renameItems {sh : Shell} (hIFS : sh.IFS = ['\t', '\n']) {name : Name}
    (hname : Visible name) {entries : List (List Name × Name)}
    (hentries : ∀ entry ∈ entries, (∀ n ∈ entry.1, Plain n) ∧ Visible entry.2)
    (sys : Builtins Content) (t : FileTree Name Content)
    : (entries.map entryText).foldlM (renameItem sys name sh) t
      = renameEach (replaceAll TEMPLATE_NAME name) t entries := by
  induction entries generalizing t with
  | nil => rfl
  | cons entry entries ih =>
      simp only [List.forall_mem_cons] at hentries
      rw [List.map_cons, List.foldlM_cons, renameEach_cons,
        renameItem_entryText hIFS hname hentries.1.1 hentries.1.2]
      exact congrArg _ (funext (ih hentries.2))

/-- A template copied to a working directory, among entries before and after it. -/
structure Copied (name : Name) (t : FileTree Name Content) (PWD : List Name)
    (before es after : FileTree Name Content)
    : Prop where
  found : t.sub PWD = some (before.append (.dir TEMPLATE_NAME es after))
  path : ∀ n ∈ PWD, Plain n
  project : Visible name
  entries : es.All Fits
  separated : es.Separated (replaceAll TEMPLATE_NAME name)
  siblings : ∀ n ∈ before.names ++ after.names, n ≠ TEMPLATE_NAME ∧ n ≠ name

/-- The template's own name becomes the new name. -/
theorem replaceAll_TEMPLATE_NAME (name : Name)
    : replaceAll TEMPLATE_NAME name TEMPLATE_NAME = name :=
  replaceAll_self (by decide) name

/-- The template's name is one that the script can handle. -/
theorem fits_TEMPLATE_NAME : Fits true TEMPLATE_NAME := by
  exact ⟨by decide, by decide⟩

/-- The entries of a copied template, each directory behind what is below it. -/
def listed (PWD : List Name) (es : FileTree Name Content) : List (List Name × Name) :=
  es.postorder.map (under (PWD ++ [TEMPLATE_NAME])) ++ [(PWD, TEMPLATE_NAME)]

namespace Copied

variable {name : Name} {t before es after : FileTree Name Content} {sh : Shell}

/-- No entry before the copy has the template's name. -/
theorem notBefore {PWD : List Name} (h : Copied name t PWD before es after)
    : TEMPLATE_NAME ∉ before.names :=
  fun hm => (h.siblings _ (List.mem_append_left _ hm)).1 rfl

/-- The copy stands under the template's name. -/
theorem sub {PWD : List Name} (h : Copied name t PWD before es after)
    : t.sub (PWD ++ [TEMPLATE_NAME]) = some es := by
  simp [sub_append, h.found, sub_dir h.notBefore]

/-- The paths that the walk prints are those of the template and all that is below it. -/
theorem walkdir (h : Copied name t sh.PWD before es after) (hIFS : sh.IFS = ['\t', '\n'])
    (sys : Builtins Content) {depth : Nat} (hdepth : es.height ≤ depth)
    : walkdir sys t (depth + 1) TEMPLATE_NAME sh
      = some (Shell.print { sh with IFS_ORIG := ['\t', '\n'] } (listed sh.PWD es)) := by
  refine walkdir_succ hIFS fits_TEMPLATE_NAME h.sub
    (fun n hn => (h.entries.names n hn).elim fun _ hn => hn.1) fun inner hi ho hp => ?_
  rw [← hp]
  exact walkItems h.entries h.separated hdepth hi ho (by simp [hp]) (by rw [hp, h.sub])
    (fun _ _ => rfl)

/-- `find` lists entries with plain paths and visible names. -/
theorem listed_visible {PWD : List Name} (h : Copied name t PWD before es after)
    : ∀ entry ∈ listed PWD es, (∀ n ∈ entry.1, Plain n) ∧ Visible entry.2 := by
  intro entry hentry
  simp only [listed, List.mem_append, List.mem_map, List.mem_singleton] at hentry
  rcases hentry with ⟨inner, hinner, rfl⟩ | rfl
  · obtain ⟨hpath, _, hname⟩ := h.entries.postorder inner hinner
    refine ⟨?_, hname.1⟩
    simp only [under, List.mem_append, List.mem_singleton]
    rintro n ((hn | rfl) | hn)
    · exact h.path n hn
    · exact fits_TEMPLATE_NAME.1.1
    · exact (hpath n hn).1.1
  · exact ⟨h.path, fits_TEMPLATE_NAME.1⟩

/-- The text of such an entry is plain and not empty. -/
theorem entryText_plain {entry : List Name × Name}
    (h : (∀ n ∈ entry.1, Plain n) ∧ Visible entry.2)
    : entryText entry ≠ [] ∧ ∀ c ∈ entryText entry, plainChar c = true := by
  refine ⟨by simp [entryText, slashed_concat], slashed_plain fun n hn => ?_⟩
  rcases List.mem_append.mp hn with hn | hn
  · exact h.1 n hn
  · rw [List.mem_singleton.mp hn]
    exact h.2.1

/-- Every line of the listing is plain and not empty. -/
theorem lines_plain {PWD : List Name} (h : Copied name t PWD before es after)
    : ∀ line ∈ (listed PWD es).map entryText, line ≠ [] ∧ ∀ c ∈ line, plainChar c = true := by
  intro line hline
  obtain ⟨entry, hentry, rfl⟩ := List.mem_map.mp hline
  exact entryText_plain (h.listed_visible entry hentry)

/-- What is below the template is renamed first, then the template itself. -/
theorem renameEach {PWD : List Name} (h : Copied name t PWD before es after)
    : renameEach (replaceAll TEMPLATE_NAME name) t (listed PWD es)
      = some (t.put PWD
          (before.append (.dir name (es.mapNames (replaceAll TEMPLATE_NAME name)) after))) := by
  have hnew := replaceAll_TEMPLATE_NAME name
  have hseparated := h.separated
  generalize replaceAll TEMPLATE_NAME name = f at hnew hseparated ⊢
  have hinner := renameEach_below h.sub f es.postorder
  rw [renameEach_postorder hseparated, Option.map_some, put_append h.found,
    put_dir h.notBefore] at hinner
  have hroot := renameStep_below
    (sub_put h.found (before.append (.dir TEMPLATE_NAME (es.mapNames f) after))) f
    ([], TEMPLATE_NAME)
  have hfree : f TEMPLATE_NAME ∉ after.names := by
    rw [hnew]
    exact fun hm => (h.siblings _ (List.mem_append_right _ hm)).2 rfl
  have hbefore : ∀ m ∈ before.names, m ≠ TEMPLATE_NAME ∧ m ≠ f TEMPLATE_NAME := by
    rw [hnew]
    exact fun m hm => h.siblings m (List.mem_append_left _ hm)
  rw [renameStep_dir hbefore hfree, Option.map_some, put_put, hnew, under, List.append_nil]
    at hroot
  rw [listed, renameEach_append, hinner, Option.bind_some, renameEach_cons, hroot]
  rfl

end Copied

/-- Every `mv` of the loop succeeds, and in the end the name of the template is replaced in all
names and nowhere else.
-/
theorem renameLoop_replaces {name : Name} {t before es after : FileTree Name Content}
    {sh : Shell} (h : Copied name t sh.PWD before es after) (sys : Builtins Content)
    {depth : Nat} (hdepth : es.height < depth)
    : renameLoop sys name depth sh t
      = some (t.put sh.PWD
          (before.append (.dir name (es.mapNames (replaceAll TEMPLATE_NAME name)) after))) := by
  cases depth with
  | zero => exact absurd hdepth (Nat.not_lt_zero _)
  | succ depth =>
      let inside : Shell := { sh with IFS := ['\t', '\n'], IFS_ORIG := sh.IFS }
      have hIFS : inside.IFS = ['\t', '\n'] := rfl
      have hcopied : Copied name t { inside with stdout := [] }.PWD before es after := h
      have hwalk := hcopied.walkdir hIFS sys (Nat.lt_succ_iff.mp hdepth)
      have hitems := expand_unlines hIFS h.lines_plain sys t
      have hrename := renameItems hIFS h.project h.listed_visible sys t
      rw [h.renameEach, ← hitems] at hrename
      simp only [inside] at hwalk hrename
      simpa [renameLoop, hwalk, Shell.print] using hrename

/-- Patterns that match no name, and words that are no number. -/
def noMatches : Builtins Unit := ⟨fun _ _ word => [word], fun _ => none⟩

/-- The shell of the script in a working directory. -/
def startIn (PWD : List Name) : Shell := ⟨[' ', '\n', '\t'], [], PWD, [], []⟩

/-- A directory and a file below it that are both called after a project. -/
def nested (name : Name) : FileTree Name Unit :=
  .dir (['A'] ++ name) (.file (name ++ ['.', 'h']) () .nil) .nil

/-- The directory `w` with a file and a project. -/
def projectDir (name : Name) : FileTree Name Unit :=
  .dir ['w'] (.file ['a'] () (.dir name (nested name) .nil)) .nil

/-- A project with a directory in it is renamed. -/
theorem renameLoop_replaces_nested
    : renameLoop noMatches ['d'] 2 (startIn [['w']]) (projectDir TEMPLATE_NAME)
      = some (projectDir ['d']) := by
  have hfits : ∀ isDir, ∀ n ∈ [['A'] ++ TEMPLATE_NAME, TEMPLATE_NAME ++ ['.', 'h']],
      Fits isDir n := by
    simp only [List.forall_mem_cons, List.not_mem_nil, false_implies, implies_true, and_true]
    exact fun isDir => ⟨⟨by decide, fun _ => by decide⟩, by decide, fun _ => by decide⟩
  have hcopied
      : Copied ['d'] (projectDir TEMPLATE_NAME) (startIn [['w']]).PWD (.file ['a'] () .nil)
          (nested TEMPLATE_NAME) .nil := by
    refine ⟨rfl, ?_, ?_, ?_, ?_, ?_⟩
    · intro n hn
      rw [List.mem_singleton.mp hn]
      decide
    · decide
    · exact ⟨hfits true _ (by simp), ⟨hfits false _ (by simp), trivial⟩, trivial⟩
    · simp [nested, Separated, names]
    · decide
  exact renameLoop_replaces hcopied noMatches (by decide)

/-- With a working directory whose only entry is a directory that `pushd` refuses, the walk of
that entry lists the same entry again.
-/
theorem walkdir_refused {n : Name} (hn : Visible n) (hplus : n.head? = some '+')
    {sys : Builtins Content} (hnumber : sys.legalNumber n.tail = none)
    {t es : FileTree Name Content} (depth : Nat) {sh : Shell} (hIFS : sh.IFS = ['\t', '\n'])
    (hsub : t.sub sh.PWD = some (.dir n es .nil))
    : walkdir sys t depth n sh = none := by
  induction depth generalizing sh with
  | zero => rfl
  | succ depth ih =>
      let inside : Shell := { sh with IFS := ['\t', '\n'], IFS_ORIG := sh.IFS }
      have harg : expand sys t inside n = [n] := expand_visible rfl hn sys t
      have hpushd : pushd sys t inside [n] = inside := by
        simp [pushd, hplus, hnumber]
      have hls : expand sys t inside (substitution (ls t inside)) = [n] :=
        expand_ls rfl (show t.sub inside.PWD = _ from hsub) (by simpa [names] using hn) sys
      have hdir : testDir t inside [n] = true := by
        simp [testDir, resolve_name hn.1, sub_append, inside, hsub, FileTree.sub, child]
      have hagain : walkdir sys t depth n inside = none := ih rfl hsub
      simp only [inside] at harg hpushd hls hdir hagain
      simp [walkdir, harg, hpushd, hls, walkItem, hdir, hagain]

/-- A directory whose name begins with a plus sign is walked forever, and in a working directory
with a tab in its path the first `mv` fails.
-/
theorem renameLoop_fails
    : (∀ depth,
          renameLoop noMatches ['d'] depth (startIn [])
            (.dir TEMPLATE_NAME (.dir ['+', 'x'] .nil .nil) .nil) = none)
      ∧ ∀ depth,
          renameLoop noMatches ['d'] depth (startIn [['a', '\t', 'b']])
            (.dir ['a', '\t', 'b'] (.dir TEMPLATE_NAME .nil .nil) .nil) = none := by
  have hplus : Visible ['+', 'x'] := by decide
  constructor
  · intro depth
    cases depth with
    | zero => rfl
    | succ depth =>
        have hinner
            : walkdir noMatches
                (.dir TEMPLATE_NAME (.dir ['+', 'x'] .nil .nil) .nil) depth ['+', 'x']
                ⟨['\t', '\n'], ['\t', '\n'], [TEMPLATE_NAME], [[]], []⟩
              = none :=
          walkdir_refused hplus rfl rfl depth rfl rfl
        show Option.bind (Option.map _ (Option.bind
          (walkdir noMatches _ depth ['+', 'x']
            ⟨['\t', '\n'], ['\t', '\n'], [TEMPLATE_NAME], [[]], []⟩) _)) _ = none
        rw [hinner]
        rfl
  · intro depth
    cases depth with
    | zero => rfl
    | succ depth => rfl

end Minions.Bash
