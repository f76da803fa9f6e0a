import Minions.Data.FileTree
import Minions.Data.Words

/-! What `projgen.sh` uses of the shell: unquoted expansions, which the shell splits at the
characters of `IFS` and matches against file names, the directory stack, and the programs that
take paths apart.
-/

namespace Minions.Bash

open Minions.Data

abbrev Text := List Char

/-- The name of a directory entry. -/
abbrev Name := List Char

variable {Content : Type}

/-- The shell's expansion of a file name pattern in a working directory, and its reading of a
number.
-/
structure Builtins (Content : Type) where
  glob : FileTree Name Content → List Name → Text → List Text
  legalNumber : Text → Option Int

structure Shell where
  IFS : Text
  IFS_ORIG : Text
  PWD : List Name
  /-- The directory stack below the working directory. -/
  dirstack : List (List Name)
  stdout : Text
deriving Repr, DecidableEq

def isGlobChar (c : Char) : Bool := c = '*' || c = '?' || c = '['

/-- An unquoted expansion: the words of the text, patterns among them replaced. -/
def expand (sys : Builtins Content) (t : FileTree Name Content) (sh : Shell) (text : Text)
    : List Text :=
  (words (fun c => sh.IFS.contains c) text).flatMap fun word =>
    if word.any isGlobChar then sys.glob t sh.PWD word else [word]

/-- What `$(...)` leaves of an output. -/
def substitution (output : Text) : Text := output.rdropWhile (· = '\n')

/-- A path with a slash before each name. -/
def slashed (path : List Name) : Text := path.flatMap ('/' :: ·)

/-- An absolute path. -/
def pathText (path : List Name) : Text := if path = [] then ['/'] else slashed path

/-- The path that a text stands for in a working directory. -/
def resolve (pwd : List Name) (text : Text) : List Name :=
  (text.splitOn '/').foldl
    (fun path name =>
      if name = [] ∨ name = ['.'] then path
      else if name = ['.', '.'] then path.dropLast
      else path ++ [name])
    (if text.head? = some '/' then [] else pwd)

def Shell.echo (sh : Shell) (line : Text) : Shell :=
  { sh with stdout := sh.stdout ++ (line ++ ['\n']) }

/-- The output of `ls`, which leaves hidden entries out. -/
def ls (t : FileTree Name Content) (sh : Shell) : Text :=
  unlines '\n' (((t.sub sh.PWD).elim [] FileTree.names).filter (·.head? != some '.'))

/-- `[ -d ... ]`, which is an error for several words, and true without one. -/
def testDir (t : FileTree Name Content) (sh : Shell) : List Text → Bool
  | [] => true
  | [word] => (t.sub (resolve sh.PWD word)).isSome
  | _ => false

/-- `[ ... != ... ]`, which is an error unless both sides are one word. -/
def testNe : List Text → List Text → Bool
  | [left], [right] => left != right
  | _, _ => false

/-- Bring the entry with the given number to the top of the directory stack, if there is one. -/
def Shell.rotate (sh : Shell) (k : Int) : Shell :=
  if 0 ≤ k ∧ k ≤ sh.dirstack.length then
    match (sh.PWD :: sh.dirstack).rotate k.toNat with
    | [] => sh
    | top :: rest => { sh with PWD := top, dirstack := rest }
  else sh

/-- `pushd`: a sign begins the number of an entry to rotate to. On an error, which all options
are here, nothing changes.
-/
def pushd (sys : Builtins Content) (t : FileTree Name Content) (sh : Shell)
    : List Text → Shell
  | [] =>
      match sh.dirstack with
      | [] => sh
      | top :: rest => { sh with PWD := top, dirstack := sh.PWD :: rest }
  | [arg] =>
      if arg.head? = some '+' then (sys.legalNumber arg.tail).elim sh sh.rotate
      else if arg.head? = some '-' then
        (sys.legalNumber arg.tail).elim sh fun k => sh.rotate (sh.dirstack.length - k)
      else if (t.sub (resolve sh.PWD arg)).isSome then
        { sh with PWD := resolve sh.PWD arg, dirstack := sh.PWD :: sh.dirstack }
      else sh
  | _ => sh

def popd (sh : Shell) : Shell :=
  match sh.dirstack with
  | [] => sh
  | top :: rest => { sh with PWD := top, dirstack := rest }

/-- The last name of a path. -/
def basename (path : Text) : Text :=
  match path.rdropWhile (· = '/') with
  | [] => path.take 1
  | path => path.rtakeWhile (· ≠ '/')

/-- A path without its last name. -/
def dirname (path : Text) : Text :=
  match ((path.rdropWhile (· = '/')).rdropWhile (· ≠ '/')).rdropWhile (· = '/') with
  | [] => if path.head? = some '/' then ['/'] else ['.']
  | dir => dir

/-- The text with its leftmost matches replaced, after the rest of a match is passed over. -/
def replaceFrom (pattern replacement : Text) : Nat → Text → Text
  | _, [] => []
  | skip + 1, _ :: text => replaceFrom pattern replacement skip text
  | 0, c :: text =>
      if pattern.isPrefixOf (c :: text) then
        replacement ++ replaceFrom pattern replacement (pattern.length - 1) text
      else c :: replaceFrom pattern replacement 0 text

/-- `${text//pattern/replacement}`, for a pattern that only matches itself and a replacement
without an ampersand.
-/
def replaceAll (pattern replacement text : Text) : Text :=
  replaceFrom pattern replacement 0 text

/-- `mv` of an entry to another name in its directory. A missing entry and a name in use are
errors, and no other moves occur.
-/
def mv (t : FileTree Name Content) (pwd : List Name) (source target : Text)
    : Option (FileTree Name Content) :=
  match (resolve pwd source).getLast?, (resolve pwd target).getLast? with
  | some old, some new =>
      if (resolve pwd source).dropLast = (resolve pwd target).dropLast then
        t.move (resolve pwd source).dropLast old new
      else none
  | _, _ => none

-----------------------------------------------------------------------------------------
-- Names without special characters
-----------------------------------------------------------------------------------------

/-- A character that neither separates words nor belongs to a pattern. -/
def plainChar (c : Char) : Bool := !(['\t', '\n'].contains c) && !isGlobChar c

/-- A name that stays one word and one component of a path. -/
structure Plain (n : Name) : Prop where
  nonempty : n ≠ []
  chars : ∀ c ∈ n, plainChar c = true ∧ c ≠ '/'
  notDots : n ≠ ['.'] ∧ n ≠ ['.', '.']

instance (n : Name) : Decidable (Plain n) :=
  decidable_of_iff
    (n ≠ [] ∧ n.all (fun c => plainChar c && c != '/') = true ∧ n ≠ ['.'] ∧ n ≠ ['.', '.'])
    ⟨fun h => ⟨h.1, by simpa [List.all_eq_true] using h.2.1, h.2.2⟩,
      fun h => ⟨h.nonempty, by simpa [List.all_eq_true] using h.chars, h.notDots⟩⟩

/-- No plain character separates words. -/
theorem separates_plain {sh : Shell} (hIFS : sh.IFS = ['\t', '\n']) {text : Text}
    (h : ∀ c ∈ text, plainChar c = true)
    : ∀ c ∈ text, sh.IFS.contains c = false := by
  intro c hc
  have hplain := h c hc
  simp only [plainChar, Bool.and_eq_true] at hplain
  simpa [hIFS] using hplain.1

/-- A plain text is no pattern. -/
theorem any_isGlobChar_plain {text : Text} (h : ∀ c ∈ text, plainChar c = true)
    : text.any isGlobChar = false := by
  rw [List.any_eq_false]
  intro c hc
  have hplain := h c hc
  simp only [plainChar, Bool.and_eq_true] at hplain
  simpa using hplain.2

/-- Words without special characters are not matched against names. -/
theorem expand_words {sh : Shell} {text : Text} {lines : List Text}
    (hwords : words (fun c => sh.IFS.contains c) text = lines)
    (h : ∀ line ∈ lines, ∀ c ∈ line, plainChar c = true) (sys : Builtins Content)
    (t : FileTree Name Content)
    : expand sys t sh text = lines := by
  rw [expand, hwords]
  clear hwords
  induction lines with
  | nil => rfl
  | cons line lines ih =>
      simp only [List.forall_mem_cons] at h
      rw [List.flatMap_cons, any_isGlobChar_plain h.1, ih h.2]
      rfl

/-- A plain text that is not empty expands to one word. -/
theorem expand_plain {sh : Shell} (hIFS : sh.IFS = ['\t', '\n']) {text : Text}
    (hne : text ≠ []) (h : ∀ c ∈ text, plainChar c = true) (sys : Builtins Content)
    (t : FileTree Name Content)
    : expand sys t sh text = [text] :=
  expand_words (words_singleton hne (separates_plain hIFS h)) (by simpa using h) sys t

/-- Lines without special characters are the words of an output. -/
theorem expand_unlines {sh : Shell} (hIFS : sh.IFS = ['\t', '\n']) {lines : List Text}
    (h : ∀ line ∈ lines, line ≠ [] ∧ ∀ c ∈ line, plainChar c = true) (sys : Builtins Content)
    (t : FileTree Name Content)
    : expand sys t sh (substitution (unlines '\n' lines)) = lines := by
  refine expand_words ?_ (fun line hl => (h line hl).2) sys t
  rw [substitution, words_rdropWhile (by simp [hIFS])]
  exact words_unlines (by simp [hIFS])
    fun line hl => ⟨(h line hl).1, separates_plain hIFS (h line hl).2⟩

/-- A name has no slash to split at. -/
theorem splitOn_name {n : Name} (hn : Plain n) : n.splitOn '/' = [n] := by
  rw [List.splitOn_eq_splitOnP]
  exact List.splitOnP_eq_singleton fun c hc => by simpa using (hn.chars c hc).2

/-- An absolute path splits into its names. -/
theorem splitOn_slashed {path : List Name} (h : ∀ n ∈ path, Plain n)
    : (slashed path).splitOn '/' = [] :: path := by
  induction path with
  | nil => rfl
  | cons n path ih =>
      simp only [List.forall_mem_cons] at h
      have hn : ∀ c ∈ n, (c == '/') = false := fun c hc => by simpa using (h.1.chars c hc).2
      have hrest := ih h.2
      rw [List.splitOn_eq_splitOnP] at hrest ⊢
      have hcons : slashed (n :: path) = [] ++ '/' :: (n ++ slashed path) := by simp [slashed]
      rw [hcons, List.splitOnP_append_cons _ _ (by simp), splitOnP_append_modifyHead hn, hrest]
      simp [List.splitOnP_nil]

/-- Plain names are appended to the path as they are. -/
theorem resolve_foldl {names : List Name} (h : ∀ n ∈ names, Plain n) (start : List Name)
    : names.foldl
        (fun path name =>
          if name = [] ∨ name = ['.'] then path
          else if name = ['.', '.'] then path.dropLast
          else path ++ [name])
        start
      = start ++ names := by
  induction names generalizing start with
  | nil => simp
  | cons n names ih =>
      simp only [List.forall_mem_cons] at h
      simp [h.1.nonempty, h.1.notDots.1, h.1.notDots.2, ih h.2]

/-- A name is resolved below the working directory. -/
theorem resolve_name {n : Name} (hn : Plain n) (pwd : List Name)
    : resolve pwd n = pwd ++ [n] := by
  have hhead : n.head? ≠ some '/' := by
    intro h
    exact (hn.chars '/' (List.mem_of_mem_head? h)).2 rfl
  rw [resolve, splitOn_name hn, if_neg hhead, resolve_foldl (by simpa using hn)]

/-- An absolute path is resolved to itself. -/
theorem resolve_slashed {path : List Name} (hne : path ≠ []) (h : ∀ n ∈ path, Plain n)
    (pwd : List Name)
    : resolve pwd (slashed path) = path := by
  have hhead : (slashed path).head? = some '/' := by
    cases path with
    | nil => exact absurd rfl hne
    | cons n path => rfl
  rw [resolve, splitOn_slashed h, if_pos hhead, List.foldl_cons, if_pos (Or.inl rfl),
    resolve_foldl h]
  rfl

/-- Nothing is left of a text that is skipped. -/
theorem replaceFrom_skip (pattern replacement : Text) {skip : Nat} {text : Text}
    (h : text.length ≤ skip)
    : replaceFrom pattern replacement skip text = [] := by
  induction text generalizing skip with
  | nil => cases skip <;> rfl
  | cons c text ih =>
      cases skip with
      | zero => simp at h
      | succ skip => exact ih (by simpa using h)

/-- Replacing a text in itself gives the replacement. -/
theorem replaceAll_self {pattern : Text} (h : pattern ≠ []) (replacement : Text)
    : replaceAll pattern replacement pattern = replacement := by
  cases pattern with
  | nil => exact absurd rfl h
  | cons c pattern => simp [replaceAll, replaceFrom, replaceFrom_skip]

/-- A character of the result comes from the replacement or from the text. -/
theorem mem_replaceFrom {pattern replacement : Text} {skip : Nat} {text : Text} {c : Char}
    (h : c ∈ replaceFrom pattern replacement skip text)
    : c ∈ replacement ∨ c ∈ text := by
  induction text generalizing skip with
  | nil => cases skip <;> simp [replaceFrom] at h
  | cons d text ih =>
      cases skip with
      | succ skip => exact (ih h).imp_right (List.mem_cons_of_mem d)
      | zero =>
          by_cases hp : pattern.isPrefixOf (d :: text)
          · simp only [replaceFrom, hp, if_true, List.mem_append] at h
            rcases h with h | h
            · exact Or.inl h
            · exact (ih h).imp_right (List.mem_cons_of_mem d)
          · simp only [replaceFrom, hp, Bool.false_eq_true, if_false, List.mem_cons] at h
            rcases h with rfl | h
            · exact Or.inr List.mem_cons_self
            · exact (ih h).imp_right (List.mem_cons_of_mem d)

/-- A replaced text begins as the text or as the replacement. -/
theorem head_replaceAll {replacement text : Text} (hr : replacement ≠ []) (ht : text ≠ [])
    (pattern : Text)
    : (replaceAll pattern replacement text).head? = replacement.head?
      ∨ (replaceAll pattern replacement text).head? = text.head? := by
  cases text with
  | nil => exact absurd rfl ht
  | cons c text =>
      by_cases hp : pattern.isPrefixOf (c :: text)
      · left
        cases replacement with
        | nil => exact absurd rfl hr
        | cons d replacement => simp [replaceAll, replaceFrom, hp]
      · right
        simp [replaceAll, replaceFrom, hp]

/-- A plain name that `ls` lists. -/
def Visible (n : Name) : Prop := Plain n ∧ n.head? ≠ some '.'

instance (n : Name) : Decidable (Visible n) := inferInstanceAs (Decidable (_ ∧ _))

/-- A name of plain characters that does not start with a dot is visible. -/
theorem visible_of_head {n : Name} (hne : n ≠ [])
    (hchars : ∀ c ∈ n, plainChar c = true ∧ c ≠ '/') (hhead : n.head? ≠ some '.')
    : Visible n := by
  refine ⟨⟨hne, hchars, ?_, ?_⟩, hhead⟩
  · rintro rfl
    exact hhead rfl
  · rintro rfl
    exact hhead rfl

/-- Replacement of parts of a visible name by a visible one keeps it visible. -/
theorem visible_replaceAll {replacement n : Name} (hr : Visible replacement) (hn : Visible n)
    (pattern : Text)
    : Visible (replaceAll pattern replacement n) := by
  have hhead := head_replaceAll hr.1.nonempty hn.1.nonempty pattern
  have hne : replaceAll pattern replacement n ≠ [] := by
    intro hnil
    rw [hnil] at hhead
    rcases hhead with h | h
    · exact hr.1.nonempty (List.head?_eq_none_iff.mp h.symm)
    · exact hn.1.nonempty (List.head?_eq_none_iff.mp h.symm)
  refine visible_of_head hne (fun c hc => ?_) ?_
  · rcases mem_replaceFrom hc with hc | hc
    · exact hr.1.chars c hc
    · exact hn.1.chars c hc
  · rcases hhead with h | h
    · rw [h]
      exact hr.2
    · rw [h]
      exact hn.2

-----------------------------------------------------------------------------------------
-- Paths of plain names
-----------------------------------------------------------------------------------------

/-- The text of a path with one more name. -/
theorem slashed_concat (path : List Name) (n : Name)
    : slashed (path ++ [n]) = slashed path ++ '/' :: n := by
  simp [slashed]

/-- A text that ends with a name has no slash at its end. -/
theorem rdropWhile_slash_append {n : Name} (hn : Plain n) (text : Text)
    : (text ++ n).rdropWhile (· = '/') = text ++ n := by
  rw [List.rdropWhile_eq_self_iff]
  intro hne
  have hlast := n.getLast_mem hn.nonempty
  simpa [List.getLast_append_of_ne_nil _ hn.nonempty] using (hn.chars _ hlast).2

/-- An absolute path of names has no slash at its end. -/
theorem rdropWhile_slash_slashed {path : List Name} (h : ∀ n ∈ path, Plain n)
    : (slashed path).rdropWhile (· = '/') = slashed path := by
  induction path using List.reverseRecOn with
  | nil => rfl
  | append_singleton path n _ =>
      have hn : Plain n := h n (by simp)
      have hsplit : slashed (path ++ [n]) = (slashed path ++ ['/']) ++ n := by
        simp [slashed_concat]
      rw [hsplit, rdropWhile_slash_append hn]

/-- No character of a name is a slash. -/
theorem name_ne_slash {n : Name} (hn : Plain n) : ∀ c ∈ n, decide (c ≠ '/') = true :=
  fun c hc => by simpa using (hn.chars c hc).2

/-- `basename` is the last name of a path. -/
theorem basename_slashed {n : Name} (hn : Plain n) (path : List Name)
    : basename (slashed (path ++ [n])) = n := by
  have hsplit : slashed (path ++ [n]) = (slashed path ++ ['/']) ++ n := by
    simp [slashed_concat]
  rw [basename, hsplit, rdropWhile_slash_append hn]
  have hne : slashed path ++ ['/'] ++ n ≠ [] := by simp
  have htake : (slashed path ++ ['/'] ++ n).rtakeWhile (· ≠ '/') = n := by
    have hrev : ∀ c ∈ n.reverse, decide (c ≠ '/') = true := by
      simpa using name_ne_slash hn
    simp only [List.rtakeWhile, List.reverse_append, List.takeWhile_append_of_pos hrev]
    simp
  split
  · next h => exact absurd h hne
  · exact htake

/-- `dirname` is the path without its last name. -/
theorem dirname_slashed {n : Name} (hn : Plain n) {path : List Name} (h : ∀ n ∈ path, Plain n)
    : dirname (slashed (path ++ [n])) = pathText path := by
  have hsplit : slashed (path ++ [n]) = (slashed path ++ ['/']) ++ n := by
    simp [slashed_concat]
  have hdrop : (slashed path ++ ['/'] ++ n).rdropWhile (· ≠ '/') = slashed path ++ ['/'] := by
    have hrev : ∀ c ∈ n.reverse, decide (c ≠ '/') = true := by
      simpa using name_ne_slash hn
    simp only [List.rdropWhile, List.reverse_append, List.dropWhile_append_of_pos hrev]
    simp
  have hhead : (slashed path ++ ['/'] ++ n).head? = some '/' := by
    cases path <;> simp [slashed]
  rw [dirname, hsplit, rdropWhile_slash_append hn, hdrop,
    List.rdropWhile_concat_pos _ _ _ (by simp), rdropWhile_slash_slashed h, hhead]
  cases path with
  | nil => rfl
  | cons m path => simp [slashed, pathText]

/-- The paths that the renaming loop puts together lead to an entry of one directory. -/
theorem mv_slashed {path : List Name} (h : ∀ n ∈ path, Plain n) {old new : Name}
    (hold : Plain old) (hnew : Plain new) (t : FileTree Name Content) (pwd : List Name)
    : mv t pwd (slashed (path ++ [old])) (pathText path ++ '/' :: new)
      = t.move path old new := by
  have hplain : ∀ n, Plain n → ∀ m ∈ path ++ [n], Plain m := by
    intro n hn m hm
    rcases List.mem_append.mp hm with hm | hm
    · exact h m hm
    · rwa [List.mem_singleton.mp hm]
  have hsource := resolve_slashed (by simp) (hplain old hold) pwd
  have htarget : resolve pwd (pathText path ++ '/' :: new) = path ++ [new] := by
    cases path with
    | nil =>
        have hone := resolve_slashed (by simp) (hplain new hnew) pwd
        have hsplit : (pathText [] ++ '/' :: new).splitOn '/' = [] :: [] :: [new] := by
          have hnil : pathText [] ++ '/' :: new = [] ++ '/' :: ([] ++ '/' :: new) := rfl
          have hname := splitOn_name hnew
          rw [List.splitOn_eq_splitOnP] at hname ⊢
          rw [hnil, List.splitOnP_append_cons _ _ (by simp),
            List.splitOnP_append_cons _ _ (by simp), hname]
          rfl
        rw [resolve, hsplit, List.foldl_cons, List.foldl_cons,
          resolve_foldl (by simpa using hnew)]
        rfl
    | cons m path =>
        have htext : pathText (m :: path) ++ '/' :: new = slashed (m :: path ++ [new]) := by
          rw [slashed_concat, pathText, if_neg (by simp)]
        rw [htext, resolve_slashed (by simp) (hplain new hnew)]
  simp [mv, hsource, htarget]

end Minions.Bash
