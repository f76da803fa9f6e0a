import Minions.Data.Runs
import Minions.Unp.InetGrammar

/-! Addresses as text, written: `libfree/inet_ntop.c`, and that `inet_pton` reads it back. -/

namespace Minions.Unp.Inet

open Minions.Data
open Minions.Unp.Gai (Family)

/-- `"%u.%u.%u.%u"`. -/
def fmt (src : List Byte) : List Byte :=
  decimal (src.getD 0 0).toNat ++ ascii '.' :: (decimal (src.getD 1 0).toNat
    ++ ascii '.' :: (decimal (src.getD 2 0).toNat
    ++ ascii '.' :: decimal (src.getD 3 0).toNat))

/-- The bytes that `strcpy(dst, tmp)` stores, its NUL the last. -/
def inetNtop4 (src : List Byte) (size : Nat) : Except Errno (List Byte) :=
  let tmp := fmt src
  if tmp.length > size then .error .ENOSPC else .ok (tmp ++ [0])

/-- The bytewise array copied into a wordwise array. -/
def words16 : List Byte → List Nat
  | high :: low :: src => (high.toNat <<< 8 ||| low.toNat) :: words16 src
  | _ => []

/-- A run of zero words; a `base` of -1 in the source is no run. -/
structure Run where
  base : Nat
  len : Nat
deriving DecidableEq

/-- The variables of the search for the longest run. -/
structure Search where
  best : Option Run := none
  cur : Option Run := none

/-- The run that ends is kept if it is longer than the best. -/
def Search.close (s : Search) : Search :=
  match s.cur with
  | none => s
  | some cur =>
      match s.best with
      | none => { best := some cur, cur := none }
      | some best => { best := if cur.len > best.len then some cur else some best, cur := none }

def Search.step (s : Search) (i word : Nat) : Search :=
  if word = 0 then
    match s.cur with
    | none => { s with cur := some ⟨i, 1⟩ }
    | some cur => { s with cur := some { cur with len := cur.len + 1 } }
  else s.close

/-- The loop over the words from `i` on. -/
def Search.loop (s : Search) (i : Nat) : List Nat → Search
  | [] => s
  | word :: words => (s.step i word).loop (i + 1) words

/-- The run to shorten with `::`. -/
def bestRun (words : List Nat) : Option Run :=
  ((Search.loop {} 0 words).close.best).filter fun best => !(best.len < 2)

/-- `sizeof tmp`. -/
def tmpSize : Nat := 46

/-- Are we inside the best run of 0x00's? -/
def insideBest (best : Option Run) (i : Nat) : Bool :=
  match best with
  | none => false
  | some best => best.base ≤ i && i < best.base + best.len

/-- Is this address an encapsulated IPv4? -/
def encapsulated (best : Option Run) (fifth i : Nat) : Bool :=
  match best with
  | none => false
  | some best =>
      i = 6 && best.base = 0 && (best.len = 6 || (best.len = 5 && fifth = 0xffff))

/-- Format the result: the loop over the words from `i` on, with the text so far. -/
def format (src : List Byte) (best : Option Run) (fifth : Nat) (i : Nat)
    : List Nat → List Byte → Except Errno (List Byte)
  | [], tmp => .ok tmp
  | word :: words, tmp =>
      if insideBest best i then
        format src best fifth (i + 1) words
          (if best.map (·.base) = some i then tmp ++ [ascii ':'] else tmp)
      else
        let tmp := if i ≠ 0 then tmp ++ [ascii ':'] else tmp
        if encapsulated best fifth i then
          match inetNtop4 (src.drop 12) (tmpSize - tmp.length) with
          | .ok text => .ok (tmp ++ text.takeWhile (· ≠ 0))
          | .error errno => .error errno
        else format src best fifth (i + 1) words (tmp ++ hex word)

def inetNtop6 (src : List Byte) (size : Nat) : Except Errno (List Byte) :=
  let words := words16 src
  let best := bestRun words
  match format src best (words.getD 5 0) 0 words [] with
  | .error errno => .error errno
  | .ok text =>
      -- Was it a trailing run of 0x00's?
      let text :=
        if best.map (fun best => best.base + best.len) = some (IN6ADDRSZ / INT16SZ) then
          text ++ [ascii ':']
        else text
      let tmp := text ++ [0]
      if tmp.length > size then .error .ENOSPC else .ok tmp

/-- `inet_ntop`: the bytes it stores at `dst`, or the error. -/
def inetNtop (af : Family) (src : List Byte) (size : Nat) : Except Errno (List Byte) :=
  match af with
  | .inet => inetNtop4 src size
  | .inet6 => inetNtop6 src size
  | _ => .error .EAFNOSUPPORT

-----------------------------------------------------------------------------------------
-- The run that is shortened
-----------------------------------------------------------------------------------------

def Run.pair (run : Run) : Nat × Nat := (run.base, run.len)

/-- The variables of the search after the words `seen`: the zeros at their end are the current
run, and the best run is that of the words before them.
-/
def Search.Describes (seen : List Nat) (s : Search) : Prop :=
  ∃ before block, seen = before ++ block ∧ (∀ word ∈ block, word = 0)
    ∧ (∀ word ∈ before.getLast?, word ≠ 0)
    ∧ FirstLongest (· = 0) before (s.best.map Run.pair)
    ∧ s.cur = if block = [] then none else some ⟨before.length, block.length⟩

/-- At the end the best run is the first longest. -/
theorem Search.close_longest {seen : List Nat} {s : Search} (describes : s.Describes seen)
    : FirstLongest (· = 0) seen (s.close.best.map Run.pair) ∧ s.close.cur = none := by
  obtain ⟨before, block, rfl, zeros, ends, longest, cur⟩ := describes
  by_cases empty : block = []
  · rw [if_pos empty] at cur
    simpa [Search.close, cur, empty] using longest
  · rw [if_neg empty] at cur
    have closed := longest.close ends empty zeros
    cases best : s.best with
    | none => simpa [Search.close, cur, best, Run.pair] using closed
    | some run =>
        by_cases longer : run.len < block.length
        · simpa [Search.close, cur, best, Run.pair, longer] using closed
        · simpa [Search.close, cur, best, Run.pair, longer] using closed

/-- A step of the search describes one more word. -/
theorem Search.step_describes {seen : List Nat} {s : Search} (describes : s.Describes seen)
    (word : Nat)
    : (s.step seen.length word).Describes (seen ++ [word]) := by
  by_cases zero : word = 0
  · obtain ⟨before, block, rfl, zeros, ends, longest, cur⟩ := describes
    have more : ∀ w ∈ block ++ [word], w = 0 := by
      intro w member
      rcases List.mem_append.mp member with old | new
      · exact zeros w old
      · rw [List.mem_singleton.mp new, zero]
    by_cases empty : block = []
    · rw [if_pos empty] at cur
      refine ⟨before, block ++ [word], by simp, more, ends, ?_, ?_⟩
      · simpa [Search.step, zero, cur] using longest
      · simp [Search.step, zero, cur, empty]
    · rw [if_neg empty] at cur
      refine ⟨before, block ++ [word], by simp, more, ends, ?_, ?_⟩
      · simpa [Search.step, zero, cur] using longest
      · simp [Search.step, zero, cur]
  · obtain ⟨longest, cur⟩ := Search.close_longest describes
    refine ⟨seen ++ [word], [], by simp, by simp, by simpa using zero, ?_, ?_⟩
    · simpa [Search.step, zero] using FirstLongest.snoc (p := (· = 0)) zero longest
    · simp [Search.step, zero, cur]

/-- The loop describes all words. -/
theorem Search.loop_describes {seen : List Nat} {s : Search} (describes : s.Describes seen)
    (words : List Nat)
    : (s.loop seen.length words).Describes (seen ++ words) := by
  induction words generalizing seen s with
  | nil => simpa [Search.loop] using describes
  | cons word words ih =>
      have next := ih (Search.step_describes describes word)
      simpa [Search.loop] using next

/-- The search finds the first longest run of zeros. -/
theorem longest_found (words : List Nat)
    : FirstLongest (· = 0) words ((Search.loop {} 0 words).close.best.map Run.pair) := by
  have start : Search.Describes [] {} :=
    ⟨[], [], rfl, by simp, by simp,
      fun base len run => by have := run.1; simp at this; omega, rfl⟩
  simpa using (Search.close_longest (Search.loop_describes start words)).1

/-- The run that is shortened is the first of the longest runs of zeros, of two at least. -/
theorem bestRun_some {words : List Nat} {run : Run} (found : bestRun words = some run)
    : 2 ≤ run.len ∧ FirstLongest (· = 0) words (some run.pair) := by
  obtain ⟨best, long⟩ := Option.filter_eq_some_iff.mp found
  have longest := longest_found words
  rw [best] at longest
  refine ⟨?_, longest⟩
  simp at long
  omega

-----------------------------------------------------------------------------------------
-- The text
-----------------------------------------------------------------------------------------

/-- Words with a colon before each. -/
def following (words : List Nat) : List Byte := words.flatMap fun word => ascii ':' :: hex word

/-- Words with colons between them. -/
def joined : List Nat → List Byte
  | [] => []
  | word :: words => hex word ++ following words

/-- No words follow. -/
@[simp]
theorem following_nil : following [] = [] := rfl

/-- A word that follows has a colon before it. -/
@[simp]
theorem following_cons (word : Nat) (words : List Nat)
    : following (word :: words) = ascii ':' :: (hex word ++ following words) := by
  simp [following]

/-- The same text, the colons counted to the words before them. -/
theorem hex_following (word : Nat) (words : List Nat)
    : hex word ++ following words ++ [ascii ':'] = unlines (ascii ':') ((word :: words).map hex) := by
  induction words generalizing word with
  | nil => simp
  | cons next words ih =>
      have rest := ih next
      rw [List.map_cons, unlines_cons, ← rest]
      simp

/-- The last word that follows. -/
theorem following_snoc (words : List Nat) (last : Nat)
    : following (words ++ [last])
      = ascii ':' :: (unlines (ascii ':') (words.map hex) ++ hex last) := by
  induction words with
  | nil => simp
  | cons word words ih => simp [ih]

/-- The last of the joined words. -/
theorem joined_snoc (words : List Nat) (last : Nat)
    : joined (words ++ [last]) = unlines (ascii ':') (words.map hex) ++ hex last := by
  cases words with
  | nil => simp [joined]
  | cons word words => simp [joined, following_snoc]

section Format

variable {src : List Byte} {best : Option Run} {fifth : Nat}

/-- Words outside the run, none of them where an IPv4 address begins. -/
theorem format_plain {i : Nat} (words rest : List Nat) (tmp : List Byte)
    (outside : ∀ j, i ≤ j → j < i + words.length → insideBest best j = false)
    (plain : ∀ j, i ≤ j → j < i + words.length → encapsulated best fifth j = false)
    (started : i ≠ 0)
    : format src best fifth i (words ++ rest) tmp
      = format src best fifth (i + words.length) rest (tmp ++ following words) := by
  induction words generalizing i tmp with
  | nil => simp
  | cons word words ih =>
      have here := outside i (Nat.le_refl _) (by simp)
      have four := plain i (Nat.le_refl _) (by simp)
      have next := ih (i := i + 1) (tmp ++ [ascii ':'] ++ hex word)
        (fun j low high => outside j (by omega) (by simp; omega))
        (fun j low high => plain j (by omega) (by simp; omega)) (by omega)
      simp only [List.cons_append, format, here, Bool.false_eq_true, if_false, four, started,
        ne_eq, not_false_eq_true, if_true]
      rw [next, show i + 1 + words.length = i + (word :: words).length by simp; omega]
      simp

/-- The words before the run, from the first on. -/
theorem format_start (words rest : List Nat)
    (outside : ∀ j, j < words.length → insideBest best j = false)
    (plain : ∀ j, j < words.length → encapsulated best fifth j = false)
    : format src best fifth 0 (words ++ rest) []
      = format src best fifth words.length rest (joined words) := by
  cases words with
  | nil => rfl
  | cons word words =>
      have here := outside 0 (by simp)
      have four := plain 0 (by simp)
      have next := @format_plain src best fifth 1 words rest (hex word)
        (fun j low high => outside j (by simp; omega))
        (fun j low high => plain j (by simp; omega)) (by omega)
      simp only [List.cons_append, format, here, Bool.false_eq_true, if_false, four, ne_eq,
        not_true_eq_false, List.nil_append]
      rw [next, show 1 + words.length = (word :: words).length by simp; omega]
      rfl

/-- The words of the run give one colon. -/
theorem format_run {run : Run} (words rest : List Nat) (tmp : List Byte)
    (size : words.length = run.len) (pos : 0 < run.len)
    : format src (some run) fifth run.base (words ++ rest) tmp
      = format src (some run) fifth (run.base + run.len) rest (tmp ++ [ascii ':']) := by
  have behind : ∀ (more : List Nat) (i : Nat) (text : List Byte), run.base < i →
      i + more.length ≤ run.base + run.len →
      format src (some run) fifth i (more ++ rest) text
        = format src (some run) fifth (i + more.length) rest text := by
    intro more
    induction more with
    | nil => simp
    | cons word more ih =>
        intro i text low high
        simp only [List.length_cons] at high
        have here : insideBest (some run) i = true := by
          simp [insideBest]
          omega
        have first : ¬ run.base = i := by omega
        simp only [List.cons_append, format, here, if_true, Option.map_some, Option.some.injEq,
          first, if_false]
        rw [ih (i + 1) text (by omega) (by omega), List.length_cons]
        congr 1
        omega
  obtain ⟨word, more, rfl⟩ := List.exists_cons_of_ne_nil
    (show words ≠ [] by rintro rfl; simp at size; omega)
  have here : insideBest (some run) run.base = true := by
    simp [insideBest, pos]
  simp only [List.length_cons] at size
  simp only [List.cons_append, format, here, if_true, Option.map_some]
  rw [behind more (run.base + 1) _ (by omega) (by omega)]
  congr 1
  omega

end Format

-----------------------------------------------------------------------------------------
-- The text denotes the address
-----------------------------------------------------------------------------------------

/-- The two bytes of a word. -/
def wordBytes (word : Nat) : List Byte := [UInt8.ofNat (word >>> 8), UInt8.ofNat word]

/-- The group of a word has its two bytes. -/
theorem groupBytes_hex (word : Nat) : groupBytes (hex word) = wordBytes word := by
  simp [groupBytes, wordBytes, hexValue_hex]

/-- The groups of the words have their bytes. -/
theorem flatMap_groupBytes (words : List Nat)
    : (words.map hex).flatMap groupBytes = words.flatMap wordBytes := by
  simp [List.flatMap_map, groupBytes_hex]

/-- Each word has two bytes. -/
theorem length_wordBytes (words : List Nat)
    : (words.flatMap wordBytes).length = 2 * words.length := by
  induction words with
  | nil => rfl
  | cons word words ih =>
      simp only [List.flatMap_cons, List.length_append, ih, wordBytes, List.length_cons,
        List.length_nil]
      omega

/-- The value of a word is that of its bytes. -/
theorem word_value (high low : Byte)
    : high.toNat <<< 8 ||| low.toNat = 256 * high.toNat + low.toNat := by
  rw [← Nat.shiftLeft_add_eq_or_of_lt (show low.toNat < 2 ^ 8 from low.toNat_lt),
    Nat.shiftLeft_eq]
  omega

/-- The bytes of a word are those that it was made of. -/
theorem wordBytes_word (high low : Byte)
    : wordBytes (high.toNat <<< 8 ||| low.toNat) = [high, low] := by
  have bound := low.toNat_lt
  have front : (256 * high.toNat + low.toNat) >>> 8 = high.toNat := by
    rw [Nat.shiftRight_eq_div_pow]
    omega
  have back : UInt8.ofNat (256 * high.toNat + low.toNat) = low := by
    apply UInt8.toNat_inj.mp
    rw [UInt8.toNat_ofNat']
    omega
  rw [word_value, wordBytes, front, back]
  simp

/-- The words of an address, and back; by two bytes at a time. -/
theorem words16_bytes {n : Nat} {src : List Byte} (size : src.length = 2 * n)
    : (words16 src).length = n ∧ (words16 src).flatMap wordBytes = src
      ∧ ∀ word ∈ words16 src, word < 65536 := by
  induction n generalizing src with
  | zero =>
      have empty : src = [] := List.length_eq_zero_iff.mp size
      simp [empty, words16]
  | succ n ih =>
      obtain _ | ⟨high, _ | ⟨low, src⟩⟩ := src
      · simp at size
      · simp at size
        omega
      · obtain ⟨length, bytes, small⟩ := @ih src (by simp at size; omega)
        refine ⟨by simp [words16, length], ?_, ?_⟩
        · simp [words16, wordBytes_word, bytes]
        · intro word member
          rcases List.mem_cons.mp member with rfl | member
          · have := high.toNat_lt
            have := low.toNat_lt
            rw [word_value]
            omega
          · exact small word member

/-- A word of 16 bits makes a group. -/
theorem hex_group {word : Nat} (small : word < 65536) : Group (hex word) :=
  ⟨hex_ne_nil word, hexDigits_hex word, by rw [hexValue_hex]; omega⟩

/-- Words of 16 bits make groups. -/
theorem hex_groups {words : List Nat} (small : ∀ word ∈ words, word < 65536)
    : ∀ group ∈ words.map hex, Group group := by
  intro group member
  obtain ⟨word, here, rfl⟩ := List.mem_map.mp member
  exact hex_group (small word here)

/-- A byte makes an octet. -/
theorem decimal_octet (b : Byte) : Octet (decimal b.toNat) := by
  have bound := b.toNat_lt
  refine ⟨decimal_ne_nil _, fun c member => decimal_isDigit member, ?_⟩
  rw [digitsValue_decimal]
  omega

/-- The text of an IPv4 address is its dotted quad. -/
theorem fmt_quad {src : List Byte} (size : src.length = INADDRSZ) : DottedQuad (fmt src) src := by
  obtain ⟨a, b, c, d, rfl⟩ : ∃ a b c d, src = [a, b, c, d] := List.length_eq_four.mp size
  refine ⟨[decimal a.toNat, decimal b.toNat, decimal c.toNat], decimal d.toNat, rfl, ?_,
    decimal_octet d, by simp [fmt], ?_⟩
  · intro group member
    simp only [List.mem_cons, List.not_mem_nil, or_false] at member
    rcases member with rfl | rfl | rfl
    · exact decimal_octet a
    · exact decimal_octet b
    · exact decimal_octet c
  · simp [octetByte, digitsValue_decimal]

/-- The words around a run of zeros and the text with `::` for the run. -/
theorem squeezed_denotes {pre zeros mid : List Nat} {ending bytes src : List Byte}
    (small : ∀ word ∈ pre ++ mid, word < 65536) (all : ∀ word ∈ zeros, word = 0)
    (long : 1 ≤ zeros.length) (last : Ending ending bytes)
    (size : src.length = IN6ADDRSZ)
    (whole : src = pre.flatMap wordBytes ++ (zeros.flatMap wordBytes
      ++ (mid.flatMap wordBytes ++ bytes)))
    : Denotes6 (joined pre ++ [ascii ':'] ++ ascii ':' :: (unlines (ascii ':') (mid.map hex)
        ++ ending)) src := by
  have lead : joined pre ++ [ascii ':']
      = if pre.map hex = [] then [ascii ':'] else unlines (ascii ':') (pre.map hex) := by
    cases pre with
    | nil => rfl
    | cons word pre =>
        rw [if_neg (by simp), ← hex_following]
        rfl
  have zeroBytes : zeros.flatMap wordBytes = List.replicate (2 * zeros.length) 0 := by
    rw [List.eq_replicate_iff]
    refine ⟨length_wordBytes zeros, fun b member => ?_⟩
    obtain ⟨word, here, inside⟩ := List.mem_flatMap.mp member
    rw [all word here] at inside
    simpa [wordBytes] using inside
  have counts := congrArg List.length whole
  simp only [size, List.length_append, length_wordBytes] at counts
  have denotes := @Denotes6.squeezed (pre.map hex) (mid.map hex) ending bytes
    (hex_groups fun word member => small word (List.mem_append_left _ member))
    (hex_groups fun word member => small word (List.mem_append_right _ member)) last
    (by simp only [flatMap_groupBytes, List.length_append, length_wordBytes]; omega)
  have value : expand ((pre.map hex).flatMap groupBytes)
      ((mid.map hex).flatMap groupBytes ++ bytes) = src := by
    have gap : IN6ADDRSZ - (2 * pre.length + (2 * mid.length + bytes.length))
        = 2 * zeros.length := by omega
    rw [expand, if_pos (by simp only [flatMap_groupBytes, List.length_append, length_wordBytes]
                           omega)]
    simp only [flatMap_groupBytes, List.length_append, length_wordBytes]
    rw [gap, ← zeroBytes, whole, List.append_assoc]
  rw [value, ← lead] at denotes
  exact denotes

-----------------------------------------------------------------------------------------
-- Texts are strings
-----------------------------------------------------------------------------------------

/-- Lines without null characters. -/
theorem unlines_nonzero {eol : Byte} {lines : List (List Byte)} (eolNonzero : eol ≠ 0)
    (each : ∀ line ∈ lines, ∀ b ∈ line, b ≠ 0)
    : ∀ b ∈ unlines eol lines, b ≠ 0 := by
  intro b member
  obtain ⟨line, here, inside⟩ := List.mem_flatMap.mp member
  rcases List.mem_append.mp inside with old | last
  · exact each line here b old
  · rw [List.mem_singleton.mp last]
    exact eolNonzero

/-- An octet has no null character. -/
theorem Octet.nonzero {group : List Byte} (octet : Octet group) : ∀ b ∈ group, b ≠ 0 := by
  rintro b member rfl
  have := octet.2.1 0 member
  simp [isDigit] at this

/-- A dotted quad has no null character. -/
theorem DottedQuad.nonzero {text addr : List Byte} (quad : DottedQuad text addr)
    : ∀ b ∈ text, b ≠ 0 := by
  obtain ⟨front, last, _, octets, octet, rfl, _⟩ := quad
  intro b member
  rcases List.mem_append.mp member with before | after
  · exact unlines_nonzero (by decide) (fun group here => (octets group here).nonzero) b before
  · exact octet.nonzero b after

/-- A group has no null character. -/
theorem Group.nonzero {group : List Byte} (shape : Group group) : ∀ b ∈ group, b ≠ 0 := by
  rintro b member rfl
  have := shape.2.1 0 member
  simp [hexVal, isDigit] at this

/-- An ending has no null character. -/
theorem Ending.nonzero {text bytes : List Byte} (last : Ending text bytes)
    : ∀ b ∈ text, b ≠ 0 := by
  cases last with
  | nothing => simp
  | group group => exact group.nonzero
  | quad quad => exact quad.nonzero

/-- No text of the grammar holds a NUL. -/
theorem Denotes6.nonzero {text addr : List Byte} (denotes : Denotes6 text addr)
    : ∀ b ∈ text, b ≠ 0 := by
  have colon : ascii ':' ≠ 0 := by decide
  have parts : ∀ groups ending bytes, (∀ group ∈ groups, Group group) → Ending ending bytes
      → ∀ b ∈ unlines (ascii ':') groups ++ ending, b ≠ 0 := by
    intro groups ending bytes each last b member
    rcases List.mem_append.mp member with before | after
    · exact unlines_nonzero colon (fun group here => (each group here).nonzero) b before
    · exact last.nonzero b after
  cases denotes with
  | full each last size => exact parts _ _ _ each last
  | @squeezed before after ending bytes each each' last size =>
      intro b member
      rcases List.mem_append.mp member with front | back
      · split at front
        · rw [List.mem_singleton.mp front]
          exact colon
        · exact unlines_nonzero colon (fun group here => (each group here).nonzero) b front
      · rcases List.mem_cons.mp back with rfl | back
        · exact colon
        · exact parts _ _ _ each' last b back

/-- A string ends at its null character. -/
theorem takeWhile_string {text : List Byte} (string : ∀ b ∈ text, b ≠ 0)
    : (text ++ [0]).takeWhile (· ≠ 0) = text := by
  rw [List.takeWhile_append_of_pos (by simpa using string)]
  simp

/-- A dotted quad has at most 15 characters. -/
theorem fmt_length (src : List Byte) : (fmt src).length ≤ 15 := by
  have each : ∀ b : Byte, (decimal b.toNat).length ≤ 3 := by
    intro b
    have := b.toNat_lt
    exact decimal_length_le (by omega) (by omega)
  have first := each (src.getD 0 0)
  have second := each (src.getD 1 0)
  have third := each (src.getD 2 0)
  have fourth := each (src.getD 3 0)
  simp only [fmt, List.length_append, List.length_cons]
  omega

/-- The encapsulated address fits behind what precedes it. -/
theorem format_quad {src : List Byte} {run : Run} {fifth word : Nat} {rest : List Nat}
    {tmp : List Byte} (size : src.length = IN6ADDRSZ)
    (four : encapsulated (some run) fifth 6 = true) (short : tmp.length ≤ 30)
    : format src (some run) fifth 6 (word :: rest) tmp
      = .ok (tmp ++ ascii ':' :: fmt (src.drop 12)) := by
  have outside : insideBest (some run) 6 = false := by
    simp [encapsulated] at four
    simp [insideBest]
    omega
  have quad : DottedQuad (fmt (src.drop 12)) (src.drop 12) :=
    fmt_quad (by simp [size, IN6ADDRSZ, INADDRSZ])
  have fits : ¬ (fmt (src.drop 12)).length > tmpSize - (tmp ++ [ascii ':']).length := by
    have := fmt_length (src.drop 12)
    simp only [tmpSize, List.length_append, List.length_singleton]
    omega
  simp only [format, outside, Bool.false_eq_true, if_false, four, if_true, inetNtop4, ne_eq,
    OfNat.ofNat_ne_zero, not_false_eq_true, if_neg fits]
  rw [takeWhile_string quad.nonzero, List.append_assoc]
  rfl

/-- Each group takes at most five characters. -/
theorem length_unlines_hex {words : List Nat} (small : ∀ word ∈ words, word < 65536)
    : (unlines (ascii ':') (words.map hex)).length ≤ 5 * words.length := by
  induction words with
  | nil => simp
  | cons word words ih =>
      have digits : (hex word).length ≤ 4 :=
        hex_length_le (by omega) (by simpa using small word (by simp))
      have rest := ih fun w member => small w (by simp [member])
      simp only [List.map_cons, unlines_cons, List.length_append, List.length_cons]
      omega

/-- Each joined group takes at most five characters. -/
theorem length_joined {words : List Nat} (small : ∀ word ∈ words, word < 65536)
    : (joined words).length ≤ 5 * words.length := by
  cases words with
  | nil => simp [joined]
  | cons word words =>
      have text := congrArg List.length (hex_following word words)
      have bound := length_unlines_hex small
      simp only [joined, List.length_append, List.length_singleton] at text bound ⊢
      omega

/-- The text up to the colon of the run. -/
theorem format_lead {src : List Byte} {run : Run} {fifth : Nat} {pre zeros : List Nat}
    (post : List Nat) (base : pre.length = run.base) (len : zeros.length = run.len)
    (pos : 0 < run.len)
    : format src (some run) fifth 0 (pre ++ zeros ++ post) []
      = format src (some run) fifth (run.base + run.len) post (joined pre ++ [ascii ':']) := by
  have start := @format_start src (some run) fifth pre (zeros ++ post)
    (fun j before => by simp [insideBest]; omega)
    (fun j before => by simp [encapsulated]; omega)
  rw [List.append_assoc, start, base, format_run zeros post _ len pos]

/-- The bytes behind some words are those of the others. -/
theorem drop_words (front back : List Nat)
    : ((front ++ back).flatMap wordBytes).drop (2 * front.length) = back.flatMap wordBytes := by
  rw [List.flatMap_append, ← length_wordBytes, List.drop_left]

/-- The words behind the run, and the text they give. -/
theorem format_back {src : List Byte} {run : Run} {pre zeros post : List Nat}
    (size : src.length = IN6ADDRSZ) (length : (pre ++ zeros ++ post).length = 8)
    (bytes : (pre ++ zeros ++ post).flatMap wordBytes = src)
    (small : ∀ word ∈ pre ++ zeros ++ post, word < 65536)
    (base : pre.length = run.base) (len : zeros.length = run.len) (pos : 0 < run.len)
    : ∃ (mid : List Nat) (ending last : List Byte),
      Ending ending last ∧ (∀ word ∈ mid, word < 65536)
      ∧ mid.flatMap wordBytes ++ last = post.flatMap wordBytes
      ∧ 5 * (pre.length + mid.length) + ending.length ≤ 35
      ∧ ∃ text, format src (some run) ((pre ++ zeros ++ post).getD 5 0) 0 (pre ++ zeros ++ post) []
          = .ok text
        ∧ (if run.base + run.len = 8 then text ++ [ascii ':'] else text)
          = joined pre ++ [ascii ':'] ++ ascii ':' :: (unlines (ascii ':') (mid.map hex) ++ ending) := by
  rw [format_lead post base len pos]
  simp only [List.length_append] at length
  generalize fifthIs : (pre ++ zeros ++ post).getD 5 0 = fifth
  by_cases quad : run.base = 0 ∧ (run.len = 6 ∨ (run.len = 5 ∧ fifth = 0xffff))
  · obtain ⟨first, shape⟩ := quad
    have empty : pre = [] := List.length_eq_zero_iff.mp (by omega)
    have short := fmt_length (src.drop 12)
    have four : encapsulated (some run) fifth 6 = true := by
      rcases shape with six | ⟨five, mapped⟩
      · simp [encapsulated, first, six]
      · simp [encapsulated, first, five, mapped]
    subst empty
    rcases shape with six | ⟨five, mapped⟩
    · -- `::a.b.c.d`
      obtain ⟨word, word', rfl⟩ := List.length_eq_two.mp (show post.length = 2 by simp at length; omega)
      have low : src.drop 12 = [word, word'].flatMap wordBytes := by
        have cut := drop_words ([] ++ zeros) [word, word']
        rw [bytes] at cut
        rw [← cut]
        simp [len, six]
      refine ⟨[], fmt (src.drop 12), src.drop 12,
        .quad (fmt_quad (by simp [size, IN6ADDRSZ, INADDRSZ])), by simp, by simp [low],
        by simp; omega, [ascii ':'] ++ ascii ':' :: fmt (src.drop 12), ?_,
        by simp [first, six, joined]⟩
      rw [first, six]
      exact format_quad size four (by simp [joined])
    · -- `::ffff:a.b.c.d`
      obtain ⟨ffff, word, word', rfl⟩ :=
        List.length_eq_three.mp (show post.length = 3 by simp at length; omega)
      have group : ffff = 0xffff := by
        rw [← mapped, ← fifthIs]
        simp [List.getD_eq_getElem?_getD, len, five]
      subst group
      have low : src.drop 12 = [word, word'].flatMap wordBytes := by
        have cut := drop_words ([] ++ zeros ++ [0xffff]) [word, word']
        simp only [List.append_assoc, List.singleton_append] at cut bytes
        rw [bytes] at cut
        rw [← cut]
        simp [len, five]
      have outside : insideBest (some run) 5 = false := by simp [insideBest, first, five]
      have plain : encapsulated (some run) fifth 5 = false := by simp [encapsulated]
      refine ⟨[0xffff], fmt (src.drop 12), src.drop 12,
        .quad (fmt_quad (by simp [size, IN6ADDRSZ, INADDRSZ])), by simp, by simp [low],
        by simp; omega,
        [ascii ':'] ++ [ascii ':'] ++ hex 0xffff ++ ascii ':' :: fmt (src.drop 12), ?_,
        by simp [first, five, joined]⟩
      rw [first, five]
      have step : format src (some run) fifth (0 + 5) [0xffff, word, word'] [ascii ':']
          = format src (some run) fifth 6 [word, word']
            ([ascii ':'] ++ [ascii ':'] ++ hex 0xffff) := by
        rw [format]
        simp [outside, plain]
      exact step.trans (format_quad size four (by decide))
  · have plain : ∀ j, encapsulated (some run) fifth j = false := by
      intro j
      simp only [encapsulated, Bool.and_eq_false_iff, Bool.or_eq_false_iff, decide_eq_false_iff_not]
      omega
    have read := @format_plain src (some run) fifth (run.base + run.len) post [] (joined pre ++ [ascii ':'])
      (fun j low high => by simp [insideBest]; omega) (fun j _ _ => plain j) (by omega)
    rw [List.append_nil] at read
    rcases post.eq_nil_or_concat with rfl | ⟨mid, last, rfl⟩
    · refine ⟨[], [], [], .nothing, by simp, by simp, by simp at length ⊢; omega,
        joined pre ++ [ascii ':'], rfl, ?_⟩
      rw [if_pos (by simp at length; omega)]
      simp
    · have digits : (hex last).length ≤ 4 :=
        hex_length_le (by omega) (by simpa using small last (by simp))
      refine ⟨mid, hex last, groupBytes (hex last),
        .group (hex_group (small last (by simp))), fun word member => small word (by simp [member]),
        by simp [groupBytes_hex], by simp at length ⊢; omega, _, read, ?_⟩
      rw [if_neg (by simp at length; omega), List.concat_eq_append, following_snoc]

/-- The text of an IPv6 address, before the test of its size. -/
theorem format_denotes {src : List Byte} (size : src.length = IN6ADDRSZ)
    : ∃ text, format src (bestRun (words16 src)) ((words16 src).getD 5 0) 0 (words16 src) []
          = .ok text
        ∧ ∃ whole, whole = (if (bestRun (words16 src)).map (fun best => best.base + best.len)
            = some (IN6ADDRSZ / INT16SZ) then text ++ [ascii ':'] else text)
          ∧ Denotes6 whole src ∧ whole.length < tmpSize := by
  obtain ⟨length, bytes, small⟩ := words16_bytes (n := 8) size
  generalize words16 src = words at length bytes small ⊢
  cases found : bestRun words with
  | none =>
      have read := @format_start src none (words.getD 5 0) words []
        (fun _ _ => rfl) (fun _ _ => rfl)
      rw [List.append_nil] at read
      refine ⟨joined words, read, ?_⟩
      obtain ⟨front, last, rfl⟩ : ∃ front last, words = front ++ [last] :=
        ⟨words.dropLast, words.getLast (by rintro rfl; simp at length),
          (List.dropLast_append_getLast _).symm⟩
      have text := @Denotes6.full (front.map hex) (hex last) (groupBytes (hex last))
        (hex_groups fun word member => small word (List.mem_append_left _ member))
        (.group (hex_group (small last (by simp))))
        (by
          rw [flatMap_groupBytes, groupBytes_hex, ← List.flatMap_singleton wordBytes last,
            ← List.flatMap_append, bytes, size])
      rw [flatMap_groupBytes, groupBytes_hex, ← List.flatMap_singleton wordBytes last,
        ← List.flatMap_append, bytes] at text
      have digits : (hex last).length ≤ 4 :=
        hex_length_le (by omega) (by simpa using small last (by simp))
      have groups := length_unlines_hex fun word member => small word (List.mem_append_left _ member)
      refine ⟨_, rfl, by simpa [joined_snoc] using text, ?_⟩
      simp only [List.length_append, List.length_singleton] at length
      simp [joined_snoc, tmpSize]
      omega
  | some run =>
      obtain ⟨long, pos, isRun, _⟩ := bestRun_some found
      obtain ⟨pre, zeros, post, rfl, base, len, all⟩ := isRun.split
      simp only [Run.pair] at base len pos
      obtain ⟨mid, ending, last, ends, mids, back, short, text, read, shape⟩ :=
        format_back size length bytes small base len pos
      refine ⟨text, read, ?_⟩
      have denotes := @squeezed_denotes pre zeros mid ending last src
        (fun word member => (List.mem_append.mp member).elim
          (fun here => small word (by simp [here])) (mids word))
        all (by omega) ends size (by rw [back, ← bytes]; simp)
      have whole : (if Option.map (fun best => best.base + best.len) (some run)
          = some (IN6ADDRSZ / INT16SZ) then text ++ [ascii ':'] else text)
          = if run.base + run.len = 8 then text ++ [ascii ':'] else text := by
        simp [IN6ADDRSZ, INT16SZ]
      refine ⟨_, rfl, by rwa [whole, shape], ?_⟩
      have front := @length_joined pre fun word member => small word (by simp [member])
      have groups := length_unlines_hex mids
      rw [whole, shape]
      simp [tmpSize]
      omega

/-- What `inet_ntop6` stores, or that there is no room for it. -/
theorem inetNtop6_spec {src : List Byte} (sixteen : src.length = IN6ADDRSZ)
    : ∃ text, Denotes6 text src ∧ text.length < tmpSize ∧ ∀ size, inetNtop6 src size
        = if text.length + 1 > size then .error .ENOSPC else .ok (text ++ [0]) := by
  obtain ⟨text, read, whole, shape, denotes, short⟩ := format_denotes sixteen
  refine ⟨whole, denotes, short, fun size => ?_⟩
  simp only [inetNtop6, read, ← shape, List.length_append, List.length_singleton]

-----------------------------------------------------------------------------------------
-- Reading back
-----------------------------------------------------------------------------------------

/-- The bytes of an address. -/
def IsAddress (af : Family) (src : List Byte) : Prop :=
  (af = .inet ∧ src.length = INADDRSZ) ∨ (af = .inet6 ∧ src.length = IN6ADDRSZ)

/-- `INET_ADDRSTRLEN` and `INET6_ADDRSTRLEN`. -/
def addrStrLen (af : Family) : Nat := if af = .inet then 16 else tmpSize

/-- `inet_pton` reads back every text that `inet_ntop` stores, whatever the size was, and
with the room that the constants promise `inet_ntop` stores one.
-/
theorem inetPton_inetNtop {af : Family} {src : List Byte} (addr : IsAddress af src) (size : Nat)
    : (∀ dst, inetNtop af src size = .ok dst
        → inetPton af (dst.takeWhile (· ≠ 0)) = .ok (some src))
      ∧ (addrStrLen af ≤ size → ∃ dst, inetNtop af src size = .ok dst) := by
  rcases addr with ⟨rfl, four⟩ | ⟨rfl, sixteen⟩
  · have quad := fmt_quad four
    have length := fmt_length src
    constructor
    · intro dst stored
      simp only [inetNtop, inetNtop4] at stored
      split at stored
      · cases stored
      · cases stored
        rw [takeWhile_string quad.nonzero, inetPton, inetPton4_eq_some.mpr quad]
    · intro room
      rw [addrStrLen, if_pos rfl] at room
      exact ⟨_, if_neg (by omega)⟩
  · obtain ⟨text, denotes, short, stores⟩ := inetNtop6_spec sixteen
    constructor
    · intro dst stored
      rw [inetNtop, stores] at stored
      split at stored
      · cases stored
      · cases stored
        rw [takeWhile_string denotes.nonzero, inetPton, inetPton6_eq_some.mpr denotes]
    · intro room
      rw [addrStrLen, if_neg (by simp)] at room
      exact ⟨_, (stores size).trans (if_neg (by omega))⟩

/-- `inet_ntop6` stores within `size`. `inet_ntop4` stores one byte more, the NUL, exactly
where its text alone fills the room.
-/
theorem inetNtop_stores {af : Family} {src dst : List Byte} {size : Nat} (addr : IsAddress af src)
    (stored : inetNtop af src size = .ok dst)
    : dst.length ≤ size + 1 ∧ (size < dst.length ↔ af = .inet ∧ size = (fmt src).length) := by
  rcases addr with ⟨rfl, four⟩ | ⟨rfl, sixteen⟩
  · simp only [inetNtop, inetNtop4] at stored
    split at stored
    · cases stored
    · cases stored
      simp
      omega
  · obtain ⟨text, _, _, stores⟩ := inetNtop6_spec sixteen
    rw [inetNtop, stores] at stored
    split at stored
    · cases stored
    · cases stored
      simp
      omega

/-- Witness: `1::2`, whose text fills its five bytes. -/
theorem inetPton_inetNtop_squeezed
    : inetPton .inet6 ((['1', ':', ':', '2'].map ascii ++ [0]).takeWhile (· ≠ 0))
      = .ok (some [0, 1, 0, 0, 0, 0, 0, 0, 0, 0, 0, 0, 0, 0, 0, 2]) :=
  (inetPton_inetNtop (Or.inr ⟨rfl, rfl⟩) 5).1 _ (by decide +kernel)

end Minions.Unp.Inet
