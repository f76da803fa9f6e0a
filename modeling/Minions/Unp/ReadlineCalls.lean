import Minions.Logic.Answers
import Minions.Unp.Readline

/-! Sequences of calls of `readline`: the buffered versions beside the one that reads one byte at a
time.
Each call is a function of what the stream still brings, so that how the bytes are cut into the
results of reads makes no difference to it.
-/

namespace Minions.Unp.Readline

open Minions.Data
open Minions.Logic

/-- A reader of the stream itself. -/
def nextItem : List (Item Byte) → Option (Item Byte × List (Item Byte))
  | [] => none
  | item :: rest => some (item, rest)

/-- Items are read one after the other. -/
theorem reads_nextItem : Reads (fun _ => True) nextItem id where
  blocked s _ h := by
    cases s with
    | nil => rfl
    | cons => cases h
  next s item s' _ h := by
    cases s with
    | nil => cases h
    | cons =>
        cases h
        exact ⟨rfl, trivial⟩

variable {σ τ : Type}

/-- What the loop leaves, with what the source still brings in place of the source. -/
def Looped.map (f : σ → τ) (l : Looped σ) : Looped τ := ⟨l.ended, l.n, l.stored, f l.source⟩

section Loop

variable {P : σ → Prop} {next : σ → Option (Item Byte × σ)} {items : σ → List (Item Byte)}
  {top top' maxlen : Nat} {s : σ}

/-- The loop over a source does what it does over the stream. -/
theorem loop_map (reads : Reads P next items) (positive : 1 ≤ top) (hs : P s)
    : (loop next top maxlen 1 [] s).map (Looped.map items)
      = loop nextItem top maxlen 1 [] (items s) := by
  obtain ⟨blocked, goes⟩ := loop_spec top maxlen reads positive [] hs
  obtain ⟨blocked', goes'⟩ :=
    loop_spec top maxlen reads_nextItem positive [] (s := items s) trivial
  cases found : lineOf newline (room top maxlen 1) (items s) with
  | none => rw [blocked found, blocked' found, Option.map_none]
  | some line =>
      obtain ⟨s₁, run, eq, -⟩ := goes line.1 line.2.1 line.2.2 found
      obtain ⟨s₂, run', rfl, -⟩ := goes' line.1 line.2.1 line.2.2 found
      rw [run, run', Option.map_some, Looped.map, eq]

/-- No line takes more bytes than the counter can count. -/
def Fits (top maxlen : Nat) (stream : List (Item Byte)) : Prop :=
  top < maxlen → ¬ ∃ bytes rest, IsLine newline top stream .full bytes rest

/-- A line that fits both counters is read in the same way, and neither of them overflows. -/
theorem loop_of_fits {stream : List (Item Byte)} (fits : Fits top maxlen stream)
    (positive : 1 ≤ top) (le : top ≤ top')
    : loop nextItem top' maxlen 1 [] stream = loop nextItem top maxlen 1 [] stream
      ∧ ∀ l, loop nextItem top maxlen 1 [] stream = some l → l.ended ≠ .overflow := by
  obtain ⟨blocked, goes⟩ :=
    loop_spec top maxlen reads_nextItem positive [] (s := stream) trivial
  obtain ⟨blocked', goes'⟩ :=
    loop_spec top' maxlen reads_nextItem (positive.trans le) [] (s := stream)
      trivial
  have same : lineOf newline (room top' maxlen 1) stream
      = lineOf newline (room top maxlen 1) stream := by
    unfold room
    by_cases less : top < maxlen
    · have rooms : min maxlen (top + 1) - 1 = top := by omega
      rw [rooms]
      exact lineOf_more (fits less) (by omega)
    · rw [Nat.min_eq_left (by omega), Nat.min_eq_left (by omega)]
  have ends : ∀ ending bytes rest, lineOf newline (room top maxlen 1) stream
      = some (ending, bytes, rest)
      → ended top maxlen ending = .ends ending ∧ ended top' maxlen ending = .ends ending := by
    intro ending bytes rest found
    by_cases less : top < maxlen
    · have notFull : ending ≠ .full := by
        rintro rfl
        have rooms : room top maxlen 1 = top := by
          unfold room
          omega
        rw [rooms] at found
        exact fits less ⟨bytes, rest, isLine_of_lineOf found⟩
      simp [ended, notFull]
    · simp only [ended, less, show ¬ top' < maxlen by omega, and_false, if_false, and_self]
  rw [id_eq] at blocked blocked' goes goes'
  rw [same] at blocked' goes'
  cases found : lineOf newline (room top maxlen 1) stream with
  | none =>
      rw [blocked found, blocked' found]
      exact ⟨rfl, fun _ same => by cases same⟩
  | some line =>
      obtain ⟨s₁, run, rfl, -⟩ := goes line.1 line.2.1 line.2.2 found
      obtain ⟨s₂, run', eq, -⟩ := goes' line.1 line.2.1 line.2.2 found
      obtain ⟨ends₁, ends₂⟩ := ends line.1 line.2.1 line.2.2 found
      rw [run, run', ends₁, ends₂, ← eq]
      refine ⟨rfl, ?_⟩
      intro l h
      cases h
      simp

/-- A line that does not fit makes the counter overflow. -/
theorem loop_of_not_fits {stream : List (Item Byte)} (not_fits : ¬ Fits top maxlen stream)
    (positive : 1 ≤ top)
    : ∃ l, loop nextItem top maxlen 1 [] stream = some l ∧ l.ended = .overflow := by
  simp only [Fits, Classical.not_imp, not_not] at not_fits
  obtain ⟨less, bytes, rest, line⟩ := not_fits
  have rooms : room top maxlen 1 = top := by
    unfold room
    omega
  obtain ⟨-, goes⟩ :=
    loop_spec top maxlen reads_nextItem positive [] (s := stream) trivial
  obtain ⟨s', run, -⟩ := goes .full bytes rest (by rw [rooms]; exact line.lineOf_eq)
  exact ⟨_, run, by simp [ended, less]⟩

end Loop

-- ------------------------------------------------------------------------------------------
-- Calls
-- ------------------------------------------------------------------------------------------

/-- What a caller sees of a call, and the state for the next one. There is none after a call that
does not return or whose behaviour is undefined.
-/
def seen : Option (Outcome × σ) → Option Outcome × Option σ
  | none => (none, none)
  | some (.undefined, _) => (some .undefined, none)
  | some (.returned a, s) => (some (.returned a), some s)

/-- One of a sequence of calls. -/
def calls (f : Nat → σ → Option (Outcome × σ)) (s : Option σ) (maxlen : Nat)
    : Option Outcome × Option σ :=
  seen (s.bind (f maxlen))

/-- The call as a function of what the stream still brings. -/
def callOf (top : Nat) (convert : Nat → Int) (maxlen : Nat) (stream : List (Item Byte))
    : Option (Outcome × List (Item Byte)) :=
  (loop nextItem top maxlen 1 [] stream).map (exits convert)

/-- The calls are the function of what the stream still brings. -/
def Implements (f : Nat → σ → Option (Outcome × σ)) (items : σ → List (Item Byte)) (top : Nat)
    (convert : Nat → Int)
    : Prop :=
  ∀ maxlen s, (f maxlen s).map (Prod.map id items) = callOf top convert maxlen (items s)

/-- The exits of the loop do not depend on how the source is seen. -/
theorem exits_map (convert : Nat → Int) (f : σ → τ) (l : Looped σ)
    : exits convert (l.map f) = Prod.map id f (exits convert l) := by
  unfold exits Looped.map
  split <;> simp_all

/-- A loop that reads a stream is a call on that stream. -/
theorem map_exits {P : σ → Prop} {next : σ → Option (Item Byte × σ)} {items : σ → List (Item Byte)}
    {top : Nat} {s : σ} (reads : Reads P next items) (positive : 1 ≤ top) (hs : P s)
    (maxlen : Nat) (convert : Nat → Int)
    : ((loop next top maxlen 1 [] s).map (exits convert)).map (Prod.map id items)
      = callOf top convert maxlen (items s) := by
  rw [callOf, ← loop_map reads positive hs, Option.map_map, Option.map_map]
  congr 1
  funext l
  exact (exits_map convert items l).symm

/-- The first version reads the stream. -/
theorem implements_readline1 : Implements readline1 items SSIZE_MAX Nat.cast :=
  fun maxlen _ => map_exits reads_readOne (by decide) trivial maxlen Nat.cast

/-- Reads through the buffer read the stream. -/
theorem reads_buffered : Reads (fun _ => True) (myRead (readAgain MAXLINE)) (bufferedItems items) :=
  reads_myRead (conveys_readAgain (by decide))

/-- The third version reads the stream through its buffer. -/
theorem implements_readline3 : Implements readline3 (bufferedItems items) INT_MAX Nat.cast :=
  fun maxlen _ => map_exits reads_buffered (by decide) trivial maxlen Nat.cast

/-- The threaded version reads the stream through the thread's buffer. -/
theorem implements_readline
    : Implements (readline (readAgain MAXLINE)) threadItems SIZE_MAX (fun n => ssizeT n) := by
  intro maxlen s
  have := map_exits (s := (s.1.getD Rline.init, s.2)) reads_buffered
    (show 1 ≤ SIZE_MAX by decide) trivial maxlen (fun n => ssizeT n)
  rw [threadItems, ← this, readline, Option.map_map, Option.map_map]
  congr 1
  funext l
  simp [threadItems, Prod.map]

variable {f : Nat → σ → Option (Outcome × σ)} {g : Nat → τ → Option (Outcome × τ)}
  {items : σ → List (Item Byte)} {items' : τ → List (Item Byte)} {top top' : Nat}
  {convert convert' : Nat → Int}

/-- What is seen of a call does not depend on how the source is seen. -/
theorem seen_map (f : σ → τ) (r : Option (Outcome × σ))
    : seen (r.map (Prod.map id f)) = Prod.map id (Option.map f) (seen r) := by
  cases r with
  | none => rfl
  | some found =>
      obtain ⟨outcome, s⟩ := found
      cases outcome <;> rfl

/-- A version that implements the call answers as the call does. -/
theorem Implements.calls_eq (h : Implements f items top convert) (s : Option σ) (maxlen : Nat)
    : calls (callOf top convert) (s.map items) maxlen
      = Prod.map id (Option.map items) (calls f s maxlen) := by
  rw [calls, calls, ← seen_map]
  congr 1
  cases s with
  | none => rfl
  | some s => exact (h maxlen s).symm

/-- Two calls agree: both return the same, or neither returns. -/
def Agree (a b : Option Outcome) : Prop := a = b ∧ a ≠ some .undefined

/-- No line of the call makes a counter with the largest value `top` overflow. -/
def FitsCall (items : σ → List (Item Byte)) (top : Nat) (s : Option σ) (maxlen : Nat) : Prop :=
  ∀ s' ∈ s, Fits top maxlen (items s')

section Compare

variable {maxlen : Nat} {stream : List (Item Byte)}

/-- Where the line fits the smaller counter, the calls do the same. -/
theorem callOf_of_fits (fits : Fits top maxlen stream) (positive : 1 ≤ top) (le : top ≤ top')
    (same : ∀ n ≤ top, convert n = convert' n)
    : callOf top' convert' maxlen stream = callOf top convert maxlen stream
      ∧ ∀ found, callOf top convert maxlen stream = some found → found.1 ≠ .undefined := by
  obtain ⟨eq, notOver⟩ := loop_of_fits fits positive le
  rw [callOf, callOf, eq]
  cases run : loop nextItem top maxlen 1 [] stream with
  | none => exact ⟨rfl, fun _ same => by cases same⟩
  | some l =>
      cases ends : l.ended with
      | overflow => exact absurd ends (notOver l run)
      | ends ending =>
          have few := (loop_line reads_nextItem positive trivial run ends).2.2.2
          have kept : exits convert' l = exits convert l := by
            rw [exits, exits, ends, same l.n few, same (l.n - 1) (by omega)]
          rw [Option.map_some, Option.map_some, kept]
          refine ⟨rfl, ?_⟩
          intro found h
          cases h
          rw [exits, ends]
          cases ending <;> simp

/-- A line that does not fit the counter is undefined behaviour. -/
theorem callOf_of_not_fits (not_fits : ¬ Fits top maxlen stream) (positive : 1 ≤ top)
    (convert : Nat → Int)
    : ∃ rest, callOf top convert maxlen stream = some (.undefined, rest) := by
  obtain ⟨l, run, over_⟩ := loop_of_not_fits not_fits positive
  exact ⟨l.source, by rw [callOf, run, Option.map_some, exits, over_]⟩

/-- Calls agree exactly where the line fits the smaller counter. -/
theorem agree_iff (positive : 1 ≤ top) (le : top ≤ top')
    (same : ∀ n ≤ top, convert n = convert' n) (u : Option (List (Item Byte))) (maxlen : Nat)
    : (Agree (calls (callOf top convert) u maxlen).1 (calls (callOf top' convert') u maxlen).1
        ↔ FitsCall id top u maxlen)
      ∧ (FitsCall id top u maxlen
        → calls (callOf top' convert') u maxlen = calls (callOf top convert) u maxlen) := by
  cases u with
  | none => exact ⟨iff_of_true ⟨rfl, nofun⟩ nofun, fun _ => rfl⟩
  | some stream =>
      have cond : FitsCall id top (some stream) maxlen ↔ Fits top maxlen stream := by
        simp [FitsCall]
      rw [cond]
      by_cases fits : Fits top maxlen stream
      · obtain ⟨eq, defined⟩ := callOf_of_fits fits positive le same
        have calls_eq : calls (callOf top' convert') (some stream) maxlen
            = calls (callOf top convert) (some stream) maxlen := by
          simp only [calls, Option.bind_some, eq]
        refine ⟨iff_of_true ⟨congrArg Prod.fst calls_eq.symm, ?_⟩ fits, fun _ => calls_eq⟩
        simp only [calls, Option.bind_some]
        cases run : callOf top convert maxlen stream with
        | none => exact nofun
        | some found =>
            obtain ⟨outcome, rest⟩ := found
            have := defined _ run
            cases outcome with
            | undefined => exact absurd rfl this
            | returned a => exact nofun
      · obtain ⟨rest, run⟩ := callOf_of_not_fits fits positive convert
        refine ⟨iff_of_false ?_ fits, fun h => absurd h fits⟩
        rintro ⟨-, defined⟩
        simp [calls, run, seen] at defined

end Compare

/-- Whether a call fits does not depend on how the source is seen. -/
theorem fitsCall_map (s : Option σ) (maxlen : Nat)
    : FitsCall id top (s.map items) maxlen ↔ FitsCall items top s maxlen := by
  cases s <;> simp [FitsCall]

/-- Two versions agree in every call of a sequence exactly as long as no line is too long for the
smaller of the counters. Witness: what they still read is the same after each call.
-/
theorem Implements.agree_iff (hf : Implements f items top convert)
    (hg : Implements g items' top' convert') (positive : 1 ≤ top) (le : top ≤ top')
    (same : ∀ n ≤ top, convert n = convert' n) {s : Option σ} {t : Option τ}
    (start : s.map items = t.map items') (maxlens : List Nat)
    : List.Forall₂ Agree (answers (calls f) s maxlens) (answers (calls g) t maxlens)
      ↔ EveryStep (Logic.next (calls f)) (FitsCall items top) s maxlens := by
  refine answers_agree_iff (fun s t => s.map items = t.map items') ?_ ?_ start
  · intro s t maxlen related
    have first := hf.calls_eq s maxlen
    have second := hg.calls_eq t maxlen
    rw [← related] at second
    have := (Readline.agree_iff positive le same (s.map items) maxlen).1
    rwa [first, second, fitsCall_map] at this
  · intro s t maxlen related met
    have first := hf.calls_eq s maxlen
    have second := hg.calls_eq t maxlen
    rw [← related] at second
    have := (Readline.agree_iff positive le same (s.map items) maxlen).2
      ((fitsCall_map s maxlen).mpr met)
    rw [first, second] at this
    exact (congrArg Prod.snd this).symm

/-- `readline_rinit`: what `rl_buf` holds stays. -/
def readlineRinit (r : Rline) : Rline :=
  { r with
    rl_cnt := 0
    rl_bufptr := 0
    inside := Nat.zero_le _ }

/-- The deliveries of one descriptor, cut in any two ways, are read alike by the one-byte version
and by a buffered one, in every call of every sequence, exactly as long as no line has more bytes
than a signed counter can count: `ssize_t` in the one-byte version, `int` in `readline_r`.
-/
theorem buffered_agrees_iff {k k' : List (Delivery Byte)} (same : Data.items k = Data.items k')
    : (∀ maxlens,
        List.Forall₂ Agree (answers (calls readline1) (some k) maxlens)
          (answers (calls (readline (readAgain MAXLINE))) (some (none, k')) maxlens)
        ↔ EveryStep (Logic.next (calls readline1)) (FitsCall Data.items SSIZE_MAX) (some k) maxlens)
      ∧ ∀ r maxlen n,
        List.Forall₂ Agree
          (answers (calls readline3) (some (readlineRinit r, k')) (List.replicate n maxlen))
          (answers (calls readline1) (some k) (List.replicate n maxlen))
        ↔ EveryStep (Logic.next (calls readline3)) (FitsCall (bufferedItems Data.items) INT_MAX)
          (some (readlineRinit r, k')) (List.replicate n maxlen) := by
  constructor
  · intro maxlens
    refine implements_readline1.agree_iff implements_readline (by decide) (by decide) ?_ ?_ maxlens
    · intro n few
      have high : n < 2 ^ 63 := Nat.lt_of_le_of_lt few (by decide)
      exact (ssizeT_eq (by omega) (by omega)).symm
    · simp [threadItems, bufferedItems, Rline.init, Rline.pending, same]
  · intro r maxlen n
    refine implements_readline3.agree_iff implements_readline1 (by decide) (by decide)
      (fun _ _ => rfl) ?_ _
    simp [bufferedItems, readlineRinit, Rline.pending, same]

/-- A line of two pieces, read twice. -/
theorem buffered_agrees_iff_pieces
    : List.Forall₂ Agree
        (answers (calls readline3) (some (readlineRinit .init, [.data 97 [], .eintr, .data 10 []]))
          (List.replicate 2 8))
        (answers (calls readline1) (some [.data 97 [10]]) (List.replicate 2 8))
      ↔ EveryStep (Logic.next (calls readline3)) (FitsCall (bufferedItems Data.items) INT_MAX)
        (some (readlineRinit .init, [.data 97 [], .eintr, .data 10 []])) (List.replicate 2 8) :=
  have same : Data.items [.data (97 : Byte) [10]]
      = Data.items [.data 97 [], .eintr, .data 10 []] := rfl
  (buffered_agrees_iff same).2 .init 8 2

/-- As many bytes as an `int` can count, and no newline. -/
private theorem long_line (n : Nat)
    : IsLine newline (n + 1) (Data.items [.data 97 (List.replicate n 97)]) .full
        (List.replicate (n + 1) 97) [] := by
  have stream : Data.items [.data (97 : Byte) (List.replicate n 97)]
      = (List.replicate (n + 1) 97).map .byte ++ [] := by
    simp [Delivery.items, List.replicate_succ]
  rw [stream]
  refine .full _ _ ?_ List.length_replicate
  rw [List.mem_replicate]
  exact fun h => absurd h.2 (by decide)

/-- A line of as many bytes as an `int` can count is read by the one-byte version, and makes the
counter of `readline_r` overflow.
-/
theorem readline_r_overflows
    : ¬ ∀ k k' r maxlen n, Data.items k = Data.items k' →
        List.Forall₂ Agree
          (answers (calls readline3) (some (readlineRinit r, k')) (List.replicate n maxlen))
          (answers (calls readline1) (some k) (List.replicate n maxlen)) := by
  intro always
  have agree := always [.data 97 (List.replicate (INT_MAX - 1) 97)] _ .init (INT_MAX + 1) 1 rfl
  rw [implements_readline3.agree_iff implements_readline1 (by decide) (by decide)
    (fun _ _ => rfl) (by simp [bufferedItems, readlineRinit, Rline.pending])] at agree
  have fits := agree.1 _ rfl (Nat.lt_succ_self _)
  have stream : ∀ k, bufferedItems Data.items (readlineRinit .init, k) = Data.items k := by
    simp [bufferedItems, readlineRinit, Rline.pending]
  have line := long_line (INT_MAX - 1)
  have count : INT_MAX - 1 + 1 = INT_MAX := by decide
  rw [count] at line
  refine fits ⟨List.replicate INT_MAX 97, [], ?_⟩
  rw [stream]
  exact line

end Minions.Unp.Readline
