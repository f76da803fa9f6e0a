import Minions.Data.CInt
import Minions.Data.Deliveries
import Minions.Data.Decimal

/-! The versions of `readline`: `threads/readline.c`, `server/readline_r.c`, `test/readline1.c` and
`test/readline3.c`.
They share their loop and, apart from `test/readline1.c`, the buffer in front of it. What a
descriptor has for its readers is a list of deliveries.
-/

namespace Minions.Unp.Readline

open Minions.Data

def MAXLINE : Nat := 4096

def SSIZE_MAX : Nat := 2 ^ 63 - 1
def SIZE_MAX : Nat := 2 ^ 64 - 1

/-- `'\\n'` -/
def newline : Byte := 10

-- ------------------------------------------------------------------------------------------
-- The sources of the bytes
-- ------------------------------------------------------------------------------------------

/-- `Rline`: the bytes that have been read and not taken. -/
structure Rline where
  rl_cnt : Int
  /-- the place in `rl_buf` -/
  rl_bufptr : Nat
  rl_buf : List Byte
  size : rl_buf.length = MAXLINE
  inside : rl_bufptr + rl_cnt.toNat ≤ MAXLINE

/-- All bytes of the structure are 0, and `rl_bufptr` is set. -/
def Rline.init : Rline where
  rl_cnt := 0
  rl_bufptr := 0
  rl_buf := List.replicate MAXLINE 0
  size := List.length_replicate
  inside := Nat.zero_le _

/-- The bytes that have been read and not taken. -/
def Rline.pending (r : Rline) : List Byte := (r.rl_buf.drop r.rl_bufptr).take r.rl_cnt.toNat

/-- A read into `rl_buf` has returned the bytes. -/
def Rline.fill (r : Rline) (values : List Byte) (few : values.length ≤ MAXLINE) : Rline where
  rl_cnt := values.length
  rl_bufptr := 0
  rl_buf := values ++ r.rl_buf.drop values.length
  size := by
    have := r.size
    rw [List.length_append, List.length_drop]
    omega
  inside := by omega

/-- A buffer that is filled is not empty. -/
theorem Rline.fill_pos (r : Rline) {first : Byte} {more : List Byte}
    (few : (first :: more).length ≤ MAXLINE)
    : 0 < (r.fill (first :: more) few).rl_cnt :=
  Int.natCast_pos.mpr (Nat.succ_pos _)

/-- A read has returned nothing: its result is in `rl_cnt`. -/
def Rline.fail (r : Rline) (result : Int) (nothing : result ≤ 0) : Rline :=
  { r with
    rl_cnt := result
    inside := by
      have := r.inside
      omega }

/-- `rl_cnt--` and `*rl_bufptr++` -/
def Rline.take (r : Rline) (some_ : 0 < r.rl_cnt) : Byte × Rline :=
  (r.rl_buf.getD r.rl_bufptr 0,
    { r with
      rl_cnt := r.rl_cnt - 1
      rl_bufptr := r.rl_bufptr + 1
      inside := by
        have := r.inside
        omega })

section Sources

variable {κ : Type}

/-- `my_read`, where `read` is made again until it is not interrupted. -/
def myRead (read : κ → Option (Got Byte MAXLINE × κ)) (s : Rline × κ)
    : Option (Item Byte × (Rline × κ)) :=
  if some_ : 0 < s.1.rl_cnt then
    let (c, r) := s.1.take some_
    some (.byte c, (r, s.2))
  else match read s.2 with
  | none => none
  | some (.error, k) => some (.error, (s.1.fail (-1) (by omega), k))
  | some (.bytes [] _, k) => some (.eof, (s.1.fail 0 (Int.le_refl 0), k))
  | some (.bytes (first :: more) few, k) =>
      let (c, r) := (s.1.fill (first :: more) few).take (s.1.fill_pos few)
      some (.byte c, (r, k))

/-- `read(fd, &c, 1)` -/
def readOne (k : List (Delivery Byte)) : Option (Item Byte × List (Delivery Byte)) :=
  match readAgain 1 k with
  | none => none
  | some (.error, k) => some (.error, k)
  | some (.bytes [] _, k) => some (.eof, k)
  | some (.bytes (c :: _) _, k) => some (.byte c, k)

end Sources

-- ------------------------------------------------------------------------------------------
-- The loop
-- ------------------------------------------------------------------------------------------

/-- How the loop is left. -/
inductive Ended where
  | ends (e : LineEnd)
  /-- `n++` does not fit the type of `n` -/
  | overflow

/-- What the loop leaves: how it was left, `n`, the bytes stored from `vptr` on, and the source. -/
structure Looped (σ : Type) where
  ended : Ended
  n : Nat
  stored : List Byte
  source : σ

variable {σ : Type}

/-- The loop from some `n` on, whose type has the largest value `top`.
There is no result where the call does not return because nothing more comes.
-/
def loop (next : σ → Option (Item Byte × σ)) (top maxlen n : Nat) (stored : List Byte) (s : σ)
    : Option (Looped σ) :=
  if n < maxlen then
    match next s with
    | none => none
    | some (.byte c, s) =>
        if c = newline then some ⟨.ends .newline, n, stored ++ [c], s⟩
        else if n = top then some ⟨.overflow, n + 1, stored ++ [c], s⟩
        else loop next top maxlen (n + 1) (stored ++ [c]) s
    | some (.eof, s) => some ⟨.ends .eof, n, stored, s⟩
    | some (.error, s) => some ⟨.ends .error, n, stored, s⟩
  else some ⟨.ends .full, n, stored, s⟩
termination_by maxlen - n

/-- What a call returns, the bytes it has stored from `vptr` on, and whether it has stored a null
byte after them.
-/
structure Answer where
  value : Int
  stored : List Byte
  terminated : Bool
  deriving DecidableEq

/-- A call returns, or its behaviour is undefined because a signed counter overflows. -/
inductive Outcome where
  | returned (a : Answer)
  | undefined
  deriving DecidableEq

/-- The exits of the loop, with the conversion of `n` to the type of the result. -/
def exits (convert : Nat → Int) (l : Looped σ) : Outcome × σ :=
  match l.ended with
  | .ends .newline => (.returned ⟨convert l.n, l.stored, true⟩, l.source)
  | .ends .eof => (.returned ⟨convert (l.n - 1), l.stored, true⟩, l.source)
  | .ends .error => (.returned ⟨-1, l.stored, false⟩, l.source)
  | .ends .full => (.returned ⟨convert l.n, l.stored, true⟩, l.source)
  | .overflow => (.undefined, l.source)

/-- The exits of the loop in `server/readline_r.c`, where the end of the stream after some bytes
goes on to the last lines.
-/
def exitsR (l : Looped σ) : Outcome × σ :=
  match l.ended with
  | .ends .newline => (.returned ⟨l.n, l.stored, true⟩, l.source)
  | .ends .eof =>
      if l.n = 1 then (.returned ⟨0, l.stored, false⟩, l.source)
      else (.returned ⟨l.n, l.stored, true⟩, l.source)
  | .ends .error => (.returned ⟨-1, l.stored, false⟩, l.source)
  | .ends .full => (.returned ⟨l.n, l.stored, true⟩, l.source)
  | .overflow => (.undefined, l.source)

/-- The exits of the loop leave the source alone. -/
@[simp]
theorem exits_source (convert : Nat → Int) (l : Looped σ) : (exits convert l).2 = l.source := by
  unfold exits
  split <;> rfl

/-- The exits of the reentrant loop leave the source alone. -/
@[simp]
theorem exitsR_source (l : Looped σ) : (exitsR l).2 = l.source := by
  unfold exitsR
  split
  case h_2 => split <;> rfl
  all_goals rfl

/-- `readline` of `test/readline1.c`, where `n` is of type `ssize_t`. -/
def readline1 (maxlen : Nat) (k : List (Delivery Byte))
    : Option (Outcome × List (Delivery Byte)) :=
  (loop readOne SSIZE_MAX maxlen 1 [] k).map (exits Nat.cast)

variable {κ : Type}

/-- `readline` of `threads/readline.c`, where `n` is of type `size_t`. The `Rline` of the thread
is made at the first call.
-/
def readline (read : κ → Option (Got Byte MAXLINE × κ)) (maxlen : Nat) (s : Option Rline × κ)
    : Option (Outcome × (Option Rline × κ)) :=
  let tsd := s.1.getD Rline.init
  (loop (myRead read) SIZE_MAX maxlen 1 [] (tsd, s.2)).map fun l =>
    ((exits (fun n => ssizeT n) l).1, (some l.source.1, l.source.2))

/-- `readline_r` of `test/readline3.c`, where `n` is of type `int`. -/
def readline3 (maxlen : Nat) (s : Rline × List (Delivery Byte))
    : Option (Outcome × (Rline × List (Delivery Byte))) :=
  (loop (myRead (readAgain MAXLINE)) INT_MAX maxlen 1 [] s).map (exits Nat.cast)

/-- `readline_r` of `server/readline_r.c`, where `n` is of type `int`. -/
def readlineR (maxlen : Nat) (s : Rline × List (Delivery Byte))
    : Option (Outcome × (Rline × List (Delivery Byte))) :=
  (loop (myRead (readAgain MAXLINE)) INT_MAX maxlen 1 [] s).map exitsR

-- ------------------------------------------------------------------------------------------
-- The sources give the bytes of the stream
-- ------------------------------------------------------------------------------------------

/-- The bytes of a buffer that is filled. -/
@[simp]
theorem pending_fill (r : Rline) (values : List Byte) (few : values.length ≤ MAXLINE)
    : (r.fill values few).pending = values := by
  simp [Rline.pending, Rline.fill]

/-- A buffer whose read failed is empty. -/
@[simp]
theorem pending_fail (r : Rline) (result : Int) (nothing : result ≤ 0)
    : (r.fail result nothing).pending = [] := by
  have none_left : result.toNat = 0 := by omega
  simp [Rline.pending, Rline.fail, none_left]

/-- A buffer without a count is empty. -/
theorem pending_of_nonpos {r : Rline} (nothing : ¬ 0 < r.rl_cnt) : r.pending = [] := by
  have none_left : r.rl_cnt.toNat = 0 := by omega
  simp [Rline.pending, none_left]

/-- The first byte is taken. -/
theorem pending_take {r : Rline} (some_ : 0 < r.rl_cnt)
    : r.pending = (r.take some_).1 :: (r.take some_).2.pending := by
  have size := r.size
  have inside := r.inside
  obtain ⟨n, eq⟩ : ∃ n : Nat, r.rl_cnt = n + 1 := ⟨(r.rl_cnt - 1).toNat, by omega⟩
  have count : r.rl_cnt.toNat = n + 1 := by omega
  have count' : (r.rl_cnt - 1).toNat = n := by omega
  have there : r.rl_bufptr < r.rl_buf.length := by omega
  simp only [Rline.pending, Rline.take, count, count']
  rw [List.drop_eq_getElem_cons there, List.take_succ_cons]
  simp [there]

/-- What a buffer has read and not taken, and what is still to be read. -/
def bufferedItems (items : κ → List (Item Byte)) (s : Rline × κ) : List (Item Byte) :=
  s.1.pending.map .byte ++ items s.2

/-- `my_read` gives the bytes in front of those that `read` still brings. -/
theorem reads_myRead {P : κ → Prop} {read : κ → Option (Got Byte MAXLINE × κ)}
    {items : κ → List (Item Byte)} (conveys : Conveys P read items)
    : Reads (fun s => P s.2) (myRead read) (bufferedItems items) where
  blocked s hs h := by
    unfold myRead at h
    split at h
    · cases h
    next nothing =>
      cases got : read s.2 with
      | none => simp [bufferedItems, pending_of_nonpos nothing, conveys.blocked s.2 hs got]
      | some found =>
          rw [got] at h
          obtain ⟨_ | _, k⟩ := found
          next values few => cases values <;> cases h
          next => cases h
  next s item s' hs h := by
    unfold myRead at h
    split at h
    next some_ =>
      cases h
      refine ⟨?_, hs⟩
      simp only [bufferedItems]
      rw [pending_take some_]
      rfl
    next nothing =>
      cases got : read s.2 with
      | none =>
          rw [got] at h
          cases h
      | some found =>
          rw [got] at h
          obtain ⟨result, k⟩ := found
          obtain ⟨brings, hk⟩ := conveys.brings s.2 result k hs got
          rw [bufferedItems, pending_of_nonpos nothing, brings]
          cases result with
          | error =>
              cases h
              exact ⟨by simp [bufferedItems, Got.items], hk⟩
          | bytes values few =>
              cases values with
              | nil =>
                  cases h
                  exact ⟨by simp [bufferedItems, Got.items], hk⟩
              | cons first more =>
                  cases h
                  have all := pending_take (s.1.fill_pos few)
                  rw [pending_fill] at all
                  exact ⟨congrArg (fun l => l.map Item.byte ++ items k) all, hk⟩

/-- Reads of one byte read the stream. -/
theorem reads_readOne : Reads (fun _ => True) readOne items where
  blocked k _ h := by
    unfold readOne at h
    cases got : readAgain 1 k with
    | none => exact items_of_readAgain_none got
    | some found =>
        rw [got] at h
        obtain ⟨_ | _, k'⟩ := found
        next values few => cases values <;> cases h
        next => cases h
  next k item k' _ h := by
    refine ⟨?_, trivial⟩
    unfold readOne at h
    cases got : readAgain 1 k with
    | none =>
        rw [got] at h
        cases h
    | some found =>
        rw [got] at h
        obtain ⟨result, k''⟩ := found
        rw [items_of_readAgain Nat.one_pos got]
        cases result with
        | error =>
            cases h
            rfl
        | bytes values few =>
            cases values with
            | nil =>
                cases h
                rfl
            | cons c more =>
                cases h
                obtain rfl : more = [] := List.length_eq_zero_iff.mp (by simpa using few)
                rfl

-- ------------------------------------------------------------------------------------------
-- The loop reads a line
-- ------------------------------------------------------------------------------------------

/-- The room that the loop has for a line when the counter is `n`. -/
def room (top maxlen n : Nat) : Nat := min maxlen (top + 1) - n

/-- How the loop is left where the line ends so: a line for which only the counter has no room
makes it overflow.
-/
def ended (top maxlen : Nat) (ending : LineEnd) : Ended :=
  if ending = .full ∧ top < maxlen then .overflow else .ends ending

/-- The counter after a line: it is not increased after a newline. -/
def counted (n : Nat) (ending : LineEnd) (bytes : List Byte) : Nat :=
  if ending = .newline then n + bytes.length - 1 else n + bytes.length

section Loop

variable {P : σ → Prop} {next : σ → Option (Item Byte × σ)} {items : σ → List (Item Byte)}
  {top maxlen n : Nat}

/-- What the loop comes to where there is a line. -/
private theorem goes_of_line {run : Option (Looped σ)} {ending : LineEnd} {bytes stored : List Byte}
    {s' : σ}
    (eq : run = some ⟨ended top maxlen ending, counted n ending bytes, stored ++ bytes, s'⟩)
    (hs' : P s')
    : (some (ending, bytes, items s') = none → run = none)
      ∧ ∀ ending' bytes' rest, some (ending, bytes, items s') = some (ending', bytes', rest)
        → ∃ s', run
            = some ⟨ended top maxlen ending', counted n ending' bytes', stored ++ bytes', s'⟩
          ∧ items s' = rest ∧ P s' := by
  refine ⟨nofun, ?_⟩
  intro ending' bytes' rest h
  cases h
  exact ⟨s', eq, rfl, hs'⟩

/-- The loop stores the next line of the stream and leaves what follows it, by induction on the
room for the line.
-/
theorem loop_spec (top maxlen : Nat) (reads : Reads P next items) (small : n ≤ top)
    (stored : List Byte) {s : σ} (hs : P s)
    : (lineOf newline (room top maxlen n) (items s) = none
        → loop next top maxlen n stored s = none)
      ∧ ∀ ending bytes rest,
        lineOf newline (room top maxlen n) (items s) = some (ending, bytes, rest)
        → ∃ s', loop next top maxlen n stored s
            = some ⟨ended top maxlen ending, counted n ending bytes, stored ++ bytes, s'⟩
          ∧ items s' = rest ∧ P s' := by
  induction left : maxlen - n generalizing n stored s with
  | zero =>
      have nothing : room top maxlen n = 0 := by
        unfold room
        omega
      have fits : ¬ top < maxlen := by omega
      rw [loop, if_neg (by omega), nothing, lineOf]
      exact goes_of_line (by simp [ended, counted, fits]) hs
  | succ left ih =>
      obtain ⟨more, some_room⟩ : ∃ more, room top maxlen n = more + 1 :=
        ⟨room top maxlen n - 1, by
          unfold room
          omega⟩
      rw [loop, if_pos (by omega), some_room]
      cases got : next s with
      | none =>
          rw [reads.blocked s hs got]
          exact ⟨fun _ => rfl, fun _ _ _ same => by cases same⟩
      | some found =>
          obtain ⟨item, s'⟩ := found
          obtain ⟨eq, hs'⟩ := reads.next s item s' hs got
          rw [eq]
          cases item with
          | eof => exact goes_of_line (by simp [ended, counted]) hs'
          | error => exact goes_of_line (by simp [ended, counted]) hs'
          | byte c =>
              simp only [lineOf]
              by_cases is_newline : c = newline
              · rw [if_pos is_newline, if_pos is_newline]
                exact goes_of_line (by simp [ended, counted]) hs'
              · rw [if_neg is_newline, if_neg is_newline]
                by_cases last : n = top
                · -- One more byte fits the buffer and not the counter.
                  obtain rfl : more = 0 := by
                    unfold room at some_room
                    omega
                  have over_ : top < maxlen := by omega
                  rw [if_pos last]
                  exact goes_of_line (by simp [ended, counted, over_]) hs'
                · have later : room top maxlen (n + 1) = more := by
                    unfold room at some_room ⊢
                    omega
                  obtain ⟨blocked, goes⟩ :=
                    ih (n := n + 1) (by omega) (stored ++ [c]) hs' (by omega)
                  rw [later] at blocked goes
                  rw [if_neg last]
                  refine ⟨fun h => blocked (Option.map_eq_none_iff.mp h), ?_⟩
                  intro ending bytes rest h
                  obtain ⟨⟨ending', bytes', rest'⟩, line, eq'⟩ := Option.map_eq_some_iff.mp h
                  cases eq'
                  obtain ⟨s'', run, after⟩ := goes ending' bytes' rest' line
                  refine ⟨s'', ?_, after⟩
                  rw [run]
                  have total : n + 1 + bytes'.length = n + (bytes'.length + 1) := by omega
                  simp [counted, total]

/-- Where the counter does not overflow, the loop reads the line that `maxlen` has room for, and
the counter stays in its bounds.
-/
theorem loop_line (reads : Reads P next items) (positive : 1 ≤ top) {s : σ} (hs : P s)
    {l : Looped σ} (run : loop next top maxlen 1 [] s = some l)
    {ending : LineEnd} (ends : l.ended = .ends ending)
    : IsLine newline (maxlen - 1) (items s) ending l.stored (items l.source)
      ∧ l.n = counted 1 ending l.stored ∧ (1 ≤ maxlen → l.n ≤ maxlen) ∧ l.n ≤ top := by
  obtain ⟨blocked, goes⟩ := loop_spec top maxlen reads positive [] hs
  cases found : lineOf newline (room top maxlen 1) (items s) with
  | none =>
      rw [blocked found] at run
      cases run
  | some line =>
      obtain ⟨ending', bytes, rest⟩ := line
      obtain ⟨s', run', left, -⟩ := goes ending' bytes rest found
      rw [run] at run'
      cases run'
      simp only [ended] at ends
      split at ends
      · cases ends
      next fits =>
        obtain rfl : ending' = ending := by
          cases ends
          rfl
        have isLine := isLine_of_lineOf found
        rw [← left] at isLine
        have within : (1 ≤ maxlen → counted 1 ending' bytes ≤ maxlen)
            ∧ counted 1 ending' bytes ≤ top := by
          have le := isLine.length_le
          unfold counted
          unfold room at le
          cases ending' with
          | newline =>
              have := isLine.pos_of_newline
              simp only [reduceCtorEq, or_self, if_true, if_false] at le ⊢
              omega
          | full =>
              have fits : maxlen ≤ top := by simpa using fits
              simp only [reduceCtorEq, or_self, if_false] at le ⊢
              omega
          | _ =>
              simp only [reduceCtorEq, or_true, true_or, if_true, if_false] at le ⊢
              omega
        refine ⟨?_, rfl, within⟩
        by_cases full : ending' = .full
        · have le : maxlen ≤ top := by
            simp only [full, true_and, Nat.not_lt] at fits
            exact fits
          rw [room, Nat.min_eq_left (by omega)] at isLine
          exact isLine
        · refine isLine.mono full ?_
          unfold room
          omega

end Loop

-- ------------------------------------------------------------------------------------------
-- What a call reports
-- ------------------------------------------------------------------------------------------

/-- The result is the number of bytes stored before the null byte, and these are the next ones of
the stream, up to and including the first newline, to the end, or as many as the buffer has room
for.
-/
structure Reports (maxlen : Nat) (stream : List (Item Byte)) (a : Answer)
    (rest : List (Item Byte))
    : Prop where
  count : a.value = a.stored.length
  line : ∃ ending, ending ≠ .error ∧ IsLine newline (maxlen - 1) stream ending a.stored rest
  terminated : 0 < a.value → a.terminated

/-- The next bytes of the stream fill the buffer, with no newline among them. -/
def Fills (maxlen : Nat) (stream : List (Item Byte)) : Prop :=
  ∃ bytes rest, IsLine newline (maxlen - 1) stream .full bytes rest

/-- The stream ends in the middle of a line. -/
def EndsInside (maxlen : Nat) (stream : List (Item Byte)) : Prop :=
  ∃ bytes rest, IsLine newline (maxlen - 1) stream .eof bytes rest ∧ bytes ≠ []

/-- The conversions keep the numbers that they can. -/
structure Converts (convert : Nat → Int) (top : Nat) : Prop where
  small : ∀ k < 2 ^ 63, convert k = k
  large : ∀ k, 2 ^ 63 ≤ k → k ≤ top → convert k < 0

/-- A number that fits is kept. -/
theorem converts_cast {top : Nat} (le : top ≤ SSIZE_MAX) : Converts Nat.cast top where
  small _ _ := rfl
  large k big few := by
    unfold SSIZE_MAX at le
    omega

/-- The conversion to `ssize_t` keeps what fits. -/
theorem converts_ssizeT : Converts (fun n => ssizeT n) SIZE_MAX where
  small k few := ssizeT_eq (by omega) (by omega)
  large k big few := by
    have high : k < 2 ^ 64 := Nat.lt_of_le_of_lt few (by decide)
    exact ssizeT_neg (by omega) (by omega)

section Calls

variable {P : σ → Prop} {next : σ → Option (Item Byte × σ)} {items : σ → List (Item Byte)}
  {top maxlen : Nat} {convert : Nat → Int} {s : σ} {l : Looped σ} {a : Answer}

/-- A result that is not negative is exact. -/
theorem Converts.exact {k : Nat} (converts : Converts convert top) (few : k ≤ top)
    (nonneg : 0 ≤ convert k)
    : convert k = k := by
  by_cases small : k < 2 ^ 63
  · exact converts.small k small
  · have := converts.large k (by omega) few
    omega

/-- A stream that begins with a line that ends otherwise does not fill the buffer. -/
theorem not_fills {stream rest : List (Item Byte)} {ending : LineEnd} {bytes : List Byte}
    (line : IsLine newline (maxlen - 1) stream ending bytes rest) (notFull : ending ≠ .full)
    : ¬ Fills maxlen stream := by
  rintro ⟨bytes', rest', fills⟩
  exact notFull (line.unique fills).1

/-- With the exits that count the bytes at the end of the stream, a call reports what it stored
except where the buffer is full: there it counts the null byte.
-/
theorem exits_reports_iff (reads : Reads P next items) (converts : Converts convert top)
    (positive : 1 ≤ top) (some_room : 1 ≤ maxlen) (hs : P s)
    (run : loop next top maxlen 1 [] s = some l) (returned : (exits convert l).1 = .returned a)
    : (0 ≤ a.value → Reports maxlen (items s) a (items l.source))
      ↔ ¬ (Fills maxlen (items s) ∧ maxlen < 2 ^ 63) := by
  cases ends : l.ended with
  | overflow =>
      rw [exits, ends] at returned
      cases returned
  | ends ending =>
      obtain ⟨line, n, le, few⟩ := loop_line reads positive hs run ends
      have notFills : ending ≠ .full → ¬ (Fills maxlen (items s) ∧ maxlen < 2 ^ 63) :=
        fun notFull both => not_fills line notFull both.1
      rw [exits, ends] at returned
      cases ending with
      | newline =>
          cases returned
          refine iff_of_true (fun nonneg => ⟨?_, ⟨.newline, nofun, line⟩, fun _ => rfl⟩)
            (notFills nofun)
          rw [converts.exact few nonneg, n, counted, if_pos rfl, Nat.add_sub_cancel_left]
      | eof =>
          cases returned
          refine iff_of_true (fun nonneg => ⟨?_, ⟨.eof, nofun, line⟩, fun _ => rfl⟩)
            (notFills nofun)
          have count : l.n - 1 = l.stored.length := by
            rw [n, counted, if_neg nofun, Nat.add_sub_cancel_left]
          rw [converts.exact (show l.n - 1 ≤ top by omega) nonneg, count]
      | error =>
          cases returned
          exact iff_of_true (fun nonneg => absurd nonneg (by simp)) (notFills nofun)
      | full =>
          cases returned
          have fills : Fills maxlen (items s) := ⟨_, _, line⟩
          have count : l.n = l.stored.length + 1 := by
            rw [n, counted, if_neg nofun, Nat.add_comm]
          have all := line.length_full
          by_cases small : maxlen < 2 ^ 63
          · refine iff_of_false (fun reports => ?_) (fun not => not ⟨fills, small⟩)
            have value : convert l.n = l.n := converts.small l.n (by have := le some_room; omega)
            have stored := (reports (by simp only [value]; omega)).count
            simp only [value] at stored
            omega
          · refine iff_of_true (fun nonneg => ?_) (fun both => small both.2)
            have negative := converts.large l.n (by omega) few
            exact absurd nonneg (by simpa using negative)

/-- The exits of `server/readline_r.c` count the null byte at the end of the stream as well. -/
theorem exitsR_reports_iff (reads : Reads P next items) (le : top ≤ SSIZE_MAX) (positive : 1 ≤ top)
    (some_room : 1 ≤ maxlen) (hs : P s) (run : loop next top maxlen 1 [] s = some l)
    (returned : (exitsR l).1 = .returned a)
    : (0 ≤ a.value → Reports maxlen (items s) a (items l.source))
      ↔ ¬ (Fills maxlen (items s) ∧ maxlen < 2 ^ 63 ∨ EndsInside maxlen (items s)) := by
  rw [not_or]
  by_cases eof : l.ended = .ends .eof
  · obtain ⟨line, n, -, -⟩ := loop_line reads positive hs run eof
    have notFills : ¬ (Fills maxlen (items s) ∧ maxlen < 2 ^ 63) :=
      fun both => not_fills line nofun both.1
    have count : l.n = l.stored.length + 1 := by
      rw [n, counted, if_neg nofun, Nat.add_comm]
    rw [exitsR, eof] at returned
    by_cases first : l.n = 1
    · have nothing : l.stored = [] := List.length_eq_zero_iff.mp (by omega)
      simp only [first, if_true] at returned
      cases returned
      refine iff_of_true (fun _ => ⟨?_, ⟨.eof, nofun, line⟩, nofun⟩) ⟨notFills, ?_⟩
      · simp [nothing]
      · rintro ⟨bytes, rest, line', some_⟩
        exact some_ ((line'.unique line).2.1.trans nothing)
    · simp only [first, if_false] at returned
      cases returned
      refine iff_of_false (fun reports => ?_) (fun both => both.2 ⟨_, _, line, ?_⟩)
      · have stored := (reports (Int.natCast_nonneg _)).count
        simp only at stored
        omega
      · intro nothing
        rw [nothing, List.length_nil] at count
        exact first count
  · have same : exitsR l = exits Nat.cast l := by
      unfold exitsR exits
      split <;> first | rfl | exact absurd ‹_› eof
    rw [same] at returned
    rw [exits_reports_iff reads (converts_cast le) positive some_room hs run returned]
    refine (and_iff_left ?_).symm
    rintro ⟨bytes, rest, line', -⟩
    cases ends : l.ended with
    | overflow =>
        rw [exits, ends] at returned
        cases returned
    | ends ending =>
        have line := (loop_line reads positive hs run ends).1
        rw [(line.unique line').1] at ends
        exact eof ends

end Calls

/-- What the thread has read and not taken, and what is still to be read. -/
def threadItems (s : Option Rline × List (Delivery Byte)) : List (Item Byte) :=
  bufferedItems items (s.1.getD Rline.init, s.2)

/-- However the bytes are cut into the results of reads and whatever was read before, a call that
returns a number reports what it stored exactly where the next bytes do not fill the buffer and,
for `server/readline_r.c`, do not end in the middle of a line.
-/
theorem readline_reports_iff {maxlen : Nat} (some_room : 1 ≤ maxlen)
    : (∀ k k' a, readline1 maxlen k = some (.returned a, k')
        → ((0 ≤ a.value → Reports maxlen (items k) a (items k'))
          ↔ ¬ (Fills maxlen (items k) ∧ maxlen < 2 ^ 63)))
      ∧ (∀ s s' a, readline (readAgain MAXLINE) maxlen s = some (.returned a, s')
        → ((0 ≤ a.value → Reports maxlen (threadItems s) a (threadItems s'))
          ↔ ¬ (Fills maxlen (threadItems s) ∧ maxlen < 2 ^ 63)))
      ∧ (∀ s s' a, readline3 maxlen s = some (.returned a, s')
        → ((0 ≤ a.value → Reports maxlen (bufferedItems items s) a (bufferedItems items s'))
          ↔ ¬ (Fills maxlen (bufferedItems items s) ∧ maxlen < 2 ^ 63)))
      ∧ ∀ s s' a, readlineR maxlen s = some (.returned a, s')
        → ((0 ≤ a.value → Reports maxlen (bufferedItems items s) a (bufferedItems items s'))
          ↔ ¬ (Fills maxlen (bufferedItems items s) ∧ maxlen < 2 ^ 63
            ∨ EndsInside maxlen (bufferedItems items s))) := by
  have buffered := reads_myRead (conveys_readAgain (show 0 < MAXLINE by decide))
  refine ⟨?_, ?_, ?_, ?_⟩
  · intro k k' a h
    obtain ⟨l, run, eq⟩ := Option.map_eq_some_iff.mp h
    obtain rfl : l.source = k' := by simpa using congrArg Prod.snd eq
    exact exits_reports_iff reads_readOne (converts_cast (Nat.le_refl _)) (by decide) some_room
      trivial run (congrArg Prod.fst eq)
  · intro s s' a h
    obtain ⟨l, run, eq⟩ := Option.map_eq_some_iff.mp h
    obtain rfl : (some l.source.1, l.source.2) = s' := congrArg Prod.snd eq
    exact exits_reports_iff buffered converts_ssizeT (by decide) some_room trivial run
      (congrArg Prod.fst eq)
  · intro s s' a h
    obtain ⟨l, run, eq⟩ := Option.map_eq_some_iff.mp h
    obtain rfl : l.source = s' := by simpa using congrArg Prod.snd eq
    exact exits_reports_iff buffered (converts_cast (by decide)) (by decide) some_room trivial run
      (congrArg Prod.fst eq)
  · intro s s' a h
    obtain ⟨l, run, eq⟩ := Option.map_eq_some_iff.mp h
    obtain rfl : l.source = s' := by simpa using congrArg Prod.snd eq
    exact exitsR_reports_iff buffered (by decide) (by decide) some_room trivial run
      (congrArg Prod.fst eq)

/-- Two bytes and a newline that arrive in two pieces, read into a buffer with room for them. -/
private theorem readline1_line
    : readline1 4 [.eintr, .data 97 [], .data 98 [10]]
      = some (.returned ⟨3, [97, 98, 10], true⟩, []) := by
  simp [readline1, loop, readOne, readAgain, exits, newline, SSIZE_MAX]

/-- A line of two pieces. -/
theorem readline_reports_iff_line
    : (0 ≤ (3 : Int) → Reports 4 (items [.eintr, .data 97 [], .data 98 [10]])
        ⟨3, [97, 98, 10], true⟩ (items []))
      ↔ ¬ (Fills 4 (items [.eintr, .data 97 [], .data 98 [10]]) ∧ 4 < 2 ^ 63) :=
  (readline_reports_iff (show 1 ≤ 4 by decide)).1 _ _ _ readline1_line

/-- A full buffer is reported with its null byte, and so is the end of the stream in the middle of
a line by `server/readline_r.c`.
-/
theorem readline_counts_null
    : (¬ ∀ k k' a, readline1 2 k = some (.returned a, k') →
        0 ≤ a.value → Reports 2 (items k) a (items k'))
      ∧ ¬ ∀ s s' a, readlineR 8 s = some (.returned a, s') →
        0 ≤ a.value → Reports 8 (bufferedItems items s) a (bufferedItems items s') := by
  constructor
  · intro always
    have run : readline1 2 [.data 97 [98]] = some (.returned ⟨2, [97], true⟩, [.data 98 []]) := by
      simp [readline1, loop, readOne, readAgain, exits, newline, SSIZE_MAX]
    exact absurd (always _ _ _ run (by decide)).count (by decide)
  · intro always
    have buffered := reads_myRead (conveys_readAgain (show 0 < MAXLINE by decide))
    have goes := (loop_spec INT_MAX 8 (n := 1) buffered (by decide) []
      (s := (Rline.init, [.data 97 [], .eof])) trivial).2
    obtain ⟨s', run, -⟩ := goes .eof [97] [] (by decide)
    have call : readlineR 8 (Rline.init, [.data 97 [], .eof])
        = some (.returned ⟨2, [97], true⟩, s') := by
      rw [readlineR, run]
      rfl
    exact absurd (always _ _ _ call (by decide)).count (by decide)

end Minions.Unp.Readline
