import Mathlib.Data.List.Basic

/-! Streams that arrive in pieces, and lines in them.
What a stream brings is a sequence of bytes, ends and errors; how it is cut into the results of
reads, and where a read is interrupted, is up to the sender.
-/

namespace Minions.Data

variable {β : Type}

/-- What a reader of single bytes gets. -/
inductive Item (β : Type) where
  | byte (b : β)
  | eof
  | error
  deriving DecidableEq

/-- What a descriptor has for its readers: bytes that one read can return, the end, an error, or
an interruption.
-/
inductive Delivery (β : Type) where
  | data (first : β) (more : List β)
  | eof
  | error
  | eintr

def Delivery.items : Delivery β → List (Item β)
  | .data first more => (first :: more).map .byte
  | .eof => [.eof]
  | .error => [.error]
  | .eintr => []

/-- What deliveries bring, however they are cut and interrupted. -/
def items (deliveries : List (Delivery β)) : List (Item β) := deliveries.flatMap Delivery.items

/-- What a read into so many bytes returns, other than an interruption. No bytes are the end. -/
inductive Got (β : Type) (nbyte : Nat) where
  | bytes (values : List β) (few : values.length ≤ nbyte)
  | error

def Got.items {nbyte : Nat} : Got β nbyte → List (Item β)
  | .bytes [] _ => [.eof]
  | .bytes (first :: more) _ => (first :: more).map .byte
  | .error => [.error]

/-- A read that is made again where it is interrupted, with what is left to be read after it.
There is no result where nothing more comes. What does not fit is left for the next read.
-/
def readAgain (nbyte : Nat) : List (Delivery β) → Option (Got β nbyte × List (Delivery β))
  | [] => none
  | .eintr :: rest => readAgain nbyte rest
  | .error :: rest => some (.error, rest)
  | .eof :: rest => some (.bytes [] (Nat.zero_le _), rest)
  | .data first more :: rest =>
      some (.bytes ((first :: more).take nbyte) (List.length_take_le _ _),
        match (first :: more).drop nbyte with
        | [] => rest
        | b :: bs => .data b bs :: rest)

/-- No deliveries carry no items. -/
@[simp]
theorem items_nil : items ([] : List (Delivery β)) = [] := rfl

/-- The items of the first delivery come first. -/
@[simp]
theorem items_cons (delivery : Delivery β) (rest : List (Delivery β))
    : items (delivery :: rest) = delivery.items ++ items rest :=
  List.flatMap_cons

/-- Reading, in the states that meet the condition, passes over nothing and brings nothing else. -/
structure Conveys {κ : Type} {nbyte : Nat} (P : κ → Prop) (read : κ → Option (Got β nbyte × κ))
    (items : κ → List (Item β))
    : Prop where
  blocked : ∀ k, P k → read k = none → items k = []
  brings : ∀ k got k', P k → read k = some (got, k') → items k = got.items ++ items k' ∧ P k'

/-- Where nothing more comes there are no items, by induction on the deliveries. -/
theorem items_of_readAgain_none {nbyte : Nat} {k : List (Delivery β)}
    (h : readAgain nbyte k = none)
    : items k = [] := by
  induction k with
  | nil => rfl
  | cons delivery rest ih =>
      cases delivery with
      | eintr => exact ih h
      | data first more => cases h
      | eof => cases h
      | error => cases h

/-- However the deliveries are cut, reads bring their items, by induction on the deliveries. -/
theorem items_of_readAgain {nbyte : Nat} (positive : 0 < nbyte) {k k' : List (Delivery β)}
    {got : Got β nbyte} (h : readAgain nbyte k = some (got, k'))
    : items k = got.items ++ items k' := by
  induction k with
  | nil => cases h
  | cons delivery rest ih =>
      cases delivery with
      | eintr => exact ih h
      | eof =>
          cases h
          rfl
      | error =>
          cases h
          rfl
      | data first more =>
          obtain ⟨n, rfl⟩ : ∃ n, nbyte = n + 1 := ⟨nbyte - 1, by omega⟩
          simp only [readAgain, List.take_succ_cons, List.drop_succ_cons, Option.some.injEq,
            Prod.mk.injEq] at h
          obtain ⟨rfl, rfl⟩ := h
          have split : more.map Item.byte = (more.take n).map .byte ++ (more.drop n).map .byte := by
            rw [← List.map_append, List.take_append_drop]
          rw [items_cons, Delivery.items, Got.items, List.map_cons, List.map_cons, split]
          cases left : more.drop n with
          | nil => simp
          | cons b bs => simp [Delivery.items]

/-- Reads that are repeated after an interruption convey the stream. -/
theorem conveys_readAgain {nbyte : Nat} (positive : 0 < nbyte)
    : Conveys (fun _ => True) (readAgain (β := β) nbyte) items :=
  ⟨fun _ _ => items_of_readAgain_none, fun _ _ _ _ h => ⟨items_of_readAgain positive h, trivial⟩⟩

/-- A reader of single bytes, in the states that meet the condition, gets the items in order. -/
structure Reads {σ : Type} (P : σ → Prop) (next : σ → Option (Item β × σ))
    (items : σ → List (Item β))
    : Prop where
  blocked : ∀ s, P s → next s = none → items s = []
  next : ∀ s item s', P s → next s = some (item, s') → items s = item :: items s' ∧ P s'

-- ------------------------------------------------------------------------------------------
-- Lines
-- ------------------------------------------------------------------------------------------

/-- How a line ends. -/
inductive LineEnd where
  | newline
  | eof
  | error
  | full
  deriving DecidableEq

/-- The next line of a stream: the bytes up to and including the first newline, or to the end or
an error, or as many as there is room for. There is none where the stream does not go so far.
-/
def lineOf [DecidableEq β] (newline : β)
    : Nat → List (Item β) → Option (LineEnd × List β × List (Item β))
  | 0, stream => some (.full, [], stream)
  | _ + 1, [] => none
  | _ + 1, .eof :: rest => some (.eof, [], rest)
  | _ + 1, .error :: rest => some (.error, [], rest)
  | room + 1, .byte b :: rest =>
      if b = newline then some (.newline, [b], rest)
      else (lineOf newline room rest).map fun line => (line.1, b :: line.2.1, line.2.2)

/-- A line at the start of a stream: what ends it, its bytes, and what follows it. -/
inductive IsLine (newline : β) (room : Nat)
    : List (Item β) → LineEnd → List β → List (Item β) → Prop
  | newline (bytes : List β) (rest : List (Item β)) (first : newline ∉ bytes)
      (fits : bytes.length < room)
    : IsLine newline room (bytes.map .byte ++ .byte newline :: rest) .newline
        (bytes ++ [newline]) rest
  | eof (bytes : List β) (rest : List (Item β)) (first : newline ∉ bytes)
      (fits : bytes.length < room)
    : IsLine newline room (bytes.map .byte ++ .eof :: rest) .eof bytes rest
  | error (bytes : List β) (rest : List (Item β)) (first : newline ∉ bytes)
      (fits : bytes.length < room)
    : IsLine newline room (bytes.map .byte ++ .error :: rest) .error bytes rest
  | full (bytes : List β) (rest : List (Item β)) (first : newline ∉ bytes)
      (fits : bytes.length = room)
    : IsLine newline room (bytes.map .byte ++ rest) .full bytes rest

variable {newline : β} {room : Nat} {stream rest : List (Item β)} {ending : LineEnd}
  {bytes : List β}

/-- A byte that is no newline goes before a line. -/
theorem IsLine.cons {b : β} (line : IsLine newline room stream ending bytes rest)
    (other : b ≠ newline)
    : IsLine newline (room + 1) (.byte b :: stream) ending (b :: bytes) rest := by
  have first : ∀ {l : List β}, newline ∉ l → newline ∉ b :: l := by
    intro l h
    simp [h, Ne.symm other]
  cases line with
  | newline bytes _ not_in fits =>
      exact .newline (b :: bytes) _ (first not_in) (by simpa using fits)
  | eof _ _ not_in fits => exact .eof (b :: _) _ (first not_in) (by simpa using fits)
  | error _ _ not_in fits => exact .error (b :: _) _ (first not_in) (by simpa using fits)
  | full _ _ not_in fits => exact .full (b :: _) _ (first not_in) (by simpa using fits)

/-- More room does not change a line that does not need it. -/
theorem IsLine.mono {more : Nat} (line : IsLine newline room stream ending bytes rest)
    (notFull : ending ≠ .full) (le : room ≤ more)
    : IsLine newline more stream ending bytes rest := by
  cases line with
  | newline _ _ first fits => exact .newline _ _ first (by omega)
  | eof _ _ first fits => exact .eof _ _ first (by omega)
  | error _ _ first fits => exact .error _ _ first (by omega)
  | full => exact absurd rfl notFull

/-- A line that fills its room has that length. -/
theorem IsLine.length_full (line : IsLine newline room stream .full bytes rest)
    : bytes.length = room := by
  cases line
  assumption

/-- A line with its end fits the room for it. -/
theorem IsLine.length_le (line : IsLine newline room stream ending bytes rest)
    : (if ending = .eof ∨ ending = .error then bytes.length + 1 else bytes.length) ≤ room := by
  cases line <;> simp <;> omega

/-- A line that ends in a newline is not empty. -/
theorem IsLine.pos_of_newline (line : IsLine newline room stream .newline bytes rest)
    : 0 < bytes.length := by
  cases line
  simp

/-- The bytes of a stream. -/
def itemBytes : List (Item β) → List β
  | [] => []
  | .byte b :: rest => b :: itemBytes rest
  | .eof :: rest => itemBytes rest
  | .error :: rest => itemBytes rest

/-- The bytes in front of a stream come first. -/
theorem itemBytes_append (first : List β) (stream : List (Item β))
    : itemBytes (first.map .byte ++ stream) = first ++ itemBytes stream := by
  induction first with
  | nil => rfl
  | cons b first ih => exact congrArg (b :: ·) ih

/-- The bytes of a line come before those that follow it. -/
theorem IsLine.itemBytes_eq (line : IsLine newline room stream ending bytes rest)
    : itemBytes stream = bytes ++ itemBytes rest := by
  cases line <;> simp [itemBytes_append, itemBytes]

variable [DecidableEq β]

/-- What `lineOf` finds is a line, by induction on the room. -/
theorem isLine_of_lineOf (h : lineOf newline room stream = some (ending, bytes, rest))
    : IsLine newline room stream ending bytes rest := by
  induction room generalizing stream bytes with
  | zero =>
      cases h
      exact .full [] _ List.not_mem_nil rfl
  | succ room ih =>
      cases stream with
      | nil => cases h
      | cons item stream =>
          cases item with
          | eof =>
              cases h
              exact .eof [] _ List.not_mem_nil (Nat.succ_pos _)
          | error =>
              cases h
              exact .error [] _ List.not_mem_nil (Nat.succ_pos _)
          | byte b =>
              simp only [lineOf] at h
              split at h
              next is_newline =>
                cases h
                subst is_newline
                exact .newline [] _ List.not_mem_nil (Nat.succ_pos _)
              next other =>
                obtain ⟨⟨ending', bytes', rest'⟩, found, eq⟩ := Option.map_eq_some_iff.mp h
                cases eq
                exact (ih found).cons other

/-- Bytes without a newline in front of a stream lengthen its line. -/
private theorem lineOf_append {first : List β} (not_in : newline ∉ first) (stream : List (Item β))
    : lineOf newline (room + first.length) (first.map .byte ++ stream)
      = (lineOf newline room stream).map fun line => (line.1, first ++ line.2.1, line.2.2) := by
  induction first with
  | nil => simp
  | cons b first ih =>
      rw [List.mem_cons, not_or] at not_in
      rw [List.length_cons, ← Nat.add_assoc, List.map_cons, List.cons_append, lineOf,
        if_neg (Ne.symm not_in.1), ih not_in.2, Option.map_map]
      rfl

/-- `lineOf` finds every line. -/
theorem IsLine.lineOf_eq (line : IsLine newline room stream ending bytes rest)
    : lineOf newline room stream = some (ending, bytes, rest) := by
  cases line with
  | newline bytes _ first fits =>
      obtain ⟨more, rfl⟩ : ∃ more, room = more + 1 + bytes.length :=
        ⟨room - 1 - bytes.length, by omega⟩
      rw [lineOf_append first]
      simp [lineOf]
  | eof _ _ first fits =>
      obtain ⟨more, rfl⟩ : ∃ more, room = more + 1 + bytes.length :=
        ⟨room - 1 - bytes.length, by omega⟩
      rw [lineOf_append first]
      simp [lineOf]
  | error _ _ first fits =>
      obtain ⟨more, rfl⟩ : ∃ more, room = more + 1 + bytes.length :=
        ⟨room - 1 - bytes.length, by omega⟩
      rw [lineOf_append first]
      simp [lineOf]
  | full _ _ first fits =>
      obtain rfl : 0 + bytes.length = room := by omega
      rw [lineOf_append first]
      simp [lineOf]

/-- A stream begins with one line only. -/
theorem IsLine.unique {ending' : LineEnd} {bytes' : List β} {rest' : List (Item β)}
    (line : IsLine newline room stream ending bytes rest)
    (line' : IsLine newline room stream ending' bytes' rest')
    : ending = ending' ∧ bytes = bytes' ∧ rest = rest' := by
  simpa using line.lineOf_eq.symm.trans line'.lineOf_eq

/-- More room makes a difference only where a line is full. -/
theorem lineOf_more {more : Nat}
    (notFull : ¬ ∃ bytes rest, IsLine newline room stream .full bytes rest) (le : room ≤ more)
    : lineOf newline more stream = lineOf newline room stream := by
  induction room generalizing stream more with
  | zero => exact absurd ⟨[], stream, .full [] stream List.not_mem_nil rfl⟩ notFull
  | succ room ih =>
      obtain ⟨more, rfl⟩ : ∃ n, more = n + 1 := ⟨more - 1, by omega⟩
      cases stream with
      | nil => rfl
      | cons item stream =>
          cases item with
          | eof => rfl
          | error => rfl
          | byte b =>
              rw [lineOf, lineOf]
              by_cases is_newline : b = newline
              · rw [if_pos is_newline, if_pos is_newline]
              · rw [if_neg is_newline, if_neg is_newline, ih _ (by omega)]
                rintro ⟨bytes, rest, line⟩
                exact notFull ⟨b :: bytes, rest, line.cons is_newline⟩

end Minions.Data
