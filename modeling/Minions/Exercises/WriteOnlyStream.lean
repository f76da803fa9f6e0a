import Minions.Exercises.UpdateStream

/-! Memory streams that are only written.
Each byte of the content is the last one that was stored there. Besides the bytes that it
reports, every write of such a stream stores a NUL: behind them, or in the last byte of the
buffer if they end where it does.
-/

namespace Minions.Exercises

open Minions.Data Minions.Logic

/-- The byte of the first entry for a position in a log, whose last entry comes first. -/
def latest (log : List (Nat × Byte)) (p : Nat) : Option Byte :=
  (log.find? fun entry => entry.1 = p).map Prod.snd

/-- The entries for bytes that are stored from a position on. -/
def entries (place : Nat) : List Byte → List (Nat × Byte)
  | [] => []
  | b :: bs => (place, b) :: entries (place + 1) bs

theorem latest_cons (q : Nat) (b : Byte) (log : List (Nat × Byte)) (p : Nat)
    : latest ((q, b) :: log) p = if q = p then some b else latest log p := by
  unfold latest
  by_cases here : q = p
  · simp [here]
  · simp [here]

theorem latest_entries (place : Nat) (bytes : List Byte) (log : List (Nat × Byte)) (p : Nat)
    : latest (entries place bytes ++ log) p
      = if place ≤ p ∧ p < place + bytes.length then bytes[p - place]? else latest log p := by
  induction bytes generalizing place with
  | nil =>
      rw [if_neg (by simp only [List.length_nil]; omega)]
      rfl
  | cons b bs ih =>
      rw [entries, List.cons_append, latest_cons, ih]
      by_cases here : place = p
      · subst here
        simp
      · rw [if_neg here]
        by_cases inside : place + 1 ≤ p ∧ p < place + 1 + bs.length
        · rw [if_pos inside, if_pos (by simp only [List.length_cons]; omega),
            show p - place = p - (place + 1) + 1 by omega, List.getElem?_cons_succ]
        · rw [if_neg inside, if_neg (by simp only [List.length_cons]; omega)]

/-- A file that is only written: its size, the bytes that the writes have reported, and all
bytes that were stored.
-/
structure WriteLog where
  capacity : Nat
  size : Nat
  pos : Nat
  append : Bool
  reported : List (Nat × Byte)
  stores : List (Nat × Byte)
deriving Repr, DecidableEq

namespace WriteLog

/-- The place where a write goes. -/
def place (g : WriteLog) : Nat := if g.append then g.size else g.pos

/-- The number of bytes that there is room for. -/
def count (g : WriteLog) (bytes : List Byte) : Nat := min bytes.length (g.capacity - g.place)

/-- Where the NUL of a write goes that ends at a position. -/
def nulAt (g : WriteLog) (stop : Nat) : Nat := if stop < g.capacity then stop else g.capacity - 1

/-- Store as many bytes as there is room for, and a NUL. -/
def write (g : WriteLog) (bytes : List Byte) : WriteLog :=
  let block := entries g.place (bytes.take (g.count bytes))
  { g with
    size := max g.size (g.place + g.count bytes)
    pos := g.place + g.count bytes
    reported := block ++ g.reported
    stores := (g.nulAt (g.place + g.count bytes), 0) :: (block ++ g.stores) }

/-- Where a seek leads. -/
def target (g : WriteLog) (pos : Int64) (whence : Whence) : Int :=
  seekTarget g.pos g.size pos whence

def seek (g : WriteLog) (pos : Int64) (whence : Whence) : Int × WriteLog :=
  if 0 ≤ g.target pos whence ∧ g.target pos whence ≤ g.size then
    (g.target pos whence, { g with pos := (g.target pos whence).toNat })
  else (-1, g)

end WriteLog

/-- One call on the file. Reads are refused. -/
def logStep (g : WriteLog) : Op → Answer × WriteLog
  | .read _ => (⟨-1, []⟩, g)
  | .write bytes => (⟨g.count bytes, []⟩, g.write bytes)
  | .seek pos whence => (⟨(g.seek pos whence).1, []⟩, (g.seek pos whence).2)

/-- The stream holds what the log says. -/
structure Holds (m : MemStream) (g : WriteLog) : Prop where
  rsize : m.rsize = g.capacity
  vsize : m.vsize = g.size
  curpos : m.curpos = g.pos
  append : m.flags.MS_APPEND = g.append
  writeOnly : m.flags.MS_READ = false ∧ (m.flags.MS_WRITE = true ∨ m.flags.MS_APPEND = true)
  posLe : g.pos ≤ g.size
  sizeLe : g.size ≤ g.capacity
  positive : 0 < g.capacity
  small : g.capacity < 2 ^ 31
  bytes : ∀ p < g.size, latest g.stores p = some (m.buf p)

variable {m : MemStream} {g : WriteLog}

theorem Holds.place (holds : Holds m g) : m.place = g.place := by
  rw [MemStream.place, WriteLog.place, holds.append, holds.vsize, holds.curpos]

theorem Holds.place_le (holds : Holds m g) : g.place ≤ g.size := by
  unfold WriteLog.place
  split
  · exact le_refl _
  · exact holds.posLe

/-- The NUL of a stream that is only written. -/
theorem terminate_buf (writeOnly : m.flags.MS_READ = false
      ∧ (m.flags.MS_WRITE = true ∨ m.flags.MS_APPEND = true))
    : m.terminate = { m with buf := Function.update m.buf m.nulPos 0 } :=
  if_pos ⟨writeOnly.2, by simp [writeOnly.1]⟩

/-- It is the only one. -/
theorem extend_writeOnly (writeOnly : m.flags.MS_READ = false) : m.extend.buf = m.buf := by
  unfold MemStream.extend
  split
  · exact if_neg (by simp [writeOnly])
  · rfl

theorem holds_write (holds : Holds m g) (bytes : List Byte)
    : (streamStep m (.write bytes)).1 = (logStep g (.write bytes)).1
      ∧ Holds (streamStep m (.write bytes)).2 (logStep g (.write bytes)).2 := by
  have placeLe := holds.place_le
  have sizeLe := holds.sizeLe
  have positive := holds.positive
  have small := holds.small
  have rsize := holds.rsize
  have vsize := holds.vsize
  have place := holds.place
  have allowed : m.flags.MS_APPEND = true ∨ m.flags.MS_WRITE = true := holds.writeOnly.2.symm
  have count : min bytes.length (m.rsize - m.place) = g.count bytes := by
    rw [WriteLog.count, rsize, place]
  have room : g.count bytes ≤ g.capacity - g.place := Nat.min_le_right _ _
  have length : (bytes.take (g.count bytes)).length = g.count bytes := by
    rw [List.length_take, WriteLog.count]
    omega
  simp only [streamStep, logStep, WriteLog.write]
  rw [mstreamWrite_eq allowed (by omega) (by omega), terminate_buf (by simpa using holds.writeOnly),
    count, place]
  refine ⟨rfl, ?_⟩
  refine {
    rsize := by simp [rsize]
    vsize := by simp [vsize]
    curpos := by simp
    append := by simp [holds.append]
    writeOnly := by simpa using holds.writeOnly
    posLe := by simp only; omega
    sizeLe := by simp only; omega
    positive
    small
    bytes := fun p below => ?_
  }
  simp only at below
  have nul : (({ m with buf := memcpy m.buf g.place bytes (g.count bytes) } : MemStream).move
      (g.place + g.count bytes)).extend.nulPos = (g.nulAt (g.place + g.count bytes) : Nat) := by
    simp only [MemStream.nulPos, WriteLog.nulAt, MemStream.extend_curpos, MemStream.extend_rsize,
      MemStream.move_curpos, MemStream.move_rsize, rsize]
    split
    · rfl
    · omega
  rw [extend_writeOnly (by simpa using holds.writeOnly.1), latest_cons, latest_entries, length, nul,
    MemStream.move_buf]
  generalize g.nulAt (g.place + g.count bytes) = stop
  change _ = some (Function.update (memcpy m.buf g.place bytes (g.count bytes)) stop 0 p)
  by_cases cleared : stop = p
  · rw [if_pos cleared, cleared, Function.update_self]
  rw [if_neg cleared, Function.update_of_ne (by omega)]
  by_cases inside : g.place ≤ p ∧ p < g.place + g.count bytes
  · rw [if_pos inside, memcpy_inside inside.1 inside.2, List.getElem?_take_of_lt (by omega),
      List.getD_eq_getElem?_getD]
    have there : p - g.place < bytes.length := by
      have := Nat.min_le_left bytes.length (g.capacity - g.place)
      unfold WriteLog.count at inside
      omega
    rw [List.getElem?_eq_getElem there]
    rfl
  · rw [if_neg inside, memcpy_outside (by omega)]
    exact holds.bytes p (by omega)

theorem holds_seek (holds : Holds m g) {pos : Int64} {whence : Whence}
    (range : InRange m (.seek pos whence))
    : (streamStep m (.seek pos whence)).1 = (logStep g (.seek pos whence)).1
      ∧ Holds (streamStep m (.seek pos whence)).2 (logStep g (.seek pos whence)).2 := by
  have off : m.seekOff pos whence = g.target pos whence := by
    rw [seekOff_eq, toInt_eq range.1 range.2, MemStream.target, WriteLog.target, holds.curpos,
      holds.vsize]
  simp only [streamStep, logStep, mstreamSeek, WriteLog.seek, off]
  by_cases inside : 0 ≤ g.target pos whence ∧ g.target pos whence ≤ g.size
  · rw [if_pos inside, if_neg (by rw [holds.vsize]; omega)]
    exact ⟨rfl, { holds with curpos := rfl, posLe := by simp only; omega }⟩
  · rw [if_neg inside, if_pos (by rw [holds.vsize]; omega)]
    exact ⟨rfl, holds⟩

/-- Each call is answered as the log says. -/
theorem holds_step {op : Op} (range : InRange m op) (holds : Holds m g)
    : (streamStep m op).1 = (logStep g op).1 ∧ Holds (streamStep m op).2 (logStep g op).2 := by
  cases op with
  | read len =>
      have refused : ¬ m.flags.MS_READ = true := by simp [holds.writeOnly.1]
      simp only [streamStep, logStep, mstreamRead, if_pos refused]
      exact ⟨trivial, holds⟩
  | write bytes => exact holds_write holds bytes
  | seek pos whence => exact holds_seek holds range

/-- The log with which a type opens the caller's buffer: the content that is there counts as
written.
-/
def openedLog (buf : Int → Byte) (size : Nat) (type : List Char) : WriteLog :=
  let f := openedFile true buf size type
  { capacity := size
    size := f.content.length
    pos := f.pos
    append := f.append
    reported := entries 0 f.content
    stores := entries 0 f.content }

theorem holds_opened (buf : Int → Byte) {size : Nat} {type : List Char}
    (accepted : typeToFlags type ≠ .zero) (noPlus : '+' ∉ type) (notRead : type.head? ≠ some 'r')
    (positive : 1 ≤ size) (small : size < 2 ^ 31)
    : ∃ m, fmemopen true buf size type = some m ∧ Holds m (openedLog buf size type) := by
  obtain ⟨c, rest, rfl, letter, flags⟩ := typeToFlags_eq accepted
  rw [if_neg noPlus] at flags
  refine ⟨_, fmemopen_eq true buf accepted (.inl rfl) positive, ?_⟩
  have posLe := (openedFile true buf size (c :: rest)).posLe
  have contentLe := (openedFile true buf size (c :: rest)).contentLe
  refine {
    rsize := rfl
    vsize := rfl
    curpos := rfl
    append := ?_
    writeOnly := ?_
    posLe
    sizeLe := contentLe
    positive
    small
    bytes := fun p below => ?_
  }
  · simp [flags, letterFlags, openedLog, openedFile]
  · have notR : c ≠ 'r' := by simpa using notRead
    rcases letterFlags_cases letter with rfl | rfl | rfl
    · exact absurd rfl notR
    · simp [flags, letterFlags]
    · simp [flags, letterFlags]
  · have first := latest_entries 0 (openedFile true buf size (c :: rest)).content [] p
    rw [List.append_nil] at first
    change latest (entries 0 (openedFile true buf size (c :: rest)).content) p = _
    have below' : p < (openedFile true buf size (c :: rest)).content.length := below
    rw [first, if_pos ⟨Nat.zero_le p, by omega⟩]
    exact getElem?_openedContent below'

/-- On the caller's buffer of less than 2 ^ 31 bytes, opened for the letter `w` or `a` without a
plus sign, after every run of calls whose numbers are in the range of `int`, each byte of the
content is the one most recently stored there: by a write, or by the NUL that follows each write.
-/
theorem write_only_stream_keeps (buf : Int → Byte) (size : Nat) (type : List Char)
    (accepted : typeToFlags type ≠ .zero) (noPlus : '+' ∉ type) (notRead : type.head? ≠ some 'r')
    (positive : 1 ≤ size) (small : size < 2 ^ 31)
    : ∃ m, fmemopen true buf size type = some m
        ∧ ∀ ops, EveryStep (next streamStep) InRange m ops
          → answers streamStep m ops = answers logStep (openedLog buf size type) ops
            ∧ (after streamStep m ops).vsize = (after logStep (openedLog buf size type) ops).size
            ∧ ∀ p < (after streamStep m ops).vsize,
                latest (after logStep (openedLog buf size type) ops).stores p
                  = some ((after streamStep m ops).buf p) := by
  obtain ⟨m, opened, holds⟩ := holds_opened buf accepted noPlus notRead positive small
  refine ⟨m, opened, fun ops every => ?_⟩
  have one : ∀ m g op, InRange m op → Holds m g
      → (streamStep m op).1 = (logStep g op).1 ∧ Holds (streamStep m op).2 (logStep g op).2 :=
    fun _ _ _ => holds_step
  obtain ⟨same, ends⟩ := answers_simulate Holds one every holds
  exact ⟨same, ends.vsize, fun p below => ends.bytes p (ends.vsize ▸ below)⟩

/-- Two writes at the end of a buffer of two bytes. -/
theorem write_only_stream_keeps_two
    : ∃ m, fmemopen true (fun _ => 0) 2 ['w'] = some m
        ∧ ∀ p < (after streamStep m [.write [97], .write [98, 99]]).vsize,
            latest
                (after logStep (openedLog (fun _ => 0) 2 ['w'])
                  [.write [97], .write [98, 99]]).stores
                p
              = some ((after streamStep m [.write [97], .write [98, 99]]).buf p) := by
  obtain ⟨m, opened, keeps⟩ := write_only_stream_keeps (fun _ => 0) 2 ['w'] (by decide) (by decide)
    (by decide) (by decide) (by decide)
  refine ⟨m, opened, (keeps _ ?_).2.2⟩
  obtain rfl := Option.some.inj opened
  decide +kernel

/-- After three bytes, a seek to the start and a fourth byte there, the second byte is lost. -/
theorem write_only_stream_clears
    : ¬ ∀ (buf : Int → Byte) (size : Nat) (type : List Char) (m : MemStream) (ops : List Op),
        '+' ∉ type → type.head? ≠ some 'r' → 1 ≤ size → size < 2 ^ 31
        → fmemopen true buf size type = some m → EveryStep (next streamStep) InRange m ops
        → ∀ p < (after streamStep m ops).vsize,
            latest (after logStep (openedLog buf size type) ops).reported p
              = some ((after streamStep m ops).buf p) := by
  intro keeps
  have kept := keeps (fun _ => 0) 8 ['w'] _ [.write [97, 98, 99], .seek 0 .set, .write [120]]
    (by decide) (by decide) (by decide) (by decide) rfl (by decide +kernel) 1 (by decide +kernel)
  exact absurd kept (by decide +kernel)

end Minions.Exercises
