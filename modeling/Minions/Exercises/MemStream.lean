import Minions.Data.CInt
import Minions.Data.Decimal
import Minions.Logic.Answers

/-! Memory streams, `fmemopen.c`.
The positions of a stream are of type `size_t`, but offsets pass through an `int`. The model
keeps every conversion; addresses are relative to the start of the buffer, so that a store before
it can be told from one inside it.
-/

namespace Minions.Exercises

open Minions.Data Minions.Logic

/-- The flags of a stream; `MS_MYBUF` is left out, since only `mstream_close` reads it. -/
structure Flags where
  MS_READ : Bool
  MS_WRITE : Bool
  MS_APPEND : Bool
  MS_TRUNCATE : Bool
deriving Repr, DecidableEq

/-- No flag. -/
def Flags.zero : Flags := ⟨false, false, false, false⟩

/-- The loop of `type_to_flags`. -/
def typeLoop (flags : Flags) : List Char → Flags
  | [] => flags
  | 'r' :: rest => if flags ≠ .zero then .zero else typeLoop { flags with MS_READ := true } rest
  | 'w' :: rest =>
      if flags ≠ .zero then .zero
      else typeLoop { flags with MS_WRITE := true, MS_TRUNCATE := true } rest
  | 'a' :: rest => if flags ≠ .zero then .zero else typeLoop { flags with MS_APPEND := true } rest
  | '+' :: rest =>
      if flags = .zero then .zero
      else typeLoop { flags with MS_READ := true, MS_WRITE := true } rest
  | 'b' :: rest => if flags = .zero then .zero else typeLoop flags rest
  | _ :: _ => .zero

/-- `type_to_flags`; no flag means that the type is not accepted. -/
def typeToFlags (type : List Char) : Flags := typeLoop .zero type

/-- `struct memstream`, with what the memory around the buffer holds. -/
structure MemStream where
  buf : Int → Byte
  rsize : Nat
  vsize : Nat
  curpos : Nat
  flags : Flags

/-- The stream at another position. -/
def MemStream.move (m : MemStream) (curpos : Nat) : MemStream := { m with curpos }

@[simp] theorem MemStream.move_buf (m : MemStream) (n : Nat) : (m.move n).buf = m.buf := rfl

@[simp] theorem MemStream.move_rsize (m : MemStream) (n : Nat) : (m.move n).rsize = m.rsize := rfl

@[simp] theorem MemStream.move_vsize (m : MemStream) (n : Nat) : (m.move n).vsize = m.vsize := rfl

@[simp] theorem MemStream.move_curpos (m : MemStream) (n : Nat) : (m.move n).curpos = n := rfl

@[simp] theorem MemStream.move_flags (m : MemStream) (n : Nat) : (m.move n).flags = m.flags := rfl

/-- `find_end`: the first NUL of the buffer, or its end. -/
def findEnd (buf : Int → Byte) (len : Nat) : Nat :=
  ((List.range len).find? fun off : Nat => buf (off : Int) = 0).getD len

/-- `fmemopen`, when memory can be had. The buffer is the caller's, or a new one with unknown
content. The stream is that of a successful call.
-/
def fmemopen (caller : Bool) (buf : Int → Byte) (size : Nat) (type : List Char)
    : Option MemStream :=
  let flags := typeToFlags type
  if size = 0 then none
  else if flags = .zero then none
  else if ¬ caller ∧ ¬ (flags.MS_READ ∧ flags.MS_WRITE) then none
  else
    let curpos := if caller ∧ flags.MS_APPEND then findEnd buf size else 0
    let vsize := if flags.MS_APPEND then curpos else if flags.MS_TRUNCATE then 0 else size
    some { buf, rsize := size, vsize, curpos, flags }

/-- `memcpy(buf + off, bytes, n)`. -/
def memcpy (buf : Int → Byte) (off : Int) (bytes : List Byte) (n : Nat) : Int → Byte :=
  fun j => if off ≤ j ∧ j < off + n then bytes.getD (j - off).toNat 0 else buf j

/-- `mstream_read` of `len` bytes: the value returned and the bytes copied to the caller. -/
def mstreamRead (m : MemStream) (len : Nat) : (Int × List Byte) × MemStream :=
  if ¬ m.flags.MS_READ then ((-1, []), m)
  else if m.curpos ≥ m.vsize then ((0, []), m)
  else
    let nr := toInt (min len (m.vsize - m.curpos) : Nat)
    ((nr, (List.range nr.toNat).map fun j : Nat => m.buf (m.curpos + j)),
      m.move (sizeT (m.curpos + nr)))

/-- The place where a write goes. -/
def MemStream.place (m : MemStream) : Nat := if m.flags.MS_APPEND then m.vsize else m.curpos

/-- The `off` of `mstream_write`. -/
def MemStream.off (m : MemStream) : Int := toInt m.place

/-- The end of the content moves to the position, if that is behind it. A stream that is also
read gets a NUL there.
-/
def MemStream.extend (m : MemStream) : MemStream :=
  if m.curpos > m.vsize then
    { m with
      vsize := m.curpos
      buf :=
        if (m.flags.MS_READ ∧ m.flags.MS_WRITE) ∧ m.curpos < m.rsize then
          Function.update m.buf m.curpos 0
        else m.buf }
  else m

/-- Where a stream that is only written gets a NUL after every write. -/
def MemStream.nulPos (m : MemStream) : Int :=
  if m.curpos < m.rsize then m.curpos else m.rsize - 1

def MemStream.terminate (m : MemStream) : MemStream :=
  if (m.flags.MS_WRITE ∨ m.flags.MS_APPEND) ∧ ¬ m.flags.MS_READ then
    { m with buf := Function.update m.buf m.nulPos 0 }
  else m

/-- `mstream_write`. -/
def mstreamWrite (m : MemStream) (bytes : List Byte) : Int × MemStream :=
  if ¬ (m.flags.MS_APPEND ∨ m.flags.MS_WRITE) then (-1, m)
  else
    let off := m.off
    let nw := toInt (min bytes.length (sizeT (m.rsize - off)) : Nat)
    let written := ({ m with buf := memcpy m.buf off bytes nw.toNat } : MemStream)
    (nw, (written.move (sizeT (toInt (off + nw)))).extend.terminate)

inductive Whence
  | set
  | cur
  | end
deriving Repr, DecidableEq

/-- Where a seek should lead, from a position in a content of a size. -/
def seekTarget (curpos vsize : Nat) (pos : Int64) : Whence → Int
  | .set => pos.toInt
  | .cur => curpos + pos.toInt
  | .end => vsize + pos.toInt

def MemStream.target (m : MemStream) (pos : Int64) (whence : Whence) : Int :=
  seekTarget m.curpos m.vsize pos whence

/-- The `off` of `mstream_seek`: the sums are of type `size_t`. -/
def MemStream.seekOff (m : MemStream) (pos : Int64) : Whence → Int
  | .set => toInt pos.toInt
  | .cur => toInt (sizeT (m.curpos + pos.toInt))
  | .end => toInt (sizeT (m.vsize + pos.toInt))

/-- `mstream_seek`. -/
def mstreamSeek (m : MemStream) (pos : Int64) (whence : Whence) : Int × MemStream :=
  let off := m.seekOff pos whence
  if off < 0 ∨ off > m.vsize then (-1, m) else (off, m.move off.toNat)

inductive Op
  | read (len : Nat)
  | write (bytes : List Byte)
  | seek (pos : Int64) (whence : Whence)
deriving Repr, DecidableEq

/-- What a call returns, and the bytes that a read copies. -/
structure Answer where
  value : Int
  bytes : List Byte
deriving Repr, DecidableEq

/-- One call on a stream. -/
def streamStep (m : MemStream) : Op → Answer × MemStream
  | .read len => (⟨(mstreamRead m len).1.1, (mstreamRead m len).1.2⟩, (mstreamRead m len).2)
  | .write bytes => (⟨(mstreamWrite m bytes).1, []⟩, (mstreamWrite m bytes).2)
  | .seek pos whence => (⟨(mstreamSeek m pos whence).1, []⟩, (mstreamSeek m pos whence).2)

/-- The new offset is the `int` of the position that is aimed at. -/
theorem seekOff_eq (m : MemStream) (pos : Int64) (whence : Whence)
    : m.seekOff pos whence = toInt (m.target pos whence) := by
  cases whence with
  | set => rfl
  | cur => exact toInt_sizeT _
  | «end» => exact toInt_sizeT _

/-- What a write does to a stream whose numbers are in the range of `int`. -/
theorem mstreamWrite_eq {m : MemStream} {bytes : List Byte}
    (allowed : m.flags.MS_APPEND ∨ m.flags.MS_WRITE) (room : m.place ≤ m.rsize)
    (small : m.rsize < 2 ^ 31)
    : mstreamWrite m bytes
      = (((min bytes.length (m.rsize - m.place) : Nat) : Int),
        ((({ m with buf := memcpy m.buf m.place bytes (min bytes.length (m.rsize - m.place)) }
          : MemStream).move
            (m.place + min bytes.length (m.rsize - m.place))).extend.terminate)) := by
  have off : m.off = m.place := toInt_eq (by omega) (by omega)
  have left : sizeT (m.rsize - m.off) = m.rsize - m.place := by
    rw [off, sizeT_eq (by omega) (by omega)]
    omega
  have count : toInt (min bytes.length (m.rsize - m.place) : Nat)
      = (min bytes.length (m.rsize - m.place) : Nat) := toInt_eq (by omega) (by omega)
  have reached : sizeT (toInt (m.off + (min bytes.length (m.rsize - m.place) : Nat)))
      = m.place + min bytes.length (m.rsize - m.place) := by
    rw [off, toInt_eq (by omega) (by omega), sizeT_eq (by omega) (by omega)]
    omega
  simp only [mstreamWrite, if_neg (not_not.mpr allowed), left, count, Int.toNat_natCast, reached]
  rw [off]

-----------------------------------------------------------------------------------------
-- Stores
-----------------------------------------------------------------------------------------

/-- The bytes that are copied. -/
theorem memcpy_inside {buf : Int → Byte} {off n : Nat} {bytes : List Byte} {j : Nat}
    (from_ : off ≤ j) (below : j < off + n)
    : memcpy buf off bytes n j = bytes.getD (j - off) 0 := by
  rw [memcpy, if_pos (by omega)]
  congr 1
  omega

/-- The bytes around a copy stay. -/
theorem memcpy_outside {buf : Int → Byte} {off j : Int} {n : Nat} {bytes : List Byte}
    (outside : j < off ∨ off + n ≤ j)
    : memcpy buf off bytes n j = buf j := by
  rw [memcpy, if_neg (by omega)]

@[simp] theorem MemStream.extend_rsize (m : MemStream) : m.extend.rsize = m.rsize := by
  unfold extend
  split <;> rfl

@[simp] theorem MemStream.extend_curpos (m : MemStream) : m.extend.curpos = m.curpos := by
  unfold extend
  split <;> rfl

@[simp] theorem MemStream.extend_flags (m : MemStream) : m.extend.flags = m.flags := by
  unfold extend
  split <;> rfl

@[simp] theorem MemStream.extend_vsize (m : MemStream) : m.extend.vsize = max m.vsize m.curpos := by
  unfold extend
  split
  · change m.curpos = _
    omega
  · omega

/-- The NUL stands behind the content. -/
theorem MemStream.extend_buf (m : MemStream) {j : Nat} (inside : j < max m.vsize m.curpos)
    : m.extend.buf j = m.buf j := by
  unfold extend
  split
  · dsimp only
    split
    · exact Function.update_of_ne (by omega) _ _
    · rfl
  · rfl

/-- The NUL stands inside the buffer. -/
theorem MemStream.extend_buf_outside (m : MemStream) {j : Int} (outside : j < 0 ∨ m.rsize ≤ j)
    : m.extend.buf j = m.buf j := by
  unfold extend
  split
  · dsimp only
    split
    · exact Function.update_of_ne (by omega) _ _
    · rfl
  · rfl

/-- The terminating null is inside the buffer. -/
theorem MemStream.terminate_buf_outside (m : MemStream) {j : Int} (positive : 0 < m.rsize)
    (outside : j < 0 ∨ m.rsize ≤ j)
    : m.terminate.buf j = m.buf j := by
  unfold terminate
  split
  · refine Function.update_of_ne ?_ _ _
    unfold nulPos
    split
    · omega
    · omega
  · rfl

/-- A write in the range of `int` stays inside the buffer. -/
theorem mstreamWrite_outside {m : MemStream} (bytes : List Byte)
    (allowed : m.flags.MS_APPEND ∨ m.flags.MS_WRITE) (room : m.place ≤ m.rsize)
    (small : m.rsize < 2 ^ 31) (positive : 0 < m.rsize) {j : Int} (outside : j < 0 ∨ m.rsize ≤ j)
    : (mstreamWrite m bytes).2.buf j = m.buf j := by
  rw [mstreamWrite_eq allowed room small, MemStream.terminate_buf_outside,
    MemStream.extend_buf_outside]
  · exact memcpy_outside (by omega)
  · exact outside
  · rw [MemStream.extend_rsize]
    exact positive
  · rw [MemStream.extend_rsize]
    exact outside

@[simp] theorem MemStream.terminate_rsize (m : MemStream) : m.terminate.rsize = m.rsize := by
  unfold terminate
  split <;> rfl

/-- A read keeps the buffer and its size. -/
theorem mstreamRead_same (m : MemStream) (len : Nat)
    : (mstreamRead m len).2.buf = m.buf ∧ (mstreamRead m len).2.rsize = m.rsize := by
  simp only [mstreamRead]
  split
  · exact ⟨rfl, rfl⟩
  split
  · exact ⟨rfl, rfl⟩
  · exact ⟨MemStream.move_buf _ _, MemStream.move_rsize _ _⟩

/-- A seek keeps the buffer and its size. -/
theorem mstreamSeek_same (m : MemStream) (pos : Int64) (whence : Whence)
    : (mstreamSeek m pos whence).2.buf = m.buf ∧ (mstreamSeek m pos whence).2.rsize = m.rsize := by
  simp only [mstreamSeek]
  split
  · exact ⟨rfl, rfl⟩
  · exact ⟨MemStream.move_buf _ _, MemStream.move_rsize _ _⟩

/-- No call changes the size of the buffer. -/
theorem rsize_streamStep (m : MemStream) (op : Op) : (streamStep m op).2.rsize = m.rsize := by
  cases op with
  | read len => exact (mstreamRead_same m len).2
  | write bytes =>
      simp only [streamStep, mstreamWrite]
      split
      · rfl
      · rw [MemStream.terminate_rsize, MemStream.extend_rsize, MemStream.move_rsize]
  | seek pos whence => exact (mstreamSeek_same m pos whence).2

/-- Only the buffer is written to. -/
theorem around_streamStep {m : MemStream} (op : Op)
    (allowed : m.flags.MS_APPEND ∨ m.flags.MS_WRITE) (room : m.place ≤ m.rsize)
    (small : m.rsize < 2 ^ 31) (positive : 0 < m.rsize) {j : Int} (outside : j < 0 ∨ m.rsize ≤ j)
    : (streamStep m op).2.buf j = m.buf j := by
  cases op with
  | read len =>
      simp only [streamStep]
      rw [(mstreamRead_same m len).1]
  | write bytes =>
      simp only [streamStep]
      exact mstreamWrite_outside bytes allowed room small positive outside
  | seek pos whence =>
      simp only [streamStep]
      rw [(mstreamSeek_same m pos whence).1]

/-- A stream that is read gets no other NUL. -/
theorem MemStream.terminate_eq {m : MemStream} (reads : m.flags.MS_READ = true)
    : m.terminate = m :=
  if_neg fun only => only.2 reads

-----------------------------------------------------------------------------------------
-- Exact offsets
-----------------------------------------------------------------------------------------

/-- The seek that the stream is meant to make. -/
def exactSeek (m : MemStream) (pos : Int64) (whence : Whence) : Int × MemStream :=
  let target := m.target pos whence
  if target < 0 ∨ target > m.vsize then (-1, m) else (target, m.move target.toNat)

/-- The offsets of a call are the ones that the positions of the stream stand for. A write that is
refused computes none.
-/
def Exact (m : MemStream) : Op → Prop
  | .read _ => True
  | .write _ => m.flags.MS_APPEND ∨ m.flags.MS_WRITE → m.off = m.place
  | .seek pos whence => mstreamSeek m pos whence = exactSeek m pos whence

/-- The offset of a write that the flags allow, and a target inside the content, fit into an
`int`; a target outside the content does not become a place inside it when it is made one.
-/
def Fits (m : MemStream) : Op → Prop
  | .read _ => True
  | .write _ => m.flags.MS_APPEND ∨ m.flags.MS_WRITE → m.place < 2 ^ 31
  | .seek pos whence =>
      let target := m.target pos whence
      if 0 ≤ target ∧ target ≤ m.vsize then target < 2 ^ 31
      else ¬ (0 ≤ toInt target ∧ toInt target ≤ m.vsize)

/-- A seek is exact when its target fits, by the place of the target and of what `int` makes of
it.
-/
theorem exact_seek_iff (m : MemStream) (pos : Int64) (whence : Whence)
    : mstreamSeek m pos whence = exactSeek m pos whence ↔ Fits m (.seek pos whence) := by
  simp only [mstreamSeek, exactSeek, Fits, seekOff_eq]
  generalize m.target pos whence = target
  by_cases inside : 0 ≤ target ∧ target ≤ m.vsize
  · rw [if_pos inside, if_neg (by omega : ¬ (target < 0 ∨ target > m.vsize))]
    by_cases small : target < 2 ^ 31
    · have same : toInt target = target := toInt_eq (by omega) small
      rw [same, if_neg (by omega : ¬ (target < 0 ∨ target > m.vsize))]
      exact iff_of_true rfl small
    · have other : toInt target ≠ target := fun same => small (toInt_eq_iff.mp same).2
      refine iff_of_false (fun equal => ?_) small
      split at equal
      · have negative := congrArg Prod.fst equal
        simp only at negative
        omega
      · exact other (congrArg Prod.fst equal)
  · rw [if_neg inside, if_pos (by omega : target < 0 ∨ target > m.vsize)]
    by_cases wrong : 0 ≤ toInt target ∧ toInt target ≤ m.vsize
    · rw [if_neg (by omega : ¬ (toInt target < 0 ∨ toInt target > m.vsize))]
      refine iff_of_false (fun equal => ?_) (fun fine => fine wrong)
      have negative := congrArg Prod.fst equal
      simp only at negative
      omega
    · rw [if_pos (by omega : toInt target < 0 ∨ toInt target > m.vsize)]
      simp [wrong]

/-- One call is exact when it fits. -/
theorem exact_iff_fits (m : MemStream) (op : Op) : Exact m op ↔ Fits m op := by
  cases op with
  | read len => exact Iff.rfl
  | write bytes =>
      refine forall_congr' fun _ => ?_
      rw [MemStream.off, toInt_eq_iff]
      omega
  | seek pos whence => exact exact_seek_iff m pos whence

/-- In every run of calls, on a stream of any size, every offset is exact if and only if every
call fits.
-/
theorem offsets_exact_iff (m : MemStream) (ops : List Op)
    : EveryStep (next streamStep) Exact m ops ↔ EveryStep (next streamStep) Fits m ops :=
  everyStep_congr exact_iff_fits m ops

/-- A seek to the place 2 ^ 32 of an empty stream succeeds, at its start. -/
theorem seek_wraps_around
    : ¬ ∀ (caller : Bool) (buf : Int → Byte) (size : Nat) (type : List Char) (m : MemStream),
        fmemopen caller buf size type = some m
          → ∀ ops, EveryStep (next streamStep) Exact m ops := by
  intro always
  have exact_ := (always true (fun _ => 0) 1 ['w'] _ rfl [.seek 4294967296 .set]).1
  have value := congrArg Prod.fst exact_
  exact absurd value (by decide)

-----------------------------------------------------------------------------------------
-- Types
-----------------------------------------------------------------------------------------

/-- The flags of the first letter of a type. -/
def letterFlags (c : Char) : Flags := ⟨c = 'r', c = 'w', c = 'a', c = 'w'⟩

/-- The first letter of a type is one of three. -/
theorem letterFlags_cases {c : Char} (letter : letterFlags c ≠ .zero)
    : c = 'r' ∨ c = 'w' ∨ c = 'a' := by
  apply Classical.byContradiction
  intro other
  simp only [not_or] at other
  exact letter (by simp [letterFlags, Flags.zero, other])

/-- An accepted type starts with such a letter and goes on with the loop. -/
theorem typeToFlags_cons {c : Char} {rest : List Char}
    (accepted : typeToFlags (c :: rest) ≠ .zero)
    : letterFlags c ≠ .zero ∧ typeToFlags (c :: rest) = typeLoop (letterFlags c) rest := by
  by_cases read : c = 'r'
  · subst read
    exact ⟨by decide, rfl⟩
  by_cases write : c = 'w'
  · subst write
    exact ⟨by decide, rfl⟩
  by_cases append : c = 'a'
  · subst append
    exact ⟨by decide, rfl⟩
  refine absurd ?_ accepted
  unfold typeToFlags typeLoop
  split
  all_goals simp_all

/-- What follows the first letter of a type. -/
theorem typeLoop_rest {flags : Flags} {rest : List Char} (nonzero : flags ≠ .zero)
    (accepted : typeLoop flags rest ≠ .zero)
    : typeLoop flags rest
      = if '+' ∈ rest then { flags with MS_READ := true, MS_WRITE := true } else flags := by
  fun_induction typeLoop flags rest with
  | case1 flags => rfl
  | case2 flags rest other => exact absurd rfl accepted
  | case3 flags rest first ih => exact absurd nonzero first
  | case4 flags rest other => exact absurd rfl accepted
  | case5 flags rest first ih => exact absurd nonzero first
  | case6 flags rest other => exact absurd rfl accepted
  | case7 flags rest first ih => exact absurd nonzero first
  | case8 rest => exact absurd rfl nonzero
  | case9 flags rest _ ih =>
      rw [ih (by simp [Flags.zero]) accepted]
      simp
  | case10 rest => exact absurd rfl nonzero
  | case11 flags rest _ ih =>
      rw [ih nonzero accepted]
      simp
  | case12 flags c rest => exact absurd rfl accepted

/-- The flags of an accepted type: the plus sign allows the other direction as well. -/
theorem typeToFlags_eq {type : List Char} (accepted : typeToFlags type ≠ .zero)
    : ∃ c rest, type = c :: rest ∧ letterFlags c ≠ .zero
      ∧ typeToFlags type
        = if '+' ∈ type then { letterFlags c with MS_READ := true, MS_WRITE := true }
          else letterFlags c := by
  cases type with
  | nil => exact absurd rfl accepted
  | cons c rest =>
      obtain ⟨letter, same⟩ := typeToFlags_cons accepted
      have notPlus : '+' ≠ c := by
        rintro rfl
        exact letter (by decide)
      refine ⟨c, rest, rfl, letter, ?_⟩
      rw [same] at accepted ⊢
      rw [typeLoop_rest letter accepted]
      simp [notPlus]

/-- What the first letter says is kept. -/
theorem typeToFlags_letter {c : Char} {rest : List Char}
    (accepted : typeToFlags (c :: rest) ≠ .zero)
    : (typeToFlags (c :: rest)).MS_APPEND = decide (c = 'a')
      ∧ (typeToFlags (c :: rest)).MS_TRUNCATE = decide (c = 'w') := by
  obtain ⟨c, rest, same, -, flags⟩ := typeToFlags_eq accepted
  cases same
  rw [flags]
  split
  · exact ⟨rfl, rfl⟩
  · exact ⟨rfl, rfl⟩

/-- The first NUL ends the longest piece without one. -/
theorem findEnd_eq (buf : Int → Byte) (size : Nat)
    : findEnd buf size
      = (((List.range size).map fun j : Nat => buf j).takeWhile (· ≠ 0)).length := by
  induction size with
  | zero => rfl
  | succ size ih =>
      unfold findEnd at ih ⊢
      rw [List.range_succ, List.find?_append, List.map_append, List.takeWhile_append]
      cases found : (List.range size).find? fun off : Nat => buf (off : Int) = 0 with
      | some k =>
          have below : k < size := List.mem_range.mp (List.mem_of_find?_eq_some found)
          rw [found, Option.getD_some] at ih
          rw [Option.some_or, Option.getD_some, if_neg, ih]
          simp only [List.length_map, List.length_range]
          omega
      | none =>
          rw [found, Option.getD_none] at ih
          rw [Option.none_or, if_pos (by rw [← ih, List.length_map, List.length_range])]
          by_cases nul : buf size = 0
          · simp [nul]
          · simp [nul]

end Minions.Exercises
