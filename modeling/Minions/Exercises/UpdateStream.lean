import Minions.Data.Bytes
import Minions.Exercises.MemStream

/-! Memory streams that are read and written.
Such a stream is a file of bounded size: the content of the file is the part of the buffer
before `vsize`, and the NUL that a write puts behind the content is no part of it.
-/

namespace Minions.Exercises

open Minions.Data Minions.Logic

/-- A file that cannot grow beyond its capacity, and a position in it. -/
structure BoundedFile where
  capacity : Nat
  content : List Byte
  pos : Nat
  append : Bool
  posLe : pos ≤ content.length
  contentLe : content.length ≤ capacity

namespace BoundedFile

/-- A read stops at the end of the content at the latest. -/
theorem pos_read_le (f : BoundedFile) (len : Nat)
    : f.pos + (pread f.content f.pos len).length ≤ f.content.length := by
  have := f.posLe
  simp only [pread, List.length_take, List.length_drop]
  omega

/-- The bytes between the position and the end of the file, at most `len` of them. -/
def read (f : BoundedFile) (len : Nat) : List Byte × BoundedFile :=
  let bytes := pread f.content f.pos len
  (bytes,
    { f with
      pos := f.pos + bytes.length
      posLe := f.pos_read_le len })

/-- The place where a write goes. -/
def place (f : BoundedFile) : Nat := if f.append then f.content.length else f.pos

/-- The place of a write is inside the content. -/
theorem place_le (f : BoundedFile) : f.place ≤ f.content.length := by
  unfold place
  split
  · exact le_refl _
  · exact f.posLe

/-- As many of the bytes as there is room for. -/
def stored (f : BoundedFile) (bytes : List Byte) : List Byte := bytes.take (f.capacity - f.place)

/-- Of the bytes of a write, those that fit are stored. -/
theorem length_stored (f : BoundedFile) (bytes : List Byte)
    : (f.stored bytes).length = min bytes.length (f.capacity - f.place) := by
  rw [stored, List.length_take, Nat.min_comm]

/-- The stored bytes are the first ones of the write. -/
theorem getElem?_stored {f : BoundedFile} {bytes : List Byte} {j : Nat}
    (below : j < (f.stored bytes).length)
    : (f.stored bytes)[j]? = some (bytes.getD j 0) := by
  rw [length_stored] at below
  rw [stored, List.getElem?_take_of_lt (by omega), List.getD_eq_getElem?_getD,
    List.getElem?_eq_getElem (by omega)]
  rfl

/-- Store bytes at the place, and go behind them. -/
def write (f : BoundedFile) (bytes : List Byte) : Nat × BoundedFile :=
  ((f.stored bytes).length,
    { f with
      content := pwrite 0 f.content f.place (f.stored bytes)
      pos := f.place + (f.stored bytes).length
      posLe := by
        rw [length_pwrite]
        omega
      contentLe := by
        have := f.place_le
        have := f.contentLe
        rw [length_pwrite, length_stored]
        omega })

/-- Where a seek leads. -/
def target (f : BoundedFile) (pos : Int64) (whence : Whence) : Int :=
  seekTarget f.pos f.content.length pos whence

/-- A seek succeeds for the places up to the end of the content. -/
def seek (f : BoundedFile) (pos : Int64) (whence : Whence) : Int × BoundedFile :=
  if h : 0 ≤ f.target pos whence ∧ f.target pos whence ≤ f.content.length then
    (f.target pos whence, { f with pos := (f.target pos whence).toNat, posLe := by omega })
  else (-1, f)

end BoundedFile

/-- One call on the file. -/
def fileStep (f : BoundedFile) : Op → Answer × BoundedFile
  | .read len => (⟨(f.read len).1.length, (f.read len).1⟩, (f.read len).2)
  | .write bytes => (⟨(f.write bytes).1, []⟩, (f.write bytes).2)
  | .seek pos whence => (⟨(f.seek pos whence).1, []⟩, (f.seek pos whence).2)

/-- The numbers of a call are in the range of `int`. -/
def InRange (m : MemStream) : Op → Prop
  | .read len => len < 2 ^ 31
  | .write bytes => bytes.length < 2 ^ 31
  | .seek pos whence => -(2 ^ 31) ≤ m.target pos whence ∧ m.target pos whence < 2 ^ 31

instance (m : MemStream) (op : Op) : Decidable (InRange m op) :=
  match op with
  | .read _ => inferInstanceAs (Decidable (_ < _))
  | .write _ => inferInstanceAs (Decidable (_ < _))
  | .seek _ _ => inferInstanceAs (Decidable (_ ∧ _))

/-- The stream stands for the file. -/
structure Shows (m : MemStream) (f : BoundedFile) : Prop where
  rsize : m.rsize = f.capacity
  vsize : m.vsize = f.content.length
  curpos : m.curpos = f.pos
  append : m.flags.MS_APPEND = f.append
  update : m.flags.MS_READ = true ∧ m.flags.MS_WRITE = true
  bytes : ∀ j : Nat, j < f.content.length → f.content[j]? = some (m.buf j)
  small : f.capacity < 2 ^ 31

variable {m : MemStream} {f : BoundedFile}

/-- Stream and file agree on the place of a write. -/
theorem Shows.place (shows_ : Shows m f) : m.place = f.place := by
  rw [MemStream.place, BoundedFile.place, shows_.append, shows_.vsize, shows_.curpos]

/-- A piece of the content lies in the buffer. -/
theorem Shows.pread (shows_ : Shows m f) {n : Nat} (within : f.pos + n ≤ f.content.length)
    : Data.pread f.content f.pos n = (List.range n).map fun j : Nat => m.buf (m.curpos + j) := by
  apply List.ext_getElem?
  intro j
  by_cases inside : j < n
  · have here := shows_.bytes (f.pos + j) (by omega)
    rw [Data.pread, List.getElem?_take_of_lt inside, List.getElem?_drop, here, List.getElem?_map,
      List.getElem?_range inside, Option.map_some, shows_.curpos]
    push_cast
    rfl
  · rw [List.getElem?_eq_none, List.getElem?_eq_none]
    · simp only [List.length_map, List.length_range]
      omega
    · simp only [Data.pread, List.length_take, List.length_drop]
      omega

/-- A read answers as the file does and keeps the simulation. -/
theorem step_read (shows_ : Shows m f) (len : Nat)
    : (streamStep m (.read len)).1 = (fileStep f (.read len)).1
      ∧ Shows (streamStep m (.read len)).2 (fileStep f (.read len)).2 := by
  have posLe := f.posLe
  have contentLe := f.contentLe
  have small := shows_.small
  have vsize := shows_.vsize
  have curpos := shows_.curpos
  have readable : ¬ ¬ m.flags.MS_READ = true := by simp [shows_.update.1]
  simp only [streamStep, fileStep, mstreamRead, if_neg readable]
  by_cases atEnd : m.curpos ≥ m.vsize
  · have nothing : pread f.content f.pos len = [] := pread_end (by omega)
    rw [if_pos atEnd]
    refine ⟨by simp [BoundedFile.read, nothing], ?_⟩
    exact { shows_ with curpos := by simp [BoundedFile.read, nothing, curpos] }
  · have count
        : toInt (min len (m.vsize - m.curpos) : Nat) = (min len (m.vsize - m.curpos) : Nat) :=
      toInt_eq (by omega) (by omega)
    have copied : pread f.content f.pos len
        = (List.range (min len (m.vsize - m.curpos))).map fun j : Nat => m.buf (m.curpos + j) := by
      rw [← shows_.pread (by omega)]
      simp only [pread]
      rw [List.take_eq_take_iff, List.length_drop]
      omega
    have length : (pread f.content f.pos len).length = min len (m.vsize - m.curpos) := by
      simp [copied]
    rw [if_neg atEnd, count, Int.toNat_natCast]
    refine ⟨by simp only [BoundedFile.read, copied, List.length_map, List.length_range], ?_⟩
    refine { shows_ with curpos := ?_ }
    change sizeT (m.curpos + (min len (m.vsize - m.curpos) : Nat)) = f.pos + _
    rw [sizeT_eq (by omega) (by omega), length]
    omega

/-- A seek answers as the file does and keeps the simulation. -/
theorem step_seek (shows_ : Shows m f) {pos : Int64} {whence : Whence}
    (range : InRange m (.seek pos whence))
    : (streamStep m (.seek pos whence)).1 = (fileStep f (.seek pos whence)).1
      ∧ Shows (streamStep m (.seek pos whence)).2 (fileStep f (.seek pos whence)).2 := by
  have target : m.target pos whence = f.target pos whence := by
    rw [MemStream.target, BoundedFile.target, shows_.curpos, shows_.vsize]
  have off : m.seekOff pos whence = f.target pos whence := by
    rw [seekOff_eq, toInt_eq range.1 range.2, target]
  simp only [streamStep, fileStep, mstreamSeek, BoundedFile.seek, off]
  by_cases inside : 0 ≤ f.target pos whence ∧ f.target pos whence ≤ f.content.length
  · rw [dif_pos inside, if_neg (by rw [shows_.vsize]; omega)]
    exact ⟨rfl, { shows_ with curpos := rfl }⟩
  · rw [dif_neg inside, if_pos (by rw [shows_.vsize]; omega)]
    exact ⟨rfl, shows_⟩

/-- A write answers as the file does and keeps the simulation. -/
theorem step_write (shows_ : Shows m f) (bytes : List Byte)
    : (streamStep m (.write bytes)).1 = (fileStep f (.write bytes)).1
      ∧ Shows (streamStep m (.write bytes)).2 (fileStep f (.write bytes)).2 := by
  have placeLe := f.place_le
  have contentLe := f.contentLe
  have small := shows_.small
  have vsize := shows_.vsize
  have rsize := shows_.rsize
  have place := shows_.place
  have count : min bytes.length (m.rsize - m.place) = (f.stored bytes).length := by
    rw [BoundedFile.length_stored, rsize, place]
  simp only [streamStep, fileStep, BoundedFile.write]
  rw [mstreamWrite_eq (.inr shows_.update.2) (by omega) (by omega),
    MemStream.terminate_eq (by simp [shows_.update.1]), count]
  refine ⟨rfl, ?_⟩
  refine {
    rsize := by simp [rsize]
    vsize := by simp [length_pwrite, vsize, place]
    curpos := by simp [place]
    append := by simp [shows_.append]
    update := by simp [shows_.update]
    bytes := fun j below => ?_
    small
  }
  rw [length_pwrite] at below
  rw [MemStream.extend_buf _ (by simp only [MemStream.move_vsize, MemStream.move_curpos]; omega)]
  change _ = some (memcpy m.buf m.place bytes (f.stored bytes).length j)
  by_cases inside : f.place ≤ j ∧ j < f.place + (f.stored bytes).length
  · rw [getElem?_pwrite_inside inside.1 inside.2, BoundedFile.getElem?_stored (by omega), place,
      memcpy_inside inside.1 inside.2]
  · have old : f.content[j]? = some (m.buf j) := shows_.bytes j (by omega)
    rw [getElem?_pwrite_outside (by omega) old, memcpy_outside (by omega)]

/-- Each call is answered as the file answers it. -/
theorem shows_step {op : Op} (range : InRange m op) (shows_ : Shows m f)
    : (streamStep m op).1 = (fileStep f op).1 ∧ Shows (streamStep m op).2 (fileStep f op).2 := by
  cases op with
  | read len => exact step_read shows_ len
  | write bytes => exact step_write shows_ bytes
  | seek pos whence => exact step_seek shows_ range

/-- The stream of a buffer of `size` bytes stands for the file, and nothing has changed around
the buffer.
-/
structure Stands (outside : Int → Byte) (size : Nat) (m : MemStream) (f : BoundedFile) : Prop where
  shows_ : Shows m f
  rsize : m.rsize = size
  around : ∀ j : Int, j < 0 ∨ size ≤ j → m.buf j = outside j

/-- Every call answers as the file does and keeps the bytes around the buffer. -/
theorem stands_step {outside : Int → Byte} {size : Nat} {op : Op} (positive : 1 ≤ size)
    (range : InRange m op) (stands : Stands outside size m f)
    : (streamStep m op).1 = (fileStep f op).1
      ∧ Stands outside size (streamStep m op).2 (fileStep f op).2 := by
  have shows_ := stands.shows_
  have rsize := stands.rsize
  have room : m.place ≤ m.rsize := by
    have placeLe := f.place_le
    have contentLe := f.contentLe
    rw [shows_.place, shows_.rsize]
    omega
  have small : m.rsize < 2 ^ 31 := by
    rw [shows_.rsize]
    exact shows_.small
  obtain ⟨same, kept⟩ := shows_step range shows_
  refine ⟨same, kept, ?_, fun j out => ?_⟩
  · rw [rsize_streamStep, rsize]
  · rw [around_streamStep op (.inr shows_.update.2) room small (by omega) (by omega)]
    exact stands.around j out

-----------------------------------------------------------------------------------------
-- Whole runs
-----------------------------------------------------------------------------------------

/-- The content with which a type opens a buffer. -/
def openedContent (caller : Bool) (buf : Int → Byte) (size : Nat) (type : List Char) : List Byte :=
  let bytes := (List.range size).map fun j : Nat => buf j
  match type.head? with
  | some 'r' => bytes
  | some 'a' => if caller then bytes.takeWhile (· ≠ 0) else []
  | _ => []

theorem openedContent_front (caller : Bool) (buf : Int → Byte) (size : Nat) (type : List Char)
    : openedContent caller buf size type <+: (List.range size).map fun j : Nat => buf j := by
  unfold openedContent
  dsimp only
  split
  · exact List.prefix_rfl
  · split
    · exact List.takeWhile_prefix _
    · exact List.nil_prefix
  · exact List.nil_prefix

/-- The file with which a type opens a buffer; writes go to its end for the letter `a`. -/
def openedFile (caller : Bool) (buf : Int → Byte) (size : Nat) (type : List Char) : BoundedFile :=
  let content := openedContent caller buf size type
  { capacity := size
    content
    pos := if type.head? = some 'a' then content.length else 0
    append := type.head? = some 'a'
    posLe := by split <;> omega
    contentLe := by simpa using (openedContent_front caller buf size type).length_le }

/-- The stream that is opened. A buffer of its own needs a plus sign in the type. -/
theorem fmemopen_eq (caller : Bool) (buf : Int → Byte) {size : Nat} {type : List Char}
    (accepted : typeToFlags type ≠ .zero) (allowed : caller = true ∨ '+' ∈ type)
    (positive : 1 ≤ size)
    : fmemopen caller buf size type
      = some {
          buf
          rsize := size
          vsize := (openedFile caller buf size type).content.length
          curpos := (openedFile caller buf size type).pos
          flags := typeToFlags type } := by
  obtain ⟨c, rest, rfl, letter, flags⟩ := typeToFlags_eq accepted
  obtain ⟨append, truncate⟩ := typeToFlags_letter accepted
  have both : ¬ (¬ caller = true ∧ ¬ ((typeToFlags (c :: rest)).MS_READ = true
      ∧ (typeToFlags (c :: rest)).MS_WRITE = true)) := by
    rintro ⟨own, oneWay⟩
    rw [flags, if_pos (allowed.resolve_left own)] at oneWay
    exact oneWay ⟨rfl, rfl⟩
  simp only [fmemopen, append, truncate]
  rw [if_neg (by omega), if_neg accepted, if_neg both]
  rcases letterFlags_cases letter with rfl | rfl | rfl
  · simp [openedFile, openedContent]
  · simp [openedFile, openedContent]
  · cases caller with
    | false => simp [openedFile, openedContent]
    | true => simp [openedFile, openedContent, findEnd_eq]

/-- The bytes of the content with which a type opens a buffer. -/
theorem getElem?_openedContent {caller : Bool} {buf : Int → Byte} {size : Nat} {type : List Char}
    {j : Nat} (below : j < (openedContent caller buf size type).length)
    : (openedContent caller buf size type)[j]? = some (buf j) := by
  have front := openedContent_front caller buf size type
  rw [List.getElem?_eq_getElem below, front.getElem below]
  simp

/-- The stream that is opened stands for that file. -/
theorem stands_opened (caller : Bool) (buf : Int → Byte) {size : Nat} {type : List Char}
    (accepted : typeToFlags type ≠ .zero) (plus : '+' ∈ type) (positive : 1 ≤ size)
    (small : size < 2 ^ 31)
    : ∃ m, fmemopen caller buf size type = some m
        ∧ Stands buf size m (openedFile caller buf size type) := by
  obtain ⟨c, rest, rfl, letter, flags⟩ := typeToFlags_eq accepted
  refine ⟨_, fmemopen_eq caller buf accepted (.inr plus) positive, ?_, rfl, fun j _ => rfl⟩
  rw [if_pos plus] at flags
  exact {
    rsize := rfl
    vsize := rfl
    curpos := rfl
    append := by simp [flags, letterFlags, openedFile]
    update := by simp [flags]
    bytes := fun j below => getElem?_openedContent below
    small
  }

/-- For every accepted type with a plus sign, every buffer of less than 2 ^ 31 bytes and every
run of calls whose numbers are in the range of `int`, the stream answers as the bounded file
does. The positions stay in order, the content is that of the file, and nothing outside the
buffer is written.
-/
theorem update_stream_refines (caller : Bool) (buf : Int → Byte) (size : Nat) (type : List Char)
    (accepted : typeToFlags type ≠ .zero) (plus : '+' ∈ type) (positive : 1 ≤ size)
    (small : size < 2 ^ 31)
    : ∃ m, fmemopen caller buf size type = some m
        ∧ ∀ ops, EveryStep (next streamStep) InRange m ops
          → answers streamStep m ops = answers fileStep (openedFile caller buf size type) ops
            ∧ (after streamStep m ops).curpos ≤ (after streamStep m ops).vsize
            ∧ (after streamStep m ops).vsize ≤ size
            ∧ ((List.range (after streamStep m ops).vsize).map
                fun j : Nat => (after streamStep m ops).buf j)
              = (after fileStep (openedFile caller buf size type) ops).content
            ∧ ∀ j : Int, j < 0 ∨ size ≤ j → (after streamStep m ops).buf j = buf j := by
  obtain ⟨m, opened, stands⟩ := stands_opened caller buf accepted plus positive small
  refine ⟨m, opened, fun ops every => ?_⟩
  have one : ∀ m f op, InRange m op → Stands buf size m f
      → (streamStep m op).1 = (fileStep f op).1
        ∧ Stands buf size (streamStep m op).2 (fileStep f op).2 :=
    fun _ _ _ => stands_step positive
  obtain ⟨same, ends⟩ := answers_simulate (Stands buf size) one every stands
  have shows_ := ends.shows_
  generalize after fileStep (openedFile caller buf size type) ops = f at shows_ ⊢
  have posLe := f.posLe
  have contentLe := f.contentLe
  refine ⟨same, ?_, ?_, ?_, ends.around⟩
  · rw [shows_.curpos, shows_.vsize]
    exact posLe
  · rw [shows_.vsize, ← ends.rsize, shows_.rsize]
    exact contentLe
  · rw [shows_.vsize]
    apply List.ext_getElem?
    intro j
    by_cases inside : j < f.content.length
    · rw [shows_.bytes j inside, List.getElem?_map, List.getElem?_range inside, Option.map_some]
    · rw [List.getElem?_eq_none, List.getElem?_eq_none]
      · omega
      · simp only [List.length_map, List.length_range]
        omega

/-- A write over the first of three bytes, a seek back and a read. -/
theorem update_stream_refines_three
    : ∃ m, fmemopen true (fun _ => 97) 3 ['r', '+'] = some m
        ∧ answers streamStep m [.write [98], .seek 0 .set, .read 5]
          = answers fileStep (openedFile true (fun _ => 97) 3 ['r', '+'])
              [.write [98], .seek 0 .set, .read 5] := by
  obtain ⟨m, opened, refines⟩ := update_stream_refines true (fun _ => 97) 3 ['r', '+'] (by decide)
    (by decide) (by decide) (by decide)
  refine ⟨m, opened, (refines _ ?_).1⟩
  obtain rfl := Option.some.inj opened
  decide +kernel

end Minions.Exercises
