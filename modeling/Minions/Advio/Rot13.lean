import Minions.Data.Bytes
import Minions.Data.Tally
import Minions.Logic.Events

/-! The asynchronous rot13 filter of `rot13c2.c`, beside the plain one of `rot13a.c`.
Eight buffers go round between reading a block, translating it and writing it. The kernel
completes the outstanding operations in any order, each with all the bytes that there are. The
input file does not change, and no call fails.
-/

namespace Minions.Advio

open Minions.Data Minions.Logic

def bsz : Nat := 4096

def nBuf : Nat := 8

/-- `isalpha` in the C locale. -/
def isAlpha (c : UInt8) : Bool := (65 ≤ c && c ≤ 90) || (97 ≤ c && c ≤ 122)

def translate (c : UInt8) : UInt8 :=
  if isAlpha c then
    if c ≥ 110 then c - 13
    else if c ≥ 97 then c + 13
    else if c ≥ 78 then c - 13
    else c + 13
  else c

/-- The loop of `rot13a.c`, from what is left of the input and what is written. -/
def rot13aLoop (input output : List UInt8) : List UInt8 :=
  if _h : 0 < (input.take bsz).length then
    rot13aLoop (input.drop bsz) (output ++ (input.take bsz).map translate)
  else output
termination_by input.length
decreasing_by
  rw [List.length_take] at _h
  rw [List.length_drop]
  omega

/-- The output file of `rot13a.c`. -/
def rot13a (input : List UInt8) : List UInt8 := rot13aLoop input []

inductive RwOp
  | unused
  | readPending
  | writePending
  deriving DecidableEq

inductive Fildes
  | ifd
  | ofd
  deriving DecidableEq

/-- The state of an `aiocb`: never submitted or done with, in progress, or complete with the
number of bytes that `aio_return` gives.
-/
inductive Aio
  | idle
  | reading
  | writing
  | complete (n : Nat)
  deriving DecidableEq

/-- `struct buf`, with the number of operations outstanding on it. -/
structure Buf where
  op : RwOp
  last : Bool
  aioFildes : Fildes
  aioOffset : Nat
  aioNbytes : Nat
  aio : Aio
  data : List UInt8
  outstanding : Nat

/-- Where `main` is: in the loop over the buffers, with those still to come, in `aio_suspend`,
or past the main loop.
-/
inductive Loc
  | scanning (rest : List (Fin nBuf))
  | suspended
  | left
  | quit

structure Rot13 where
  input : List UInt8
  output : List UInt8
  bufs : Fin nBuf → Buf
  aiolist : Fin nBuf → Bool
  off : Nat
  numop : Int
  loc : Loc

/-- Before the main loop, with the output file truncated. -/
def start (input : List UInt8) : Rot13 where
  input := input
  output := []
  bufs := fun _ =>
    { op := .unused, last := false, aioFildes := .ifd, aioOffset := 0, aioNbytes := 0,
      aio := .idle, data := List.replicate bsz 0, outstanding := 0 }
  aiolist := fun _ => false
  off := 0
  numop := 0
  loc := .scanning (List.finRange nBuf)

/-- `bufs[i] = …` -/
def Rot13.setBuf (s : Rot13) (i : Fin nBuf) (b : Buf) : Rot13 :=
  { s with bufs := Function.update s.bufs i b }

/-- `aio_read` -/
def Buf.aioRead (b : Buf) : Buf := { b with aio := .reading, outstanding := b.outstanding + 1 }

/-- `aio_write` -/
def Buf.aioWrite (b : Buf) : Buf := { b with aio := .writing, outstanding := b.outstanding + 1 }

/-- `case UNUSED` -/
def visitUnused (s : Rot13) (i : Fin nBuf) : Rot13 :=
  if s.off < s.input.length then
    let b := { s.bufs i with op := .readPending, aioFildes := .ifd, aioOffset := s.off }
    let s := { s with off := s.off + bsz }
    let b := if s.off ≥ s.input.length then { b with last := true } else b
    let s := s.setBuf i { b with aioNbytes := bsz }.aioRead
    { s with aiolist := Function.update s.aiolist i true, numop := s.numop + 1 }
  else s

/-- `case READ_PENDING`, once the read is complete with `n` bytes. -/
def visitRead (s : Rot13) (i : Fin nBuf) (n : Nat) : Rot13 :=
  let b := s.bufs i
  if n ≠ bsz ∧ ¬ b.last then { s with loc := .quit }
  else
    let b := { b with data := (b.data.take n).map translate ++ b.data.drop n }
    s.setBuf i { b with op := .writePending, aioFildes := .ofd, aioNbytes := n }.aioWrite

/-- `case WRITE_PENDING`, once the write is complete with `n` bytes. -/
def visitWrite (s : Rot13) (i : Fin nBuf) (n : Nat) : Rot13 :=
  let b := s.bufs i
  if n ≠ b.aioNbytes then { s with loc := .quit }
  else
    let s := s.setBuf i { b with op := .unused, aio := .idle }
    { s with aiolist := Function.update s.aiolist i false, numop := s.numop - 1 }

/-- The body of the loop over the buffers. -/
def visit (s : Rot13) (i : Fin nBuf) : Rot13 :=
  match (s.bufs i).op, (s.bufs i).aio with
  | .unused, _ => visitUnused s i
  | .readPending, .complete n => visitRead s i n
  | .writePending, .complete n => visitWrite s i n
  | _, .idle => { s with loc := .quit }
  | _, _ => s

/-- The next step of `main`. `aio_suspend` returns once an operation of `aiolist` is
complete.
-/
def main (s : Rot13) : Option Rot13 :=
  match s.loc with
  | .scanning (i :: rest) => some (visit { s with loc := .scanning rest } i)
  | .scanning [] =>
      if s.numop = 0 then
        if s.off ≥ s.input.length then some { s with loc := .left }
        else some { s with loc := .scanning (List.finRange nBuf) }
      else some { s with loc := .suspended }
  | .suspended =>
      if ∃ i, s.aiolist i ∧ (s.bufs i).aio ≠ .reading ∧ (s.bufs i).aio ≠ .writing then
        some { s with loc := .scanning (List.finRange nBuf) }
      else none
  | .left => none
  | .quit => none

def Rot13.file (s : Rot13) : Fildes → List UInt8
  | .ifd => s.input
  | .ofd => s.output

/-- A read has put its bytes into the buffer. -/
def Buf.completeRead (b : Buf) (bytes : List UInt8) : Buf :=
  { b with
    data := bytes ++ b.data.drop bytes.length
    aio := .complete bytes.length
    outstanding := b.outstanding - 1 }

/-- A write has taken its bytes from the buffer. -/
def Buf.completeWrite (b : Buf) : Buf :=
  { b with aio := .complete b.aioNbytes, outstanding := b.outstanding - 1 }

/-- The kernel completes the outstanding operation of a buffer. -/
def complete (s : Rot13) (i : Fin nBuf) : Option Rot13 :=
  let b := s.bufs i
  match b.aio, b.aioFildes with
  | .reading, fildes =>
      some (s.setBuf i (b.completeRead (pread (s.file fildes) b.aioOffset b.aioNbytes)))
  | .writing, .ofd =>
      let s := { s with output := pwrite 0 s.output b.aioOffset (b.data.take b.aioNbytes) }
      some (s.setBuf i b.completeWrite)
  | _, _ => none

inductive Event
  | main
  | complete (i : Fin nBuf)

def step (s : Rot13) : Event → Option Rot13
  | .main => main s
  | .complete i => complete s i

/-- The plain filter translates every byte, by induction on its rounds. -/
theorem rot13aLoop_eq (input output : List UInt8)
    : rot13aLoop input output = output ++ input.map translate := by
  fun_induction rot13aLoop input output with
  | case1 input output h ih =>
      rw [ih, List.append_assoc, ← List.map_append, List.take_append_drop]
  | case2 input output h =>
      have empty : input = [] := by
        rw [List.length_take] at h
        have : bsz = 4096 := rfl
        exact List.length_eq_zero_iff.mp (by omega)
      simp [empty]

/-- The filter translates byte by byte. -/
theorem rot13a_eq_map (input : List UInt8)
    : rot13a input = input.map translate := by
  simp [rot13a, rot13aLoop_eq]

-----------------------------------------------------------------------------------------
-- What the buffers hold
-----------------------------------------------------------------------------------------

/-- The block of the input at an offset. -/
def block (input : List UInt8) (offset : Nat) : List UInt8 := pread input offset bsz

/-- The output holds the translation of the block at the offset. -/
def Written (input output : List UInt8) (offset : Nat) : Prop :=
  ∀ p, offset ≤ p → p < offset + bsz → p < input.length → output[p]? = (input.map translate)[p]?

/-- What a buffer holds in each of its states. -/
def BufOk (input output : List UInt8) (b : Buf) : Prop :=
  match b.op with
  | .unused => b.aio = .idle ∧ b.outstanding = 0
  | .readPending =>
      b.aioFildes = .ifd ∧ b.aioNbytes = bsz ∧ (input.length ≤ b.aioOffset + bsz → b.last)
      ∧ (b.aio = .reading ∧ b.outstanding = 1
        ∨ b.aio = .complete (block input b.aioOffset).length ∧ b.outstanding = 0
          ∧ b.data.take (block input b.aioOffset).length = block input b.aioOffset)
  | .writePending =>
      b.aioFildes = .ofd ∧ b.aioNbytes = (block input b.aioOffset).length
      ∧ b.data.take b.aioNbytes = (block input b.aioOffset).map translate
      ∧ (b.aio = .writing ∧ b.outstanding = 1
        ∨ b.aio = .complete b.aioNbytes ∧ b.outstanding = 0
          ∧ Written input output b.aioOffset)

/-- The buffer is at work on its block. -/
def Buf.busy (b : Buf) : Bool := b.op ≠ .unused

/-- The byte lies in the block of the buffer. -/
def Buf.Covers (b : Buf) (p : Nat) : Prop := b.busy ∧ b.aioOffset ≤ p ∧ p < b.aioOffset + bsz

structure Inv (input : List UInt8) (s : Rot13) : Prop where
  unchanged : s.input = input
  bufs : ∀ i, BufOk input s.output (s.bufs i)
  aligned : ∀ i, (s.bufs i).busy → bsz ∣ (s.bufs i).aioOffset
    ∧ (s.bufs i).aioOffset < s.off ∧ (s.bufs i).aioOffset < input.length
  apart : KeysApart Buf.busy Buf.aioOffset s.bufs
  off : bsz ∣ s.off
  length : s.output.length ≤ input.length
  done : ∀ p < s.off, (∀ i, ¬ (s.bufs i).Covers p) → s.output[p]? = (input.map translate)[p]?
  numop : s.numop = tally Buf.busy s.bufs
  left : match s.loc with
    | .left => s.numop = 0 ∧ input.length ≤ s.off
    | .quit => False
    | _ => True

variable {input output output' : List UInt8} {s s' : Rot13} {event : Event} {i : Fin nBuf}
  {b : Buf}

/-- The length of a block of the input. -/
theorem length_block (input : List UInt8) (offset : Nat)
    : (block input offset).length = min bsz (input.length - offset) := by
  simp [block, pread]

/-- Different blocks do not overlap. -/
theorem disjoint_of_ne {o o' : Nat} (ho : bsz ∣ o) (ho' : bsz ∣ o') (ne : o ≠ o')
    : o + bsz ≤ o' ∨ o' + bsz ≤ o := by
  obtain ⟨a, rfl⟩ := ho
  obtain ⟨c, rfl⟩ := ho'
  unfold bsz at *
  omega

/-- A write of another block leaves a written block alone. -/
theorem Written.pwrite {o o' : Nat} {bytes : List UInt8} (h : Written input output o)
    (apart : o + bsz ≤ o' ∨ o' + bsz ≤ o) (few : bytes.length ≤ bsz)
    : Written input (pwrite 0 output o' bytes) o := by
  intro p from_ below inside
  have before := h p from_ below inside
  have value : (input.map translate)[p]? = some (translate input[p]) := by
    simp [inside]
  rw [value] at before ⊢
  exact getElem?_pwrite_outside (by omega) before

/-- The write of a translated block writes it. -/
theorem written_pwrite (input output : List UInt8) (o : Nat)
    : Written input (pwrite 0 output o ((block input o).map translate)) o := by
  intro p from_ below inside
  have count := length_block input o
  rw [getElem?_pwrite_inside from_ (by rw [List.length_map]; omega), List.getElem?_map,
    List.getElem?_map]
  unfold block pread
  rw [List.getElem?_take_of_lt (by omega), List.getElem?_drop]
  congr 2
  omega

/-- A buffer stays right when its own part of the output does. -/
theorem BufOk.rewritten (h : BufOk input output b)
    (kept : b.busy → Written input output b.aioOffset → Written input output' b.aioOffset)
    : BufOk input output' b := by
  unfold BufOk at *
  cases op : b.op with
  | unused => simpa only [op] using h
  | readPending => simpa only [op] using h
  | writePending =>
      simp only [op] at h ⊢
      obtain ⟨fildes, nbytes, data, state⟩ := h
      refine ⟨fildes, nbytes, data, ?_⟩
      rcases state with writing | ⟨complete, none, written⟩
      · exact .inl writing
      · exact .inr ⟨complete, none, kept (by simp [Buf.busy, op]) written⟩

/-- What holds of one buffer and of the others holds of all. -/
theorem forall_setBuf {P : Fin nBuf → Buf → Prop} (one : P i b)
    (others : ∀ j, j ≠ i → P j (s.bufs j))
    : ∀ j, P j ((s.setBuf i b).bufs j) :=
  (Function.forall_update_iff s.bufs P).mpr ⟨one, others⟩

/-- A buffer changes and stays at its block, or stays unused; the output file may change with
it.
-/
theorem Inv.rewrite (inv : Inv input s) (busy : b.busy = (s.bufs i).busy)
    (offset : b.aioOffset = (s.bufs i).aioOffset) (ok : BufOk input output b)
    (others : ∀ j, j ≠ i → BufOk input output (s.bufs j)) (length : output.length ≤ input.length)
    (done : ∀ p < s.off, (∀ j, ¬ (s.bufs j).Covers p) → output[p]? = (input.map translate)[p]?)
    : Inv input ({ s with output }.setBuf i b) := by
  have same : ∀ j, ((s.setBuf i b).bufs j).busy = (s.bufs j).busy
      ∧ ((s.setBuf i b).bufs j).aioOffset = (s.bufs j).aioOffset :=
    forall_setBuf (P := fun j b => b.busy = (s.bufs j).busy ∧ b.aioOffset = (s.bufs j).aioOffset)
      ⟨busy, offset⟩ fun _ _ => ⟨rfl, rfl⟩
  have covers : ∀ j p, ((s.setBuf i b).bufs j).Covers p ↔ (s.bufs j).Covers p := by
    intro j p
    unfold Buf.Covers
    rw [(same j).1, (same j).2]
  constructor
  case unchanged => exact inv.unchanged
  case bufs =>
    exact forall_setBuf (s := { s with output }) (P := fun _ => BufOk input output) ok others
  case aligned =>
    intro j used
    have before := inv.aligned j ((same j).1 ▸ used)
    rwa [← (same j).2] at before
  case apart =>
    intro j k hj hk eq
    exact inv.apart j k ((same j).1 ▸ hj) ((same k).1 ▸ hk) ((same j).2 ▸ (same k).2 ▸ eq)
  case off => exact inv.off
  case length => exact length
  case done =>
    intro p below free
    exact done p below fun j => (covers j p).not.mp (free j)
  case numop =>
    have tallied := tally_update_int Buf.busy s.bufs i b
    rw [busy] at tallied
    show s.numop = (tally Buf.busy (Function.update s.bufs i b) : Int)
    rw [inv.numop]
    omega
  case left => exact inv.left

/-- A change of one buffer keeps the invariant. -/
theorem Inv.setBuf (inv : Inv input s) (busy : b.busy = (s.bufs i).busy)
    (offset : b.aioOffset = (s.bufs i).aioOffset) (ok : BufOk input s.output b)
    : Inv input (s.setBuf i b) :=
  inv.rewrite busy offset ok (fun j _ => inv.bufs j) inv.length inv.done

-----------------------------------------------------------------------------------------
-- The kernel
-----------------------------------------------------------------------------------------

/-- A completed read has the whole block in the buffer. -/
theorem BufOk.completeRead (ok : BufOk input output b) (reading : b.aio = .reading)
    : b.aioFildes = .ifd ∧ b.aioNbytes = bsz
      ∧ BufOk input output (b.completeRead (block input b.aioOffset)) := by
  unfold BufOk at ok
  cases op : b.op with
  | unused =>
      simp only [op, reading] at ok
      simp at ok
  | readPending =>
      simp only [op, reading] at ok
      obtain ⟨fildes, nbytes, last, state⟩ := ok
      have count : b.outstanding = 1 := by simpa using state
      refine ⟨fildes, nbytes, ?_⟩
      simp only [BufOk, Buf.completeRead, op]
      exact ⟨fildes, nbytes, last, .inr ⟨trivial, by omega, List.take_left⟩⟩
  | writePending =>
      simp only [op, reading] at ok
      simp at ok

/-- A read that completes keeps the invariant. -/
theorem Inv.completeRead (inv : Inv input s) (reading : (s.bufs i).aio = .reading)
    : Inv input (s.setBuf i ((s.bufs i).completeRead
        (pread (s.file (s.bufs i).aioFildes) (s.bufs i).aioOffset (s.bufs i).aioNbytes))) := by
  obtain ⟨fildes, nbytes, ok⟩ := (inv.bufs i).completeRead reading
  have whole : pread (s.file (s.bufs i).aioFildes) (s.bufs i).aioOffset (s.bufs i).aioNbytes
      = block input (s.bufs i).aioOffset := by
    rw [fildes, nbytes, ← inv.unchanged]
    rfl
  rw [whole]
  refine inv.setBuf ?_ ?_ ok
  · rfl
  · rfl

/-- A completed write has the whole translated block in the output file. -/
theorem BufOk.completeWrite (ok : BufOk input output b) (writing : b.aio = .writing)
    : b.busy ∧ b.data.take b.aioNbytes = (block input b.aioOffset).map translate
      ∧ ∀ output', Written input output' b.aioOffset → BufOk input output' b.completeWrite := by
  unfold BufOk at ok
  cases op : b.op with
  | unused =>
      simp only [op, writing] at ok
      simp at ok
  | readPending =>
      simp only [op, writing] at ok
      simp at ok
  | writePending =>
      simp only [op, writing] at ok
      obtain ⟨fildes, nbytes, data, state⟩ := ok
      have count : b.outstanding = 1 := by simpa using state
      refine ⟨by simp [Buf.busy, op], data, ?_⟩
      intro output' written
      simp only [BufOk, Buf.completeWrite, op]
      exact ⟨fildes, nbytes, data, .inr ⟨trivial, by omega, written⟩⟩

/-- The output file gets another block: the invariant holds but for what the block's own buffer
says of it.
-/
theorem Inv.pwrite (inv : Inv input s) (busy : (s.bufs i).busy)
    {bytes : List UInt8} (translated : bytes = (block input (s.bufs i).aioOffset).map translate)
    : (∀ j, j ≠ i → BufOk input (pwrite 0 s.output (s.bufs i).aioOffset bytes) (s.bufs j))
      ∧ (pwrite 0 s.output (s.bufs i).aioOffset bytes).length ≤ input.length
      ∧ ∀ p < s.off, (∀ j, ¬ (s.bufs j).Covers p)
        → (pwrite 0 s.output (s.bufs i).aioOffset bytes)[p]? = (input.map translate)[p]? := by
  obtain ⟨aligned, -, inside⟩ := inv.aligned i busy
  have count : bytes.length = min bsz (input.length - (s.bufs i).aioOffset) := by
    rw [translated, List.length_map, length_block]
  have length : (Data.pwrite 0 s.output (s.bufs i).aioOffset bytes).length ≤ input.length := by
    have before := inv.length
    rw [length_pwrite]
    omega
  refine ⟨?_, length, ?_⟩
  · intro j other
    apply (inv.bufs j).rewritten
    intro used written
    apply written.pwrite _ (by omega)
    apply disjoint_of_ne (inv.aligned j used).1 aligned
    exact fun same => other (inv.apart j i used busy same)
  · intro p below free
    have before := inv.done p below free
    by_cases within : p < input.length
    · have value : (input.map translate)[p]? = some (translate input[p]) := by
        simp [within]
      rw [value] at before ⊢
      apply getElem?_pwrite_outside _ before
      have outside : ¬ ((s.bufs i).aioOffset ≤ p ∧ p < (s.bufs i).aioOffset + bsz) :=
        fun covered => free i ⟨busy, covered⟩
      omega
    · rw [List.getElem?_eq_none (by omega), List.getElem?_eq_none (by simpa using within)]

/-- A write that completes keeps the invariant. -/
theorem Inv.completeWrite (inv : Inv input s) (writing : (s.bufs i).aio = .writing)
    : Inv input ({ s with
        output := Data.pwrite 0 s.output (s.bufs i).aioOffset
          ((s.bufs i).data.take (s.bufs i).aioNbytes) }.setBuf i (s.bufs i).completeWrite) := by
  obtain ⟨busy, translated, ok⟩ := (inv.bufs i).completeWrite writing
  obtain ⟨others, length, done⟩ := inv.pwrite busy translated
  have own := ok _ (written_pwrite input s.output (s.bufs i).aioOffset)
  rw [← translated] at own
  refine inv.rewrite ?_ ?_ own others length done
  · rfl
  · rfl

-----------------------------------------------------------------------------------------
-- The main loop
-----------------------------------------------------------------------------------------

/-- The invariant looks at where `main` is only past the main loop. -/
theorem Inv.move (inv : Inv input s) {loc : Loc}
    (left : match loc with
      | .left => s.numop = 0 ∧ input.length ≤ s.off
      | .quit => False
      | _ => True)
    : Inv input { s with loc } :=
  ⟨inv.unchanged, inv.bufs, inv.aligned, inv.apart, inv.off, inv.length, inv.done, inv.numop,
    left⟩

/-- A complete read is short only at the end of the file, and its block is translated. -/
theorem Inv.visitRead (inv : Inv input s) {n : Nat} (op : (s.bufs i).op = .readPending)
    (complete : (s.bufs i).aio = .complete n)
    : Inv input (visitRead s i n) := by
  have ok := inv.bufs i
  obtain ⟨-, -, inside⟩ := inv.aligned i (by simp [Buf.busy, op])
  simp only [BufOk, op, complete] at ok
  obtain ⟨fildes, nbytes, last, state⟩ := ok
  obtain ⟨rfl, none, data⟩ : n = (block input (s.bufs i).aioOffset).length
      ∧ (s.bufs i).outstanding = 0 ∧ (s.bufs i).data.take (block input (s.bufs i).aioOffset).length
        = block input (s.bufs i).aioOffset := by
    simpa using state
  have count := length_block input (s.bufs i).aioOffset
  have whole : ¬ ((block input (s.bufs i).aioOffset).length ≠ bsz ∧ ¬ (s.bufs i).last) := by
    intro ⟨short, notLast⟩
    exact notLast (last (by omega))
  unfold Advio.visitRead
  dsimp only
  rw [if_neg whole]
  apply inv.setBuf
  · simp [Buf.aioWrite, Buf.busy, op]
  · rfl
  · simp only [BufOk, Buf.aioWrite]
    refine ⟨trivial, trivial, ?_, .inl ⟨trivial, by omega⟩⟩
    rw [data]
    exact List.take_left' (by simp)

/-- A complete write frees its buffer: the block is in the output file. -/
theorem Inv.visitWrite (inv : Inv input s) {rest : List (Fin nBuf)} (here : s.loc = .scanning rest)
    {n : Nat} (op : (s.bufs i).op = .writePending) (complete : (s.bufs i).aio = .complete n)
    : Inv input (visitWrite s i n) := by
  have ok := inv.bufs i
  have busy : (s.bufs i).busy := by simp [Buf.busy, op]
  simp only [BufOk, op, complete] at ok
  obtain ⟨fildes, nbytes, data, state⟩ := ok
  obtain ⟨rfl, none, written⟩ : n = (s.bufs i).aioNbytes ∧ (s.bufs i).outstanding = 0
      ∧ Written input s.output (s.bufs i).aioOffset := by
    simpa using state
  unfold Advio.visitWrite
  dsimp only
  rw [if_neg (by simp)]
  generalize hb : ({ s.bufs i with op := .unused, aio := .idle } : Buf) = b
  have idle : ¬ b.busy := by simp [← hb, Buf.busy]
  constructor
  case unchanged => exact inv.unchanged
  case bufs =>
    apply forall_setBuf (P := fun _ => BufOk input s.output)
    · simp only [← hb, BufOk]
      exact ⟨trivial, none⟩
    · exact fun j _ => inv.bufs j
  case aligned =>
    apply forall_setBuf (P := fun _ b => b.busy → bsz ∣ b.aioOffset ∧ b.aioOffset < s.off
      ∧ b.aioOffset < input.length)
    · exact fun used => absurd used idle
    · exact fun j _ => inv.aligned j
  case apart =>
    apply inv.apart.update
    exact fun j _ used => absurd used idle
  case off => exact inv.off
  case length => exact inv.length
  case done =>
    intro p below free
    by_cases own : (s.bufs i).Covers p
    · by_cases inside : p < input.length
      · exact written p own.2.1 own.2.2 inside
      · have length := inv.length
        show s.output[p]? = _
        rw [List.getElem?_eq_none (by omega), List.getElem?_eq_none (by simpa using inside)]
    · apply inv.done p below
      intro j
      by_cases same : j = i
      · rwa [same]
      · simpa [Rot13.setBuf, same] using free j
  case numop =>
    have tallied := tally_update_int Buf.busy s.bufs i b
    show s.numop - 1 = (tally Buf.busy (Function.update s.bufs i b) : Int)
    rw [inv.numop, tallied]
    simp [busy, idle]
  case left => simp [Rot13.setBuf, here]

/-- A buffer that starts on the block at `off` is told so. -/
theorem BufOk.start (none : b.outstanding = 0) (op : b.op = .readPending)
    (fildes : b.aioFildes = .ifd) (nbytes : b.aioNbytes = bsz)
    (last : input.length ≤ b.aioOffset + bsz → b.last)
    : BufOk input output b.aioRead := by
  simp only [BufOk, Buf.aioRead, op]
  exact ⟨fildes, nbytes, last, .inl ⟨trivial, by omega⟩⟩

/-- An unused buffer starts on the next block, if there is one. -/
theorem Inv.visitUnused (inv : Inv input s) {rest : List (Fin nBuf)}
    (here : s.loc = .scanning rest) (op : (s.bufs i).op = .unused)
    : Inv input (visitUnused s i) := by
  have idle : ¬ (s.bufs i).busy := by simp [Buf.busy, op]
  have none : (s.bufs i).outstanding = 0 := by
    have ok := inv.bufs i
    simp only [BufOk, op] at ok
    exact ok.2
  have size : 0 < bsz := by decide
  unfold Advio.visitUnused
  split
  · next more =>
      rw [inv.unchanged] at more
      dsimp only
      generalize hb : Buf.aioRead _ = b
      have started : BufOk input s.output b ∧ b.busy ∧ b.aioOffset = s.off := by
        rw [← hb, inv.unchanged]
        split
        · exact ⟨BufOk.start none rfl rfl rfl fun _ => rfl, rfl, rfl⟩
        · next notLast =>
            exact ⟨BufOk.start none rfl rfl rfl fun reached => absurd reached notLast, rfl, rfl⟩
      obtain ⟨ok, busy, offset⟩ := started
      constructor
      case unchanged => exact inv.unchanged
      case bufs =>
        apply forall_setBuf (P := fun _ => BufOk input s.output) ok
        exact fun j _ => inv.bufs j
      case aligned =>
        apply forall_setBuf (s := s) (P := fun _ b => b.busy → bsz ∣ b.aioOffset
          ∧ b.aioOffset < s.off + bsz ∧ b.aioOffset < input.length)
        · exact fun _ => ⟨offset ▸ inv.off, by omega, by omega⟩
        · intro j _ used
          obtain ⟨aligned, below, inside⟩ := inv.aligned j used
          exact ⟨aligned, by omega, inside⟩
      case apart =>
        apply inv.apart.update
        intro j _ _ used same
        have below := (inv.aligned j used).2.1
        omega
      case off => exact Nat.dvd_add inv.off (Nat.dvd_refl bsz)
      case length => exact inv.length
      case done =>
        intro p below free
        have outside : p < s.off := by
          have own := free i
          simp only [Rot13.setBuf, Function.update_self, Buf.Covers, busy, offset, true_and] at own
          have : p < s.off + bsz := below
          omega
        apply inv.done p outside
        intro j
        by_cases same : j = i
        · rw [same]
          exact fun covers => idle covers.1
        · simpa [Rot13.setBuf, same] using free j
      case numop =>
        have tallied := tally_update_int Buf.busy s.bufs i b
        show s.numop + 1 = (tally Buf.busy (Function.update s.bufs i b) : Int)
        rw [inv.numop, tallied]
        simp [busy, idle]
      case left => simp [Rot13.setBuf, here]
  · exact inv

/-- A visit of a buffer keeps the invariant. -/
theorem Inv.visit (inv : Inv input s) {rest : List (Fin nBuf)} (here : s.loc = .scanning rest)
    (i : Fin nBuf)
    : Inv input (visit s i) := by
  have ok := inv.bufs i
  unfold Advio.visit
  split
  · next op => exact inv.visitUnused here op
  · next op complete => exact inv.visitRead op complete
  · next op complete => exact inv.visitWrite here op complete
  · next notUnused idle =>
      exfalso
      unfold BufOk at ok
      cases op : (s.bufs i).op <;> simp_all
  · exact inv

-----------------------------------------------------------------------------------------
-- Every run
-----------------------------------------------------------------------------------------

/-- The invariant holds at the start. -/
theorem start_inv (input : List UInt8) : Inv input (start input) := by
  constructor <;> simp [start, BufOk, Buf.busy, KeysApart, tally]

/-- Every event keeps the invariant. -/
theorem step_inv (h : step s event = some s') (inv : Inv input s)
    : Inv input s' := by
  cases event with
  | main =>
      simp only [step, main] at h
      split at h
      · cases h
        exact (inv.move trivial).visit rfl _
      · split at h
        · next none =>
            split at h <;> cases h
            · next reached => exact inv.move ⟨none, inv.unchanged ▸ reached⟩
            · exact inv.move trivial
        · cases h
          exact inv.move trivial
      · split at h <;> cases h
        exact inv.move trivial
      · cases h
      · cases h
  | complete i =>
      simp only [step, complete] at h
      split at h <;> cases h
      · next reading => exact inv.completeRead reading
      · next writing _ => exact inv.completeWrite writing

/-- Past the main loop every block is written. -/
theorem Inv.output_eq (inv : Inv input s) (here : s.loc = .left)
    : s.output = input.map translate := by
  have left := inv.left
  simp only [here] at left
  have free : ∀ i p, ¬ (s.bufs i).Covers p := by
    intro i p covers
    have positive : 0 < tally Buf.busy s.bufs := tally_pos_iff.mpr ⟨i, covers.1⟩
    have := inv.numop
    omega
  apply List.ext_getElem?
  intro p
  by_cases below : p < s.off
  · exact inv.done p below fun i => free i p
  · have length := inv.length
    rw [List.getElem?_eq_none (by omega), List.getElem?_eq_none (by simp; omega)]

/-- No buffer has more than one operation outstanding. -/
theorem BufOk.outstanding_le (ok : BufOk input output b)
    : b.outstanding ≤ 1 := by
  unfold BufOk at ok
  cases op : b.op <;> simp only [op] at ok
  case unused => omega
  case readPending => rcases ok.2.2.2 with h | h <;> omega
  case writePending => rcases ok.2.2.2 with h | h <;> omega

/-- Whatever the order in which the operations complete, a run that leaves the main loop has
written what `rot13a` writes; no run comes to an `err_quit`, and no buffer ever has two
operations outstanding. Witness: induction over the run.
-/
theorem reachable_output_eq_rot13a (h : Reachable step (start input) s)
    : (s.loc = .left → s.output = rot13a input) ∧ s.loc ≠ .quit
      ∧ ∀ i, (s.bufs i).outstanding ≤ 1 := by
  have inv := h.invariant (start_inv input) step_inv
  refine ⟨?_, ?_, fun i => (inv.bufs i).outstanding_le⟩
  · intro here
    rw [rot13a_eq_map]
    exact inv.output_eq here
  · intro here
    have left := inv.left
    simp only [here] at left

/-- A pass of the loop over the buffers. -/
def pass : List Event := List.replicate nBuf .main

/-- A file of one short block is read and written. -/
def oneBlock : List Event :=
  let wait := [.main, .complete ⟨0, by decide⟩, .main]
  pass ++ wait ++ pass ++ wait ++ pass ++ [.main]

/-- A run over one block. -/
theorem reachable_output_eq_rot13a_oneBlock
    : ∃ s, runEvents step (start [97, 66, 33]) oneBlock = some s
      ∧ s.output = [110, 79, 33] ∧ s.output = rot13a [97, 66, 33] := by
  have happens : (runEvents step (start [97, 66, 33]) oneBlock).isSome := by decide
  exact ⟨_, (Option.some_get happens).symm, rfl,
    (reachable_output_eq_rot13a (.of_isSome happens)).1 rfl⟩

end Minions.Advio
