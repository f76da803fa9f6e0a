import Minions.Data.CInt
import Minions.Data.Decimal
import Minions.Logic.Transfers

/-! Reading and writing a full count: `readn.c`, `writen.c`, and `treadn` of `printer/util.c`.
`size_t` and `ssize_t` have `bits` bits. The descriptor is left out: all calls are on the same one.
-/

namespace Minions.Advio.FullCount

open Minions.Data Minions.Logic

variable {bits : Nat} {κ σ : Type}

-----------------------------------------------------------------------------------------
-- The calls
-----------------------------------------------------------------------------------------

/-- The largest number of type `ssize_t`. -/
def SSIZE_MAX (bits : Nat) : Nat := 2 ^ (bits - 1) - 1

def ETIME : Int := 62

/-- How `read` or `write` of `nbytes` bytes ends: with an error number, or with a count. -/
inductive Result (bits nbytes : Nat) where
  | error (errno : Int)
  | count (c : Nat) (asked : c ≤ nbytes) (small : c ≤ SSIZE_MAX bits)

/-- What the calls meet: the bytes that there are to read, and how each call ends, in any state
of the system. A `select` ends with `nfds` and, if this is negative, an error number.
-/
structure System (bits : Nat) (κ : Type) where
  stream : Nat → Byte
  read : (nbytes : Nat) → κ → Result bits nbytes × κ
  write : (nbytes : Nat) → κ → Result bits nbytes × κ
  select : (timout : Nat) → κ → (Int × Int) × κ

/-- The memory, how far the stream has been read, and what has been written. -/
structure World (κ : Type) where
  mem : Nat → Byte
  errno : Int
  offset : Nat
  written : List Byte
  kernel : κ

/-- The `n` bytes at `ptr`. -/
def bufBytes (mem : Nat → Byte) (ptr n : Nat) : List Byte :=
  (List.range n).map fun i => mem (ptr + i)

variable (sys : System bits κ)

/-- `read` -/
def read (ptr nbytes : Nat) (w : World κ) : Int × World κ :=
  match sys.read nbytes w.kernel with
  | (.error e, kernel) => (-1, { w with errno := e, kernel })
  | (.count c _ _, kernel) =>
      (c,
        { w with
          mem := fun a =>
            if ptr ≤ a ∧ a < ptr + c then sys.stream (w.offset + (a - ptr)) else w.mem a
          offset := w.offset + c
          kernel })

/-- `write` -/
def write (ptr nbytes : Nat) (w : World κ) : Int × World κ :=
  match sys.write nbytes w.kernel with
  | (.error e, kernel) => (-1, { w with errno := e, kernel })
  | (.count c _ _, kernel) => (c, { w with written := w.written ++ bufBytes w.mem ptr c, kernel })

def tread (timout buf nbytes : Nat) (w : World κ) : Int × World κ :=
  match sys.select timout w.kernel with
  | ((nfds, e), kernel) =>
      if nfds ≤ 0 then (-1, { w with errno := if nfds = 0 then ETIME else e, kernel })
      else read sys buf nbytes { w with kernel }

-----------------------------------------------------------------------------------------
-- The loop
-----------------------------------------------------------------------------------------

/-- The loop of `readn`, `writen` and `treadn`, which differ in the call. -/
def loop (bits : Nat) (call : Nat → Nat → σ → Int × σ) (n ptr nleft : Nat) (s : σ) : Int × σ :=
  if nleft > 0 then
    match call ptr nleft s with
    | (nmoved, s') =>
        if nmoved < 0 then
          if nleft = n then (-1, s') else (signedT bits (n - nleft : Nat), s')
        else if nmoved = 0 then (signedT bits (n - nleft : Nat), s')
        else loop bits call n (ptr + nmoved.toNat) (nleft - nmoved.toNat) s'
  else (signedT bits (n - nleft : Nat), s)
termination_by nleft
decreasing_by omega

def readn (ptr n : Nat) (w : World κ) : Int × World κ := loop bits (read sys) n ptr n w

def writen (ptr n : Nat) (w : World κ) : Int × World κ := loop bits (write sys) n ptr n w

def treadn (buf nbytes timout : Nat) (w : World κ) : Int × World κ :=
  loop bits (tread sys timout) nbytes buf nbytes w

-----------------------------------------------------------------------------------------
-- What is asked of the functions
-----------------------------------------------------------------------------------------

/-- A function that was asked for `n` bytes returns -1 just if its first call fails, and has
moved nothing then. Otherwise it returns the number of bytes at the front that it has moved, and
that is less than `n` only where its last call has moved nothing.
-/
structure Reports (n : Nat) (results : List Int) (value : Int) (moved : Nat → Prop) : Prop where
  failed : value = -1 ↔ 0 < n ∧ ∃ r ∈ results.head?, r < 0
  nothing : value = -1 → moved 0
  counted : value ≠ -1
    → ∃ k : Nat, value = k ∧ k ≤ n ∧ moved k ∧ (k < n → ∃ r ∈ results.getLast?, r ≤ 0)

/-- The next `k` bytes of the stream are at `ptr`, and the other memory is as it was. -/
structure Received (ptr : Nat) (w₀ : World κ) (k : Nat) (w : World κ) : Prop where
  offset : w.offset = w₀.offset + k
  stored : ∀ i < k, w.mem (ptr + i) = sys.stream (w₀.offset + i)
  kept : ∀ a, a < ptr ∨ ptr + k ≤ a → w.mem a = w₀.mem a
  written : w.written = w₀.written

/-- The `k` bytes at `ptr` have been written, and the memory is as it was. -/
structure Sent (ptr : Nat) (w₀ : World κ) (k : Nat) (w : World κ) : Prop where
  written : w.written = w₀.written ++ bufBytes w₀.mem ptr k
  mem : w.mem = w₀.mem
  offset : w.offset = w₀.offset

-----------------------------------------------------------------------------------------
-- One call
-----------------------------------------------------------------------------------------

variable {sys} {ptr n nbytes timout : Nat} {w w₀ w' : World κ} {r : Int}

/-- The bytes of a buffer in two parts. -/
theorem bufBytes_add (mem : Nat → Byte) (ptr j c : Nat)
    : bufBytes mem ptr (j + c) = bufBytes mem ptr j ++ bufBytes mem (ptr + j) c := by
  simp [bufBytes, List.range_add, Function.comp_def, Nat.add_assoc]

/-- `read` moves no more than it is asked for. -/
theorem bounded_read : Bounded (read sys) := by
  intro ptr nbytes w r w' answer
  unfold read at answer
  split at answer <;> obtain ⟨rfl, -⟩ := Prod.mk.inj answer <;> omega

/-- `write` moves no more than it is asked for. -/
theorem bounded_write : Bounded (write sys) := by
  intro ptr nbytes w r w' answer
  unfold write at answer
  split at answer <;> obtain ⟨rfl, -⟩ := Prod.mk.inj answer <;> omega

/-- `tread` moves no more than it is asked for. -/
theorem bounded_tread : Bounded (tread sys timout) := by
  intro buf nbytes w r w' answer
  unfold tread at answer
  split at answer
  split at answer
  · obtain ⟨rfl, -⟩ := Prod.mk.inj answer
    omega
  · exact bounded_read answer

/-- The bytes of the reads are in the buffer. -/
theorem moves_read : Moves (read sys) ptr n (Received sys ptr w₀) := by
  intro k w r w' _ answer received
  unfold read at answer
  split at answer <;> obtain ⟨rfl, rfl⟩ := Prod.mk.inj answer
  · exact ⟨received.offset, received.stored, received.kept, received.written⟩
  · next c _ _ _ _ =>
      rw [Int.toNat_natCast]
      refine ⟨?_, fun i less => ?_, fun a outside => ?_, received.written⟩
      · simp only [received.offset, Nat.add_assoc]
      · by_cases old : i < k
        · simp only [if_neg (show ¬ (ptr + k ≤ ptr + i ∧ ptr + i < ptr + k + c) by omega)]
          exact received.stored i old
        · simp only [if_pos (show ptr + k ≤ ptr + i ∧ ptr + i < ptr + k + c by omega),
            received.offset]
          exact congrArg sys.stream (by omega)
      · simp only [if_neg (show ¬ (ptr + k ≤ a ∧ a < ptr + k + c) by omega)]
        exact received.kept a (by omega)

/-- The bytes of the writes come from the buffer. -/
theorem moves_write : Moves (write sys) ptr n (Sent ptr w₀) := by
  intro k w r w' _ answer sent
  unfold write at answer
  split at answer <;> obtain ⟨rfl, rfl⟩ := Prod.mk.inj answer
  · exact ⟨sent.written, sent.mem, sent.offset⟩
  · next c _ _ _ _ =>
      refine ⟨?_, sent.mem, sent.offset⟩
      rw [Int.toNat_natCast, bufBytes_add, ← List.append_assoc, ← sent.written, sent.mem]

/-- The bytes of the timed reads are in the buffer. -/
theorem moves_tread : Moves (tread sys timout) ptr n (Received sys ptr w₀) := by
  intro k w r w' less answer received
  unfold tread at answer
  split at answer
  split at answer
  · obtain ⟨rfl, rfl⟩ := Prod.mk.inj answer
    exact ⟨received.offset, received.stored, received.kept, received.written⟩
  · exact moves_read less answer ⟨received.offset, received.stored, received.kept, received.written⟩

-----------------------------------------------------------------------------------------
-- All calls
-----------------------------------------------------------------------------------------

section functions

variable {call : Nat → Nat → σ → Int × σ} {s : σ} {Moved : Nat → σ → Prop}

/-- A round that moves something. -/
theorem loop_again {nleft : Nat} {s' : σ} (more : 0 < nleft) (answer : call ptr nleft s = (r, s'))
    (again : 0 < r)
    : loop bits call n ptr nleft s = loop bits call n (ptr + r.toNat) (nleft - r.toNat) s' := by
  rw [loop, if_pos more, answer]
  simp only [if_neg (show ¬ r < 0 by omega), if_neg (show ¬ r = 0 by omega)]

/-- The round that ends the loop. -/
theorem loop_last {nleft : Nat} {s' : σ} (more : 0 < nleft) (answer : call ptr nleft s = (r, s'))
    (last : r ≤ 0)
    : loop bits call n ptr nleft s
      = (if r < 0 ∧ nleft = n then -1 else signedT bits (n - nleft : Nat), s') := by
  rw [loop, if_pos more, answer]
  by_cases failed : r < 0
  · by_cases whole : nleft = n <;> simp [failed, whole]
  · simp [show r = 0 by omega]

/-- The loop makes the calls, and its value comes from what they return. Witness: strong
induction on what is left.
-/
theorem loop_eq (bounded : Bounded call) {nleft : Nat} (le : nleft ≤ n)
    : loop bits call n ptr nleft s
      = (if nleft = n ∧ ∃ r ∈ (moveAll call ptr nleft s).1.head?, r < 0 then -1
          else signedT bits (n - nleft + total (moveAll call ptr nleft s).1 : Nat),
        (moveAll call ptr nleft s).2) := by
  induction nleft using Nat.strongRecOn generalizing ptr s with
  | ind nleft ih =>
      rcases Nat.eq_zero_or_pos nleft with rfl | more
      · simp [loop, moveAll_zero]
      rcases answer : call ptr nleft s with ⟨r, s'⟩
      have inside := bounded answer
      by_cases again : 0 < r
      · have shorter : nleft - r.toNat ≠ n := by omega
        have moved : n - (nleft - r.toNat) = n - nleft + r.toNat := by omega
        rw [loop_again more answer again, moveAll_again more answer again,
          ih (nleft - r.toNat) (by omega) (by omega), moved]
        simp [shorter, total_cons, Nat.add_assoc, show ¬ r < 0 by omega]
      · have last := Int.not_lt.mp again
        have nothing : r.toNat = 0 := by omega
        rw [loop_last more answer last, moveAll_last more answer last]
        simp [nothing, and_comm]

/-- The functions do what is asked of them if and only if the calls move no more bytes than
`ssize_t` can count.
-/
theorem loop_reports_iff (size : n < 2 ^ bits) (bounded : Bounded call)
    (moves : Moves call ptr n Moved) (start : Moved 0 s)
    : Reports n (moveAll call ptr n s).1 (loop bits call n ptr n s).1
          (Moved · (loop bits call n ptr n s).2)
        ↔ total (moveAll call ptr n s).1 ≤ SSIZE_MAX bits := by
  obtain ⟨moved, within, last⟩ := moves.moveAll bounded (Nat.zero_le n) start
  rw [loop_eq bounded (Nat.le_refl n)]
  simp only [Nat.add_zero, Nat.sub_zero, Nat.zero_add, Nat.sub_self, true_and]
    at moved within last ⊢
  have empty : n = 0 → (moveAll call ptr n s).1 = [] := by
    rintro rfl
    rw [moveAll_zero]
  by_cases failed : ∃ r ∈ (moveAll call ptr n s).1.head?, r < 0
  · have none := total_of_failed failed
    have asked : 0 < n := by
      refine Nat.pos_of_ne_zero fun zero => ?_
      obtain ⟨r, first, -⟩ := failed
      simp [empty zero] at first
    rw [none] at moved ⊢
    rw [if_pos failed]
    exact iff_of_true
      ⟨iff_of_true rfl ⟨asked, failed⟩, fun _ => moved, fun other => absurd rfl other⟩
      (Nat.zero_le _)
  · rw [if_neg failed]
    constructor
    · intro reports
      by_contra many
      have negative := signedT_neg (Nat.not_le.mp many) (Nat.lt_of_le_of_lt within size)
      by_cases same : signedT bits (total (moveAll call ptr n s).1 : Nat) = -1
      · exact failed (reports.failed.mp same).2
      · obtain ⟨k, value, -⟩ := reports.counted same
        exact absurd negative (by rw [show signedT bits _ = (k : Int) from value]; omega)
    · intro few
      rw [signedT_natCast few]
      refine ⟨iff_of_false (by omega) fun both => failed both.2, fun same => by omega, fun _ => ?_⟩
      exact ⟨_, rfl, within, moved, last⟩

end functions

/-- However their calls end, `readn`, `writen` and `treadn` do what is asked of them if and only if
the calls move no more bytes in all than `ssize_t` can count.
-/
theorem transfers_report_iff (sys : System bits κ) (ptr timout : Nat) (w : World κ) {n : Nat}
    (size : n < 2 ^ bits)
    : (Reports n (moveAll (read sys) ptr n w).1 (readn sys ptr n w).1
            (Received sys ptr w · (readn sys ptr n w).2)
          ↔ total (moveAll (read sys) ptr n w).1 ≤ SSIZE_MAX bits)
        ∧ (Reports n (moveAll (write sys) ptr n w).1 (writen sys ptr n w).1
            (Sent ptr w · (writen sys ptr n w).2)
          ↔ total (moveAll (write sys) ptr n w).1 ≤ SSIZE_MAX bits)
        ∧ (Reports n (moveAll (tread sys timout) ptr n w).1 (treadn sys ptr n timout w).1
            (Received sys ptr w · (treadn sys ptr n timout w).2)
          ↔ total (moveAll (tread sys timout) ptr n w).1 ≤ SSIZE_MAX bits) := by
  have received : Received sys ptr w 0 w :=
    ⟨rfl, fun _ less => absurd less (Nat.not_lt_zero _), fun _ _ => rfl, rfl⟩
  have sent : Sent ptr w 0 w := ⟨by simp [bufBytes], rfl, rfl⟩
  exact ⟨loop_reports_iff size bounded_read moves_read received,
    loop_reports_iff size bounded_write moves_write sent,
    loop_reports_iff size bounded_tread moves_tread received⟩

/-- How a call ends by a list: with an error where a number is negative, else with this count, as
far as it was asked for, and behind the list with nothing.
-/
def listed (bits nbytes : Nat) : List Int → Result bits nbytes × List Int
  | [] => (.count 0 (Nat.zero_le _) (Nat.zero_le _), [])
  | r :: rest =>
      if r < 0 then (.error (-r), rest)
      else (.count (min r.toNat (min nbytes (SSIZE_MAX bits))) (by omega) (by omega), rest)

def scripted (bits : Nat) : System bits (List Int) where
  stream := UInt8.ofNat
  read := listed bits
  write := listed bits
  select _ results := ((1, 0), results)

def given (results : List Int) : World (List Int) := ⟨fun _ => 0, 0, 0, [], results⟩

/-- Two pieces and the end of the file. -/
theorem transfers_report_iff_pieces
    : (readn (scripted 64) 1000 5 (given [2, 2])).1 = 4
      ∧ Reports 5 (moveAll (read (scripted 64)) 1000 5 (given [2, 2])).1
          (readn (scripted 64) 1000 5 (given [2, 2])).1
          (Received (scripted 64) 1000 (given [2, 2]) ·
            (readn (scripted 64) 1000 5 (given [2, 2])).2) := by
  have few : total (moveAll (read (scripted 64)) 1000 5 (given [2, 2])).1 ≤ SSIZE_MAX 64 :=
    Nat.le_trans (total_le bounded_read) (by decide)
  refine ⟨?_, (transfers_report_iff (scripted 64) 1000 10 (given [2, 2]) (by decide)).1.mpr few⟩
  simp [readn, loop, read, scripted, listed, given, SSIZE_MAX, signedT]

/-- Where `size_t` has 32 bits: two reads bring 2 GiB, and `readn` returns a negative number. -/
theorem readn_negative
    : (readn (scripted 32) 65536 2147483648 (given [2147479552, 4096])).1 = -2147483648
      ∧ ¬ Reports 2147483648
          (moveAll (read (scripted 32)) 65536 2147483648 (given [2147479552, 4096])).1
          (readn (scripted 32) 65536 2147483648 (given [2147479552, 4096])).1
          (Received (scripted 32) 65536 (given [2147479552, 4096]) ·
            (readn (scripted 32) 65536 2147483648 (given [2147479552, 4096])).2) := by
  have value
      : (readn (scripted 32) 65536 2147483648 (given [2147479552, 4096])).1 = -2147483648 := by
    simp [readn, loop, read, scripted, listed, given, SSIZE_MAX, signedT]
  refine ⟨value, fun reports => ?_⟩
  obtain ⟨k, same, -⟩ := reports.counted (by rw [value]; decide)
  rw [value] at same
  omega

end Minions.Advio.FullCount
