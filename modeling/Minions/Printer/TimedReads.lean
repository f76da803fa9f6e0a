import Mathlib.Data.List.GetD
import Minions.Advio.FullCount
import Minions.Printer.Receive

/-! `treadn` on the socket of a client thread.
The threads of the daemon are written with the bytes that a call reads as its result. The function
leaves them in the memory and returns their number; here the two are shown to be the same.
-/

namespace Minions.Printer

open Minions.Data Minions.Logic Minions.Advio

variable {bits n buf ptr timout : Nat} {arriving events rest : List Event} {bytes : List Byte}

/-- Bytes that are ready have been sent. -/
theorem sent_ready (bytes : List Byte) (events : List Event)
    : sent (ready bytes events) = bytes ++ sent events := by
  cases bytes <;> simp [ready, sent]

/-- A read gets no more than it asks for. -/
theorem recv_length (answer : recv n events = (.ok bytes, rest)) : bytes.length ≤ n := by
  induction events with
  | nil =>
      obtain ⟨⟨⟩, -⟩ := Prod.mk.inj answer
      exact Nat.zero_le n
  | cons e events ih =>
      cases e with
      | data b bs =>
          obtain ⟨⟨⟩, -⟩ := Prod.mk.inj answer
          exact List.length_take_le _ _
      | timeout => exact ih answer
      | selectError e => exact ih answer
      | readError e => exact absurd (Prod.mk.inj answer).1 nofun

/-- A socket as a descriptor. A `read` is asked for no more than `ssize_t` can count, and a `write`
is always complete.
-/
def socket (bits : Nat) (arriving : List Event) : FullCount.System bits (List Event) where
  stream i := (sent arriving).getD i 0
  read nbytes events :=
    match answer : recv (min nbytes (FullCount.SSIZE_MAX bits)) events with
    | (.error e, rest) => (.error e.code.toNat, rest)
    | (.ok bytes, rest) =>
        (.count bytes.length (Nat.le_trans (recv_length answer) (Nat.min_le_left _ _))
          (Nat.le_trans (recv_length answer) (Nat.min_le_right _ _)), rest)
  write nbytes events :=
    (.count (min nbytes (FullCount.SSIZE_MAX bits)) (Nat.min_le_left _ _) (Nat.min_le_right _ _),
      events)
  select _ events :=
    match select events with
    | (.ready, rest) => ((1, 0), rest)
    | (.timedOut, rest) => ((0, 0), rest)
    | (.failed e, rest) => ((-1, e.code.toNat), rest)

/-- What a read that ends so returns and leaves at `ptr`. -/
def leaves (ptr : Nat) (w : FullCount.World (List Event))
    : Except Errno (List Byte) × List Event → Int × FullCount.World (List Event)
  | (.error e, rest) => (-1, { w with errno := e.code.toNat, kernel := rest })
  | (.ok bytes, rest) =>
      (bytes.length,
        { w with
          mem := fun a =>
            if ptr ≤ a ∧ a < ptr + bytes.length then bytes.getD (a - ptr) 0 else w.mem a
          offset := w.offset + bytes.length
          kernel := rest })

/-- The first bytes of what arrives have been read and are at `buf`; the others are to come. -/
structure Upto (buf : Nat) (arriving : List Event) (got : List Byte)
    (w : FullCount.World (List Event)) : Prop where
  split : sent arriving = got ++ sent w.kernel
  offset : w.offset = got.length
  stored : FullCount.bufBytes w.mem buf got.length = got

/-- A timed read takes its bytes from those sent. -/
theorem sent_treadResult {r : Except Errno (List Byte)} (answer : treadResult n events = (r, rest))
    : sent events = r.toOption.getD [] ++ sent rest := by
  cases events with
  | nil =>
      obtain ⟨rfl, rfl⟩ := Prod.mk.inj answer
      rfl
  | cons e events =>
      cases e <;> obtain ⟨rfl, rfl⟩ := Prod.mk.inj answer
      case data b bs =>
        rw [sent_ready, ← List.append_assoc]
        exact congrArg (· ++ sent events) (List.take_append_drop n (b :: bs)).symm
      all_goals rfl

/-- A read of the socket that fails. -/
theorem socket_read_error {e : Errno}
    (answer : recv (min n (FullCount.SSIZE_MAX bits)) events = (.error e, rest))
    : (socket bits arriving).read n events = (.error e.code.toNat, rest) := by
  simp only [socket]
  split
  · next found =>
      obtain ⟨⟨⟩, rfl⟩ := Prod.mk.inj (found.symm.trans answer)
      rfl
  · next found => cases (Prod.mk.inj (found.symm.trans answer)).1

/-- A read of the socket that gets bytes. -/
theorem socket_read_ok
    (answer : recv (min n (FullCount.SSIZE_MAX bits)) events = (.ok bytes, rest))
    : ∃ (asked : bytes.length ≤ n) (small : bytes.length ≤ FullCount.SSIZE_MAX bits),
      (socket bits arriving).read n events = (.count bytes.length asked small, rest) := by
  simp only [socket]
  split
  · next found => cases (Prod.mk.inj (found.symm.trans answer)).1
  · next found =>
      obtain ⟨⟨⟩, rfl⟩ := Prod.mk.inj (found.symm.trans answer)
      have within := recv_length answer
      exact ⟨by omega, by omega, rfl⟩

/-- `read` on a socket where bytes, an error or the end of file come next. -/
theorem read_socket {got : List Byte} {w : FullCount.World (List Event)}
    (upto : Upto buf arriving got w) (small : n ≤ FullCount.SSIZE_MAX bits)
    (next : recv n w.kernel = treadResult n w.kernel)
    : FullCount.read (socket bits arriving) ptr n w = leaves ptr w (treadResult n w.kernel) := by
  rcases result : treadResult n w.kernel with ⟨e | bytes, rest⟩
  · rw [FullCount.read, socket_read_error (by rw [Nat.min_eq_left small, next, result])]
    rfl
  · have received : recv (min n (FullCount.SSIZE_MAX bits)) w.kernel = (.ok bytes, rest) := by
      rw [Nat.min_eq_left small, next, result]
    obtain ⟨asked, fits, answer⟩ := socket_read_ok received
    rw [FullCount.read, answer]
    have next : sent w.kernel = bytes ++ sent rest := sent_treadResult result
    have stored : ∀ a, ptr ≤ a ∧ a < ptr + bytes.length
        → (socket bits arriving).stream (w.offset + (a - ptr)) = bytes.getD (a - ptr) 0 := by
      intro a inside
      show (sent arriving).getD _ 0 = _
      rw [upto.split, next, upto.offset, List.getD_append_right _ _ _ _ (by omega),
        Nat.add_sub_cancel_left, List.getD_append _ _ _ _ (by omega)]
    simp only [leaves, Prod.mk.injEq, true_and, FullCount.World.mk.injEq, and_true]
    funext a
    split
    · next inside => exact stored a inside
    · rfl

/-- `tread` on the socket is the timed read of the daemon. -/
theorem tread_socket {got : List Byte} {w : FullCount.World (List Event)}
    (upto : Upto buf arriving got w) (small : n ≤ FullCount.SSIZE_MAX bits)
    : FullCount.tread (socket bits arriving) timout ptr n w
      = leaves ptr w (treadResult n w.kernel) := by
  obtain ⟨mem, errno, offset, written, kernel⟩ := w
  cases kernel with
  | nil => exact read_socket upto small rfl
  | cons e rest =>
      cases e with
      | data b bs => exact read_socket upto small rfl
      | timeout => rfl
      | selectError e => rfl
      | readError e => exact read_socket upto small rfl

/-- A read that fails leaves the buffer alone. -/
theorem Upto.failed {got : List Byte} {w : FullCount.World (List Event)} {e : Errno}
    (upto : Upto buf arriving got w) (answer : treadResult n w.kernel = (.error e, rest))
    : Upto buf arriving got (leaves (buf + got.length) w (.error e, rest)).2 where
  split := by
    rw [upto.split, sent_treadResult answer]
    rfl
  offset := upto.offset
  stored := upto.stored

/-- A read adds its bytes to the buffer. -/
theorem Upto.leaves {got : List Byte} {w : FullCount.World (List Event)}
    (upto : Upto buf arriving got w) (answer : treadResult n w.kernel = (.ok bytes, rest))
    : Upto buf arriving (got ++ bytes) (leaves (buf + got.length) w (.ok bytes, rest)).2 where
  split := by
    rw [upto.split, sent_treadResult answer, List.append_assoc]
    rfl
  offset := by rw [List.length_append, ← upto.offset]; rfl
  stored := by
    rw [List.length_append, FullCount.bufBytes_add]
    refine congrArg₂ _ (Eq.trans ?_ upto.stored) (List.ext_getElem ?_ fun i _ less => ?_)
    · refine List.map_congr_left fun i member => if_neg ?_
      have less := List.mem_range.mp member
      omega
    · simp [FullCount.bufBytes]
    · simp [FullCount.bufBytes, Printer.leaves, less]

-----------------------------------------------------------------------------------------
-- The loop
-----------------------------------------------------------------------------------------

/-- One round of `treadn`. -/
def treadnRound (nbytes timout : Nat) (got : List Byte)
    : Prog Sys (List Byte ⊕ Except Errno (List Byte)) :=
  if 0 < nbytes - got.length then do
    match ← tread (nbytes - got.length) timout with
    | .error e => pure (.inr (if got.length = 0 then .error e else .ok got))
    | .ok [] => pure (.inr (.ok got))
    | .ok (b :: bs) => pure (.inl (got ++ b :: bs))
  else pure (.inr (.ok got))

/-- The loop of `treadn` as rounds. -/
theorem treadn_rounds (nbytes timout : Nat)
    : treadn nbytes timout = Prog.iter [] (treadnRound nbytes timout) := rfl

/-- `tread` ends with the timed read. -/
theorem tread_ends (p : Thread) (n timout : Nat) (l : Loc) (st : Printd)
    : (tread n timout).Ends (alone p) (l, st) (.done (treadResult n l.events).1)
        ({ l with events := (treadResult n l.events).2 }, st) := by
  obtain ⟨conn, events, faults, offset, names, answers⟩ := l
  refine ⟨0, fun fuel _ => ?_⟩
  cases events with
  | nil => rfl
  | cons e rest => cases e <;> rfl

/-- What `treadn` yields is what the function returns and leaves in the memory. -/
def Delivers (buf : Nat) (arriving : List Event) (out : Int × FullCount.World (List Event))
    : Except Errno (List Byte) × List Event → Prop
  | (.error e, rest) => out.1 = -1 ∧ out.2.errno = e.code.toNat ∧ out.2.kernel = rest
  | (.ok bytes, rest) => out.1 = bytes.length ∧ Upto buf arriving bytes out.2 ∧ out.2.kernel = rest

/-- Where a read of `treadn` leads to. -/
def afterRead (got : List Byte)
    : Except Errno (List Byte) → List Byte ⊕ Except Errno (List Byte)
  | .error e => .inr (if got.length = 0 then .error e else .ok got)
  | .ok [] => .inr (.ok got)
  | .ok (b :: bs) => .inl (got ++ b :: bs)

/-- A round of `treadn` while bytes are missing. -/
theorem treadnRound_more (p : Thread) (timout : Nat) {nbytes : Nat} {got : List Byte} (l : Loc)
    (st : Printd) (more : 0 < nbytes - got.length)
    : (treadnRound nbytes timout got).Ends (alone p) (l, st)
        (.done (afterRead got (treadResult (nbytes - got.length) l.events).1))
        ({ l with events := (treadResult (nbytes - got.length) l.events).2 }, st) := by
  rw [treadnRound, if_pos more]
  refine (tread_ends p _ timout l st).bind ?_
  rcases (treadResult (nbytes - got.length) l.events).1 with e | _ | ⟨b, bs⟩ <;> exact .ret _ _

/-- The rounds from any point on. Witness: strong induction on what is left. -/
theorem treadnRound_ends (p : Thread) (timout buf : Nat) {nbytes : Nat} (l : Loc) (st : Printd)
    (small : nbytes ≤ FullCount.SSIZE_MAX bits) {got : List Byte} (within : got.length ≤ nbytes)
    {w : FullCount.World (List Event)} (upto : Upto buf arriving got w)
    : ∃ result rest,
        Prog.LoopEnds (alone p) (treadnRound nbytes timout) got ({ l with events := w.kernel }, st)
          (.done result) ({ l with events := rest }, st)
        ∧ Delivers buf arriving
            (FullCount.loop bits (FullCount.tread (socket bits arriving) timout) nbytes
              (buf + got.length) (nbytes - got.length) w)
            (result, rest) := by
  have counted {got : List Byte} (within : got.length ≤ nbytes)
      : signedT bits (nbytes - (nbytes - got.length) : Nat) = got.length := by
    rw [Nat.sub_sub_self within]
    exact signedT_natCast (Nat.le_trans within small)
  induction left : nbytes - got.length using Nat.strongRecOn generalizing got w with
  | ind nleft ih =>
      subst left
      by_cases more : 0 < nbytes - got.length
      · have round := treadnRound_more p timout { l with events := w.kernel } st more
        have call : FullCount.tread (socket bits arriving) timout (buf + got.length)
            (nbytes - got.length) w = _ := tread_socket upto (by omega)
        rcases answer : treadResult (nbytes - got.length) w.kernel with ⟨e | _ | ⟨b, bs⟩, rest⟩ <;>
          rw [answer] at call <;> simp only [answer] at round
        · refine ⟨_, rest, .leave round (Or.inl ⟨_, rfl, rfl⟩), ?_⟩
          rw [FullCount.loop_last more call (by decide)]
          by_cases first : got.length = 0
          · rw [if_pos first, if_pos ⟨by decide, by omega⟩]
            exact ⟨rfl, rfl, rfl⟩
          · rw [if_neg first, if_neg fun both => first (by omega)]
            exact ⟨counted within, upto.failed answer, rfl⟩
        · have upto' := upto.leaves answer
          rw [List.append_nil] at upto'
          rw [FullCount.loop_last more call (Int.le_refl 0)]
          exact ⟨.ok got, rest, .leave round (Or.inl ⟨_, rfl, rfl⟩), counted within, upto', rfl⟩
        · have upto' := upto.leaves answer
          have inside : ((b :: bs).length : Int) ≤ (nbytes - got.length : Nat) :=
            FullCount.bounded_tread call
          have length : (got ++ b :: bs).length = got.length + (b :: bs).length :=
            List.length_append
          have within' : (got ++ b :: bs).length ≤ nbytes := by omega
          have shorter : nbytes - (got ++ b :: bs).length < nbytes - got.length := by
            have some_ : 0 < (b :: bs).length := Nat.succ_pos _
            omega
          obtain ⟨result, last, rounds, returns⟩ := ih _ shorter within' upto' rfl
          refine ⟨result, last, .again round rounds, ?_⟩
          rw [length, ← Nat.add_assoc, ← Nat.sub_sub] at returns
          rw [FullCount.loop_again more call (Int.natCast_pos.mpr (Nat.succ_pos _)),
            Int.toNat_natCast]
          exact returns
      · have round : (treadnRound nbytes timout got).Ends (alone p)
            ({ l with events := w.kernel }, st) (.done (.inr (.ok got)))
            ({ l with events := w.kernel }, st) := by
          rw [treadnRound, if_neg more]
          exact .ret _ _
        rw [FullCount.loop, if_neg more]
        exact ⟨.ok got, w.kernel, .leave round (Or.inl ⟨_, rfl, rfl⟩), counted within, upto, rfl⟩

/-- A thread's `treadn` always ends, with what the function returns and leaves in the memory when it
is called on the thread's socket.
-/
theorem treadn_ends (p : Thread) (l : Loc) (st : Printd) (buf timout : Nat) {nbytes : Nat}
    (small : nbytes ≤ FullCount.SSIZE_MAX bits) (mem : Nat → Byte) (errno : Int)
    : ∃ result rest,
        (treadn nbytes timout).Ends (alone p) (l, st) (.done result) ({ l with events := rest }, st)
        ∧ Delivers buf l.events
            (FullCount.treadn (socket bits l.events) buf nbytes timout
              ⟨mem, errno, 0, [], l.events⟩)
            (result, rest) := by
  have within : ([] : List Byte).length ≤ nbytes := Nat.zero_le nbytes
  have start : Upto buf l.events [] ⟨mem, errno, 0, [], l.events⟩ := ⟨rfl, rfl, rfl⟩
  obtain ⟨result, rest, rounds, returns⟩ :=
    treadnRound_ends p timout buf l st small within start
  refine ⟨result, rest, ?_, returns⟩
  rw [treadn_rounds]
  exact rounds.next (.ret result _)

end Minions.Printer
