import Minions.Data.Ring
import Minions.Logic.Events

/-! The signal-driven datagram echo server: `dgecho01.c`.
`sig_io` receives into a ring of buffers whenever `SIGIO` arrives and is not blocked;
`dg_echo` sends from the ring. The handler is not interrupted by its own signal, and the loop
stands still while it runs. Datagrams arrive at the socket at any time.
-/

namespace Minions.Unp.SignalEcho

open Minions.Data Minions.Logic

def qSize : Nat := 8

def maxDg : Nat := 4096

/-- `DG`. The two buffers are as long as `Malloc` made them; the lengths say how much of them
is in use.
-/
structure DG where
  dgData : List UInt8
  dgLen : Nat
  dgSa : List UInt8
  dgSalen : Nat

/-- A datagram in the socket's receive buffer. An address is at most `clilen` bytes long. -/
structure Datagram (clilen : Nat) where
  data : List UInt8
  sa : List UInt8
  fits : sa.length ≤ clilen

/-- What `recvfrom` hands over and what `Sendto` is given: the bytes, their number and the
address.
-/
structure Packet where
  data : List UInt8
  len : Nat
  sa : List UInt8
  deriving DecidableEq

/-- Where `dg_echo` is. `SIGIO` is blocked at `top`, the test of `nqueue`, and before
`nqueue--`.
-/
inductive Loc
  | top
  | suspended
  | unblocked
  | sending
  | sent
  | advanced
  | decrementing
  | quit
  deriving DecidableEq

/-- `SIGIO` can be delivered. -/
def Loc.open : Loc → Bool
  | .suspended | .unblocked | .sending | .sent | .advanced => true
  | .top | .decrementing | .quit => false

/-- The static variables, where the loop and the handler are, and what has happened so far. -/
structure Echo (clilen : Nat) where
  dg : Vector DG qSize
  cntread : Nat → Nat
  iget : Fin qSize
  iput : Fin qSize
  nqueue : Int
  loc : Loc
  /-- `nread` of the running handler. -/
  handler : Option Nat
  /-- The socket's receive buffer. -/
  socket : List (Datagram clilen)
  /-- What the handler has received, in order. -/
  received : List Packet
  /-- The index of the buffer that each of them was received into. -/
  places : List (Fin qSize)
  /-- What `Sendto` has sent, in order. -/
  sent : List Packet

variable {clilen : Nat}

/-- Before the loop. The buffers hold what `Malloc` left in them. -/
def start (clilen : Nat) (dg : Vector DG qSize) : Echo clilen where
  dg := dg
  cntread := fun _ => 0
  iget := ⟨0, by decide⟩
  iput := ⟨0, by decide⟩
  nqueue := 0
  loc := .top
  handler := none
  socket := []
  received := []
  places := []
  sent := []

/-- The packet that `Sendto` sends from a buffer. -/
def DG.packet (ptr : DG) : Packet where
  data := ptr.dgData.take ptr.dgLen
  len := ptr.dgLen
  sa := ptr.dgSa.take ptr.dgSalen

/-- What `recvfrom` takes of a datagram: no more than `MAXDG` bytes. -/
def Datagram.packet (d : Datagram clilen) : Packet where
  data := d.data.take maxDg
  len := (d.data.take maxDg).length
  sa := d.sa

/-- `recvfrom` into a buffer, and `ptr->dg_len = len`. -/
def DG.receive (ptr : DG) (p : Packet) : DG where
  dgData := p.data ++ ptr.dgData.drop p.data.length
  dgLen := p.len
  dgSa := p.sa ++ ptr.dgSa.drop p.sa.length
  dgSalen := p.sa.length

/-- One round of the loop in `sig_io`. `recvfrom` finds a datagram, or would block and the
handler returns.
-/
def sigIo (s : Echo clilen) (nread : Nat) : Echo clilen :=
  if s.nqueue ≥ qSize then { s with loc := .quit }
  else
    let ptr := { s.dg[s.iput] with dgSalen := clilen }
    match s.socket with
    | [] =>
        { s with
          dg := s.dg.set s.iput ptr
          cntread := fun i => if i = nread then s.cntread i + 1 else s.cntread i
          handler := none }
    | d :: rest =>
        { s with
          dg := s.dg.set s.iput (ptr.receive d.packet)
          socket := rest
          received := s.received ++ [d.packet]
          places := s.places ++ [s.iput]
          handler := some (nread + 1)
          nqueue := s.nqueue + 1
          iput := ringNext s.iput }

/-- The next statement of `dg_echo`. The handler does not read `iget`, so `++iget` and its
reset to 0 are one step.
-/
def dgEcho (s : Echo clilen) : Option (Echo clilen) :=
  match s.loc with
  | .top => some { s with loc := if s.nqueue = 0 then .suspended else .unblocked }
  | .suspended => some { s with loc := .top }
  | .unblocked => some { s with loc := .sending }
  | .sending => some { s with loc := .sent, sent := s.sent ++ [s.dg[s.iget].packet] }
  | .sent => some { s with loc := .advanced, iget := ringNext s.iget }
  | .advanced => some { s with loc := .decrementing }
  | .decrementing => some { s with loc := .top, nqueue := s.nqueue - 1 }
  | .quit => none

inductive Event (clilen : Nat)
  /-- A datagram arrives at the socket. -/
  | arrive (d : Datagram clilen)
  /-- `SIGIO` is delivered. -/
  | sigio
  | sigIo
  /-- `recvfrom` fails with another error than `EWOULDBLOCK`. -/
  | recvfromError
  | dgEcho
  /-- `sendto` fails. -/
  | sendtoError

/-- One step of the program or of the network. `sigsuspend` returns after any handler, so it
may return at any time that no handler runs.
-/
def step (s : Echo clilen) : Event clilen → Option (Echo clilen)
  | .arrive d => some { s with socket := s.socket ++ [d] }
  | .sigio =>
      if s.loc.open && s.handler.isNone then some { s with handler := some 0 } else none
  | .sigIo =>
      match s.loc, s.handler with
      | .quit, _ => none
      | _, none => none
      | _, some nread => some (sigIo s nread)
  | .recvfromError =>
      if s.loc ≠ .quit ∧ s.handler.isSome ∧ s.nqueue < qSize then
        some { s with loc := .quit, dg := s.dg.set s.iput { s.dg[s.iput] with dgSalen := clilen } }
      else none
  | .dgEcho => if s.handler.isNone then dgEcho s else none
  | .sendtoError =>
      if s.loc = .sending ∧ s.handler = none then some { s with loc := .quit } else none

/-- The buffers of the datagrams that are received and not yet sent. -/
def unsent (s : Echo clilen) : List (Fin qSize) := s.places.drop s.sent.length

/-- What holds in every state of the server. -/
structure Sound (s : Echo clilen) : Prop where
  echoed : s.sent.IsPrefix s.received
  placed : s.places.length = s.received.length
  sending : s.loc = .sending → (unsent s).head? = some s.iget
  apart : s.loc ≠ .quit → ∀ nread, s.handler = some nread → s.nqueue < qSize
    → s.iput ∉ unsent s ∧ (s.loc = .sending → s.iput ≠ s.iget)
  top : s.loc = .top → 0 ≤ s.nqueue ∧ s.nqueue ≤ qSize
    ∧ (s.iput : Int) = (s.iget + s.nqueue) % qSize
  counted : ∀ nread, s.handler = some nread → nread ≤ qSize

/-- The buffer of the oldest datagram that is not sent: behind `iget` between the send and
`++iget`.
-/
def first (s : Echo clilen) : Fin qSize :=
  if s.loc = .sent then ringNext s.iget else s.iget

/-- How many sent datagrams `nqueue` still counts. -/
def Loc.uncounted : Loc → Nat
  | .sent | .advanced | .decrementing => 1
  | _ => 0

/-- The buffers from `f` on hold the `k` datagrams that are received and not sent. -/
structure Ring (s : Echo clilen) (f : Fin qSize) (k : Nat) : Prop where
  behind : s.iput = ringSkip f k
  received : s.received = s.sent ++ (ringCells s.dg f k).map DG.packet
  places : ∃ older, s.places = older ++ ringPath f k ∧ older.length = s.sent.length

/-- Where the loop and the handler are, beside what the ring holds. -/
structure Running (s : Echo clilen) (k : Nat) : Prop where
  nqueue : s.nqueue = k + s.loc.uncounted
  room : s.nqueue ≤ qSize
  busy : s.loc = .unblocked ∨ s.loc = .sending → 0 < k
  handler : ∀ nread, s.handler = some nread → s.loc.open ∧ nread ≤ k

/-- The invariant. After a quit only the ring matters. -/
inductive Inv (s : Echo clilen) : Prop
  | running {k : Nat} (ring : Ring s (first s) k) (at_ : Running s k)
  | quit {f : Fin qSize} {k : Nat} (at_ : s.loc = .quit) (ring : Ring s f k)
      (counted : ∀ nread, s.handler = some nread → nread ≤ qSize)

variable {s s' : Echo clilen} {event : Event clilen} {f : Fin qSize} {k : Nat}

/-- What was received into a buffer is what is sent from it, whatever it held before. -/
@[simp] theorem receive_packet (ptr : DG) (d : Datagram clilen)
    : (ptr.receive d.packet).packet = d.packet := by
  simp [DG.receive, DG.packet, Datagram.packet]

/-- The unsent datagrams are those of the ring. -/
theorem Ring.unsent_eq (h : Ring s f k)
    : unsent s = ringPath f k := by
  obtain ⟨older, places, count⟩ := h.places
  unfold unsent
  rw [places, ← count]
  exact List.drop_left

-----------------------------------------------------------------------------------------
-- The handler
-----------------------------------------------------------------------------------------

/-- A write to the buffer that `iput` leads to changes no unsent datagram, where the ring has
room.
-/
theorem Ring.set_iput (h : Ring s f k) (room : k < qSize) (ptr : DG)
    : Ring { s with dg := s.dg.set s.iput ptr } f k := by
  have untouched : ringCells (s.dg.set s.iput ptr) f k = ringCells s.dg f k := by
    apply ringCells_set_other
    rw [h.behind]
    exact ringSkip_not_mem_path room
  exact ⟨h.behind, by rw [untouched]; exact h.received, h.places⟩

/-- A datagram received at `iput` follows the unsent ones. -/
theorem Ring.receive (h : Ring s f k) (room : k < qSize) (ptr : DG) (d : Datagram clilen)
    (packet : ptr.packet = d.packet)
    : Ring { s with
        dg := s.dg.set s.iput ptr
        received := s.received ++ [d.packet]
        places := s.places ++ [s.iput]
        iput := ringNext s.iput } f (k + 1) := by
  obtain ⟨older, places, count⟩ := h.places
  refine ⟨?_, ?_, older, ?_, count⟩
  · show ringNext s.iput = ringSkip f (k + 1)
    rw [ringSkip_succ, h.behind]
  · rw [ringCells_push h.behind room, h.received]
    simp [packet]
  · show s.places ++ [s.iput] = older ++ ringPath f (k + 1)
    rw [places, h.behind, ringPath_succ, List.append_assoc]

/-- `nqueue` counts at least the unsent datagrams. -/
theorem Running.lt_of_nqueue (at_ : Running s k) (below : s.nqueue < qSize)
    : k < qSize := by
  have := at_.nqueue
  omega

/-- A handler has received at most what the ring holds. -/
theorem Running.counted (at_ : Running s k)
    : ∀ nread, s.handler = some nread → nread ≤ qSize := by
  intro nread hn
  have := (at_.handler nread hn).2
  have := at_.nqueue
  have := at_.room
  omega

/-- A round of the handler quits, returns, or receives one datagram behind the others. -/
theorem Inv.sigIo (ring : Ring s (first s) k) (at_ : Running s k) {nread : Nat}
    (hn : s.handler = some nread)
    : Inv (sigIo s nread) := by
  obtain ⟨isOpen, counted⟩ := at_.handler nread hn
  unfold SignalEcho.sigIo
  split
  · exact .quit rfl ⟨ring.behind, ring.received, ring.places⟩ at_.counted
  · next below =>
      have room : k < qSize := at_.lt_of_nqueue (by omega)
      dsimp only
      split
      · apply Inv.running (k := k)
        · obtain ⟨behind, received, places⟩ := ring.set_iput room _
          exact ⟨behind, received, places⟩
        · exact ⟨at_.nqueue, at_.room, at_.busy, by simp⟩
      · next d rest _ =>
          apply Inv.running (k := k + 1)
          · obtain ⟨behind, received, places⟩ := ring.receive room _ d (receive_packet _ d)
            exact ⟨behind, received, places⟩
          · have nqueue := at_.nqueue
            refine ⟨?_, ?_, fun _ => by omega, ?_⟩
            · show s.nqueue + 1 = (k + 1 : Nat) + s.loc.uncounted
              omega
            · show s.nqueue + 1 ≤ qSize
              omega
            · intro m hm
              cases hm
              exact ⟨isOpen, by omega⟩

/-- The loop goes on to another place, and the ring stays as it is. -/
theorem Ring.move (ring : Ring s f k) (idle : s.handler = none) {loc : Loc} {iget : Fin qSize}
    {nqueue : Int} (hfirst : f = if loc = .sent then ringNext iget else iget)
    (hqueue : nqueue = k + loc.uncounted) (room : nqueue ≤ qSize)
    (busy : loc = .unblocked ∨ loc = .sending → 0 < k)
    : Inv { s with loc, iget, nqueue } := by
  apply Inv.running (k := k)
  · unfold first
    rw [← hfirst]
    exact ⟨ring.behind, ring.received, ring.places⟩
  · exact ⟨hqueue, room, busy, by simp [idle]⟩

/-- Sending takes the oldest datagram out of the ring, while `nqueue` still counts it. -/
theorem Ring.send (ring : Ring s s.iget (k + 1))
    : Ring { s with sent := s.sent ++ [s.dg[s.iget].packet] } (ringNext s.iget) k := by
  obtain ⟨older, places, count⟩ := ring.places
  refine ⟨ring.behind, ?_, older ++ [s.iget], ?_, by simp [count]⟩
  · rw [ring.received, ringCells_cons]
    simp
  · show s.places = (older ++ [s.iget]) ++ ringPath (ringNext s.iget) k
    rw [places, List.append_assoc]
    rfl

/-- A statement of the loop, with no handler running, by the place of the loop. -/
theorem Inv.dgEcho (ring : Ring s (first s) k) (at_ : Running s k) (idle : s.handler = none)
    (h : dgEcho s = some s')
    : Inv s' := by
  obtain ⟨nqueue, room, busy, -⟩ := at_
  unfold first at ring
  unfold SignalEcho.dgEcho at h
  cases here : s.loc <;> simp only [here, reduceCtorEq, if_false, if_true] at * <;> cases h
  case top =>
    by_cases empty : s.nqueue = 0
    · rw [if_pos empty]
      exact ring.move idle (by simp) nqueue room (by simp)
    · rw [if_neg empty]
      have : 0 < k := by
        simp only [Loc.uncounted] at nqueue
        omega
      exact ring.move idle (by simp) nqueue room (fun _ => this)
  case suspended => exact ring.move idle (by simp) nqueue room (by simp)
  case unblocked => exact ring.move idle (by simp) nqueue room (fun _ => busy (by simp))
  case sending =>
    cases k with
    | zero => simp at busy
    | succ k =>
        apply ring.send.move idle (by simp) _ room (by simp)
        simp only [Loc.uncounted] at *
        omega
  case sent => exact ring.move idle (by simp) nqueue room (by simp)
  case advanced => exact ring.move idle (by simp) nqueue room (by simp)
  case decrementing =>
    simp only [Loc.uncounted] at nqueue
    exact ring.move idle (by simp) (by simp [Loc.uncounted]; omega) (by omega) (by simp)

-----------------------------------------------------------------------------------------
-- Every run
-----------------------------------------------------------------------------------------

/-- The invariant holds at the start. -/
theorem start_inv (dg : Vector DG qSize) : Inv (start clilen dg) := by
  apply Inv.running (k := 0)
  · exact ⟨rfl, rfl, [], rfl, rfl⟩
  · constructor <;> simp [start, Loc.uncounted]

/-- Every step keeps the invariant, by the kind of event. -/
theorem step_inv (h : step s event = some s') (inv : Inv s)
    : Inv s' := by
  cases inv with
  | quit at_ ring counted =>
      cases event <;> simp [step, at_, Loc.open, SignalEcho.dgEcho] at h
      subst h
      exact .quit rfl ⟨ring.behind, ring.received, ring.places⟩ counted
  | running ring at_ =>
      cases event with
      | arrive d =>
          cases h
          exact .running ⟨ring.behind, ring.received, ring.places⟩
            ⟨at_.nqueue, at_.room, at_.busy, at_.handler⟩
      | sigio =>
          simp only [step] at h
          split at h <;> cases h
          next isOpen =>
            refine .running ⟨ring.behind, ring.received, ring.places⟩
              ⟨at_.nqueue, at_.room, at_.busy, ?_⟩
            intro nread hn
            cases hn
            simp_all
      | sigIo =>
          simp only [step] at h
          split at h <;> cases h
          next nread hn _ => exact Inv.sigIo ring at_ hn
      | recvfromError =>
          simp only [step] at h
          split at h <;> cases h
          next enabled =>
            obtain ⟨behind, received, places⟩ :=
              ring.set_iput (at_.lt_of_nqueue enabled.2.2) _
            exact .quit rfl ⟨behind, received, places⟩ at_.counted
      | dgEcho =>
          simp only [step] at h
          split at h
          · next idle => exact Inv.dgEcho ring at_ (Option.isNone_iff_eq_none.mp idle) h
          · cases h
      | sendtoError =>
          simp only [step] at h
          split at h <;> cases h
          exact .quit rfl ⟨ring.behind, ring.received, ring.places⟩ at_.counted

/-- The ring holds what was received behind what was sent. -/
theorem Ring.echoed (ring : Ring s f k)
    : s.sent.IsPrefix s.received ∧ s.places.length = s.received.length := by
  obtain ⟨older, places, count⟩ := ring.places
  constructor
  · rw [ring.received]
    exact List.prefix_append _ _
  · rw [ring.received, places]
    simp [count]

/-- The invariant implies soundness. -/
theorem Inv.sound (inv : Inv s)
    : Sound s := by
  cases inv with
  | quit at_ ring counted =>
      obtain ⟨echoed, placed⟩ := ring.echoed
      constructor <;> simp_all
  | @running k ring at_ =>
      obtain ⟨echoed, placed⟩ := ring.echoed
      have nqueue := at_.nqueue
      constructor
      case echoed => exact echoed
      case placed => exact placed
      case sending =>
        intro here
        have positive := at_.busy (.inr here)
        rw [ring.unsent_eq]
        cases k with
        | zero => omega
        | succ k => simp [ringPath, first, here]
      case apart =>
        intro running nread hn below
        have room := at_.lt_of_nqueue below
        have off : s.iput ∉ ringPath (first s) k := by
          rw [ring.behind]
          exact ringSkip_not_mem_path room
        refine ⟨by rw [ring.unsent_eq]; exact off, ?_⟩
        intro here met
        have positive := at_.busy (.inr here)
        apply off
        rw [mem_ringPath]
        exact ⟨0, positive, by simp [ringSkip, first, here, met]⟩
      case top =>
        intro here
        have behind := congrArg Fin.val ring.behind
        rw [ringSkip_val] at behind
        simp only [here, Loc.uncounted] at nqueue
        simp only [first, here, reduceCtorEq, if_false] at behind
        have room := at_.room
        refine ⟨by omega, room, ?_⟩
        rw [behind, nqueue]
        simp
      case counted => exact at_.counted

/-- Along every run the datagrams sent back are the first ones that the handler received, as
they arrived; the handler writes to no buffer that is being sent or waits to be sent; and the
three queue variables agree at the top of the loop. Witness: induction over the run.
-/
theorem reachable_echo_sound {dg : Vector DG qSize} (h : Reachable step (start clilen dg) s)
    : Sound s :=
  (h.invariant (start_inv dg) step_inv).sound

/-- The second datagram interrupts the sending of the first. -/
def interrupted : List (Event 2) :=
  [.dgEcho, .arrive ⟨[1, 2], [10], by decide⟩, .sigio, .sigIo, .sigIo, .dgEcho, .dgEcho,
    .dgEcho, .arrive ⟨[3], [20, 21], by decide⟩, .sigio, .sigIo]

/-- A run in which the signal interrupts the sender. -/
theorem reachable_echo_sound_interrupted
    : ∃ s, runEvents step (start 2 (.replicate qSize ⟨[], 0, [], 2⟩)) interrupted = some s
      ∧ s.loc = .sending ∧ s.handler = some 1 ∧ s.nqueue = 2 ∧ Sound s := by
  have happens : (runEvents step (start 2 (.replicate qSize ⟨[], 0, [], 2⟩))
      interrupted).isSome := by
    decide
  exact ⟨_, (Option.some_get happens).symm, rfl, rfl, rfl,
    reachable_echo_sound (.of_isSome happens)⟩

end Minions.Unp.SignalEcho
