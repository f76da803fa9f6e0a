import Mathlib.Algebra.Group.Nat.Defs
import Minions.Logic.Events

/-! The datagram client that retransmits, against the echo server: `dg_send_recv.c` and
`dg_echo.c`. The network keeps every datagram that was ever sent, and delivers any of them at
any time, any number of times or never: it loses, duplicates, delays and reorders, and it
neither forges nor alters. The `rtt_` functions are given by what they yield: a timestamp, and
whether a timeout is the last one.
-/

namespace Minions.Unp.ReliableEcho

open Minions.Logic

def maxLine : Nat := 4096

/-- `struct hdr`. -/
structure Hdr where
  seq : UInt32
  ts : UInt32
  deriving DecidableEq

def sizeofHdr : Nat := 8

/-- The bytes of a word in memory, the lowest first. Only the client reads them as a word, so
another byte order would do as well.
-/
def wordBytes (w : UInt32) : List UInt8 :=
  [.ofNat w.toNat, .ofNat (w.toNat / 2 ^ 8), .ofNat (w.toNat / 2 ^ 16), .ofNat (w.toNat / 2 ^ 24)]

/-- The word that four bytes in memory are. -/
def wordOf (bytes : List UInt8) : UInt32 :=
  .ofNat (bytes.foldr (fun byte rest => byte.toNat + 2 ^ 8 * rest) 0)

def Hdr.bytes (h : Hdr) : List UInt8 := wordBytes h.seq ++ wordBytes h.ts

/-- A header whose memory holds the bytes. -/
def Hdr.ofBytes (bytes : List UInt8) : Hdr where
  seq := wordOf (bytes.take 4)
  ts := wordOf (bytes.drop 4)

/-- A buffer after bytes were stored at its start. -/
def store (buff block : List UInt8) : List UInt8 := block ++ buff.drop block.length

/-- A datagram that the client has sent, with the number of the call that sent it. -/
structure Transmission where
  call : Nat
  hdr : Hdr
  payload : List UInt8
  deriving DecidableEq

/-- What `Sendmsg` gathers from the header and the buffer of the caller. -/
def Transmission.bytes (t : Transmission) : List UInt8 := t.hdr.bytes ++ t.payload

/-- A datagram of the server, with the index of the transmission that it answers. -/
structure Echo where
  data : List UInt8
  origin : Nat

/-- Where `dg_send_recv` is: before `sendagain`, in the loop before `Recvmsg` or before its
condition, or before `alarm(0)`.
-/
inductive Loc
  | idle
  | sending
  | waiting
  | received (n : Nat)
  | stopping (n : Nat)
  | exited
  deriving DecidableEq

/-- Where `dg_echo` is, with the number of bytes in `mesg` and the transmission they answer. -/
inductive ServerLoc
  | receiving
  | answering (n origin : Nat)
  | exited
  deriving DecidableEq

/-- What a successful call gives to `rtt_stop`, and the `recvhdr.ts` in it, with the
transmission whose echo was received.
-/
structure Stop where
  rtt : UInt32
  ts : UInt32
  origin : Nat
  deriving DecidableEq

/-- A call that has returned. -/
structure Return where
  call : Nat
  outbuff : List UInt8
  inbuff : List UInt8
  n : Int
  stop : Option Stop
  deriving DecidableEq

/-- The buffers of a call. -/
structure Args where
  outbuff : List UInt8
  inbuff : List UInt8
  fits : outbuff.length + sizeofHdr ≤ maxLine
  room : outbuff.length ≤ inbuff.length

/-- The client's variables and the buffers of its call, the server's, the network, and what has
happened so far.
-/
structure System where
  sendhdr : Hdr
  recvhdr : Hdr
  outbuff : List UInt8
  inbuff : List UInt8
  loc : Loc
  mesg : List UInt8
  server : ServerLoc
  /-- All datagrams to the server. -/
  transmissions : List Transmission
  /-- All datagrams to the client. -/
  echoes : List Echo
  /-- The number of calls made. -/
  calls : Nat
  /-- The transmission whose echo `Recvmsg` has received last. -/
  origin : Nat
  returns : List Return

/-- Static variables are zero at first; `mesg` holds what the stack held. -/
def start (mesg : Vector UInt8 maxLine) : System where
  sendhdr := ⟨0, 0⟩
  recvhdr := ⟨0, 0⟩
  outbuff := []
  inbuff := []
  loc := .idle
  mesg := mesg.toList
  server := .receiving
  transmissions := []
  echoes := []
  calls := 0
  origin := 0
  returns := []

/-- A call is entered: `sendhdr.seq++`, and the buffers are the caller's. -/
def callDgSendRecv (s : System) (args : Args) : System :=
  { s with
    sendhdr := { s.sendhdr with seq := s.sendhdr.seq + 1 }
    outbuff := args.outbuff
    inbuff := args.inbuff
    loc := .sending
    calls := s.calls + 1 }

/-- `sendagain`: a new timestamp, and `Sendmsg`. -/
def sendagain (s : System) (ts : UInt32) : System :=
  let sendhdr := { s.sendhdr with ts }
  { s with
    sendhdr
    loc := .waiting
    transmissions := s.transmissions ++ [⟨s.calls, sendhdr, s.outbuff⟩] }

/-- `Recvmsg` scatters a datagram over `recvhdr` and `inbuff`. What does not fit is lost. -/
def recvmsg (s : System) (d : Echo) : System :=
  let block := (d.data.drop sizeofHdr).take s.inbuff.length
  { s with
    recvhdr := .ofBytes (store s.recvhdr.bytes (d.data.take sizeofHdr))
    inbuff := store s.inbuff block
    loc := .received ((d.data.take sizeofHdr).length + block.length)
    origin := d.origin }

/-- The condition of the loop. -/
def recheck (s : System) (n : Nat) : System :=
  if n < sizeofHdr ∨ s.recvhdr.seq ≠ s.sendhdr.seq then { s with loc := .waiting }
  else { s with loc := .stopping n }

/-- `alarm(0)`, `rtt_stop` and the return, where `rtt_ts` yields `now`. -/
def rttStop (s : System) (n : Nat) (now : UInt32) : System :=
  { s with
    loc := .idle
    returns := s.returns ++ [{
      call := s.calls
      outbuff := s.outbuff
      inbuff := s.inbuff
      n := n - sizeofHdr
      stop := some ⟨now - s.recvhdr.ts, s.recvhdr.ts, s.origin⟩ }] }

/-- `SIGALRM`, and the return of `sigsetjmp` in its handler's place. -/
def sigAlrm (s : System) (givingUp : Bool) : System :=
  if givingUp then
    { s with
      loc := .idle
      returns := s.returns ++ [⟨s.calls, s.outbuff, s.inbuff, -1, none⟩] }
  else { s with loc := .sending }

/-- `SIGALRM` can strike: between `sigsetjmp` and `alarm(0)`. -/
def Loc.armed : Loc → Bool
  | .waiting | .received _ | .stopping _ => true
  | .idle | .sending | .exited => false

/-- `Recvfrom` of the server. -/
def recvfrom (s : System) (origin : Nat) (data : List UInt8) : System :=
  let block := data.take maxLine
  { s with mesg := store s.mesg block, server := .answering block.length origin }

/-- `Sendto` of the server. -/
def sendto (s : System) (n origin : Nat) : System :=
  { s with server := .receiving, echoes := s.echoes ++ [⟨s.mesg.take n, origin⟩] }

inductive Event
  | call (args : Args)
  | sendagain (ts : UInt32)
  /-- The network delivers a datagram of the server. -/
  | recvmsg (index : Nat)
  | recheck
  | rttStop (now : UInt32)
  | sigAlrm (givingUp : Bool)
  /-- `Sendmsg` or `Recvmsg` fails. -/
  | clientError
  /-- The network delivers a transmission. -/
  | recvfrom (index : Nat)
  | sendto
  /-- `Recvfrom` or `Sendto` fails. -/
  | serverError

/-- One step of the client, of the server, or of the network. -/
def step (s : System) : Event → Option System
  | .call args => if s.loc = .idle then some (callDgSendRecv s args) else none
  | .sendagain ts => if s.loc = .sending then some (sendagain s ts) else none
  | .recvmsg index => if s.loc = .waiting then s.echoes[index]?.map (recvmsg s) else none
  | .recheck =>
      match s.loc with
      | .received n => some (recheck s n)
      | _ => none
  | .rttStop now =>
      match s.loc with
      | .stopping n => some (rttStop s n now)
      | _ => none
  | .sigAlrm givingUp => if s.loc.armed then some (sigAlrm s givingUp) else none
  | .clientError =>
      if s.loc = .sending ∨ s.loc = .waiting then some { s with loc := .exited } else none
  | .recvfrom index =>
      if s.server = .receiving then
        s.transmissions[index]?.map fun t => recvfrom s index t.bytes
      else none
  | .sendto =>
      match s.server with
      | .answering n origin => some (sendto s n origin)
      | _ => none
  | .serverError => if s.server = .exited then none else some { s with server := .exited }

/-- A call that returned a size returned its own payload, and gave `rtt_stop` the timestamp of
the transmission whose echo it received.
-/
def Right (transmissions : List Transmission) (r : Return) : Prop :=
  0 ≤ r.n →
    r.n = r.outbuff.length ∧ r.inbuff.take r.n.toNat = r.outbuff
    ∧ ∃ stop t, r.stop = some stop ∧ transmissions[stop.origin]? = some t
      ∧ t.call = r.call ∧ t.hdr.ts = stop.ts

/-- A transmission of some call so far; of this call, with its payload. -/
structure Sent (s : System) (t : Transmission) : Prop where
  seq : t.hdr.seq = .ofNat t.call
  call : t.call ≤ s.calls
  fits : t.payload.length + sizeofHdr ≤ maxLine
  current : t.call = s.calls → t.payload = s.outbuff

/-- What `Recvmsg` has left in the header and the buffer, with its return value. -/
def Holds (s : System) (n : Nat) : Prop :=
  ∃ t, s.transmissions[s.origin]? = some t ∧ s.recvhdr = t.hdr
    ∧ n = sizeofHdr + min t.payload.length s.inbuff.length
    ∧ s.inbuff.take (n - sizeofHdr) = t.payload.take s.inbuff.length

/-- What the place of the client says of its buffers. -/
def AtLoc (s : System) : Prop :=
  match s.loc with
  | .received n => Holds s n
  | .stopping n => Holds s n ∧ s.recvhdr.seq = s.sendhdr.seq
  | _ => True

/-- What the place of the server says of its buffer. -/
def AtServer (s : System) : Prop :=
  match s.server with
  | .answering n origin => ∃ t, s.transmissions[origin]? = some t ∧ s.mesg.take n = t.bytes
  | _ => True

structure Inv (s : System) : Prop where
  seq : s.sendhdr.seq = .ofNat s.calls
  fits : s.outbuff.length + sizeofHdr ≤ maxLine
  room : s.outbuff.length ≤ s.inbuff.length
  sent : ∀ t ∈ s.transmissions, Sent s t
  echoed : ∀ d ∈ s.echoes, ∃ t, s.transmissions[d.origin]? = some t ∧ d.data = t.bytes
  atLoc : AtLoc s
  atServer : AtServer s
  returned : s.calls < 2 ^ 32 → ∀ r ∈ s.returns, Right s.transmissions r

variable {s s' : System} {event : Event} {t : Transmission} {n : Nat}

/-- The invariant holds at the start. -/
theorem start_inv (mesg : Vector UInt8 maxLine)
    : Inv (start mesg) := by
  constructor <;> simp [start, sizeofHdr, maxLine, AtLoc, AtServer]

/-- A word is what its bytes are. -/
theorem wordOf_wordBytes (w : UInt32)
    : wordOf (wordBytes w) = w := by
  apply UInt32.toNat_inj.mp
  have bound := w.toNat_lt
  simp only [wordOf, wordBytes, List.foldr_cons, List.foldr_nil, UInt8.toNat_ofNat',
    UInt32.toNat_ofNat']
  omega

@[simp] theorem length_wordBytes (w : UInt32) : (wordBytes w).length = 4 := rfl

@[simp] theorem length_hdrBytes (h : Hdr) : h.bytes.length = sizeofHdr := rfl

/-- A header is what its bytes are. -/
@[simp] theorem ofBytes_bytes (h : Hdr)
    : Hdr.ofBytes h.bytes = h := by
  have front : h.bytes.take 4 = wordBytes h.seq := rfl
  have back : h.bytes.drop 4 = wordBytes h.ts := rfl
  rw [Hdr.ofBytes, front, back, wordOf_wordBytes, wordOf_wordBytes]

/-- What is stored is at the front. -/
@[simp] theorem take_store (buff block : List UInt8)
    : (store buff block).take block.length = block :=
  List.take_left

/-- A stored header replaces the header. -/
@[simp] theorem store_hdr (h h' : Hdr)
    : store h.bytes h'.bytes = h'.bytes := by
  simp [store]

/-- A block that fits leaves the length of the buffer. -/
theorem length_store {buff block : List UInt8} (inside : block.length ≤ buff.length)
    : (store buff block).length = buff.length := by
  simp only [store, List.length_append, List.length_drop]
  omega

/-- The header comes first. -/
theorem take_bytes (t : Transmission)
    : t.bytes.take sizeofHdr = t.hdr.bytes :=
  rfl

/-- The data comes behind the header. -/
theorem drop_bytes (t : Transmission)
    : t.bytes.drop sizeofHdr = t.payload :=
  rfl

-----------------------------------------------------------------------------------------
-- The client
-----------------------------------------------------------------------------------------

/-- An entry stays when something is appended. -/
theorem getElem?_append_of_eq_some {α : Type} {list : List α} {k : Nat} {x : α}
    (h : list[k]? = some x) (rest : List α)
    : (list ++ rest)[k]? = some x := by
  rw [List.getElem?_append_left (List.getElem?_eq_some_iff.mp h).1]
  exact h

/-- A further transmission leaves the return as right as it was. -/
theorem Right.append {transmissions : List Transmission} {r : Return}
    (right : Right transmissions r) (rest : List Transmission)
    : Right (transmissions ++ rest) r := by
  intro positive
  obtain ⟨size, payload, stop, t, hstop, ht, call, ts⟩ := right positive
  exact ⟨size, payload, stop, t, hstop, getElem?_append_of_eq_some ht rest, call, ts⟩

/-- The new call has sent nothing yet. -/
theorem Inv.call (inv : Inv s) (args : Args)
    : Inv (callDgSendRecv s args) := by
  obtain ⟨seq, fits, room, sent, echoed, atLoc, atServer, returned⟩ := inv
  constructor
  case seq =>
    show s.sendhdr.seq + 1 = .ofNat (s.calls + 1)
    rw [seq, UInt32.ofNat_add]
    rfl
  case fits => exact args.fits
  case room => exact args.room
  case sent =>
    intro t ht
    obtain ⟨tseq, tcall, tfits, -⟩ := sent t ht
    refine ⟨tseq, Nat.le_succ_of_le tcall, tfits, ?_⟩
    intro met
    have : t.call = s.calls + 1 := met
    omega
  case echoed => exact echoed
  case atLoc => trivial
  case atServer => exact atServer
  case returned =>
    intro few
    exact returned (Nat.lt_of_succ_lt few)

/-- The server's place does not depend on what the client sends after. -/
theorem AtServer.append (atServer : AtServer s) {s' : System} {rest : List Transmission}
    (mesg : s'.mesg = s.mesg) (server : s'.server = s.server)
    (more : s'.transmissions = s.transmissions ++ rest)
    : AtServer s' := by
  unfold AtServer at *
  rw [server]
  split
  · next n origin here =>
      rw [here] at atServer
      obtain ⟨t, ht, bytes⟩ := atServer
      rw [mesg, more]
      exact ⟨t, getElem?_append_of_eq_some ht rest, bytes⟩
  · trivial

/-- A transmission carries the payload and the number of its call. -/
theorem Inv.sendagain (inv : Inv s) (ts : UInt32)
    : Inv (sendagain s ts) := by
  constructor
  case seq => exact inv.seq
  case fits => exact inv.fits
  case room => exact inv.room
  case sent =>
    intro t ht
    rcases List.mem_append.mp ht with old | new
    · obtain ⟨seq, call, fits, current⟩ := inv.sent t old
      exact ⟨seq, call, fits, current⟩
    · cases List.mem_singleton.mp new
      exact ⟨inv.seq, Nat.le_refl _, inv.fits, fun _ => rfl⟩
  case echoed =>
    intro d hd
    obtain ⟨t, ht, data⟩ := inv.echoed d hd
    exact ⟨t, getElem?_append_of_eq_some ht _, data⟩
  case atLoc => trivial
  case atServer => exact inv.atServer.append rfl rfl rfl
  case returned =>
    intro few r hr
    exact (inv.returned few r hr).append _

/-- A step of the client that sends nothing and leaves the call as it is. -/
theorem Inv.move (inv : Inv s) {recvhdr : Hdr} {inbuff : List UInt8} {loc : Loc} {origin : Nat}
    (size : inbuff.length = s.inbuff.length)
    (atLoc : AtLoc { s with recvhdr, inbuff, loc, origin })
    : Inv { s with recvhdr, inbuff, loc, origin } := by
  obtain ⟨seq, fits, room, sent, echoed, -, atServer, returned⟩ := inv
  constructor
  case room =>
    show s.outbuff.length ≤ inbuff.length
    omega
  case sent =>
    intro t ht
    obtain ⟨tseq, tcall, tfits, current⟩ := sent t ht
    exact ⟨tseq, tcall, tfits, current⟩
  all_goals assumption

/-- Every echo fills the header, and the buffer as far as it is long, whatever they held. -/
theorem Inv.recvmsg (inv : Inv s) {d : Echo} (delivered : d ∈ s.echoes)
    : Inv (recvmsg s d) := by
  obtain ⟨t, ht, data⟩ := inv.echoed d delivered
  have size : (store s.inbuff (t.payload.take s.inbuff.length)).length = s.inbuff.length := by
    apply length_store
    rw [List.length_take]
    omega
  unfold ReliableEcho.recvmsg
  simp only [data, take_bytes, drop_bytes, store_hdr, ofBytes_bytes, length_hdrBytes]
  apply inv.move size
  refine ⟨t, ht, rfl, ?_, ?_⟩
  · rw [size, List.length_take, Nat.min_comm]
  · rw [size, Nat.add_sub_cancel_left, take_store]

/-- The loop ends only with the sequence number of the call. -/
theorem Inv.recheck (inv : Inv s) (here : s.loc = .received n)
    : Inv (recheck s n) := by
  have holds : Holds s n := by
    have := inv.atLoc
    rwa [AtLoc, here] at this
  unfold ReliableEcho.recheck
  split
  · exact inv.move rfl trivial
  · next matched =>
      apply inv.move rfl
      exact ⟨holds, by simp_all⟩

/-- Fewer than `2 ^ 32` calls have different sequence numbers. -/
theorem Sent.of_seq (sent : Sent s t) (seq : s.sendhdr.seq = .ofNat s.calls)
    (few : s.calls < 2 ^ 32) (same : t.hdr.seq = s.sendhdr.seq)
    : t.call = s.calls := by
  have call := sent.call
  rw [sent.seq, seq] at same
  have := congrArg UInt32.toNat same
  rw [UInt32.toNat_ofNat', UInt32.toNat_ofNat', Nat.mod_eq_of_lt few,
    Nat.mod_eq_of_lt (by omega)] at this
  exact this

/-- An accepted echo is one of this call's own transmissions. -/
theorem Holds.right (holds : Holds s n) (inv : Inv s) (few : s.calls < 2 ^ 32)
    (same : s.recvhdr.seq = s.sendhdr.seq) (now : UInt32)
    : Right s.transmissions {
        call := s.calls
        outbuff := s.outbuff
        inbuff := s.inbuff
        n := n - sizeofHdr
        stop := some ⟨now - s.recvhdr.ts, s.recvhdr.ts, s.origin⟩ } := by
  obtain ⟨t, ht, hdr, size, block⟩ := holds
  have sent := inv.sent t (List.mem_of_getElem? ht)
  have call : t.call = s.calls := sent.of_seq inv.seq few (hdr ▸ same)
  have payload : t.payload = s.outbuff := sent.current call
  have room := inv.room
  intro _
  refine ⟨?_, ?_, _, t, rfl, ht, call, by rw [hdr]⟩
  · show (n : Int) - sizeofHdr = s.outbuff.length
    rw [payload] at size
    omega
  · show s.inbuff.take ((n : Int) - sizeofHdr).toNat = s.outbuff
    have : ((n : Int) - sizeofHdr).toNat = n - sizeofHdr := by omega
    rw [this, block, payload, List.take_of_length_le room]

/-- A call returns and leaves everything else as it is. -/
theorem Inv.return (inv : Inv s) {r : Return}
    (right : s.calls < 2 ^ 32 → Right s.transmissions r)
    : Inv { s with loc := .idle, returns := s.returns ++ [r] } := by
  obtain ⟨seq, fits, room, sent, echoed, -, atServer, returned⟩ := inv
  constructor
  case sent =>
    intro t ht
    obtain ⟨tseq, tcall, tfits, current⟩ := sent t ht
    exact ⟨tseq, tcall, tfits, current⟩
  case atLoc => trivial
  case returned =>
    intro few r' hr
    rcases List.mem_append.mp hr with old | new
    · exact returned few r' old
    · cases List.mem_singleton.mp new
      exact right few
  all_goals assumption

/-- Stopping the timer keeps the invariant. -/
theorem Inv.rttStop (inv : Inv s) (here : s.loc = .stopping n) (now : UInt32)
    : Inv (rttStop s n now) := by
  have atLoc := inv.atLoc
  rw [AtLoc, here] at atLoc
  obtain ⟨holds, same⟩ := atLoc
  apply inv.return
  intro few
  exact holds.right inv few same now

/-- A timeout forgets what was received. -/
theorem Inv.sigAlrm (inv : Inv s) (givingUp : Bool)
    : Inv (sigAlrm s givingUp) := by
  unfold ReliableEcho.sigAlrm
  split
  · apply inv.return
    intro _ positive
    have : (0 : Int) ≤ -1 := positive
    omega
  · exact inv.move rfl trivial

/-- A step of the server, which sends nothing but echoes. -/
theorem Inv.serve (inv : Inv s) {mesg : List UInt8} {server : ServerLoc} {echoes : List Echo}
    (echoed : ∀ d ∈ echoes, ∃ t, s.transmissions[d.origin]? = some t ∧ d.data = t.bytes)
    (atServer : AtServer { s with mesg, server, echoes })
    : Inv { s with mesg, server, echoes } := by
  obtain ⟨seq, fits, room, sent, -, atLoc, -, returned⟩ := inv
  constructor
  case sent =>
    intro t ht
    obtain ⟨tseq, tcall, tfits, current⟩ := sent t ht
    exact ⟨tseq, tcall, tfits, current⟩
  all_goals assumption

/-- Every transmission fits into `mesg`. -/
theorem Inv.recvfrom (inv : Inv s) {index : Nat} (ht : s.transmissions[index]? = some t)
    : Inv (recvfrom s index t.bytes) := by
  have fits := (inv.sent t (List.mem_of_getElem? ht)).fits
  have whole : t.bytes.take maxLine = t.bytes := by
    apply List.take_of_length_le
    rw [Transmission.bytes, List.length_append, length_hdrBytes]
    omega
  unfold ReliableEcho.recvfrom
  rw [whole]
  apply inv.serve inv.echoed
  exact ⟨t, ht, take_store _ _⟩

/-- The server answers with what it received. -/
theorem Inv.sendto (inv : Inv s) {origin : Nat} (here : s.server = .answering n origin)
    : Inv (sendto s n origin) := by
  have atServer := inv.atServer
  rw [AtServer, here] at atServer
  apply inv.serve
  · intro d hd
    rcases List.mem_append.mp hd with old | new
    · exact inv.echoed d old
    · cases List.mem_singleton.mp new
      exact atServer
  · trivial

-----------------------------------------------------------------------------------------
-- Every run
-----------------------------------------------------------------------------------------

/-- Every step keeps the invariant, by the kind of event. -/
theorem step_inv (h : step s event = some s') (inv : Inv s)
    : Inv s' := by
  cases event <;> simp only [step] at h
  case call args =>
    split at h <;> cases h
    exact inv.call args
  case sendagain ts =>
    split at h <;> cases h
    exact inv.sendagain ts
  case recvmsg index =>
    split at h
    · obtain ⟨d, delivered, rfl⟩ := Option.map_eq_some_iff.mp h
      exact inv.recvmsg (List.mem_of_getElem? delivered)
    · cases h
  case recheck =>
    split at h <;> cases h
    next n here => exact inv.recheck here
  case rttStop now =>
    split at h <;> cases h
    next n here => exact inv.rttStop here now
  case sigAlrm givingUp =>
    split at h <;> cases h
    exact inv.sigAlrm givingUp
  case clientError =>
    split at h <;> cases h
    exact inv.move rfl trivial
  case recvfrom index =>
    split at h
    · obtain ⟨t, ht, rfl⟩ := Option.map_eq_some_iff.mp h
      exact inv.recvfrom ht
    · cases h
  case sendto =>
    split at h <;> cases h
    next n origin here => exact inv.sendto here
  case serverError =>
    split at h <;> cases h
    exact inv.serve inv.echoed trivial

/-- Along every run with fewer than `2 ^ 32` calls, a call that returns a size returns the size
of its own payload with that payload in its buffer, whatever replies arrived during it, and
gives `rtt_stop` the timestamp of the transmission whose echo it received. Witness: induction
over the run.
-/
theorem reachable_replies_right {mesg : Vector UInt8 maxLine}
    (h : Reachable step (start mesg) s) (few : s.calls < 2 ^ 32)
    : ∀ r ∈ s.returns, Right s.transmissions r :=
  (h.invariant (start_inv mesg) step_inv).returned few

/-- The first call retransmits and returns; during the second, a late reply to the first
arrives before its own.
-/
def staleReply : List Event :=
  [.call ⟨[7, 8], [0, 0, 0], by decide, by decide⟩, .sendagain 100, .recvfrom 0, .sendto,
    .sigAlrm false, .sendagain 105, .recvfrom 1, .sendto, .recvmsg 1, .recheck, .rttStop 110,
    .call ⟨[9], [1], by decide, by decide⟩, .sendagain 120, .recvmsg 0, .recheck, .recvfrom 2,
    .sendto, .recvmsg 2, .recheck, .rttStop 130]

/-- A run in which an old reply comes late. -/
theorem reachable_replies_right_staleReply
    : ∃ s, runEvents step (start (.replicate maxLine 0)) staleReply = some s
      ∧ s.calls = 2
      ∧ s.returns.map Return.inbuff = [[7, 8, 0], [9]]
      ∧ s.returns.map Return.stop = [some ⟨5, 105, 1⟩, some ⟨10, 120, 2⟩]
      ∧ ∀ r ∈ s.returns, Right s.transmissions r := by
  have happens : (runEvents step (start (.replicate maxLine 0)) staleReply).isSome := by
    decide
  exact ⟨_, (Option.some_get happens).symm, rfl, rfl, rfl,
    reachable_replies_right (.of_isSome happens) (show 2 < 2 ^ 32 by decide)⟩

end Minions.Unp.ReliableEcho
