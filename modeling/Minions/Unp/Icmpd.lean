import Mathlib.Data.List.FinRange
import Mathlib.Logic.Function.Basic
import Minions.Logic.Events

/-! The daemon `icmpd`.
A client connects over a Unix domain socket and passes the descriptor of a UDP socket; the
daemon notes the socket's family and port in the client's entry of `client` and writes to the
client every ICMP error about a datagram sent from that port.
-/

namespace Minions.Unp.Icmpd

open Minions.Logic

-----------------------------------------------------------------------------------------
-- The table of clients
-----------------------------------------------------------------------------------------

def fdSetSize : Nat := 1024

def afInet : Int := 2

def afInet6 : Int := 10

/-- `struct client`. The entry is available where `connfd` is -1; a port is kept as it is in
the network's byte order.
-/
structure Client where
  connfd : Int
  family : Int
  lport : Int
  deriving DecidableEq

/-- The globals that the handlers share. -/
structure Daemon where
  client : Fin fdSetSize → Client
  maxi : Int

/-- `main` before its loop. The table is in static storage. -/
def start : Daemon where
  client := fun _ => { connfd := -1, family := 0, lport := 0 }
  maxi := -1

def Daemon.set (d : Daemon) (i : Fin fdSetSize) (c : Client) : Daemon :=
  { d with client := Function.update d.client i c }

/-- Setting a client leaves the largest index alone. -/
@[simp]
theorem Daemon.set_maxi (d : Daemon) (i : Fin fdSetSize) (c : Client)
    : (d.set i c).maxi = d.maxi :=
  rfl

/-- The client that has been set. -/
@[simp]
theorem Daemon.set_same (d : Daemon) (i : Fin fdSetSize) (c : Client)
    : (d.set i c).client i = c :=
  Function.update_self ..

/-- The other clients. -/
theorem Daemon.set_other {i j : Fin fdSetSize} (other : j ≠ i) (d : Daemon) (c : Client)
    : (d.set i c).client j = d.client j :=
  Function.update_of_ne other ..

/-- The later of two settings stays. -/
@[simp]
theorem Daemon.set_set (d : Daemon) (i : Fin fdSetSize) (c c' : Client)
    : (d.set i c).set i c' = d.set i c' := by
  simp [Daemon.set]

/-- `readable_listen`: the first available entry takes the descriptor. With none available
the connection is closed, and the answer is `false`.
-/
def readableListen (d : Daemon) (connfd : Int) : Daemon × Bool :=
  match (List.finRange fdSetSize).find? fun i => (d.client i).connfd < 0 with
  | none => (d, false)
  | some i =>
      ({ d.set i { d.client i with connfd } with
          maxi := if (i : Int) > d.maxi then i else d.maxi },
        true)

/-- What the calls of `readable_conn` return: `Read_fd`, then `getsockname` on the passed
descriptor, `sock_get_port`, and `sock_bind_wild` where the socket has no port yet.
-/
inductive Received
  | terminated
  | noDescriptor
  | noName
  | socket (family lport wild : Int)
  deriving DecidableEq

/-- What `readable_conn` writes to the client. The connection is closed but for `ok`. -/
inductive Reply
  | ok
  | error
  | nothing
  deriving DecidableEq

/-- `clientdone`: the entry becomes available, and only its descriptor is overwritten. -/
def clientdone (d : Daemon) (i : Fin fdSetSize) : Daemon :=
  d.set i { d.client i with connfd := -1 }

def readableConn (d : Daemon) (i : Fin fdSetSize) : Received → Daemon × Reply
  | .terminated => (clientdone d i, .nothing)
  | .noDescriptor => (clientdone d i, .error)
  | .noName => (clientdone d i, .error)
  | .socket family lport wild =>
      let d := d.set i { d.client i with family, lport }
      if lport = 0 then
        let d := d.set i { d.client i with lport := wild }
        if wild ≤ 0 then (clientdone d i, .error) else (d, .ok)
      else (d, .ok)

-----------------------------------------------------------------------------------------
-- ICMP messages
-----------------------------------------------------------------------------------------

inductive Errno
  | ehostunreach
  | emsgsize
  | econnrefused
  deriving DecidableEq

structure SockAddr where
  family : Int
  port : Int
  addr : List UInt8
  deriving DecidableEq

/-- `struct icmpd_err` -/
structure IcmpdErr where
  errno : Errno
  type : UInt8
  code : UInt8
  len : Nat
  dest : SockAddr
  deriving DecidableEq

/-- The buffer after `Recvfrom`, and how many of its bytes were received. -/
structure Packet where
  buf : List UInt8
  n : Int

def Packet.byte (p : Packet) (offset : Nat) : UInt8 := p.buf.getD offset 0

/-- A port as the two bytes at the offset are loaded. -/
def Packet.port (p : Packet) (offset : Nat) : Int :=
  (p.byte offset).toNat + 256 * (p.byte (offset + 1)).toNat

/-- `ip_hl << 2` of the IP header at the offset. -/
def Packet.hlen (p : Packet) (offset : Nat) : Nat := ((p.byte offset).toNat % 16) * 4

def ipprotoUdp : UInt8 := 17

/-- The clients that the search loop of `readable_v4` and `readable_v6` finds. -/
def search (d : Daemon) (family sport : Int) : List (Fin fdSetSize) :=
  (List.finRange fdSetSize).filter fun i =>
    (i : Int) ≤ d.maxi ∧ (d.client i).connfd ≥ 0 ∧ (d.client i).family = family
      ∧ (d.client i).lport = sport

def icmpUnreach : UInt8 := 3
def icmpSourcequench : UInt8 := 4
def icmpTimxceed : UInt8 := 11
def icmpUnreachPort : UInt8 := 3
def icmpUnreachNeedfrag : UInt8 := 4

/-- The `icmpd_err` that `readable_v4` builds, with the ICMP header at `hlen1`, the returned
IP header at `hip` and the UDP header at `udp`.
-/
def icmpdErr4 (p : Packet) (hlen1 hip udp : Nat) : IcmpdErr :=
  let type := p.byte hlen1
  let code := p.byte (hlen1 + 1)
  { errno :=
      if type = icmpUnreach then
        if code = icmpUnreachPort then .econnrefused
        else if code = icmpUnreachNeedfrag then .emsgsize
        else .ehostunreach
      else .ehostunreach
    type
    code
    len := 16
    dest :=
      { family := afInet
        port := p.port (udp + 2)
        addr := (List.range 4).map fun k => p.byte (hip + 16 + k) } }

/-- `readable_v4`: what is written, and to which descriptors. It quits on a short message. -/
def readableV4 (d : Daemon) (p : Packet) : Option (List (Int × IcmpdErr)) :=
  let hlen1 := p.hlen 0
  let icmplen := p.n - hlen1
  let type := p.byte hlen1
  if icmplen < 8 then none
  else if type = icmpUnreach ∨ type = icmpTimxceed ∨ type = icmpSourcequench then
    if icmplen < 8 + 20 + 8 then none
    else
      let hip := hlen1 + 8
      let udp := hip + p.hlen hip
      if p.byte (hip + 9) = ipprotoUdp then
        some ((search d afInet (p.port udp)).map fun i =>
          ((d.client i).connfd, icmpdErr4 p hlen1 hip udp))
      else some []
  else some []

def icmp6DstUnreach : UInt8 := 1
def icmp6PacketTooBig : UInt8 := 2
def icmp6TimeExceeded : UInt8 := 3
def icmp6DstUnreachNoport : UInt8 := 4

/-- The `icmpd_err` that `readable_v6` builds. -/
def icmpdErr6 (p : Packet) (hip6 udp : Nat) : IcmpdErr :=
  let type := p.byte 0
  let code := p.byte 1
  { errno :=
      if type = icmp6PacketTooBig then .emsgsize
      else if type = icmp6DstUnreach ∧ code = icmp6DstUnreachNoport then .econnrefused
      else .ehostunreach
    type
    code
    len := 28
    dest :=
      { family := afInet6
        port := p.port (udp + 2)
        addr := (List.range 16).map fun k => p.byte (hip6 + 24 + k) } }

/-- `readable_v6`. The message starts with the ICMPv6 header. -/
def readableV6 (d : Daemon) (p : Packet) : Option (List (Int × IcmpdErr)) :=
  let type := p.byte 0
  if p.n < 8 then none
  else if type = icmp6DstUnreach ∨ type = icmp6PacketTooBig ∨ type = icmp6TimeExceeded then
    if p.n < 8 + 8 then none
    else
      let hip6 := 8
      let udp := hip6 + 40
      if p.byte (hip6 + 6) = ipprotoUdp then
        some ((search d afInet6 (p.port udp)).map fun i =>
          ((d.client i).connfd, icmpdErr6 p hip6 udp))
      else some []
  else some []

/-- A message on `fd4` or on `fd6`. -/
inductive Message
  | v4 (packet : Packet)
  | v6 (packet : Packet)

def Message.family : Message → Int
  | .v4 _ => afInet
  | .v6 _ => afInet6

def receive (d : Daemon) : Message → Option (List (Int × IcmpdErr))
  | .v4 packet => readableV4 d packet
  | .v6 packet => readableV6 d packet

/-- The message is an error, long enough, about a UDP datagram with the source port. -/
def Message.UdpError (sport : Int) : Message → Prop
  | .v4 p =>
      (p.byte (p.hlen 0) = icmpUnreach ∨ p.byte (p.hlen 0) = icmpTimxceed
        ∨ p.byte (p.hlen 0) = icmpSourcequench)
      ∧ 8 + 20 + 8 ≤ p.n - p.hlen 0
      ∧ p.byte (p.hlen 0 + 8 + 9) = ipprotoUdp
      ∧ p.port (p.hlen 0 + 8 + p.hlen (p.hlen 0 + 8)) = sport
  | .v6 p =>
      (p.byte 0 = icmp6DstUnreach ∨ p.byte 0 = icmp6PacketTooBig
        ∨ p.byte 0 = icmp6TimeExceeded)
      ∧ 8 + 8 ≤ p.n
      ∧ p.byte (8 + 6) = ipprotoUdp
      ∧ p.port (8 + 40) = sport

/-- An error about a UDP datagram is written to the clients that the search finds. -/
theorem receive_udpError {m : Message} {sport : Int} (about : m.UdpError sport) (d : Daemon)
    : ∃ err, receive d m
        = some ((search d m.family sport).map fun i => ((d.client i).connfd, err)) := by
  cases m with
  | v4 p =>
      obtain ⟨handled, long, udp, rfl⟩ := about
      refine ⟨icmpdErr4 p (p.hlen 0) (p.hlen 0 + 8) (p.hlen 0 + 8 + p.hlen (p.hlen 0 + 8)), ?_⟩
      simp only [receive, readableV4]
      rw [if_neg (by omega), if_pos handled, if_neg (by omega), if_pos udp]
      rfl
  | v6 p =>
      obtain ⟨handled, long, udp, rfl⟩ := about
      refine ⟨icmpdErr6 p 8 (8 + 40), ?_⟩
      simp only [receive, readableV6]
      rw [if_neg (by omega), if_pos handled, if_neg (by omega), if_pos udp]
      rfl

-----------------------------------------------------------------------------------------
-- The daemon and its clients
-----------------------------------------------------------------------------------------

/-- A descriptor as its client sees it: no open connection, a connection that has not
registered a socket, or one whose latest registration was answered `1`.
-/
inductive Conn
  | closed
  | fresh
  | registered (family port : Int)
  deriving DecidableEq

/-- The daemon, and what its clients have been answered. -/
structure Sys where
  daemon : Daemon
  conns : Int → Conn

/-- One call of a handler, with what its system calls return. -/
inductive Event
  | listen (connfd : Int)
  | conn (i : Fin fdSetSize) (received : Received)
  | icmp (message : Message)

/-- The port that a passed socket is bound to once `readable_conn` is done with it. -/
def boundPort (lport wild : Int) : Int := if lport = 0 then wild else lport

/-- A connection after `readable_conn` has answered it. -/
def Conn.after : Reply → Received → Conn
  | .ok, .socket family lport wild => .registered family (boundPort lport wild)
  | _, _ => .closed

/-- A handler is called. `Accept` returns a descriptor that is not in use, `readable_conn` is
called for entries in use, and a message that makes the daemon quit has no next state.
-/
def step (s : Sys) : Event → Option Sys
  | .listen connfd =>
      if 0 ≤ connfd ∧ s.conns connfd = .closed then
        let (daemon, kept) := readableListen s.daemon connfd
        some
          { daemon
            conns := if kept then Function.update s.conns connfd .fresh else s.conns }
      else none
  | .conn i received =>
      let connfd := (s.daemon.client i).connfd
      if 0 ≤ connfd then
        let (daemon, reply) := readableConn s.daemon i received
        some { daemon, conns := Function.update s.conns connfd (.after reply received) }
      else none
  | .icmp message => (receive s.daemon message).map fun _ => s

def init : Sys where
  daemon := start
  conns := fun _ => .closed

/-- The entries in use are the open connections, one for each, and hold what the connection
has registered. What they hold for a connection that has not registered is left open.
-/
structure Inv (s : Sys) : Prop where
  inRange : ∀ i, 0 ≤ (s.daemon.client i).connfd → (i : Int) ≤ s.daemon.maxi
  isOpen : ∀ i, 0 ≤ (s.daemon.client i).connfd → s.conns (s.daemon.client i).connfd ≠ .closed
  holds
    : ∀ i family port,
        s.conns (s.daemon.client i).connfd = .registered family port
        → (s.daemon.client i).family = family ∧ (s.daemon.client i).lport = port
  apart
    : ∀ i j,
        0 ≤ (s.daemon.client i).connfd
        → (s.daemon.client i).connfd = (s.daemon.client j).connfd
        → i = j
  covered
    : ∀ connfd, s.conns connfd ≠ .closed
        → 0 ≤ connfd ∧ ∃ i, (s.daemon.client i).connfd = connfd

/-- The invariant holds at the start. -/
theorem Inv.init : Inv init where
  inRange := fun i used => absurd used (by simp [Icmpd.init, start])
  isOpen := fun i used => absurd used (by simp [Icmpd.init, start])
  holds := fun i family port given => by cases given
  apart := fun i j used => absurd used (by simp [Icmpd.init, start])
  covered := fun connfd isOpen => absurd rfl isOpen

-----------------------------------------------------------------------------------------
-- What the handlers do to the table
-----------------------------------------------------------------------------------------

/-- A connection takes an available entry as it is, or is not kept. -/
theorem readableListen_cases (d : Daemon) (connfd : Int)
    : readableListen d connfd = (d, false)
      ∨ ∃ (i : Fin fdSetSize) (maxi : Int),
          (d.client i).connfd < 0 ∧ d.maxi ≤ maxi ∧ (i : Int) ≤ maxi
          ∧ readableListen d connfd
            = ({ d.set i { d.client i with connfd } with maxi }, true) := by
  unfold readableListen
  cases found : (List.finRange fdSetSize).find? fun i => (d.client i).connfd < 0 with
  | none => exact .inl rfl
  | some i =>
      have available := List.find?_some found
      simp only [decide_eq_true_eq] at available
      by_cases above : (i : Int) > d.maxi
      · refine .inr ⟨i, i, available, by omega, le_refl _, ?_⟩
        simp [above]
      · refine .inr ⟨i, d.maxi, available, le_refl _, by omega, ?_⟩
        simp only [if_neg above]

/-- A call of `readable_conn` frees the entry and closes the connection, or notes the socket
and answers `1`.
-/
theorem readableConn_cases (d : Daemon) (i : Fin fdSetSize) (received : Received)
    : (∃ c, c.connfd = -1 ∧ (readableConn d i received).1 = d.set i c
        ∧ Conn.after (readableConn d i received).2 received = .closed)
      ∨ ∃ family lport,
          (readableConn d i received).1
            = d.set i { connfd := (d.client i).connfd, family, lport }
          ∧ Conn.after (readableConn d i received).2 received
            = .registered family lport := by
  cases received with
  | terminated => exact .inl ⟨_, rfl, rfl, rfl⟩
  | noDescriptor => exact .inl ⟨_, rfl, rfl, rfl⟩
  | noName => exact .inl ⟨_, rfl, rfl, rfl⟩
  | socket family lport wild =>
      by_cases unbound : lport = 0
      · by_cases failed : wild ≤ 0
        · refine .inl ⟨{ connfd := -1, family, lport := wild }, rfl, ?_, ?_⟩
          · simp [readableConn, unbound, failed, clientdone]
          · simp [readableConn, unbound, failed, Conn.after]
        · refine .inr ⟨family, wild, ?_, ?_⟩
          · simp [readableConn, unbound, failed]
          · simp [readableConn, unbound, failed, Conn.after, boundPort]
      · refine .inr ⟨family, lport, ?_, ?_⟩
        · simp [readableConn, unbound]
        · simp [readableConn, unbound, Conn.after, boundPort]

variable {s : Sys} {i : Fin fdSetSize} {connfd : Int}

/-- One entry and one connection change, and the entry has the connection's descriptor exactly
where the connection is open.
-/
theorem Inv.change {c : Client} {conn : Conn} {maxi : Int} (inv : Inv s) (valid : 0 ≤ connfd)
    (others : ∀ j, j ≠ i → (s.daemon.client j).connfd ≠ connfd)
    (old : ∀ fd, 0 ≤ fd → (s.daemon.client i).connfd = fd → fd = connfd)
    (grown : s.daemon.maxi ≤ maxi) (inside : (i : Int) ≤ maxi)
    (entry : c.connfd = connfd ∧ (conn = .fresh ∨ conn = .registered c.family c.lport)
      ∨ c.connfd = -1 ∧ conn = .closed)
    : Inv
        { daemon := { s.daemon.set i c with maxi }
          conns := Function.update s.conns connfd conn } := by
  refine ⟨?_, ?_, ?_, ?_, ?_⟩
  all_goals simp only
  · intro j used
    by_cases this : j = i
    · exact this ▸ inside
    · rw [Daemon.set_other this] at used
      exact le_trans (inv.inRange j used) grown
  · intro j used
    by_cases this : j = i
    · subst this
      rw [Daemon.set_same] at used ⊢
      rcases entry with ⟨held, rfl | rfl⟩ | ⟨free, -⟩
      · rw [held, Function.update_self]
        exact Conn.noConfusion
      · rw [held, Function.update_self]
        exact Conn.noConfusion
      · omega
    · rw [Daemon.set_other this] at used ⊢
      rw [Function.update_of_ne (others j this)]
      exact inv.isOpen j used
  · intro j family port given
    by_cases this : j = i
    · subst this
      rw [Daemon.set_same] at given ⊢
      rcases entry with ⟨held, rfl | rfl⟩ | ⟨free, rfl⟩
      · rw [held, Function.update_self] at given
        cases given
      · rw [held, Function.update_self] at given
        cases given
        exact ⟨rfl, rfl⟩
      · rw [free, Function.update_of_ne (by omega)] at given
        exact absurd (inv.covered (-1) (by simp [given])).1 (by decide)
    · rw [Daemon.set_other this, Function.update_of_ne (others j this)] at given
      rw [Daemon.set_other this]
      exact inv.holds j family port given
  · intro j k used same
    by_cases left : j = i <;> by_cases right : k = i
    · rw [left, right]
    · subst left
      rw [Daemon.set_same] at used
      rw [Daemon.set_same, Daemon.set_other right] at same
      rcases entry with ⟨held, -⟩ | ⟨free, -⟩
      · exact absurd (same.symm.trans held) (others k right)
      · omega
    · subst right
      rw [Daemon.set_other left] at used
      rw [Daemon.set_same, Daemon.set_other left] at same
      rcases entry with ⟨held, -⟩ | ⟨free, -⟩
      · exact absurd (same.trans held) (others j left)
      · omega
    · rw [Daemon.set_other left, Daemon.set_other right] at same
      rw [Daemon.set_other left] at used
      exact inv.apart j k used same
  · intro fd isOpen
    by_cases this : fd = connfd
    · refine ⟨this ▸ valid, i, ?_⟩
      rw [this, Function.update_self] at isOpen
      rcases entry with ⟨held, -⟩ | ⟨-, closed⟩
      · rw [Daemon.set_same, held, this]
      · exact absurd closed isOpen
    · rw [Function.update_of_ne this] at isOpen
      obtain ⟨nonneg, j, held⟩ := inv.covered fd isOpen
      refine ⟨nonneg, j, ?_⟩
      rw [Daemon.set_other, held]
      rintro rfl
      exact this (old fd nonneg held)

/-- An open connection takes an available entry. -/
theorem Inv.takes {maxi : Int} (inv : Inv s) (available : (s.daemon.client i).connfd < 0)
    (grown : s.daemon.maxi ≤ maxi) (inside : (i : Int) ≤ maxi) (valid : 0 ≤ connfd)
    (unused : s.conns connfd = .closed)
    : Inv
        { daemon := { s.daemon.set i { s.daemon.client i with connfd } with maxi }
          conns := Function.update s.conns connfd .fresh } := by
  refine inv.change valid ?_ ?_ grown inside (.inl ⟨rfl, .inl rfl⟩)
  · intro j _ same
    have isOpen := inv.isOpen j (by omega)
    rw [same] at isOpen
    exact isOpen unused
  · intro fd nonneg held
    omega

/-- The entry of an open connection is overwritten, and keeps the connection's descriptor
exactly where the connection stays open.
-/
theorem Inv.answers {c : Client} {conn : Conn} (inv : Inv s)
    (used : 0 ≤ (s.daemon.client i).connfd)
    (kept : c.connfd = (s.daemon.client i).connfd ∧ conn = .registered c.family c.lport
      ∨ c.connfd = -1 ∧ conn = .closed)
    : Inv
        { daemon := s.daemon.set i c
          conns := Function.update s.conns (s.daemon.client i).connfd conn } := by
  refine inv.change used ?_ ?_ (le_refl _) (inv.inRange i used)
    (kept.imp_left fun both => ⟨both.1, .inr both.2⟩)
  · intro j other same
    exact other (inv.apart i j used same.symm).symm
  · intro fd _ held
    exact held.symm

/-- Every call of a handler keeps the invariant. -/
theorem Inv.step {event : Event} {s' : Sys} (h : step s event = some s') (inv : Inv s)
    : Inv s' := by
  cases event with
  | listen connfd =>
      simp only [Icmpd.step] at h
      split at h
      · rename_i unused
        rw [← Option.some.inj h]
        rcases readableListen_cases s.daemon connfd with
          full | ⟨i, maxi, available, grown, inside, taken⟩
        · rw [full]
          exact inv
        · rw [taken]
          exact inv.takes available grown inside unused.1 unused.2
      · cases h
  | conn i received =>
      simp only [Icmpd.step] at h
      split at h
      · rename_i used
        rw [← Option.some.inj h]
        rcases readableConn_cases s.daemon i received
          with ⟨c, free, freed, closed⟩ | ⟨family, lport, noted, registered⟩
        · rw [freed, closed]
          exact inv.answers used (.inr ⟨free, rfl⟩)
        · rw [noted, registered]
          exact inv.answers used (.inl ⟨rfl, rfl⟩)
      · cases h
  | icmp message =>
      obtain ⟨-, -, rfl⟩ := Option.map_eq_some_iff.mp h
      exact inv

/-- The invariant holds in every reachable state. -/
theorem Inv.reachable (h : Reachable Icmpd.step Icmpd.init s) : Inv s :=
  h.invariant Inv.init fun taken inv => Inv.step taken inv

-----------------------------------------------------------------------------------------
-- Who an error is written to
-----------------------------------------------------------------------------------------

end Minions.Unp.Icmpd
