import Mathlib.Data.List.Forall2
import Minions.Data.Query
import Minions.Unp.Icmpd

/-! Which bytes of the buffer the ICMP parsers look at: `readable_v4`, `readable_v6`, and
`recv_v4` of `traceroute`.
-/

namespace Minions.Unp.Icmpd

open Minions.Data

/-- A computation over the bytes of a buffer. -/
abbrev Parser := Query Nat UInt8

/-- The port at the offset, as its two bytes are loaded. -/
def portAt (offset : Nat) : Parser Int := do
  let low ← Query.get offset
  let high ← Query.get (offset + 1)
  pure (low.toNat + 256 * high.toNat)

/-- `ip_hl << 2` of the IP header at the offset. -/
def hlenAt (offset : Nat) : Parser Nat := do
  let first ← Query.get offset
  pure (first.toNat % 16 * 4)

/-- So many bytes from the offset on. -/
def bytesAt (offset : Nat) : Nat → Parser (List UInt8)
  | 0 => pure []
  | count + 1 => do
      let first ← Query.get offset
      let more ← bytesAt (offset + 1) count
      pure (first :: more)

/-- Each of the clients is written what is made for it. -/
def writeAll (d : Daemon) (err : Parser IcmpdErr)
    : List (Fin fdSetSize) → Parser (List (Int × IcmpdErr))
  | [] => pure []
  | i :: rest => do
      let first ← err
      let more ← writeAll d err rest
      pure (((d.client i).connfd, first) :: more)

/-- The `icmpd_err` that `readable_v4` builds. -/
def makeErr4 (hlen1 hip udp : Nat) : Parser IcmpdErr := do
  let addr ← bytesAt (hip + 16) 4
  let port ← portAt (udp + 2)
  let type ← Query.get hlen1
  let code ← Query.get (hlen1 + 1)
  pure
    { errno :=
        if type = icmpUnreach then
          if code = icmpUnreachPort then .econnrefused
          else if code = icmpUnreachNeedfrag then .emsgsize
          else .ehostunreach
        else .ehostunreach
      type
      code
      len := 16
      dest := { family := afInet, port, addr } }

/-- `readable_v4` from the returned IP header on, whose addresses and protocol are printed. -/
def parseReturned4 (d : Daemon) (hlen1 : Nat) : Parser (List (Int × IcmpdErr)) := do
  let hip := hlen1 + 8
  let hlen2 ← hlenAt hip
  -- `ip_src` and `ip_dst` are loaded to be printed.
  let _ ← bytesAt (hip + 12) 4
  let _ ← bytesAt (hip + 16) 4
  let proto ← Query.get (hip + 9)
  if proto = ipprotoUdp then do
    let udp := hip + hlen2
    let sport ← portAt udp
    writeAll d (makeErr4 hlen1 hip udp) (search d afInet sport)
  else pure []

/-- `readable_v4` for a packet of `n` bytes. -/
def parseV4 (d : Daemon) (n : Int) : Parser (Option (List (Int × IcmpdErr))) := do
  let hlen1 ← hlenAt 0
  let icmplen := n - hlen1
  if icmplen < 8 then pure none
  else do
    let type ← Query.get hlen1
    let _ ← Query.get (hlen1 + 1)
    if type = icmpUnreach ∨ type = icmpTimxceed ∨ type = icmpSourcequench then
      if icmplen < 8 + 20 + 8 then pure none
      else do
        let written ← parseReturned4 d hlen1
        pure (some written)
    else pure (some [])

/-- The `icmpd_err` that `readable_v6` builds. -/
def makeErr6 (hip6 udp : Nat) : Parser IcmpdErr := do
  let addr ← bytesAt (hip6 + 24) 16
  let port ← portAt (udp + 2)
  let type ← Query.get 0
  let code ← Query.get 1
  pure
    { errno :=
        if type = icmp6PacketTooBig then .emsgsize
        else if type = icmp6DstUnreach ∧ code = icmp6DstUnreachNoport then .econnrefused
        else .ehostunreach
      type
      code
      len := 28
      dest := { family := afInet6, port, addr } }

/-- `readable_v6` from the returned IPv6 header on. -/
def parseReturned6 (d : Daemon) : Parser (List (Int × IcmpdErr)) := do
  let hip6 := 8
  let hlen2 := 40
  let _ ← bytesAt (hip6 + 8) 16
  let _ ← bytesAt (hip6 + 24) 16
  let nxt ← Query.get (hip6 + 6)
  if nxt = ipprotoUdp then do
    let udp := 8 + hlen2
    let sport ← portAt udp
    writeAll d (makeErr6 hip6 udp) (search d afInet6 sport)
  else pure []

/-- `readable_v6` for a packet of `n` bytes. -/
def parseV6 (d : Daemon) (n : Int) : Parser (Option (List (Int × IcmpdErr))) :=
  if n < 8 then pure none
  else do
    let type ← Query.get 0
    let _ ← Query.get 1
    if type = icmp6DstUnreach ∨ type = icmp6PacketTooBig ∨ type = icmp6TimeExceeded then
      if n < 8 + 8 then pure none
      else do
        let written ← parseReturned6 d
        pure (some written)
    else pure (some [])

-----------------------------------------------------------------------------------------
-- What the parsers compute
-----------------------------------------------------------------------------------------

variable {table : Nat → UInt8} {d : Daemon} {p : Packet}

/-- The port at an offset of the packet. -/
@[simp]
theorem run_portAt (p : Packet) (offset : Nat) : (portAt offset).run p.byte = p.port offset := by
  simp [portAt, Packet.port]

/-- The header length at an offset of the packet. -/
@[simp]
theorem run_hlenAt (p : Packet) (offset : Nat) : (hlenAt offset).run p.byte = p.hlen offset := by
  simp [hlenAt, Packet.hlen]

/-- The bytes at an offset of the packet. -/
@[simp]
theorem run_bytesAt (offset count : Nat)
    : (bytesAt offset count).run table = (List.range count).map fun k => table (offset + k) := by
  induction count generalizing offset with
  | zero => rfl
  | succ count ih =>
      simp [bytesAt, ih, List.range_succ_eq_map, Function.comp_def, Nat.add_comm, Nat.add_left_comm]

/-- The error is written to each client that was found. -/
@[simp]
theorem run_writeAll (err : Parser IcmpdErr) (found : List (Fin fdSetSize))
    : (writeAll d err found).run table
      = found.map fun i => ((d.client i).connfd, err.run table) := by
  induction found with
  | nil => rfl
  | cons i rest ih => simp [writeAll, ih]

/-- The parsers compute what the handlers do. -/
theorem run_parseV4 (d : Daemon) (p : Packet) : (parseV4 d p.n).run p.byte = readableV4 d p := by
  simp [parseV4, parseReturned4, makeErr4, readableV4, icmpdErr4, apply_ite some]

/-- The parser of the IPv6 packet is the daemon's. -/
theorem run_parseV6 (d : Daemon) (p : Packet) : (parseV6 d p.n).run p.byte = readableV6 d p := by
  simp [parseV6, parseReturned6, makeErr6, readableV6, icmpdErr6, apply_ite some]

/-- The packet that a message came in. -/
def Message.packet : Message → Packet
  | .v4 packet => packet
  | .v6 packet => packet

def parse (d : Daemon) (m : Message) : Parser (Option (List (Int × IcmpdErr))) :=
  match m with
  | .v4 packet => parseV4 d packet.n
  | .v6 packet => parseV6 d packet.n

/-- The parser is the daemon's. -/
theorem run_parse (d : Daemon) (m : Message)
    : (parse d m).run m.packet.byte = receive d m := by
  cases m with
  | v4 packet => exact run_parseV4 d packet
  | v6 packet => exact run_parseV6 d packet

-----------------------------------------------------------------------------------------
-- Where the parsers look
-----------------------------------------------------------------------------------------

/-- The offsets of a packet of `n` bytes. -/
def Below (n : Int) (offset : Nat) : Prop := offset < n

variable {n : Int}

/-- The header length is looked at inside the packet. -/
@[simp]
theorem within_hlenAt (offset : Nat)
    : (hlenAt offset).Within (Below n) table ↔ (offset : Int) < n := by
  simp [hlenAt, Below]

/-- The port is looked at inside the packet. -/
@[simp]
theorem within_portAt (offset : Nat)
    : (portAt offset).Within (Below n) table ↔ (offset : Int) + 2 ≤ n := by
  simp [portAt, Below]
  omega

/-- A byte is looked at inside the packet. -/
@[simp]
theorem within_byte (offset : Nat)
    : (Query.get offset : Parser UInt8).Within (Below n) table ↔ (offset : Int) < n := by
  simp [Below]

/-- Loading some bytes looks at the last of them, by induction on their number. -/
theorem within_bytesAt {offset count : Nat} (some : 0 < count)
    : (bytesAt offset count).Within (Below n) table ↔ (offset : Int) + count ≤ n := by
  induction count generalizing offset with
  | zero => contradiction
  | succ count ih =>
      simp only [bytesAt, Query.within_bind, Query.within_pure, within_byte, and_true]
      cases count with
      | zero =>
          simp only [bytesAt, Query.within_pure, and_true]
          omega
      | succ count =>
          rw [ih (Nat.succ_pos count)]
          omega

/-- Writing to the clients looks at what is written, if there is any client. -/
@[simp]
theorem within_writeAll (err : Parser IcmpdErr) (found : List (Fin fdSetSize))
    : (writeAll d err found).Within (Below n) table
      ↔ (found ≠ [] → err.Within (Below n) table) := by
  induction found with
  | nil => simp [writeAll]
  | cons i rest ih =>
      simp only [writeAll, Query.within_bind, Query.within_pure, ih]
      tauto

/-- A client that is told of errors about datagrams from the port. -/
def Daemon.Registered (d : Daemon) (family sport : Int) : Prop :=
  ∃ i : Fin fdSetSize, (i : Int) ≤ d.maxi ∧ (d.client i).connfd ≥ 0
    ∧ (d.client i).family = family ∧ (d.client i).lport = sport

/-- A client is found exactly if one is registered. -/
theorem search_ne_nil {family sport : Int}
    : search d family sport ≠ [] ↔ d.Registered family sport := by
  simp [search, Daemon.Registered, List.filter_eq_nil_iff]

/-- The error quotes enough of the datagram for what is looked at: its IPv6 header, its source
port, and its destination port if a client is told.
-/
def Message.Fits (d : Daemon) : Message → Prop
  | .v4 p =>
      let udp := p.hlen 0 + 8 + p.hlen (p.hlen 0 + 8)
      ∀ sport, (Message.v4 p).UdpError sport →
        (udp : Int) + 2 ≤ p.n ∧ (d.Registered afInet sport → (udp : Int) + 4 ≤ p.n)
  | .v6 p =>
      (p.byte 0 = icmp6DstUnreach ∨ p.byte 0 = icmp6PacketTooBig ∨ p.byte 0 = icmp6TimeExceeded
        → 8 + 8 ≤ p.n → 8 + 40 ≤ p.n)
      ∧ ∀ sport, (Message.v6 p).UdpError sport →
        8 + 40 + 2 ≤ p.n ∧ (d.Registered afInet6 sport → 8 + 40 + 4 ≤ p.n)

/-- What `recvfrom` returns: a raw IPv4 socket delivers at least an IP header. -/
def Message.Received : Message → Prop
  | .v4 p => 20 ≤ p.n
  | .v6 p => 0 ≤ p.n

/-- The IPv4 error looks no further than at the ports. -/
theorem within_makeErr4 {hlen1 hip udp : Nat} (icmp : hlen1 + 2 ≤ n) (ip : hip + 20 ≤ n)
    : (makeErr4 hlen1 hip udp).Within (Below n) table ↔ (udp : Int) + 4 ≤ n := by
  simp only [makeErr4, Query.within_bind, Query.within_pure, within_portAt, within_byte,
    and_true, within_bytesAt (show 0 < 4 by decide)]
  omega

/-- The IPv6 error looks no further than at the ports. -/
theorem within_makeErr6 {hip6 udp : Nat} (icmp : 2 ≤ n) (ip : hip6 + 40 ≤ n)
    : (makeErr6 hip6 udp).Within (Below n) table ↔ (udp : Int) + 4 ≤ n := by
  simp only [makeErr6, Query.within_bind, Query.within_pure, within_portAt, within_byte,
    and_true, within_bytesAt (show 0 < 16 by decide)]
  omega

/-- From the returned IP header on, only the UDP header may lie beyond the packet. -/
theorem within_parseReturned4 {hlen1 : Nat} (long : hlen1 + 8 + 20 + 8 ≤ p.n)
    : (parseReturned4 d hlen1).Within (Below p.n) p.byte
      ↔ (p.byte (hlen1 + 8 + 9) = ipprotoUdp →
          let udp := hlen1 + 8 + p.hlen (hlen1 + 8)
          (udp : Int) + 2 ≤ p.n
            ∧ (d.Registered afInet (p.port udp) → (udp : Int) + 4 ≤ p.n)) := by
  have icmp : (hlen1 : Int) + 2 ≤ p.n := by omega
  have ip : ((hlen1 + 8 : Nat) : Int) + 20 ≤ p.n := by omega
  simp only [parseReturned4, Query.within_bind, Query.within_ite, Query.within_pure,
    within_hlenAt, within_byte, within_portAt, within_writeAll, run_hlenAt, run_portAt,
    Query.run_get, search_ne_nil, within_makeErr4 icmp ip, implies_true, and_true,
    within_bytesAt (show 0 < 4 by decide)]
  constructor
  · rintro ⟨-, -, -, -, udp⟩
    exact udp
  · intro udp
    exact ⟨by omega, by omega, by omega, by omega, udp⟩

/-- `readable_v4` looks at bytes of the packet only where it fits, by the length checks. -/
theorem within_parseV4 (d : Daemon) (received : 20 ≤ p.n)
    : (parseV4 d p.n).Within (Below p.n) p.byte ↔ (Message.v4 p).Fits d := by
  simp only [parseV4, Query.within_bind, Query.within_ite, Query.within_pure, within_hlenAt,
    within_byte, run_hlenAt, Query.run_get, implies_true, and_true, true_and]
  constructor
  · -- The fixed headers are inside by the two length checks.
    rintro ⟨-, checks⟩ sport ⟨handled, long, udp, rfl⟩
    obtain ⟨-, -, returned⟩ := checks (by omega)
    exact (within_parseReturned4 (by omega)).mp (returned handled (by omega)) udp
  · intro fits
    refine ⟨by omega, fun icmp => ⟨by omega, by omega, fun handled long => ?_⟩⟩
    refine (within_parseReturned4 (by omega)).mpr fun udp => ?_
    exact fits _ ⟨handled, by omega, udp, rfl⟩

/-- From the returned IPv6 header on, any of it may lie beyond the packet. -/
theorem within_parseReturned6
    : (parseReturned6 d).Within (Below p.n) p.byte
      ↔ 8 + 40 ≤ p.n
        ∧ (p.byte (8 + 6) = ipprotoUdp →
          8 + 40 + 2 ≤ p.n ∧ (d.Registered afInet6 (p.port (8 + 40)) → 8 + 40 + 4 ≤ p.n)) := by
  simp only [parseReturned6, Query.within_bind, Query.within_ite, Query.within_pure,
    within_byte, within_portAt, within_writeAll, run_portAt, Query.run_get, search_ne_nil,
    implies_true, and_true, within_bytesAt (show 0 < 16 by decide)]
  constructor
  · rintro ⟨-, dst, -, udp⟩
    have ip : ((8 : Nat) : Int) + 40 ≤ p.n := by omega
    rw [within_makeErr6 (by omega) ip] at udp
    exact ⟨by omega, udp⟩
  · rintro ⟨ip, udp⟩
    rw [within_makeErr6 (by omega) (by omega)]
    exact ⟨by omega, by omega, by omega, udp⟩

/-- `readable_v6` looks at bytes of the packet only where it fits. -/
theorem within_parseV6 (d : Daemon) (p : Packet)
    : (parseV6 d p.n).Within (Below p.n) p.byte ↔ (Message.v6 p).Fits d := by
  simp only [parseV6, Query.within_bind, Query.within_ite, Query.within_pure,
    within_byte, Query.run_get, within_parseReturned6, implies_true, and_true, true_and]
  constructor
  · intro checks
    refine ⟨fun handled long => ?_, ?_⟩
    · obtain ⟨-, -, returned⟩ := checks (by omega)
      exact (returned handled (by omega)).1
    · rintro sport ⟨handled, long, udp, rfl⟩
      obtain ⟨-, -, returned⟩ := checks (by omega)
      exact (returned handled (by omega)).2 udp
  · rintro ⟨ip, fits⟩ icmp
    refine ⟨by omega, by omega, fun handled long => ⟨ip handled (by omega), fun udp => ?_⟩⟩
    exact fits _ ⟨handled, by omega, udp, rfl⟩

/-- The parser stays inside exactly if the packet fits. -/
theorem within_parse {m : Message} (received : m.Received) (d : Daemon)
    : (parse d m).Within (Below m.packet.n) m.packet.byte ↔ m.Fits d := by
  cases m with
  | v4 packet => exact within_parseV4 d received
  | v6 packet => exact within_parseV6 d packet

/-- A message that makes the daemon quit fits, as there is no datagram to look at. -/
theorem fits_of_quit {m : Message} (quits : receive d m = none) : m.Fits d := by
  have noDatagram (sport : Int) : ¬m.UdpError sport := by
    intro about
    obtain ⟨err, writes⟩ := receive_udpError about d
    rw [quits] at writes
    exact absurd writes (by simp)
  cases m with
  | v4 packet => exact fun sport about => absurd about (noDatagram sport)
  | v6 packet =>
      refine ⟨fun handled long => ?_, fun sport about => absurd about (noDatagram sport)⟩
      simp only [receive, readableV6] at quits
      rw [if_neg (by omega), if_pos handled, if_neg (by omega)] at quits
      split at quits
      · exact absurd quits (by simp)
      · exact absurd quits (by simp)

/-- The same message with something else in the buffer. -/
def Message.withBuf (buf : List UInt8) : Message → Message
  | .v4 packet => .v4 { packet with buf }
  | .v6 packet => .v6 { packet with buf }

/-- The bytes of the buffer do not matter to what is looked for. -/
theorem parse_withBuf (d : Daemon) (m : Message) (buf : List UInt8)
    : parse d (m.withBuf buf) = parse d m := by
  cases m with
  | v4 packet => rfl
  | v6 packet => rfl

/-- A message that fits is handled by the received bytes. -/
theorem receive_withBuf {m : Message} (received : m.Received) (fits : m.Fits d)
    {buf : List UInt8}
    (agree : ∀ offset : Nat, (offset : Int) < m.packet.n →
      (m.withBuf buf).packet.byte offset = m.packet.byte offset)
    : receive d (m.withBuf buf) = receive d m := by
  have within := (within_parse received d).mpr fits
  have same := Query.run_congr within fun offset below => (agree offset below).symm
  rw [run_parse] at same
  rw [same, ← parse_withBuf d m buf, run_parse]

/-- `readable_v4` and `readable_v6` quit or look at the received bytes only, and are decided by
these, exactly if the error fits.
-/
theorem readable_inside_iff (d : Daemon) (m : Message) (received : m.Received)
    : (receive d m = none ∨ (parse d m).Within (Below m.packet.n) m.packet.byte)
        ∧ (∀ buf : List UInt8,
          (∀ offset : Nat, (offset : Int) < m.packet.n →
            (m.withBuf buf).packet.byte offset = m.packet.byte offset) →
          receive d (m.withBuf buf) = receive d m)
      ↔ m.Fits d := by
  constructor
  · rintro ⟨quits | within, -⟩
    · exact fits_of_quit quits
    · exact (within_parse received d).mp within
  · intro fits
    exact ⟨.inr ((within_parse received d).mpr fits),
      fun _ agree => receive_withBuf received fits agree⟩

/-- Port unreachable in 56 bytes, about a datagram whose IP header starts with the byte. -/
def errorAbout (first : UInt8) (rest : List UInt8) : Packet where
  buf :=
    [0x45] ++ List.replicate 19 0 ++ [3, 3] ++ List.replicate 6 0 ++ [first]
      ++ List.replicate 8 0 ++ [17] ++ rest
  n := 56

/-- A client has registered port 53. -/
def waiting : Daemon where
  client := fun i =>
    if i.val = 0 then { connfd := 5, family := afInet, lport := 53 }
    else { connfd := -1, family := 0, lport := 0 }
  maxi := 0

/-- The sample client is registered for one port. -/
theorem registered_waiting {sport : Int}
    : waiting.Registered afInet sport ↔ sport = 53 := by
  constructor
  · rintro ⟨i, low, -, -, port⟩
    have first : i.val = 0 := by
      change (i.val : Int) ≤ 0 at low
      omega
    rw [← port]
    simp [waiting, first]
  · rintro rfl
    exact ⟨⟨0, by decide⟩, by decide⟩

/-- A quoted header of 20 bytes leaves room for the ports. -/
theorem readable_inside_iff_short
    : (Message.v4 (errorAbout 0x45 [])).Received
      ∧ (receive waiting (.v4 (errorAbout 0x45 [])) = none
        ∨ (parse waiting (.v4 (errorAbout 0x45 []))).Within (Below 56)
          (errorAbout 0x45 []).byte) :=
  have received : (Message.v4 (errorAbout 0x45 [])).Received := show (20 : Int) ≤ 56 by decide
  have fits : (Message.v4 (errorAbout 0x45 [])).Fits waiting :=
    fun _ _ => ⟨by decide, fun _ => by decide⟩
  ⟨received, ((readable_inside_iff waiting _ received).mpr fits).1⟩

/-- Port 53 far behind a packet that claims to quote a header of 60 bytes. -/
def beyond : Packet := errorAbout 0x4f (List.replicate 50 0 ++ [53])

/-- Whether the client is told depends on bytes that were not received. -/
theorem readable_looks_beyond
    : (Message.v4 beyond).Received
      ∧ ¬(parse waiting (.v4 beyond)).Within (Below 56) beyond.byte
      ∧ (∀ offset : Nat, (offset : Int) < 56 →
        (errorAbout 0x4f []).byte offset = beyond.byte offset)
      ∧ receive waiting (.v4 beyond) ≠ some []
      ∧ receive waiting (.v4 (errorAbout 0x4f [])) = some [] := by
  have received : (Message.v4 beyond).Received := show (20 : Int) ≤ 56 by decide
  have about53 : (Message.v4 beyond).UdpError 53 :=
    ⟨.inl (by decide), by decide, by decide, by decide⟩
  have about0 : (Message.v4 (errorAbout 0x4f [])).UdpError 0 :=
    ⟨.inl (by decide), by decide, by decide, by decide⟩
  refine ⟨received, fun within => ?_, ?_, ?_, ?_⟩
  · have fits := (within_parse received waiting).mp within
    exact absurd (fits 53 about53).1 (by decide)
  · intro offset below
    have same : ∀ offset < 56, (errorAbout 0x4f []).byte offset = beyond.byte offset := by
      decide
    exact same offset (by omega)
  · obtain ⟨err, writes⟩ := receive_udpError about53 waiting
    have found : search waiting afInet 53 ≠ [] :=
      search_ne_nil.mpr (registered_waiting.mpr rfl)
    rw [writes]
    simpa [Message.family] using found
  · obtain ⟨err, writes⟩ := receive_udpError about0 waiting
    have nobody : search waiting afInet 0 = [] := by
      by_contra found
      exact absurd (registered_waiting.mp (search_ne_nil.mp found)) (by decide)
    rw [writes, Message.family, nobody]
    rfl

end Minions.Unp.Icmpd

-----------------------------------------------------------------------------------------
-- `traceroute`
-----------------------------------------------------------------------------------------

namespace Minions.Unp.Traceroute

open Minions.Data Minions.Unp.Icmpd

def icmpTimxceedIntrans : UInt8 := 0

def htons (port : Int) : Int := port / 256 % 256 + 256 * (port % 256)

/-- The globals and the argument of `recv_v4` that it reads. -/
structure Probe where
  sport : Int
  dport : Int
  seq : Int
  verbose : Bool

/-- The packet is not for the probe: `recvfrom` is called again, after a line if verbose. -/
def again (probe : Probe) (hlen1 : Nat) : Parser (Option Int) :=
  if probe.verbose then do
    let _ ← Query.get hlen1
    let _ ← Query.get (hlen1 + 1)
    pure none
  else pure none

/-- What both branches of `recv_v4` do with the returned headers before they set `ret`. -/
def returned (probe : Probe) (hlen1 : Nat) (icmplen : Int) (ret : Parser Int)
    : Parser (Option Int) :=
  if icmplen < 8 + 20 then pure none
  else do
    let hip := hlen1 + 8
    let hlen2 ← hlenAt hip
    if icmplen < 8 + hlen2 + 4 then pure none
    else do
      let udp := hip + hlen2
      let proto ← Query.get (hip + 9)
      if proto = ipprotoUdp then do
        let source ← portAt udp
        if source = htons probe.sport then do
          let dest ← portAt (udp + 2)
          if dest = htons (probe.dport + probe.seq) then do
            let code ← ret
            pure (some code)
          else again probe hlen1
        else again probe hlen1
      else again probe hlen1

/-- `recv_v4` for a packet of `n` bytes: what it returns, if it does. -/
def parseV4 (probe : Probe) (n : Int) : Parser (Option Int) := do
  let hlen1 ← hlenAt 0
  let icmplen := n - hlen1
  if icmplen < 8 then pure none
  else do
    let type ← Query.get hlen1
    if type = icmpTimxceed then do
      let code ← Query.get (hlen1 + 1)
      if code = icmpTimxceedIntrans then returned probe hlen1 icmplen (pure (-2))
      else again probe hlen1
    else if type = icmpUnreach then
      returned probe hlen1 icmplen do
        let code ← Query.get (hlen1 + 1)
        if code = icmpUnreachPort then pure (-1) else pure code.toNat
    else again probe hlen1

/-- What a call of `recvfrom` comes to: a packet, or `EINTR`, which may be the alarm. -/
inductive Arrival
  | packet (packet : Packet)
  | interrupted (gotalarm : Bool)

/-- `recv_v4`, unless it still waits after the arrivals. -/
def recvV4 (probe : Probe) : List Arrival → Option Int
  | [] => none
  | .interrupted gotalarm :: rest => if gotalarm then some (-3) else recvV4 probe rest
  | .packet packet :: rest =>
      match (parseV4 probe packet.n).run packet.byte with
      | some ret => some ret
      | none => recvV4 probe rest

variable {table : Nat → UInt8} {n : Int} {hlen1 : Nat} {ret : Parser Int}

/-- A packet that was not for a client is looked at inside. -/
theorem within_again (probe : Probe) (icmp : hlen1 + 8 ≤ n)
    : (again probe hlen1).Within (Below n) table := by
  simp only [again, Query.within_bind, Query.within_ite, Query.within_pure, within_byte,
    implies_true, and_true]
  omega

/-- The inner header's length is in the check, so both ports are in the packet. -/
theorem within_returned {p : Packet} (probe : Probe) (icmp : hlen1 + 8 ≤ p.n)
    (code : ret.Within (Below p.n) p.byte)
    : (returned probe hlen1 (p.n - hlen1) ret).Within (Below p.n) p.byte := by
  have others : (again probe hlen1).Within (Below p.n) p.byte := within_again probe icmp
  simp only [returned, Query.within_bind, Query.within_ite, Query.within_pure, within_hlenAt,
    within_byte, within_portAt, run_hlenAt, run_portAt, Query.run_get, others, code,
    implies_true, and_true, true_and]
  omega

/-- `recv_v4` looks at received bytes only, whatever the packet. -/
theorem within_parseV4 {p : Packet} (probe : Probe) (received : 20 ≤ p.n)
    : (parseV4 probe p.n).Within (Below p.n) p.byte := by
  simp only [parseV4, Query.within_bind, Query.within_ite, Query.within_pure, within_hlenAt,
    within_byte, run_hlenAt, Query.run_get, implies_true, true_and]
  refine ⟨by omega, fun long => ?_⟩
  have icmp : p.hlen 0 + 8 ≤ p.n := by omega
  have others : (again probe (p.hlen 0)).Within (Below p.n) p.byte := within_again probe icmp
  refine ⟨by omega, fun _ => ⟨by omega, fun _ => ?_, fun _ => others⟩, fun _ =>
    ⟨fun _ => ?_, fun _ => others⟩⟩
  · exact within_returned probe icmp (Query.within_pure _)
  · refine within_returned probe icmp ?_
    simp only [Query.within_bind, Query.within_ite, Query.within_pure, within_byte,
      implies_true, and_true]
    omega

/-- What arrives has at least an IP header. -/
def Arrival.Received : Arrival → Prop
  | .packet p => 20 ≤ p.n
  | .interrupted _ => True

/-- The same arrival but for bytes that were not received. -/
inductive Arrival.Agrees : Arrival → Arrival → Prop
  | packet {p p' : Packet} (same : p'.n = p.n)
      (bytes : ∀ offset, Below p.n offset → p.byte offset = p'.byte offset)
    : Agrees (.packet p) (.packet p')
  | interrupted (gotalarm : Bool) : Agrees (.interrupted gotalarm) (.interrupted gotalarm)

/-- `recv_v4` is decided by the received bytes, by induction on the arrivals. -/
theorem recvV4_congr (probe : Probe) {arrivals arrivals' : List Arrival}
    (received : ∀ a ∈ arrivals, a.Received)
    (agree : List.Forall₂ Arrival.Agrees arrivals arrivals')
    : recvV4 probe arrivals = recvV4 probe arrivals' := by
  induction agree with
  | nil => rfl
  | cons first _ ih =>
      have ih := ih fun a later => received a (List.mem_cons_of_mem _ later)
      cases first with
      | packet same bytes =>
          have long := received _ List.mem_cons_self
          have run := Query.run_congr (within_parseV4 probe long) bytes
          simp only [recvV4, same, ← run, ih]
      | interrupted gotalarm => simp only [recvV4, ih]

end Minions.Unp.Traceroute
