import Mathlib.Data.List.TakeWhile
import Minions.Unp.GaLists

/-! The list that runs of `ga_port`, and `ga_serv`, leave behind `aihead`. -/

namespace Minions.Unp.Gai

open Minions.Data

variable {answers : Nat → Bool} {m : Memory} {es : List Addrinfo}

-----------------------------------------------------------------------------------------
-- Every address with every socket type
-----------------------------------------------------------------------------------------

/-- Calls of `ga_port`, one after the other, and what each returns. -/
def portReturns (answers : Nat → Bool) (fuel : Nat)
    : Memory → List (Int × Int) → Option (Memory × List Int)
  | m, [] => some (m, [])
  | m, (port, socktype) :: calls => do
      let (m, rc) ← gaPort answers fuel m port socktype
      let (m, rcs) ← portReturns answers fuel m calls
      some (m, rc :: rcs)

/-- The socket address structure of a request, with a port. -/
def Request.sockaddr (r : Request) (port : Nat) : Sockaddr :=
  if r.family = .inet then .sockaddr_in port (r.addr.take 4)
  else .sockaddr_in6 port (r.addr.take 16)

/-- The entry for the address of a request and the port and socket type of a call. -/
def Request.served (r : Request) (flags : Nat) (call : Int × Int) : Addrinfo :=
  { r.entry with flags, socktype := call.2, addr := some (r.sockaddr (toUint16 call.1)) }

/-- The entries for the address of a request: the original has the first call, and the
clones have the later ones, the latest first.
-/
def Request.block (first : Int × Int) (later : List (Int × Int)) (r : Request) : List Addrinfo :=
  r.served AI_CLONE first :: later.reverse.map (r.served 0)

/-- Filling in any entry of a request. -/
theorem Request.fill_served {r : Request} (ported : r.family.hasPort) {ai : Addrinfo}
    (family : ai.family = r.family) {old : Nat} (addr : ai.addr = some (r.sockaddr old))
    (port socktype : Int)
    : ai.fill port socktype
        = { ai with socktype, addr := some (r.sockaddr (toUint16 port)) } := by
  rw [Addrinfo.fill, if_pos (by rw [family]; exact ported), addr]
  simp only [Option.map_some, Request.sockaddr]
  split <;> rfl

/-- The first call uses the entry that `ga_aistruct` has made. -/
theorem Request.ported_entry {r : Request} (ported : r.family.hasPort)
    (unspecified : r.hints.socktype = 0) (call : Int × Int)
    : r.entry.ported call.1 call.2 = r.block call [] := by
  have flags : r.entry.flags = AI_CLONE := by simp [Request.entry, unspecified]
  have socktype : r.entry.socktype = 0 := unspecified
  have addr : r.entry.addr = some (r.sockaddr 0) := rfl
  have filled := Request.fill_served ported rfl addr call.1 call.2
  have : AI_CLONE &&& AI_CLONE ≠ 0 := by decide
  rw [Addrinfo.ported, flags, if_pos this, socktype, filled]
  simp [Request.block, Request.served, flags]

/-- A later call clones the original and passes over the clones that have other types. -/
theorem Request.ported_block {r : Request} (ported : r.family.hasPort) {first call : Int × Int}
    {later : List (Int × Int)} (used : first.2 ≠ 0) (other : ∀ c ∈ later, c.2 ≠ call.2)
    : (r.block first later).flatMap (Addrinfo.ported call.1 call.2)
        = r.block first (later ++ [call]) := by
  have addr : ∀ flags c, (r.served flags c).addr = some (r.sockaddr (toUint16 c.1)) :=
    fun _ _ => rfl
  have original : (r.served AI_CLONE first).ported call.1 call.2
      = [r.served AI_CLONE first, r.served 0 call] := by
    have family : (r.served AI_CLONE first).copy.family = r.family := rfl
    have copied := Request.fill_served ported family (addr AI_CLONE first) call.1 call.2
    have : AI_CLONE &&& AI_CLONE ≠ 0 := by decide
    rw [Addrinfo.ported, show (r.served AI_CLONE first).flags = AI_CLONE from rfl, if_pos this,
      if_pos (show (r.served AI_CLONE first).socktype ≠ 0 from used), copied]
    rfl
  have clones : ∀ cs : List (Int × Int), (∀ c ∈ cs, c.2 ≠ call.2)
      → (cs.map (r.served 0)).flatMap (Addrinfo.ported call.1 call.2) = cs.map (r.served 0) := by
    intro cs others
    induction cs with
    | nil => rfl
    | cons c cs ih =>
        have stays : (r.served 0 c).ported call.1 call.2 = [r.served 0 c] := by
          rw [Addrinfo.ported, if_neg (by simp [Request.served]),
            if_pos (show (r.served 0 c).socktype ≠ call.2 from others c (by simp))]
        simp [stays, ih fun d member => others d (by simp [member])]
  rw [Request.block, List.flatMap_cons, original,
    clones later.reverse fun c member => other c (by simpa using member)]
  simp [Request.block]

/-- In the entries of one address exactly the original is counted. -/
theorem Request.countP_block {r : Request} (ported : r.family.hasPort) {first : Int × Int}
    {later : List (Int × Int)} {socktype : Int} (other : ∀ c ∈ later, c.2 ≠ socktype)
    : (r.block first later).countP (Addrinfo.counts socktype) = 1 := by
  have original : (r.served AI_CLONE first).counts socktype = true := by
    simp [Addrinfo.counts, Request.served, AI_CLONE, Request.entry, ported]
  have clones : (later.reverse.map (r.served 0)).countP (Addrinfo.counts socktype) = 0 := by
    rw [List.countP_eq_zero]
    intro ai member
    obtain ⟨c, known, rfl⟩ := List.mem_map.mp member
    simp [Addrinfo.counts, Request.served, other c (by simpa using known)]
  rw [Request.block, List.countP_cons, clones, original]
  rfl

/-- A pass over the entries of all addresses. -/
theorem ported_blocks {requests : List Request} (ported : ∀ r ∈ requests, r.family.hasPort)
    {first call : Int × Int} {later : List (Int × Int)} (used : first.2 ≠ 0)
    (other : ∀ c ∈ later, c.2 ≠ call.2)
    : (requests.flatMap (Request.block first later)).flatMap (Addrinfo.ported call.1 call.2)
          = requests.flatMap (Request.block first (later ++ [call]))
        ∧ (requests.flatMap (Request.block first later)).countP (Addrinfo.counts call.2)
          = requests.length := by
  induction requests with
  | nil => exact ⟨rfl, rfl⟩
  | cons r requests ih =>
      obtain ⟨blocks, count⟩ := ih fun q member => ported q (by simp [member])
      have mine := ported r (by simp)
      simp only [List.flatMap_cons, List.flatMap_append, List.countP_append, blocks, count,
        Request.ported_block mine used other, Request.countP_block mine other, List.length_cons,
        true_and]
      omega

/-- The first pass over the entries that `ga_aistruct` has made. -/
theorem ported_entries {requests : List Request}
    (unspecified : ∀ r ∈ requests, r.hints.socktype = 0 ∧ r.family.hasPort) (call : Int × Int)
    : (requests.map Request.entry).flatMap (Addrinfo.ported call.1 call.2)
          = requests.flatMap (Request.block call [])
        ∧ (requests.map Request.entry).countP (Addrinfo.counts call.2) = requests.length := by
  induction requests with
  | nil => exact ⟨rfl, rfl⟩
  | cons r requests ih =>
      obtain ⟨blocks, count⟩ := ih fun q member => unspecified q (by simp [member])
      obtain ⟨mine, ported⟩ := unspecified r (by simp)
      have counted : r.entry.counts call.2 = true := by
        simp [Addrinfo.counts, Request.entry, mine, AI_CLONE, ported]
      simp only [List.map_cons, List.flatMap_cons, List.countP_cons, blocks, count, counted,
        Request.ported_entry ported mine, List.length_cons, if_true, and_self]

/-- The number of requests in all blocks. -/
theorem length_blocks (requests : List Request) (first : Int × Int) (later : List (Int × Int))
    : (requests.flatMap (Request.block first later)).length
        = requests.length * (later.length + 1) := by
  induction requests with
  | nil => simp
  | cons r requests ih =>
      simp only [List.flatMap_cons, List.length_append, ih, Request.block, List.length_cons,
        List.length_map, List.length_reverse]
      ring

/-- The calls after the first, from the list that the calls before them have left. -/
theorem portReturns_blocks (ok : ∀ n, answers n = true) {requests : List Request}
    (ported : ∀ r ∈ requests, r.family.hasPort) {first : Int × Int} (used : first.2 ≠ 0)
    {calls later : List (Int × Int)}
    (distinct : ((later ++ calls).map Prod.snd).Nodup)
    (shows : m.Shows (requests.flatMap (Request.block first later)))
    : ∃ m', (∀ fuel, requests.length * (later.length + calls.length + 1) < fuel
          → portReturns answers fuel m calls
            = some (m', List.replicate calls.length (requests.length : Int)))
        ∧ m'.Shows (requests.flatMap (Request.block first (later ++ calls))) := by
  induction calls generalizing m later with
  | nil => exact ⟨m, fun _ _ => rfl, by simpa using shows⟩
  | cons call calls ih =>
      have other : ∀ c ∈ later, c.2 ≠ call.2 := by
        intro c member same
        rw [List.map_append] at distinct
        refine (List.nodup_append.mp distinct).2.2 c.2 (List.mem_map_of_mem member) call.2 ?_ same
        simp
      obtain ⟨blocks, count⟩ := ported_blocks ported used other
      rcases gaPort_shows answers call.1 call.2 shows with ⟨⟨n, fails⟩, -⟩ | ⟨m₁, run, shows₁⟩
      · simp [ok] at fails
      rw [blocks] at shows₁
      have remaining : (((later ++ [call]) ++ calls).map Prod.snd).Nodup := by simpa using distinct
      obtain ⟨m', rest, shows'⟩ := ih remaining shows₁
      refine ⟨m', fun fuel enough => ?_, by simpa using shows'⟩
      have now : (requests.flatMap (Request.block first later)).length < fuel := by
        rw [length_blocks]
        refine lt_of_le_of_lt (Nat.mul_le_mul_left _ ?_) enough
        omega
      have next := rest fuel (by simpa [Nat.add_assoc, Nat.add_comm 1] using enough)
      simp [portReturns, run fuel now, next, count, List.replicate_succ]

/-- All the calls, from the list that `ga_aistruct` has made. -/
theorem portReturns_entries (ok : ∀ n, answers n = true) {requests : List Request}
    (unspecified : ∀ r ∈ requests, r.hints.socktype = 0 ∧ r.family.hasPort)
    (shows : m.Shows (requests.map Request.entry)) {first : Int × Int} {rest : List (Int × Int)}
    (distinct : ((first :: rest).map Prod.snd).Nodup) (used : first.2 ≠ 0)
    : ∃ m', (∀ fuel, requests.length * (rest.length + 1) < fuel
          → portReturns answers fuel m (first :: rest)
            = some (m', List.replicate (rest.length + 1) (requests.length : Int)))
        ∧ m'.Shows (requests.flatMap (Request.block first rest)) := by
  have ported := fun r member => (unspecified r member).2
  obtain ⟨blocks, count⟩ := ported_entries unspecified first
  rcases gaPort_shows answers first.1 first.2 shows with ⟨⟨n, fails⟩, -⟩ | ⟨m₁, run, shows₁⟩
  · simp [ok] at fails
  rw [blocks] at shows₁
  have remaining : ((([] : List (Int × Int)) ++ rest).map Prod.snd).Nodup :=
    (List.nodup_cons.mp distinct).2
  obtain ⟨m', later, shows'⟩ := portReturns_blocks ok ported used remaining shows₁
  refine ⟨m', fun fuel enough => ?_, by simpa using shows'⟩
  have now : (requests.map Request.entry).length < fuel := by
    rw [List.length_map]
    exact lt_of_le_of_lt (Nat.le_mul_of_pos_right _ (by omega)) enough
  have next := later fuel (by simpa using enough)
  simp [portReturns, run fuel now, next, count, List.replicate_succ]

/-- The sum that `ga_serv` makes when no call fails. -/
theorem portCalls_of_returns {fuel : Nat} {m' : Memory} {calls : List (Int × Int)}
    {rcs : List Int} (returns : portReturns answers fuel m calls = some (m', rcs))
    (found : ∀ rc ∈ rcs, 0 ≤ rc) (nfound : Int)
    : portCalls answers fuel m calls nfound = some (m', some (nfound + rcs.sum)) := by
  induction calls generalizing m rcs nfound with
  | nil =>
      obtain ⟨rfl, rfl⟩ : m = m' ∧ [] = rcs := by simpa [portReturns] using returns
      simp [portCalls]
  | cons call calls ih =>
      obtain ⟨port, socktype⟩ := call
      simp only [portReturns, Option.bind_eq_bind, Option.bind_eq_some_iff, Prod.exists,
        Option.some.injEq, Prod.mk.injEq] at returns
      obtain ⟨m₁, rc, one, m₂, later, rest, rfl, rfl⟩ := returns
      have sign : ¬ rc < 0 := not_lt.mpr (found rc (by simp))
      rw [portCalls]
      simp only [one, Option.bind_eq_bind, Option.bind_some, sign, if_false]
      rw [ih rest fun rc member => found rc (by simp [member])]
      simp [add_assoc]

/-- `ga_aistruct` makes the list that it should. -/
theorem gaAistructs_entries (ok : ∀ n, answers n = true) {requests : List Request}
    (ported : ∀ r ∈ requests, r.family.hasPort)
    : ∃ m, gaAistructs answers {} 0 requests = (m, 0)
        ∧ m.Shows (requests.map Request.entry) :=
  gaAistructs_shows ok ported shows_nil

/-- Where `serv` is the port or the name of a service, the two ports that it has. -/
def Host.Supports (host : Host) (serv : List Byte) (tcp udp : Int) : Prop :=
  if isDigit (serv.headD 0) then
    tcp = host.order.htons (toUint16 (atoi host.overflow serv)) ∧ udp = tcp
  else host.getservbyname serv "tcp" = some tcp ∧ host.getservbyname serv "udp" = some udp

/-- Where a service is supported by both protocols, `ga_serv` makes both calls. -/
theorem servCalls_eq {host : Host} {hints : Hints} {serv : List Byte} {tcp udp : Int}
    (unspecified : hints.socktype = 0) (supported : host.Supports serv tcp udp)
    : servCalls host hints serv = [(tcp, SOCK_STREAM), (udp, SOCK_DGRAM)] := by
  unfold Host.Supports at supported
  split at supported
  · next digit =>
      obtain ⟨rfl, rfl⟩ := supported
      simp only [servCalls, digit, unspecified, if_true, ne_eq, not_true_eq_false, if_false]
  · next other =>
      rw [servCalls, if_neg other]
      simp [unspecified, supported]

/-- Successive calls of `ga_port` with different socket types, none of them 0, count every
address once, and leave behind the entries of each address in one place: the original with
the first socket type, then the clones, the latest first. So `ga_serv` without a socket type
leaves each address with the TCP port and then with the UDP port.
-/
theorem gaPort_clones (ok : ∀ n, answers n = true) (requests : List Request)
    (unspecified : ∀ r ∈ requests, r.hints.socktype = 0 ∧ r.family.hasPort)
    : ∃ m, gaAistructs answers {} 0 requests = (m, 0)
        ∧ (∀ first rest, ((first :: rest).map Prod.snd).Nodup → 0 ∉ (first :: rest).map Prod.snd
          → ∃ m' need, (∀ fuel, need < fuel → portReturns answers fuel m (first :: rest)
              = some (m', List.replicate (rest.length + 1) (requests.length : Int)))
            ∧ m'.Shows (requests.flatMap fun r =>
              r.served AI_CLONE first :: rest.reverse.map (r.served 0)))
        ∧ (∀ host hints serv tcp udp, hints.socktype = 0 → host.Supports serv tcp udp
          → ∃ m' need, (∀ fuel, need < fuel → gaServ answers fuel host m hints serv
              = some (m', if requests = [] then EAI_NONAME else 0))
            ∧ m'.Shows (requests.flatMap fun r =>
              [r.served AI_CLONE (tcp, SOCK_STREAM), r.served 0 (udp, SOCK_DGRAM)])) := by
  obtain ⟨m, made, shows⟩ := gaAistructs_entries ok fun r member => (unspecified r member).2
  refine ⟨m, made, ?_, ?_⟩
  · intro first rest distinct nonzero
    have used : first.2 ≠ 0 := fun zero => nonzero (by simp [zero])
    obtain ⟨m', run, shows'⟩ := portReturns_entries ok unspecified shows distinct used
    exact ⟨m', _, run, shows'⟩
  · intro host hints serv tcp udp hinted supported
    have distinct : (((tcp, SOCK_STREAM) :: [(udp, SOCK_DGRAM)]).map Prod.snd).Nodup := by
      simp [SOCK_STREAM, SOCK_DGRAM]
    have used : SOCK_STREAM ≠ 0 := by decide
    obtain ⟨m', run, shows'⟩ := portReturns_entries ok unspecified shows distinct used
    refine ⟨m', requests.length * 2, fun fuel enough => ?_, shows'⟩
    have sum := portCalls_of_returns (run fuel enough) (fun rc member => by
      simp [List.eq_of_mem_replicate member]) 0
    rw [gaServ, servCalls_eq hinted supported, sum]
    cases requests with
    | nil => simp [hinted]
    | cons r requests =>
        have many : (requests.length : Int) + 1 + ((requests.length : Int) + 1) ≠ 0 := by omega
        simp [List.replicate_succ, many]

/-- A list with one address of each family. -/
theorem gaPort_clones_dual
    : ∃ m, gaAistructs (fun _ => true) {} 0
            [⟨⟨0, 0, 0⟩, [127, 0, 0, 1], .inet⟩, ⟨⟨0, 0, 0⟩, List.replicate 16 1, .inet6⟩] = (m, 0)
        ∧ ∃ m' need, (∀ fuel, need < fuel
            → portReturns (fun _ => true) fuel m [(80, 1), (81, 2), (82, 3)] = some (m', [2, 2, 2]))
          ∧ m'.Shows
            [⟨4, .inet, 1, 0, none, 16, some (.sockaddr_in 80 [127, 0, 0, 1])⟩,
              ⟨0, .inet, 3, 0, none, 16, some (.sockaddr_in 82 [127, 0, 0, 1])⟩,
              ⟨0, .inet, 2, 0, none, 16, some (.sockaddr_in 81 [127, 0, 0, 1])⟩,
              ⟨4, .inet6, 1, 0, none, 28, some (.sockaddr_in6 80 (List.replicate 16 1))⟩,
              ⟨0, .inet6, 3, 0, none, 28, some (.sockaddr_in6 82 (List.replicate 16 1))⟩,
              ⟨0, .inet6, 2, 0, none, 28, some (.sockaddr_in6 81 (List.replicate 16 1))⟩] := by
  obtain ⟨m, made, calls, -⟩ := gaPort_clones (fun _ => rfl)
    [⟨⟨0, 0, 0⟩, [127, 0, 0, 1], .inet⟩, ⟨⟨0, 0, 0⟩, List.replicate 16 1, .inet6⟩] (by decide)
  exact ⟨m, made, calls (80, 1) [(81, 2), (82, 3)] (by decide) (by decide)⟩

-----------------------------------------------------------------------------------------
-- Port number strings
-----------------------------------------------------------------------------------------

/-- The string is a decimal numeral of a port. -/
def IsPort (serv : List Byte) : Prop := (∀ b ∈ serv, isDigit b) ∧ digitsValue serv ≤ 65535

/-- The port of a socket address structure, in network byte order. -/
def Sockaddr.port : Sockaddr → Option Nat
  | .sockaddr_in port _ => some port
  | .sockaddr_in6 port _ => some port
  | .sockaddr_un _ => none

/-- An IPv4 or IPv6 entry as `ga_aistruct` makes it for the caller's socket type. -/
structure Addrinfo.Fits (hints : Hints) (ai : Addrinfo) : Prop where
  socktype : ai.socktype = hints.socktype
  flags : ai.flags &&& AI_CLONE ≠ 0 ↔ hints.socktype = 0
  ported : ai.family.hasPort
  addr : ∃ addr port, ai.addr = some addr ∧ addr.port = some port

/-- What is asked of `ga_serv` for a string that starts with a digit: it returns 0 only for
a port number, which then all entries have; for any other string it returns an error and no
entry has a port.
-/
def PortString (answers : Nat → Bool) (host : Host) (m : Memory) (hints : Hints)
    (serv : List Byte) : Prop :=
  ∃ m' rc need, (∀ fuel, need < fuel → gaServ answers fuel host m hints serv = some (m', rc))
    ∧ (rc = 0 → IsPort serv ∧ ∃ es, m'.Shows es ∧ ∀ ai ∈ es, ∃ addr port,
        ai.addr = some addr ∧ addr.port = some port
        ∧ host.order.ntohs port = digitsValue serv)
    ∧ (¬ IsPort serv → rc ≠ 0 ∧ ∃ es, m'.Shows es ∧ ∀ ai ∈ es, ∃ addr,
        ai.addr = some addr ∧ addr.port = some 0)

/-- The entry has a port, which is `n` in network byte order. -/
def Addrinfo.HasPort (n : Nat) (ai : Addrinfo) : Prop :=
  ai.family.hasPort ∧ ∃ addr, ai.addr = some addr ∧ addr.port = some n

/-- An entry that is filled has the port. -/
theorem Addrinfo.HasPort.fill {n : Nat} {ai : Addrinfo} (has : ai.HasPort n) (port socktype : Int)
    : (ai.fill port socktype).HasPort (toUint16 port) := by
  obtain ⟨ported, addr, stored, known⟩ := has
  rw [Addrinfo.fill, if_pos ported, stored]
  refine ⟨ported, addr.setPort port, rfl, ?_⟩
  cases addr <;> simp_all [Sockaddr.port, Sockaddr.setPort]

/-- One call of `ga_port` among those of `ga_serv`. -/
theorem portCalls_step (answers : Nat → Bool) (port socktype : Int) (calls : List (Int × Int))
    (shows : m.Shows es)
    : (∃ m', ∀ fuel nfound, es.length < fuel
          → portCalls answers fuel m ((port, socktype) :: calls) nfound = some (m', none))
        ∧ (∃ n, answers n = false)
      ∨ ∃ m' : Memory, (∀ fuel nfound, es.length < fuel
          → portCalls answers fuel m ((port, socktype) :: calls) nfound
            = portCalls answers fuel m' calls
              (nfound + (es.countP (Addrinfo.counts socktype) : Int)))
        ∧ m'.Shows (es.flatMap (Addrinfo.ported port socktype)) := by
  rcases gaPort_shows answers port socktype shows with ⟨fails, m', run⟩ | ⟨m', run, shows'⟩
  · refine .inl ⟨⟨m', fun fuel nfound enough => ?_⟩, fails⟩
    simp [portCalls, run fuel enough]
  · refine .inr ⟨m', fun fuel nfound enough => ?_, shows'⟩
    have sign : ¬ (es.countP (Addrinfo.counts socktype) : Int) < 0 := by omega
    simp only [portCalls, run fuel enough, Option.bind_eq_bind, Option.bind_some, sign, if_false]

/-- With a socket type, or in the first pass without one, every entry is counted and filled
in.
-/
theorem Addrinfo.Fits.pass {hints : Hints} {ai : Addrinfo} (fits : ai.Fits hints)
    {socktype : Int} (mine : hints.socktype ≠ 0 → socktype = hints.socktype) (port : Int)
    : ai.counts socktype ∧ ai.ported port socktype = [ai.fill port socktype] := by
  by_cases unspecified : hints.socktype = 0
  · have flags := fits.flags.mpr unspecified
    have unused : ai.socktype = 0 := fits.socktype.trans unspecified
    exact ⟨by simp [Addrinfo.counts, flags, fits.ported],
      by rw [Addrinfo.ported, if_pos flags, if_neg (not_not.mpr unused)]⟩
  · have flags : ¬ ai.flags &&& AI_CLONE ≠ 0 := fun set => unspecified (fits.flags.mp set)
    have same : ai.socktype = socktype := fits.socktype.trans (mine unspecified).symm
    exact ⟨by simp [Addrinfo.counts, same, fits.ported],
      by rw [Addrinfo.ported, if_neg flags, if_neg (not_not.mpr same)]⟩

/-- So a first pass fills in every entry. -/
theorem fits_pass {hints : Hints} (fits : ∀ ai ∈ es, ai.Fits hints) {socktype : Int}
    (mine : hints.socktype ≠ 0 → socktype = hints.socktype) (port : Int)
    : es.countP (Addrinfo.counts socktype) = es.length
        ∧ es.flatMap (Addrinfo.ported port socktype) = es.map (Addrinfo.fill port socktype) := by
  refine ⟨List.countP_eq_length.mpr fun ai member => ((fits ai member).pass mine port).1, ?_⟩
  rw [List.map_eq_flatMap]
  exact List.flatMap_congr fun ai member => ((fits ai member).pass mine port).2

/-- All entries made of one have the port. -/
theorem Addrinfo.HasPort.ported {port socktype : Int} {ai made : Addrinfo}
    (has : ai.HasPort (toUint16 port)) (member : made ∈ ai.ported port socktype)
    : made.HasPort (toUint16 port) := by
  have copy : ai.copy.HasPort (toUint16 port) := has
  unfold Addrinfo.ported at member
  split_ifs at member <;> simp only [List.mem_cons, List.not_mem_nil, or_false] at member
  · rcases member with rfl | rfl
    · exact has
    · exact copy.fill port socktype
  · exact member ▸ has.fill port socktype
  · exact member ▸ has
  · exact member ▸ has.fill port socktype

/-- Where all entries have a port, calls with this port leave it to all of them. -/
theorem portCalls_one (answers : Nat → Bool) {port : Int} {calls : List (Int × Int)}
    (same : ∀ c ∈ calls, c.1 = port) (shows : m.Shows es)
    (has : ∀ ai ∈ es, ai.HasPort (toUint16 port)) {found : Int} (positive : 0 < found)
    : (∃ m' need, ∀ fuel, need < fuel → portCalls answers fuel m calls found = some (m', none))
        ∧ (∃ n, answers n = false)
      ∨ ∃ (m' : Memory) (nfound : Int) (need : Nat), 0 < nfound
        ∧ (∀ fuel, need < fuel → portCalls answers fuel m calls found = some (m', some nfound))
        ∧ ∃ es', m'.Shows es' ∧ ∀ ai ∈ es', ai.HasPort (toUint16 port) := by
  induction calls generalizing m es found with
  | nil => exact .inr ⟨m, found, 0, positive, fun _ _ => rfl, es, shows, has⟩
  | cons call calls ih =>
      obtain ⟨p, socktype⟩ := call
      obtain rfl : p = port := same (p, socktype) (by simp)
      rcases portCalls_step answers p socktype calls shows with
        ⟨⟨m', run⟩, fails⟩ | ⟨m₁, run, shows₁⟩
      · exact .inl ⟨⟨m', es.length, fun fuel enough => run fuel found enough⟩, fails⟩
      have has₁ : ∀ ai ∈ es.flatMap (Addrinfo.ported p socktype), ai.HasPort (toUint16 p) := by
        intro ai member
        obtain ⟨before, old, made⟩ := List.mem_flatMap.mp member
        exact (has before old).ported made
      have positive₁ : 0 < found + (es.countP (Addrinfo.counts socktype) : Int) := by omega
      rcases ih (fun c member => same c (by simp [member])) shows₁ has₁ positive₁
        with ⟨⟨m', need, rest⟩, fails⟩ | ⟨m', nfound, need, more, rest, last⟩
      · refine .inl ⟨⟨m', max es.length need, fun fuel enough => ?_⟩, fails⟩
        rw [run fuel found (by omega), rest fuel (by omega)]
      · refine .inr ⟨m', nfound, max es.length need, more, fun fuel enough => ?_, last⟩
        rw [run fuel found (by omega), rest fuel (by omega)]

/-- `ga_serv` with a string that starts with a digit runs out of memory, or it returns 0 and
all entries have what `atoi` makes of the string.
-/
theorem gaServ_digit (answers : Nat → Bool) (host : Host) {hints : Hints} {serv : List Byte}
    (shows : m.Shows es) (nonempty : es ≠ []) (fits : ∀ ai ∈ es, ai.Fits hints)
    (digit : isDigit (serv.headD 0))
    : (∃ m' need, ∀ fuel, need < fuel
          → gaServ answers fuel host m hints serv = some (m', EAI_MEMORY))
        ∧ (∃ n, answers n = false)
      ∨ ∃ (m' : Memory) (need : Nat), (∀ fuel, need < fuel
          → gaServ answers fuel host m hints serv = some (m', 0))
        ∧ ∃ es', m'.Shows es'
          ∧ ∀ ai ∈ es', ai.HasPort (host.order.htons (toUint16 (atoi host.overflow serv))) := by
  let port : Int := host.order.htons (toUint16 (atoi host.overflow serv))
  have narrow : toUint16 port = host.order.htons (toUint16 (atoi host.overflow serv)) :=
    toUint16_natCast (Endian.htons_lt ..)
  obtain ⟨socktype, calls, mine, same, plan⟩ : ∃ socktype calls,
      (hints.socktype ≠ 0 → socktype = hints.socktype) ∧ (∀ c ∈ calls, c.1 = port)
        ∧ servCalls host hints serv = (port, socktype) :: calls := by
    by_cases unspecified : hints.socktype = 0
    · refine ⟨SOCK_STREAM, [(port, SOCK_DGRAM)], by simp [unspecified], by simp, ?_⟩
      rw [servCalls, if_pos digit]
      simp [unspecified, port]
    · refine ⟨hints.socktype, [], by simp, by simp, ?_⟩
      rw [servCalls, if_pos digit]
      simp [unspecified, port]
  obtain ⟨count, filled⟩ := fits_pass fits mine port
  rw [← narrow]
  rcases portCalls_step answers port socktype calls shows with
    ⟨⟨m', run⟩, fails⟩ | ⟨m₁, run, shows₁⟩
  · refine .inl ⟨⟨m', es.length, fun fuel enough => ?_⟩, fails⟩
    simp [gaServ, plan, run fuel 0 enough]
  rw [filled] at shows₁
  rw [count] at run
  have has : ∀ ai ∈ es.map (Addrinfo.fill port socktype), ai.HasPort (toUint16 port) := by
    intro ai member
    obtain ⟨before, old, rfl⟩ := List.mem_map.mp member
    obtain ⟨addr, n, stored, known⟩ := (fits before old).addr
    exact Addrinfo.HasPort.fill ⟨(fits before old).ported, addr, stored, known⟩ port socktype
  have positive : 0 < (0 : Int) + es.length := by
    have := List.length_pos_iff.mpr nonempty
    omega
  rcases portCalls_one answers same shows₁ has positive
    with ⟨⟨m', need, rest⟩, fails⟩ | ⟨m', nfound, need, more, rest, last⟩
  · refine .inl ⟨⟨m', max es.length need, fun fuel enough => ?_⟩, fails⟩
    rw [gaServ, plan, run fuel 0 (by omega), rest fuel (by omega)]
    rfl
  · refine .inr ⟨m', max es.length need, fun fuel enough => ?_, last⟩
    rw [gaServ, plan, run fuel 0 (by omega), rest fuel (by omega)]
    simp [more.ne']

/-- `atoi` of the numeral of a port. -/
theorem IsPort.atoi {serv : List Byte} (isPort : IsPort serv) (digit : isDigit (serv.headD 0))
    (overflow : List Byte → Int)
    : atoi overflow serv = digitsValue serv := by
  obtain ⟨digits, small⟩ := isPort
  have whole : serv.takeWhile isDigit = serv := List.takeWhile_eq_self_iff.mpr digits
  have value : atol serv = digitsValue serv := by
    cases serv with
    | nil => simp [isDigit] at digit
    | cons b rest =>
        obtain ⟨notSpace, notMinus, notPlus⟩ := isDigit_plain (digits b (by simp))
        simp only [atol, List.dropWhile_cons, notSpace, Bool.false_eq_true, if_false, notMinus,
          notPlus, whole, clampLong]
        omega
  rw [Gai.atoi, value, if_pos (by omega)]

/-- When memory is available, `ga_serv` returns 0. -/
theorem PortString.isPort {host : Host} {hints : Hints} {serv : List Byte}
    (asked : PortString (fun _ => true) host m hints serv) (shows : m.Shows es)
    (nonempty : es ≠ []) (fits : ∀ ai ∈ es, ai.Fits hints) (digit : isDigit (serv.headD 0))
    : IsPort serv := by
  obtain ⟨m', rc, need, run, success, -⟩ := asked
  rcases gaServ_digit (fun _ => true) host shows nonempty fits digit
    with ⟨-, n, fails⟩ | ⟨m₁, need₁, run₁, -⟩
  · simp at fails
  have both := (run (need + need₁ + 1) (by omega)).symm.trans (run₁ _ (by omega))
  simp only [Option.some.injEq, Prod.mk.injEq] at both
  exact (success both.2).1

/-- `ga_serv` does what is asked, however many allocations succeed, if and only if the whole
string is the numeral of a port: it takes any other string that starts with a digit for a port
number as well.
-/
theorem gaServ_portString_iff (host : Host) {hints : Hints} {serv : List Byte}
    (shows : m.Shows es) (nonempty : es ≠ []) (fits : ∀ ai ∈ es, ai.Fits hints)
    (digit : isDigit (serv.headD 0))
    : (∀ answers, PortString answers host m hints serv) ↔ IsPort serv := by
  refine ⟨fun asked => (asked _).isPort shows nonempty fits digit, fun isPort answers => ?_⟩
  rcases gaServ_digit answers host shows nonempty fits digit
    with ⟨⟨m', need, run⟩, -⟩ | ⟨m', need, run, es', shows', has⟩
  · have error : EAI_MEMORY ≠ 0 := by decide
    exact ⟨m', EAI_MEMORY, need, run, fun none => absurd none error, fun other =>
      absurd isPort other⟩
  · refine ⟨m', 0, need, run, fun _ => ⟨isPort, es', shows', fun ai member => ?_⟩, fun other =>
      absurd isPort other⟩
    obtain ⟨-, addr, stored, port⟩ := has ai member
    refine ⟨addr, _, stored, port, ?_⟩
    have small : digitsValue serv < 65536 := by
      have := isPort.2
      omega
    rw [isPort.atoi digit, toUint16_natCast small, Endian.ntohs_htons _ small]

/-- The loopback address for a caller who wants TCP. -/
def loopback : Request := ⟨⟨0, SOCK_STREAM, 6⟩, [127, 0, 0, 1], .inet⟩

/-- The sample list fits its hints. -/
theorem loopback_fits : ∀ ai ∈ [loopback].map Request.entry, ai.Fits loopback.hints := by
  intro ai member
  obtain rfl : ai = loopback.entry := by simpa using member
  exact ⟨rfl, by decide, rfl, .sockaddr_in 0 [127, 0, 0, 1], 0, rfl, rfl⟩

/-- The sample list is made. -/
theorem loopback_made
    : ∃ m, gaAistructs (fun _ => true) {} 0 [loopback] = (m, 0)
        ∧ m.Shows ([loopback].map Request.entry) :=
  gaAistructs_entries (fun _ => rfl) (by decide)

/-- The string `80`. -/
theorem gaServ_portString_80
    : ∃ m, gaAistructs (fun _ => true) {} 0 [loopback] = (m, 0)
        ∧ ((∀ answers, PortString answers ⟨.little, fun _ => 0, fun _ _ => none⟩ m loopback.hints
            [56, 48]) ↔ IsPort [56, 48]) := by
  obtain ⟨m, made, shows⟩ := loopback_made
  exact ⟨m, made, gaServ_portString_iff _ shows (by decide) loopback_fits (by decide)⟩

/-- The string `80abc` is accepted as port 80. -/
theorem gaServ_trailing
    : ∃ m, gaAistructs (fun _ => true) {} 0 [loopback] = (m, 0)
        ∧ ((gaServ (fun _ => true) 3 ⟨.little, fun _ => 0, fun _ _ => none⟩ m loopback.hints
            [56, 48, 97, 98, 99]).map fun result => (result.2, (result.1.addrinfo 1).addr))
          = some (0, some (.sockaddr_in 20480 [127, 0, 0, 1]))
        ∧ ¬ PortString (fun _ => true) ⟨.little, fun _ => 0, fun _ _ => none⟩ m loopback.hints
          [56, 48, 97, 98, 99] := by
  obtain ⟨m, made, shows⟩ := loopback_made
  refine ⟨m, made, ?_, fun asked => ?_⟩
  · obtain rfl : _ = m := congrArg Prod.fst made
    rfl
  · have digits := (asked.isPort shows (by decide) loopback_fits (by decide)).1
    exact absurd (digits 97 (by decide)) (by decide)

end Minions.Unp.Gai
