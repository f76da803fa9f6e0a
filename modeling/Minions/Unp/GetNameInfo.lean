import Minions.Unp.GaLookup
import Minions.Unp.InetNtop

/-! Addresses and ports as numbers in text, written by `libgai/getnameinfo.c` with `gn_ipv46.c`
and read back by `getaddrinfo`.
-/

namespace Minions.Unp.Gai

open Minions.Data
open Minions.Unp.Inet (inetPton inetPton4 inetPton6 inetNtop xdigit DottedQuad Denotes6 Octet
  addrStrLen IsAddress)

-----------------------------------------------------------------------------------------
-- `getnameinfo`
-----------------------------------------------------------------------------------------

def NI_NOFQDN : Nat := 1

def NI_NUMERICHOST : Nat := 2

def NI_NAMEREQD : Nat := 4

def NI_NUMERICSERV : Nat := 8

def NI_DGRAM : Nat := 16

/-- The library with what `getnameinfo` gets from it: the name of a host by its address, and of
a service by its port, in network byte order, and its protocol.
-/
structure Library extends Resolver where
  gethostbyaddr : List Byte → Family → Option (List Byte)
  getservbyport : Nat → Option String → Option (List Byte)

/-- The bytes that `snprintf(buf, size, "%s", text)` stores. -/
def snprintf (size : Nat) (text : List Byte) : List Byte := text.take (size - 1) ++ [0]

/-- `inet_ntop` of `gn_ipv46`; `none` is `return (1)`. -/
def numericHost (family : Family) (aptr : List Byte) (hostlen : Nat) : Option (List Byte) :=
  (inetNtop family aptr hostlen).toOption

/-- The bytes that `gn_ipv46` stores at `host`; `none` is `return (1)`. -/
def gnHost (lib : Library) (hostlen : Nat) (aptr : List Byte) (family : Family) (flags : Nat)
    : Option (List Byte) :=
  if flags &&& NI_NUMERICHOST ≠ 0 then numericHost family aptr hostlen
  else
    match lib.gethostbyaddr aptr family with
    | some name =>
        some (snprintf hostlen
          (if flags &&& NI_NOFQDN ≠ 0 then name.takeWhile (· ≠ ascii '.') else name))
    | none =>
        if flags &&& NI_NAMEREQD ≠ 0 then none else numericHost family aptr hostlen

/-- The bytes that `gn_ipv46` stores at `serv`. -/
def gnServ (lib : Library) (servlen : Nat) (port flags : Nat) : List Byte :=
  if flags &&& NI_NUMERICSERV ≠ 0 then snprintf servlen (decimal (lib.order.ntohs port))
  else
    match lib.getservbyport port (if flags &&& NI_DGRAM ≠ 0 then some "udp" else none) with
    | some name => snprintf servlen name
    | none => snprintf servlen (decimal (lib.order.ntohs port))

/-- What a call stores at `host` and at `serv`, where it stores anything. -/
structure NameInfo where
  host : Option (List Byte)
  serv : Option (List Byte)
deriving DecidableEq

/-- `gn_ipv46`; `none` is `return (1)`. -/
def gnIpv46 (lib : Library) (hostlen servlen : Nat) (aptr : List Byte) (family : Family)
    (port flags : Nat) : Option NameInfo := do
  let host ← if hostlen > 0 then (gnHost lib hostlen aptr family flags).map some else some none
  some ⟨host, if servlen > 0 then some (gnServ lib servlen port flags) else none⟩

/-- `getnameinfo`; `none` is `return (1)`. -/
def getnameinfo (lib : Library) (sa : Sockaddr) (hostlen servlen flags : Nat)
    : Option NameInfo :=
  match sa with
  | .sockaddr_in port addr => gnIpv46 lib hostlen servlen addr .inet port flags
  | .sockaddr_in6 port addr => gnIpv46 lib hostlen servlen addr .inet6 port flags
  | .sockaddr_un path =>
      some ⟨if hostlen > 0 then some (snprintf hostlen localName) else none,
        if servlen > 0 then some (snprintf servlen path) else none⟩

-----------------------------------------------------------------------------------------
-- Numeric strings
-----------------------------------------------------------------------------------------

/-- A dotted quad starts with a digit and has no colon. -/
theorem quad_bytes {text addr : List Byte} (quad : DottedQuad text addr)
    : isDigit (text.headD 0) ∧ ascii ':' ∉ text := by
  obtain ⟨front, last, three, octets, octet, rfl, -⟩ := quad
  have digits : ∀ group, Octet group → ascii ':' ∉ group := by
    intro group shape member
    have digit := shape.2.1 _ member
    revert digit
    decide
  constructor
  · obtain ⟨first, rest, rfl⟩ : ∃ first rest, front = first :: rest := by
      cases front with
      | nil => simp at three
      | cons first rest => exact ⟨first, rest, rfl⟩
    obtain ⟨nonempty, isDigits, -⟩ := octets first (by simp)
    obtain ⟨b, bs, rfl⟩ := List.exists_cons_of_ne_nil nonempty
    exact isDigits b (by simp)
  · intro member
    rcases List.mem_append.mp member with inFront | inLast
    · obtain ⟨group, known, inGroup⟩ := List.mem_flatMap.mp inFront
      rcases List.mem_append.mp inGroup with inDigits | dot
      · exact digits group (octets group known) inDigits
      · revert dot
        decide
    · exact digits last octet inLast

/-- Each group of hexadecimal digits starts with one. -/
theorem isxdigit_group {group rest : List Byte} (shape : Inet.Group group)
    : isxdigit ((group ++ rest).headD 0) := by
  obtain ⟨b, bs, rfl⟩ := List.exists_cons_of_ne_nil shape.1
  rw [isxdigit, Inet.xdigit_eq]
  exact shape.2.1 b (by simp)

/-- What denotes an IPv6 address has a colon, and starts with one or with a hexadecimal digit. -/
theorem denotes_bytes {text addr : List Byte} (denotes : Denotes6 text addr)
    : (isxdigit (text.headD 0) ∨ text.headD 0 = ascii ':') ∧ ascii ':' ∈ text := by
  cases denotes with
  | @full groups ending bytes each last size =>
      cases groups with
      | nil =>
          -- an ending alone is too short
          exfalso
          cases last with
          | nothing => simp [Inet.IN6ADDRSZ] at size
          | group => simp [Inet.groupBytes, Inet.IN6ADDRSZ] at size
          | quad quad =>
              obtain ⟨front, last, three, -, -, -, rfl⟩ := quad
              simp [three, Inet.IN6ADDRSZ] at size
      | cons group groups =>
          refine ⟨.inl ?_, by simp [unlines]⟩
          rw [show unlines (ascii ':') (group :: groups) ++ ending
            = group ++ (ascii ':' :: (unlines (ascii ':') groups ++ ending)) by simp [unlines]]
          exact isxdigit_group (each group (by simp))
  | @squeezed before after ending bytes front back last size =>
      refine ⟨?_, by simp⟩
      cases before with
      | nil => exact .inr (by simp)
      | cons group before =>
          refine .inl ?_
          rw [if_neg (by simp), show ∀ rest, unlines (ascii ':') (group :: before) ++ rest
            = group ++ (ascii ':' :: (unlines (ascii ':') before ++ rest)) by simp [unlines]]
          exact isxdigit_group (front group (by simp))

/-- The checks of the search loop before `inet_pton` refuse nothing that it accepts. -/
theorem ipv4String_eq (text : List Byte) : ipv4String text = inetPton4 text := by
  unfold ipv4String
  split
  · rfl
  · next digit =>
      cases accepted : inetPton4 text with
      | none => rfl
      | some addr => exact absurd (quad_bytes (Inet.inetPton4_eq_some.mp accepted)).1 digit

/-- The text of an IPv6 address is parsed as it is by `inet_pton`. -/
theorem ipv6String_eq (text : List Byte) : ipv6String text = inetPton6 text := by
  unfold ipv6String
  split
  · rfl
  · next other =>
      cases accepted : inetPton6 text with
      | none => rfl
      | some addr =>
          obtain ⟨first, colon⟩ := denotes_bytes (Inet.inetPton6_eq_some.mp accepted)
          refine absurd ?_ other
          rcases first with hex | lead <;> simp_all

/-- No text is an address of both families. -/
theorem ipv4String_of_ipv6 {text addr : List Byte} (accepted : inetPton6 text = some addr)
    : inetPton4 text = none := by
  cases quad : inetPton4 text with
  | none => rfl
  | some other =>
      exact absurd (denotes_bytes (Inet.inetPton6_eq_some.mp accepted)).2
        (quad_bytes (Inet.inetPton4_eq_some.mp quad)).2

-----------------------------------------------------------------------------------------
-- The answer for numeric strings
-----------------------------------------------------------------------------------------

/-- What a caller uses of an entry. -/
structure Endpoint where
  family : Family
  socktype : Int
  protocol : Int
  addr : Option Sockaddr
deriving DecidableEq

def Addrinfo.endpoint (ai : Addrinfo) : Endpoint :=
  ⟨ai.family, ai.socktype, ai.protocol, ai.addr⟩

/-- `ga_echeck` has nothing against the hints. -/
def SearchHints.Accepted (hints : SearchHints) : Prop :=
  gaEcheck (some localhost) none hints.flags hints.family hints.socktype = 0

/-- Accepted hints are accepted with a host name. -/
theorem SearchHints.Accepted.host {hints : SearchHints} (accepted : hints.Accepted)
    {hostname : Option (List Byte)} (present : absent hostname = false)
    (servname : Option (List Byte))
    : gaEcheck hostname servname hints.flags hints.family hints.socktype = 0 := by
  have both : absent (some localhost) = false := by decide
  unfold SearchHints.Accepted at accepted
  simp only [gaEcheck, both, present, Bool.false_and] at accepted ⊢
  exact accepted

/-- Every entry that `spread` makes has the address of the original, with its port. -/
theorem endpoint_spread {ai : Addrinfo} {sa : Sockaddr} (ported : ai.family.hasPort)
    (addr : ai.addr = some sa) {calls : List (Int × Int)} (given : calls ≠ [])
    : (ai.spread calls).map Addrinfo.endpoint
      = calls.map fun c => ⟨ai.family, c.2, ai.protocol, some (sa.setPort c.1)⟩ := by
  have filled : ∀ (ai' : Addrinfo) (c : Int × Int), ai'.family = ai.family
      → ai'.protocol = ai.protocol → ai'.addr = some sa
      → (ai'.fill c.1 c.2).endpoint
        = ⟨ai.family, c.2, ai.protocol, some (sa.setPort c.1)⟩ := by
    intro ai' c family protocol stored
    rw [Addrinfo.fill, family, if_pos ported]
    simp [Addrinfo.endpoint, protocol, stored]
  cases calls with
  | nil => exact absurd rfl given
  | cons first later =>
      rw [Addrinfo.spread, List.map_cons, List.map_cons, filled ai first rfl rfl addr]
      congr 1
      rw [List.map_map]
      exact List.map_congr_left fun c _ => filled ai.copy c rfl rfl addr

/-- `ga_serv` with the numeral of a port. -/
theorem servCalls_decimal (host : Host) (hints : Hints) {port : Nat} (small : port < 65536)
    : servCalls host hints (decimal port)
      = (wantedTypes hints).map fun socktype => ((host.order.htons port : Int), socktype) := by
  have digit : isDigit ((decimal port).headD 0) := by
    obtain ⟨b, bs, eq⟩ := List.exists_cons_of_ne_nil (decimal_ne_nil port)
    have first : b ∈ decimal port := by simp [eq]
    rw [eq]
    exact decimal_isDigit first
  have isPort : IsPort (decimal port) :=
    ⟨fun b member => decimal_isDigit member, by rw [digitsValue_decimal]; omega⟩
  rw [servCalls, if_pos digit, isPort.atoi digit, digitsValue_decimal, toUint16_natCast small]
  by_cases unspecified : hints.socktype = 0
  · simp [wantedTypes, unspecified]
  · simp [wantedTypes, unspecified]

/-- The socket address structure with an address of a family. -/
def Family.sockaddr (family : Family) (port : Nat) (addr : List Byte) : Sockaddr :=
  if family = .inet then .sockaddr_in port addr else .sockaddr_in6 port addr

/-- A pass with a numeric string: it is skipped in the search for the other family. -/
theorem find_numeric {hints : SearchHints} {s : Search} {family : Family} {addr : List Byte}
    (r : Resolver) (nsearch : Nat) (ported : family.hasPort)
    (numeric : inetPton family s.host = .ok (some addr))
    (matching : hints.family = AF_UNSPEC ∨ hints.family = family)
    : s.find r hints nsearch
      = if s.family = family then .ok (.numeric addr family) else .ok .skip := by
  have noError : ¬ (hints.family ≠ AF_UNSPEC ∧ hints.family ≠ family) := by tauto
  have found : s.find r hints nsearch = s.numeric hints addr family := by
    cases family with
    | inet =>
        have quad : inetPton4 s.host = some addr := by simpa [inetPton] using numeric
        rw [Search.find, ipv4String_eq, quad]
    | inet6 =>
        have hex : inetPton6 s.host = some addr := by simpa [inetPton] using numeric
        rw [Search.find, ipv4String_eq, ipv4String_of_ipv6 hex, ipv6String_eq, hex]
    | «local» => cases ported
    | other number => cases ported
  rw [found, Search.numeric, if_neg noError, ite_not]

/-- The searches for a numeric string find its address once. -/
theorem search_numeric {hints : SearchHints} {text : List Byte} {family : Family}
    {addr : List Byte} (r : Resolver) (present : absent (some text) = false)
    (ported : family.hasPort) (numeric : inetPton family text = .ok (some addr))
    (matching : hints.family = AF_UNSPEC ∨ hints.family = family)
    : ∃ search, gaNsearch (some text) hints = some search
        ∧ search.foldlM (Found.pass r (some text) hints search.length) {}
          = .ok ⟨[Request.entry ⟨hints.toHints, addr, family⟩], none⟩ := by
  have pass : ∀ nsearch (f : Found) (family' : Family),
      f.pass r (some text) hints nsearch ⟨text, family'⟩
        = .ok { f with
          entries := f.entries ++
            if family' = family then [Request.entry ⟨hints.toHints, addr, family⟩] else [] } := by
    intro nsearch f family'
    unfold Found.pass
    rw [find_numeric (s := ⟨text, family'⟩) r nsearch ported numeric matching]
    by_cases same : family' = family <;> simp [same]
  rcases matching with unspecified | same
  · refine ⟨[⟨text, .inet6⟩, ⟨text, .inet⟩], ?_, ?_⟩
    · simp [gaNsearch, present, unspecified, AF_UNSPEC, searchFamilies]
    · simp only [List.foldlM_cons, pass]
      cases family with
      | inet => rfl
      | inet6 => rfl
      | «local» => cases ported
      | other number => cases ported
  · refine ⟨[⟨text, family⟩], ?_, ?_⟩
    · cases family with
      | inet => simp [gaNsearch, present, same, searchFamilies]
      | inet6 => simp [gaNsearch, present, same, searchFamilies]
      | «local» => cases ported
      | other number => cases ported
    · rw [List.foldlM_cons, pass]
      simp

/-- A numeric string is neither of the names for Unix domain addresses. -/
theorem isUnix_numeric {text : List Byte} {family : Family} {addr : List Byte}
    (ported : family.hasPort) (numeric : inetPton family text = .ok (some addr))
    (servname : Option (List Byte))
    : isUnix (some text) servname = false ∧ absent (some text) = false := by
  have first : isDigit (text.headD 0) ∨ isxdigit (text.headD 0) ∨ text.headD 0 = ascii ':' := by
    cases family with
    | inet =>
        have quad : inetPton4 text = some addr := by simpa [inetPton] using numeric
        exact .inl (quad_bytes (Inet.inetPton4_eq_some.mp quad)).1
    | inet6 =>
        have hex : inetPton6 text = some addr := by simpa [inetPton] using numeric
        exact .inr (denotes_bytes (Inet.inetPton6_eq_some.mp hex)).1
    | «local» => cases ported
    | other number => cases ported
  constructor
  · have notLocal : text ≠ localName := by
      rintro rfl
      revert first
      decide
    have notUnix : text ≠ unixName := by
      rintro rfl
      revert first
      decide
    simp [isUnix, notLocal, notUnix]
  · cases text with
    | nil =>
        revert first
        decide
    | cons b bs => rfl

/-- With the numerals of an address and a port the answer is the address with that port, once
for each socket type that the caller wants, whatever the library knows.
-/
theorem lookup_numeric {hints : SearchHints} {text : List Byte} {family : Family}
    {addr : List Byte} {port : Nat} (r : Resolver) (accepted : hints.Accepted)
    (ported : family.hasPort) (numeric : inetPton family text = .ok (some addr))
    (size : addr.length = if family = .inet then 4 else 16)
    (matching : hints.family = AF_UNSPEC ∨ hints.family = family) (small : port < 65536)
    : ∃ es, lookup r (some text) (some (decimal port)) (some hints) = some (.ok es)
        ∧ es.map Addrinfo.endpoint = (wantedTypes hints.toHints).map fun socktype =>
          ⟨family, socktype, hints.protocol,
            some (family.sockaddr (r.order.htons port) addr)⟩ := by
  obtain ⟨notUnix, present⟩ := isUnix_numeric ported numeric (some (decimal port))
  obtain ⟨search, searches, found⟩ := search_numeric r present ported numeric matching
  have given : absent (some (decimal port)) = false := by
    simpa [absent] using decimal_ne_nil port
  have calls := servCalls_decimal r.toHost hints.toHints small
  have wanted : wantedTypes hints.toHints ≠ [] := by
    unfold wantedTypes
    split <;> simp
  let entry := Request.entry ⟨hints.toHints, addr, family⟩
  let f : Found := ⟨[entry], none⟩
  -- the entry may have got its canonical name
  obtain ⟨named, eq, same⟩ : ∃ ai, f.named (some text) hints search = [ai]
      ∧ ai.family = family ∧ ai.protocol = hints.protocol
      ∧ ai.addr = some (family.sockaddr 0 addr) := by
    have stored : entry.addr = some (family.sockaddr 0 addr) := by
      by_cases inet : family = .inet
      · rw [if_pos inet] at size
        simp [entry, Request.entry, Family.sockaddr, inet, List.take_of_length_le size.le]
      · rw [if_neg inet] at size
        simp [entry, Request.entry, Family.sockaddr, inet, List.take_of_length_le size.le]
    unfold Found.named
    split
    · exact ⟨{ entry with canonname := _ }, rfl, rfl, rfl, stored⟩
    · exact ⟨entry, rfl, rfl, rfl, stored⟩
  obtain ⟨isFamily, protocol, stored⟩ := same
  have nonempty : servCalls r.toHost hints.toHints (decimal port) ≠ [] := by
    rw [calls]
    simpa using wanted
  refine ⟨named.spread (servCalls r.toHost hints.toHints (decimal port)), ?_, ?_⟩
  · have inet : lookupInet r (some text) (some (decimal port)) hints search = _ :=
      (lookupInet_eq r (some text) hints search).2 f found
    have entries : f.entries ≠ [] := by simp [f]
    rw [if_neg entries, if_neg (by simp [given]), eq, Option.getD_some, serve,
      if_neg nonempty] at inet
    unfold lookup
    simp only [Option.getD_some, accepted.host present, ne_eq, not_true_eq_false, if_false,
      notUnix, Bool.false_eq_true, searches, Option.map_some, inet]
    simp
  · rw [endpoint_spread (isFamily ▸ ported) stored nonempty, calls, isFamily, protocol,
      List.map_map]
    refine List.map_congr_left fun socktype _ => ?_
    have narrow : toUint16 (r.order.htons port : Int) = r.order.htons port :=
      toUint16_natCast (Endian.htons_lt ..)
    by_cases inet : family = .inet <;> simp [Family.sockaddr, inet, Sockaddr.setPort, narrow]

/-- The name does not matter to the endpoints. -/
theorem endpoint_nameFirst (nodename : List Byte) (es : List Addrinfo)
    : (nameFirst nodename es).map Addrinfo.endpoint = es.map Addrinfo.endpoint := by
  cases es <;> rfl

/-- With `/local` and a path the answer is the path, once for each socket type that the caller
wants.
-/
theorem lookup_unix {hints : SearchHints} {path : List Byte} (r : Resolver)
    (known : r.uname.isSome) (accepted : hints.Accepted)
    (matching : hints.family = AF_UNSPEC ∨ hints.family = .local)
    (slash : path.head? = some (ascii '/')) (short : path.length < sunPathSize)
    : ∃ es, lookup r (some localName) (some path) (some hints) = some (.ok es)
        ∧ es.map Addrinfo.endpoint = (wantedTypes hints.toHints).map fun socktype =>
          ⟨.local, socktype, hints.protocol, some (.sockaddr_un path)⟩ := by
  have isPath : isUnix (some localName) (some path) = true := by simp [isUnix, slash]
  have noError : ¬ (hints.family ≠ AF_UNSPEC ∧ hints.family ≠ .local) := by tauto
  have made : ∀ socktype, ∃ e, (hints.unixRequest path socktype).made = .ok e
      ∧ e.endpoint = ⟨.local, socktype, hints.protocol, some (.sockaddr_un path)⟩ := by
    intro socktype
    let e : Addrinfo := { (hints.unixRequest path socktype).bare with
      addr := some (.sockaddr_un path), addrlen := 2 + sunPathSize }
    refine ⟨e, ?_, rfl⟩
    have isLocal : (hints.unixRequest path socktype).family = .local := rfl
    have fits : ¬ sunPathSize ≤ (hints.unixRequest path socktype).addr.length := not_le.mpr short
    rw [Request.made, if_pos isLocal, if_neg fits]
    rfl
  obtain ⟨es, entries, endpoints⟩ : ∃ es, ((wantedTypes hints.toHints).mapM fun socktype =>
        (hints.unixRequest path socktype).made) = .ok es
      ∧ es.map Addrinfo.endpoint = (wantedTypes hints.toHints).map fun socktype =>
        ⟨.local, socktype, hints.protocol, some (.sockaddr_un path)⟩ := by
    induction wantedTypes hints.toHints with
    | nil => exact ⟨[], rfl, rfl⟩
    | cons socktype types ih =>
        obtain ⟨e, first, endpoint⟩ := made socktype
        obtain ⟨es, rest, endpoints⟩ := ih
        refine ⟨e :: es, ?_, by rw [List.map_cons, List.map_cons, endpoint, endpoints]⟩
        rw [List.mapM_cons, first, rest]
        rfl
  obtain ⟨nodename, uname⟩ := Option.isSome_iff_exists.mp known
  obtain ⟨es', tail, endpoints'⟩ : ∃ es', unixNamed r hints es = .ok es'
      ∧ es'.map Addrinfo.endpoint = es.map Addrinfo.endpoint := by
    unfold unixNamed
    split
    · rw [uname]
      exact ⟨_, rfl, endpoint_nameFirst nodename es⟩
    · exact ⟨es, rfl, rfl⟩
  refine ⟨es', ?_, endpoints'.trans endpoints⟩
  have answer : lookupUnix r path hints = .ok es' := by
    rw [lookupUnix, if_neg noError, entries]
    exact tail
  unfold lookup
  simp only [Option.getD_some, accepted.host (show absent (some localName) = false by decide),
    ne_eq, not_true_eq_false, if_false, isPath, if_true, answer]

-----------------------------------------------------------------------------------------
-- There and back
-----------------------------------------------------------------------------------------

def Sockaddr.family : Sockaddr → Family
  | .sockaddr_in _ _ => .inet
  | .sockaddr_in6 _ _ => .inet6
  | .sockaddr_un _ => .local

/-- The sizes of ports and addresses, and absolute paths that fit `sun_path`. -/
def Sockaddr.Valid : Sockaddr → Prop
  | .sockaddr_in port addr => port < 65536 ∧ addr.length = 4
  | .sockaddr_in6 port addr => port < 65536 ∧ addr.length = 16
  | .sockaddr_un path =>
      path.head? = some (ascii '/') ∧ (∀ b ∈ path, b ≠ 0) ∧ path.length < sunPathSize

/-- The room for the text of any host of the family. -/
def Sockaddr.hostRoom (sa : Sockaddr) : Nat :=
  if sa.family = .local then localName.length + 1 else addrStrLen sa.family

/-- The room for the text of a port or of the path. -/
def Sockaddr.servRoom : Sockaddr → Nat
  | .sockaddr_un path => path.length + 1
  | _ => 6

/-- The string that a buffer holds. -/
def cstring (buf : List Byte) : List Byte := buf.takeWhile (· ≠ 0)

/-- A string that fits is formatted whole. -/
theorem cstring_snprintf {size : Nat} {text : List Byte} (room : text.length < size)
    (string : ∀ b ∈ text, b ≠ 0)
    : cstring (snprintf size text) = text := by
  rw [snprintf, List.take_of_length_le (by omega)]
  exact Inet.takeWhile_string string

/-- What `gn_ipv46` writes for an address and a port as numbers. -/
theorem gnIpv46_numeric (lib : Library) (port : Nat) {hostlen servlen flags : Nat} {family : Family}
    {addr : List Byte} (isAddress : IsAddress family addr) (hostRoom : addrStrLen family ≤ hostlen)
    (servRoom : 6 ≤ servlen) (numericHosts : flags &&& NI_NUMERICHOST ≠ 0)
    (numericServs : flags &&& NI_NUMERICSERV ≠ 0)
    : ∃ host serv, gnIpv46 lib hostlen servlen addr family port flags
          = some ⟨some host, some serv⟩
        ∧ inetPton family (cstring host) = .ok (some addr)
        ∧ cstring serv = decimal (lib.order.ntohs port) := by
  obtain ⟨reads, writes⟩ := Inet.inetPton_inetNtop isAddress hostlen
  obtain ⟨host, written⟩ := writes hostRoom
  have given : hostlen > 0 := by
    refine lt_of_lt_of_le ?_ hostRoom
    unfold addrStrLen
    split <;> decide
  refine ⟨host, snprintf servlen (decimal (lib.order.ntohs port)), ?_, reads host written, ?_⟩
  · have storesHost : gnHost lib hostlen addr family flags = some host := by
      rw [gnHost, if_pos numericHosts, numericHost, written]
      rfl
    rw [gnIpv46, if_pos given, storesHost, if_pos (by omega), gnServ, if_pos numericServs]
    rfl
  · have short : (decimal (lib.order.ntohs port)).length ≤ 5 :=
      decimal_length_le (by decide) (lt_of_lt_of_le (Endian.ntohs_lt ..) (by decide))
    refine cstring_snprintf (by omega) fun b member => ?_
    have digit := decimal_isDigit member
    rintro rfl
    revert digit
    decide

/-- The answer for what `getnameinfo` writes is the address again. -/
theorem getnameinfo_lookup (lib : Library) (known : lib.uname.isSome) {sa : Sockaddr}
    (valid : sa.Valid) {hostlen servlen flags : Nat} (hostRoom : sa.hostRoom ≤ hostlen)
    (servRoom : sa.servRoom ≤ servlen) (numericHosts : flags &&& NI_NUMERICHOST ≠ 0)
    (numericServs : flags &&& NI_NUMERICSERV ≠ 0) {hints : SearchHints}
    (accepted : hints.Accepted) (matching : hints.family = AF_UNSPEC ∨ hints.family = sa.family)
    : ∃ host serv, getnameinfo lib sa hostlen servlen flags = some ⟨some host, some serv⟩
        ∧ ∃ es, lookup lib.toResolver (some (cstring host)) (some (cstring serv)) (some hints)
            = some (.ok es)
          ∧ es.map Addrinfo.endpoint = (wantedTypes hints.toHints).map fun socktype =>
            ⟨sa.family, socktype, hints.protocol, some sa⟩ := by
  cases sa with
  | sockaddr_in port addr =>
      obtain ⟨small, size⟩ := valid
      obtain ⟨host, serv, written, reads, number⟩ := gnIpv46_numeric lib port
        (.inl ⟨rfl, size⟩) hostRoom servRoom numericHosts numericServs
      refine ⟨host, serv, written, ?_⟩
      rw [number]
      have answer := lookup_numeric lib.toResolver accepted rfl reads size matching
        (lib.order.ntohs_lt port)
      rwa [Endian.htons_ntohs _ small] at answer
  | sockaddr_in6 port addr =>
      obtain ⟨small, size⟩ := valid
      obtain ⟨host, serv, written, reads, number⟩ := gnIpv46_numeric lib port
        (.inr ⟨rfl, size⟩) hostRoom servRoom numericHosts numericServs
      refine ⟨host, serv, written, ?_⟩
      rw [number]
      have answer := lookup_numeric lib.toResolver accepted rfl reads size matching
        (lib.order.ntohs_lt port)
      rwa [Endian.htons_ntohs _ small] at answer
  | sockaddr_un path =>
      obtain ⟨slash, string, short⟩ := valid
      have hostSize : localName.length < hostlen := hostRoom
      have servSize : path.length < servlen := servRoom
      refine ⟨snprintf hostlen localName, snprintf servlen path, ?_, ?_⟩
      · rw [getnameinfo, if_pos (by omega), if_pos (by omega)]
      · rw [cstring_snprintf hostSize (by decide +kernel), cstring_snprintf servSize string]
        exact lookup_unix lib.toResolver known accepted matching slash short

/-- `getaddrinfo` reads back what `getnameinfo` writes with `NI_NUMERICHOST` and
`NI_NUMERICSERV`: it returns the same address and port, or path, once for each socket type that
the caller wants, whatever the library knows, unless an allocation fails.
-/
theorem getaddrinfo_getnameinfo (lib : Library) (resolves : lib.Resolves)
    (known : lib.uname.isSome) (answers : Nat → Bool) {sa : Sockaddr} (valid : sa.Valid)
    {hostlen servlen flags : Nat} (hostRoom : sa.hostRoom ≤ hostlen)
    (servRoom : sa.servRoom ≤ servlen) (numericHosts : flags &&& NI_NUMERICHOST ≠ 0)
    (numericServs : flags &&& NI_NUMERICSERV ≠ 0) {hints : SearchHints}
    (accepted : hints.Accepted) (matching : hints.family = AF_UNSPEC ∨ hints.family = sa.family)
    : ∃ host serv, getnameinfo lib sa hostlen servlen flags = some ⟨some host, some serv⟩
        ∧ ∃ m rc frees need, (∀ fuel, need < fuel
            → getaddrinfo answers fuel lib.toResolver (some (cstring host))
                (some (cstring serv)) (some hints)
              = some (.returned m rc frees))
          ∧ (rc = 0 ∧ (∃ es, m.Shows es
                ∧ es.map Addrinfo.endpoint = (wantedTypes hints.toHints).map fun socktype =>
                  ⟨sa.family, socktype, hints.protocol, some sa⟩)
            ∨ rc = EAI_MEMORY ∧ ∃ n, answers n = false) := by
  obtain ⟨host, serv, written, es, answer, endpoints⟩ :=
    getnameinfo_lookup lib known valid hostRoom servRoom numericHosts numericServs accepted matching
  refine ⟨host, serv, written, ?_⟩
  obtain ⟨outcome, need, ends, meets⟩ :=
    getaddrinfo_meets answers resolves (some (cstring host)) (some (cstring serv)) (some hints)
  rw [answer] at meets
  cases outcome with
  | quit => cases meets
  | returned m rc frees =>
      refine ⟨m, rc, frees, need, ends, ?_⟩
      obtain ⟨result, same, result'⟩ := meets
      cases same
      rcases result' with ⟨rfl, -, es', eq, owns⟩ | ⟨⟨-, eq | fails⟩, -⟩
      · cases eq
        exact .inl ⟨rfl, es, owns.shows, endpoints⟩
      · cases eq
      · exact .inr fails

/-- A library that calls every host `h` and every service `s`. -/
def oneName : Library where
  toResolver := { twoHosts with uname := some [104] }
  gethostbyaddr _ _ := some [104]
  getservbyport _ _ := some [115]

/-- The sample resolver resolves. -/
theorem oneName_resolves : oneName.Resolves :=
  ⟨twoHosts_resolves.byname2, twoHosts_resolves.byname⟩

/-- Witness: the address `1::2` with port 80, where the third allocation fails. -/
theorem getaddrinfo_getnameinfo_oneName
    : ∃ host serv, getnameinfo oneName
          (.sockaddr_in6 20480 [0, 1, 0, 0, 0, 0, 0, 0, 0, 0, 0, 0, 0, 0, 0, 2]) 46 6 10
          = some ⟨some host, some serv⟩
        ∧ ∃ m rc frees need, (∀ fuel, need < fuel
            → getaddrinfo (fun n => n ≠ 2) fuel oneName.toResolver (some (cstring host))
                (some (cstring serv)) (some ⟨⟨AI_CANONNAME, 0, 6⟩, AF_UNSPEC⟩)
              = some (.returned m rc frees))
          ∧ (rc = 0 ∧ (∃ es, m.Shows es
                ∧ es.map Addrinfo.endpoint = (wantedTypes ⟨AI_CANONNAME, 0, 6⟩).map fun socktype =>
                  ⟨.inet6, socktype, 6,
                    some (.sockaddr_in6 20480 [0, 1, 0, 0, 0, 0, 0, 0, 0, 0, 0, 0, 0, 0, 0, 2])⟩)
            ∨ rc = EAI_MEMORY ∧ ∃ n, (fun n : Nat => decide (n ≠ 2)) n = false) :=
  getaddrinfo_getnameinfo oneName oneName_resolves rfl (fun n => n ≠ 2)
    (show Sockaddr.Valid (.sockaddr_in6 20480 [0, 1, 0, 0, 0, 0, 0, 0, 0, 0, 0, 0, 0, 0, 0, 2])
      from ⟨by decide, rfl⟩)
    (by decide) (by decide) (by decide) (by decide) (show SearchHints.Accepted _ from rfl)
    (.inl rfl)

end Minions.Unp.Gai
