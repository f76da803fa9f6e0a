import Minions.Unp.InetPton

/-! Looking up the addresses of a host and a service: `libgai/getaddrinfo.c`, `ga_echeck.c`,
`ga_nsearch.c`, `ga_unix.c` and `freeaddrinfo.c`. A string is the list of the bytes before its
NUL, and `NULL` is `none`.
-/

namespace Minions.Unp.Gai

open Minions.Data
open Minions.Unp.Inet (inetPton xdigit)

def AF_UNSPEC : Family := .other 0

def AI_CANONNAME : Nat := 2

def SOCK_RAW : Int := 3

def EAI_ADDRFAMILY : Int := 1

def EAI_AGAIN : Int := 2

def EAI_BADFLAGS : Int := 3

def EAI_FAIL : Int := 4

def EAI_FAMILY : Int := 5

def EAI_NODATA : Int := 7

def EAI_SOCKTYPE : Int := 10

def EAI_SYSTEM : Int := 11

/-- The hints with the address family, which `ga_aistruct` does not read. -/
structure SearchHints extends Hints where
  family : Family

/-- `struct hostent`. -/
structure Hostent where
  name : List Byte
  addrtype : Family
  addrList : List (List Byte)

/-- The values of `h_errno`. -/
inductive HErrno where
  | HOST_NOT_FOUND
  | TRY_AGAIN
  | NO_RECOVERY
  | NO_DATA
  | other (number : Int)
deriving DecidableEq

/-- The `switch` on `h_errno`. -/
def HErrno.eai : HErrno → Int
  | HOST_NOT_FOUND => EAI_NONAME
  | TRY_AGAIN => EAI_AGAIN
  | NO_RECOVERY => EAI_FAIL
  | NO_DATA => EAI_NODATA
  | other _ => EAI_NONAME

/-- What `getaddrinfo` gets from the machine and the library. The first argument of
`gethostbyname` is whether `RES_USE_INET6` is set.
-/
structure Resolver extends Host where
  gethostbyname2 : List Byte → Family → Option Hostent
  gethostbyname : Bool → List Byte → Except HErrno Hostent
  uname : Option (List Byte)

-----------------------------------------------------------------------------------------
-- Checks and searches
-----------------------------------------------------------------------------------------

/-- `text == NULL || text[0] == '\0'`. -/
def absent (text : Option (List Byte)) : Bool := (text.getD []).isEmpty

/-- `ga_echeck`. -/
def gaEcheck (hostname servname : Option (List Byte)) (flags : Nat) (family : Family)
    (socktype : Int) : Int :=
  if flags &&& (2 ^ 32 - 1 - (AI_PASSIVE ||| AI_CANONNAME)) ≠ 0 then EAI_BADFLAGS
  else if absent hostname && absent servname then EAI_NONAME
  else
    let streamOrDgram := socktype = SOCK_STREAM ∨ socktype = SOCK_DGRAM
    match family with
    | .inet | .inet6 =>
        if socktype ≠ 0 ∧ ¬ (streamOrDgram ∨ socktype = SOCK_RAW) then EAI_SOCKTYPE else 0
    | .local => if socktype ≠ 0 ∧ ¬ streamOrDgram then EAI_SOCKTYPE else 0
    | .other number => if number = 0 then 0 else EAI_FAMILY

/-- `struct search`. -/
structure Search where
  host : List Byte
  family : Family
deriving DecidableEq

/-- A `switch` of `ga_nsearch` on the family; IPv6 comes first, then IPv4. -/
def searchFamilies (family : Family) (host4 host6 : List Byte) : List Search :=
  match family with
  | .inet => [⟨host4, .inet⟩]
  | .inet6 => [⟨host6, .inet6⟩]
  | .local => []
  | .other number => if number = 0 then [⟨host6, .inet6⟩, ⟨host4, .inet⟩] else []

/-- `"0.0.0.0"`. -/
def anyHost4 : List Byte := ['0', '.', '0', '.', '0', '.', '0'].map ascii

/-- `"0::0"`. -/
def anyHost6 : List Byte := ['0', ':', ':', '0'].map ascii

/-- `"localhost"`. -/
def localhost : List Byte := ['l', 'o', 'c', 'a', 'l', 'h', 'o', 's', 't'].map ascii

/-- `"0::1"`. -/
def localHost6 : List Byte := ['0', ':', ':', '1'].map ascii

/-- `ga_nsearch`: the entries of `search[]`, or `none` where it calls `err_quit`. -/
def gaNsearch (hostname : Option (List Byte)) (hints : SearchHints) : Option (List Search) :=
  let search :=
    if absent hostname then
      if hints.flags &&& AI_PASSIVE ≠ 0 then searchFamilies hints.family anyHost4 anyHost6
      else searchFamilies hints.family localhost localHost6
    else searchFamilies hints.family (hostname.getD []) (hostname.getD [])
  if search.length < 1 ∨ search.length > 2 then none else some search

-----------------------------------------------------------------------------------------
-- One search
-----------------------------------------------------------------------------------------

def isxdigit (b : Byte) : Bool := (xdigit b).isSome

/-- The first check of a pass: the address of an IPv4 dotted-decimal string. -/
def ipv4String (host : List Byte) : Option (List Byte) :=
  if isDigit (host.headD 0) then (inetPton .inet host).toOption.join else none

/-- The second check of a pass: the address of an IPv6 hex string. -/
def ipv6String (host : List Byte) : Option (List Byte) :=
  if (isxdigit (host.headD 0) || host.headD 0 = ascii ':') && host.contains (ascii ':') then
    (inetPton .inet6 host).toOption.join
  else none

/-- What a pass of the search loop has found before it makes any structure. -/
inductive Find where
  | skip
  | numeric (addr : List Byte) (family : Family)
  | host (hptr : Hostent)

/-- The check for an address family mismatch. -/
def Hostent.check (hptr : Hostent) (hints : SearchHints) : Except Int Find :=
  if hints.family ≠ AF_UNSPEC ∧ hints.family ≠ hptr.addrtype then .error EAI_ADDRFAMILY
  else .ok (.host hptr)

/-- A numeric string in a pass for the family of `s`. -/
def Search.numeric (s : Search) (hints : SearchHints) (addr : List Byte) (family : Family)
    : Except Int Find :=
  if hints.family ≠ AF_UNSPEC ∧ hints.family ≠ family then .error EAI_ADDRFAMILY
  else if s.family ≠ family then .ok .skip
  else .ok (.numeric addr family)

/-- A pass of the search loop up to where it makes structures. -/
def Search.find (r : Resolver) (hints : SearchHints) (nsearch : Nat) (s : Search)
    : Except Int Find :=
  match ipv4String s.host with
  | some inaddr => s.numeric hints inaddr .inet
  | none =>
      match ipv6String s.host with
      | some in6addr => s.numeric hints in6addr .inet6
      | none =>
          if nsearch = 2 then
            match r.gethostbyname2 s.host s.family with
            | some hptr => hptr.check hints
            | none => .ok .skip
          else
            match r.gethostbyname (s.family = .inet6) s.host with
            | .ok hptr => hptr.check hints
            | .error e => .error e.eai

/-- Whether the caller wants the canonical name of a host. -/
def wantsCanon (hostname : Option (List Byte)) (hints : SearchHints) : Bool :=
  !absent hostname && hints.flags &&& AI_CANONNAME ≠ 0

-----------------------------------------------------------------------------------------
-- The calls
-----------------------------------------------------------------------------------------

variable (answers : Nat → Bool)

/-- `strdup`. -/
def strdup (m : Memory) (text : List Byte) : Memory × Option (List Byte) :=
  let (m, ptr) := m.alloc answers
  (m, if ptr = 0 then none else some text)

/-- The loop over `h_addr_list`. -/
def addrLoop (hints : Hints) (family : Family)
    : Memory → Nat → List (List Byte) → Memory × Nat × Int
  | m, aipnext, [] => (m, aipnext, 0)
  | m, aipnext, ap :: rest =>
      let (m, aipnext, rc) := gaAistruct answers m aipnext hints ap family
      if rc ≠ 0 then (m, aipnext, rc) else addrLoop hints family m aipnext rest

/-- The variables of the search loop. -/
structure Vars where
  m : Memory := {}
  aipnext : Nat := 0
  canon : Option (List Byte) := none

/-- Saving the canonical name the first time. -/
def Vars.saveCanon (v : Vars) (hostname : Option (List Byte)) (hints : SearchHints)
    (hptr : Hostent) : Vars :=
  if wantsCanon hostname hints && v.canon.isNone then
    let (m, canon) := strdup answers v.m hptr.name
    { v with m, canon }
  else v

/-- A structure for each address of a host. -/
def Vars.addAddrs (v : Vars) (hints : SearchHints) (hptr : Hostent) : Vars × Int :=
  let (m, aipnext, rc) :=
    addrLoop answers hints.toHints hptr.addrtype v.m v.aipnext hptr.addrList
  ({ v with m, aipnext }, rc)

/-- What follows `gethostbyname` in a pass. -/
def Vars.addHost (v : Vars) (hostname : Option (List Byte)) (hints : SearchHints)
    (hptr : Hostent) : Vars × Int :=
  let v := v.saveCanon answers hostname hints hptr
  if wantsCanon hostname hints && v.canon.isNone then (v, EAI_MEMORY)
  else v.addAddrs answers hints hptr

/-- A pass of the search loop, with its error or 0. -/
def Vars.pass (r : Resolver) (hostname : Option (List Byte)) (hints : SearchHints)
    (nsearch : Nat) (v : Vars) (s : Search) : Vars × Int :=
  match s.find r hints nsearch with
  | .error e => (v, e)
  | .ok .skip => (v, 0)
  | .ok (.numeric addr family) =>
      let (m, aipnext, rc) := gaAistruct answers v.m v.aipnext hints.toHints addr family
      ({ v with m, aipnext }, rc)
  | .ok (.host hptr) => v.addHost answers hostname hints hptr

/-- The search loop, up to the first error. -/
def searchLoop (r : Resolver) (hostname : Option (List Byte)) (hints : SearchHints)
    (nsearch : Nat) : Vars → List Search → Vars × Int
  | v, [] => (v, 0)
  | v, s :: rest =>
      let (v, rc) := v.pass answers r hostname hints nsearch s
      if rc ≠ 0 then (v, rc) else searchLoop r hostname hints nsearch v rest

/-- `aihead->ai_canonname = ...`, with its error or 0. -/
def storeCanon (copied : Memory × Option (List Byte)) : Memory × Int :=
  let aihead := copied.1.next 0
  (copied.1.set aihead { copied.1.addrinfo aihead with canonname := copied.2 },
    if copied.2.isNone then EAI_MEMORY else 0)

/-- Returning the canonical name, where the caller wants it. -/
def setCanon (hostname : Option (List Byte)) (hints : SearchHints) (search : List Search)
    (v : Vars) : Memory × Int :=
  if wantsCanon hostname hints then
    storeCanon (if v.canon.isSome then (v.m, v.canon)
      else strdup answers v.m (search.headD ⟨[], AF_UNSPEC⟩).host)
  else (v.m, 0)

/-- The loop of `freeaddrinfo`, which counts the calls of `free`. -/
def freeLoop : Nat → Memory → Nat → Nat → Option Nat
  | 0, _, _, _ => none
  | fuel + 1, m, ai, frees =>
      if ai = 0 then some frees
      else
        let frees := if (m.addrinfo ai).addr.isSome then frees + 1 else frees
        let frees := if (m.addrinfo ai).canonname.isSome then frees + 1 else frees
        freeLoop fuel m (m.next ai) (frees + 1)

/-- How a call of `getaddrinfo` ends: in `err_quit`, or with a return value after that many
calls of `free`. The list that it returns is the one of `aihead`.
-/
inductive Outcome where
  | quit
  | returned (m : Memory) (rc : Int) (frees : Nat)

/-- `goto bad`. -/
def bad (fuel : Nat) (m : Memory) (error : Int) : Option Outcome :=
  (freeLoop fuel m (m.next 0) 0).map (Outcome.returned m error)

/-- The canonical name of a path is that of the host. -/
def unixCanon (r : Resolver) (hints : SearchHints) (m : Memory) : Memory × Int :=
  if hints.flags &&& AI_CANONNAME ≠ 0 then
    match r.uname with
    | none => (m, EAI_SYSTEM)
    | some nodename => storeCanon (strdup answers m nodename)
  else (m, 0)

/-- `ga_unix`. -/
def gaUnix (r : Resolver) (path : List Byte) (hints : SearchHints) : Memory × Int :=
  if hints.family ≠ AF_UNSPEC ∧ hints.family ≠ .local then ({}, EAI_ADDRFAMILY)
  else
    let first :=
      if hints.socktype = 0 then
        gaAistruct answers {} 0 { hints.toHints with socktype := SOCK_STREAM } path .local
      else ({}, 0, 0)
    if first.2.2 ≠ 0 then (first.1, first.2.2)
    else
      let socktype := if hints.socktype = 0 then SOCK_DGRAM else hints.socktype
      let (m, _, rc) :=
        gaAistruct answers first.1 first.2.1 { hints.toHints with socktype } path .local
      if rc ≠ 0 then (m, rc) else unixCanon answers r hints m

/-- `"/local"`. -/
def localName : List Byte := ['/', 'l', 'o', 'c', 'a', 'l'].map ascii

/-- `"/unix"`. -/
def unixName : List Byte := ['/', 'u', 'n', 'i', 'x'].map ascii

/-- The special case of a Unix domain address. -/
def isUnix (hostname servname : Option (List Byte)) : Bool :=
  (hostname = some localName || hostname = some unixName)
    && (servname.getD []).head? = some (ascii '/')

/-- `getaddrinfo` after the search has ended without an error. -/
def finishAddrs (fuel : Nat) (r : Resolver) (hostname servname : Option (List Byte))
    (hints : SearchHints) (search : List Search) (v : Vars) : Option Outcome :=
  if v.m.next 0 = 0 then bad fuel v.m EAI_NONAME
  else
    let (m, rc) := setCanon answers hostname hints search v
    if rc ≠ 0 then bad fuel m rc
    else if absent servname then some (.returned m 0 0)
    else do
      let (m, rc) ← gaServ answers fuel r.toHost m hints.toHints (servname.getD [])
      if rc ≠ 0 then bad fuel m rc else some (.returned m 0 0)

/-- `getaddrinfo`; without enough fuel it has no result. -/
def getaddrinfo (fuel : Nat) (r : Resolver) (hostname servname : Option (List Byte))
    (hintsp : Option SearchHints) : Option Outcome :=
  let hints := hintsp.getD ⟨⟨0, 0, 0⟩, AF_UNSPEC⟩
  let rc := gaEcheck hostname servname hints.flags hints.family hints.socktype
  if rc ≠ 0 then bad fuel {} rc
  else if isUnix hostname servname then
    let (m, rc) := gaUnix answers r (servname.getD []) hints
    some (.returned m rc 0)
  else
    match gaNsearch hostname hints with
    | none => some .quit
    | some search =>
        let (v, rc) := searchLoop answers r hostname hints search.length {} search
        if rc ≠ 0 then bad fuel v.m rc
        else finishAddrs answers fuel r hostname servname hints search v

end Minions.Unp.Gai
