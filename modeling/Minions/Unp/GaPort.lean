import Minions.Data.ByteOrder
import Minions.Data.LinkedList

/-! The lists of addresses that `getaddrinfo` builds: `libgai/ga_aistruct.c`, `ga_clone.c`,
`ga_port.c` and `ga_serv.c`.
-/

namespace Minions.Unp.Gai

open Minions.Data

-----------------------------------------------------------------------------------------
-- The structures
-----------------------------------------------------------------------------------------

/-- `AF_INET`, `AF_INET6`, `AF_LOCAL`, and every other number. -/
inductive Family where
  | inet
  | inet6
  | local
  | other (number : Nat)
deriving DecidableEq

/-- A socket address structure. Ports are in network byte order. -/
inductive Sockaddr where
  | sockaddr_in (port : Nat) (addr : List Byte)
  | sockaddr_in6 (port : Nat) (addr : List Byte)
  | sockaddr_un (path : List Byte)
deriving DecidableEq

/-- `struct addrinfo` without its link. Every structure has a socket address structure of
its own, or none.
-/
structure Addrinfo where
  flags : Nat := 0
  family : Family
  socktype : Int
  protocol : Int
  canonname : Option (List Byte) := none
  addrlen : Nat := 0
  addr : Option Sockaddr := none
deriving DecidableEq

/-- What the caller of `getaddrinfo` asks for. -/
structure Hints where
  flags : Nat
  socktype : Int
  protocol : Int

def AI_PASSIVE : Nat := 1

def AI_CLONE : Nat := 4

def SOCK_STREAM : Int := 1

def SOCK_DGRAM : Int := 2

def EAI_MEMORY : Int := 6

def EAI_NONAME : Int := 8

def EAI_SERVICE : Int := 9

/-- `sizeof(unp->sun_path)`. -/
def sunPathSize : Nat := 108

/-- The memory. Cell `x` of `next` is the `ai_next` of the structure at address `x`, and cell
0 is the variable `aihead`. The `n`-th allocation, when it succeeds, is at address `n + 1`.
-/
structure Memory where
  next : Nat → Nat := fun _ => 0
  addrinfo : Nat → Addrinfo := fun _ => ⟨0, .other 0, 0, 0, none, 0, none⟩
  allocs : Nat := 0
  unlinked : List (List Byte) := []

namespace Memory

def setNext (m : Memory) (x y : Nat) : Memory :=
  { m with next := Function.update m.next x y }

def set (m : Memory) (x : Nat) (ai : Addrinfo) : Memory :=
  { m with addrinfo := Function.update m.addrinfo x ai }

/-- `calloc` or `malloc`; `answers` has for each allocation whether it succeeds. The result
0 is `NULL`.
-/
def alloc (answers : Nat → Bool) (m : Memory) : Memory × Nat :=
  ({ m with allocs := m.allocs + 1 }, if answers m.allocs then m.allocs + 1 else 0)

end Memory

variable (answers : Nat → Bool)

-----------------------------------------------------------------------------------------
-- Making and copying structures
-----------------------------------------------------------------------------------------

/-- `ga_aistruct`. The result has the memory, the new `*paipnext` and the return value. -/
def gaAistruct (m : Memory) (paipnext : Nat) (hints : Hints) (addr : List Byte)
    (family : Family) : Memory × Nat × Int :=
  let (m, ai) := m.alloc answers
  if ai = 0 then (m, paipnext, EAI_MEMORY)
  else
    let m := (m.setNext ai 0).setNext paipnext ai
    let flags := if hints.socktype = 0 then AI_CLONE else 0
    let m := m.set ai
      { flags, family, socktype := hints.socktype, protocol := hints.protocol }
    match family with
    | .inet =>
        let (m, sinptr) := m.alloc answers
        if sinptr = 0 then (m, ai, EAI_MEMORY)
        else
          (m.set ai { m.addrinfo ai with
            addr := some (.sockaddr_in 0 (addr.take 4)), addrlen := 16 }, ai, 0)
    | .inet6 =>
        let (m, sin6ptr) := m.alloc answers
        if sin6ptr = 0 then (m, ai, EAI_MEMORY)
        else
          (m.set ai { m.addrinfo ai with
            addr := some (.sockaddr_in6 0 (addr.take 16)), addrlen := 28 }, ai, 0)
    | .local =>
        if sunPathSize ≤ addr.length then (m, ai, EAI_SERVICE)
        else
          let (m, unp) := m.alloc answers
          if unp = 0 then (m, ai, EAI_MEMORY)
          else
            let m := m.set ai { m.addrinfo ai with
              addr := some (.sockaddr_un addr), addrlen := 2 + sunPathSize }
            (if hints.flags &&& AI_PASSIVE ≠ 0 then { m with unlinked := m.unlinked ++ [addr] }
              else m, ai, 0)
    | .other _ => (m, ai, 0)

/-- The structure that `ga_clone` makes from `ai`, before it has an address. -/
def cloneOf (ai : Addrinfo) : Addrinfo where
  flags := 0
  family := ai.family
  socktype := ai.socktype
  protocol := ai.protocol
  canonname := none
  addrlen := ai.addrlen

/-- `ga_clone`. -/
def gaClone (m : Memory) (ai : Nat) : Memory × Nat :=
  let (m, new) := m.alloc answers
  if new = 0 then (m, 0)
  else
    let m := (m.setNext new (m.next ai)).setNext ai new
    let m := m.set new (cloneOf (m.addrinfo ai))
    let (m, addr) := m.alloc answers
    if addr = 0 then (m, 0)
    else (m.set new { m.addrinfo new with addr := (m.addrinfo ai).addr }, new)

-----------------------------------------------------------------------------------------
-- Ports
-----------------------------------------------------------------------------------------

/-- Storing a port where `family` says that the structure has one. -/
def Sockaddr.setPort (port : Int) : Sockaddr → Sockaddr
  | .sockaddr_in _ addr => .sockaddr_in (toUint16 port) addr
  | .sockaddr_in6 _ addr => .sockaddr_in6 (toUint16 port) addr
  | .sockaddr_un path => .sockaddr_un path

/-- Whether `ga_port` stores a port in a structure and counts it. -/
def Family.hasPort : Family → Bool
  | .inet => true
  | .inet6 => true
  | _ => false

/-- `ai->ai_socktype = socktype` and the `switch` on the family. -/
def Addrinfo.fill (port socktype : Int) (ai : Addrinfo) : Addrinfo :=
  if ai.family.hasPort then { ai with socktype, addr := ai.addr.map (Sockaddr.setPort port) }
  else { ai with socktype }

/-- Filling in the structure at `ai`, and counting it. -/
def portFill (port socktype : Int) (m : Memory) (ai : Nat) (nfound : Int) : Memory × Nat × Int :=
  (m.set ai ((m.addrinfo ai).fill port socktype), ai,
    if (m.addrinfo ai).family.hasPort then nfound + 1 else nfound)

/-- One pass of the loop of `ga_port`. The result has the structure that `ai` is left at, or
0 when `ga_clone` returned `NULL`.
-/
def portBody (port socktype : Int) (m : Memory) (ai : Nat) (nfound : Int) : Memory × Nat × Int :=
  if (m.addrinfo ai).flags &&& AI_CLONE ≠ 0 then
    if (m.addrinfo ai).socktype ≠ 0 then
      let (m, new) := gaClone answers m ai
      if new = 0 then (m, 0, nfound) else portFill port socktype m new nfound
    else portFill port socktype m ai nfound
  else if (m.addrinfo ai).socktype ≠ socktype then (m, ai, nfound)
  else portFill port socktype m ai nfound

/-- The loop of `ga_port` from the structure `ai`; without enough fuel it has no result. -/
def portLoop (port socktype : Int) : Nat → Memory → Nat → Int → Option (Memory × Int)
  | 0, _, _, _ => none
  | fuel + 1, m, ai, nfound =>
      if ai = 0 then some (m, nfound)
      else
        let (m, ai, nfound) := portBody answers port socktype m ai nfound
        if ai = 0 then some (m, -1)
        else portLoop port socktype fuel m (m.next ai) nfound

/-- `ga_port` on the list of `aihead`. -/
def gaPort (fuel : Nat) (m : Memory) (port socktype : Int) : Option (Memory × Int) :=
  portLoop answers port socktype fuel m (m.next 0) 0

-----------------------------------------------------------------------------------------
-- Service strings
-----------------------------------------------------------------------------------------

/-- `atoi`. C leaves open what it returns when the number does not fit an `int`. -/
def atoi (overflow : List Byte → Int) (text : List Byte) : Int :=
  if -(2 ^ 31) ≤ atol text ∧ atol text < 2 ^ 31 then atol text else overflow text

/-- What `ga_serv` gets from the machine and the library. -/
structure Host where
  order : Endian
  overflow : List Byte → Int
  getservbyname : List Byte → String → Option Int

/-- A run of calls of `ga_port`, which add up what they find. A call that fails ends it. -/
def portCalls (fuel : Nat) : Memory → List (Int × Int) → Int → Option (Memory × Option Int)
  | m, [], nfound => some (m, some nfound)
  | m, (port, socktype) :: calls, nfound => do
      let (m, rc) ← gaPort answers fuel m port socktype
      if rc < 0 then some (m, none) else portCalls fuel m calls (nfound + rc)

/-- The calls of `ga_port` that `ga_serv` makes. -/
def servCalls (host : Host) (hints : Hints) (serv : List Byte) : List (Int × Int) :=
  if isDigit (serv.headD 0) then
    let port : Int := host.order.htons (toUint16 (atoi host.overflow serv))
    if hints.socktype ≠ 0 then [(port, hints.socktype)]
    else [(port, SOCK_STREAM), (port, SOCK_DGRAM)]
  else
    let tcp := if hints.socktype = 0 ∨ hints.socktype = SOCK_STREAM then
      host.getservbyname serv "tcp" else none
    let udp := if hints.socktype = 0 ∨ hints.socktype = SOCK_DGRAM then
      host.getservbyname serv "udp" else none
    (tcp.map (·, SOCK_STREAM)).toList ++ (udp.map (·, SOCK_DGRAM)).toList

/-- `ga_serv` on the list of `aihead`. -/
def gaServ (fuel : Nat) (host : Host) (m : Memory) (hints : Hints) (serv : List Byte)
    : Option (Memory × Int) := do
  let (m, nfound) ← portCalls answers fuel m (servCalls host hints serv) 0
  match nfound with
  | none => some (m, EAI_MEMORY)
  | some nfound =>
      if nfound = 0 then
        if hints.socktype = 0 then some (m, EAI_NONAME) else some (m, EAI_SERVICE)
      else some (m, 0)

end Minions.Unp.Gai
