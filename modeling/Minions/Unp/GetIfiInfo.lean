import Minions.Unp.Rtaddrs

/-! `get_ifi_info`: the interfaces and their addresses, from the messages of the routing
socket.
-/

namespace Minions.Unp.GetIfiInfo

open Minions.Unp.Rtaddrs

-----------------------------------------------------------------------------------------
-- The list of interfaces
-----------------------------------------------------------------------------------------

/-- The sizes of `ifi_name` and `ifi_haddr`. -/
structure Unpifi where
  ifiName : Nat
  ifiHaddr : Nat

/-- A copied address, and where in the buffer the message is that it was in. -/
structure Copied where
  offset : Nat
  sa : List UInt8
  deriving DecidableEq

/-- `struct ifi_info`. The name is the string in its array, and `haddr` is what was copied. -/
structure IfiInfo where
  name : List UInt8 := []
  index : Nat := 0
  hlen : Nat := 0
  haddr : List UInt8 := []
  flags : Nat := 0
  addr : Option Copied := none
  brdaddr : Option (List UInt8) := none
  dstaddr : Option (List UInt8) := none
  deriving DecidableEq

/-- A message in the buffer: its header's fields, and what follows the header. -/
inductive Msg
  | ifinfo (flags addrs : Nat) (sa : Sa)
  | newaddr (offset addrs : Nat) (sa : Sa)
  | other (type : Nat)

/-- No list is returned: `ifi` is not initialized or a string is not terminated, or the message
is of an unexpected type.
-/
inductive Stop
  | undefined
  | unexpected (type : Nat)
  deriving DecidableEq

def iffUp : Nat := 0x1
def iffBroadcast : Nat := 0x2
def iffPointopoint : Nat := 0x10

def afLink : Nat := 18

def sdlIndex (sdl : Sa) : Nat := (sdl.getD 2 0).toNat + 256 * (sdl.getD 3 0).toNat
def sdlNlen (sdl : Sa) : Nat := (sdl.getD 5 0).toNat
def sdlAlen (sdl : Sa) : Nat := (sdl.getD 6 0).toNat

/-- What the buffer holds from `sdl_data` on. -/
def sdlData (sdl : Sa) : List UInt8 := sdl.drop 8

/-- The string at a pointer, if it ends in the buffer. -/
def stringAt (bytes : List UInt8) : Option (List UInt8) :=
  if 0 ∈ bytes then some (bytes.takeWhile (· ≠ 0)) else none

/-- The string that `snprintf` leaves in an array of the size. -/
def snprintf (size : Nat) (text : List UInt8) : List UInt8 := text.take (size - 1)

/-- `%*s` -/
def padded (width : Nat) (text : List UInt8) : List UInt8 :=
  List.replicate (width - text.length) 32 ++ text

/-- `index %d` -/
def indexText (index : Nat) : List UInt8 :=
  ("index " ++ toString index).toList.map fun c => UInt8.ofNat c.toNat

def ifiNameOf (h : Unpifi) (sdl : Sa) : Except Stop (List UInt8) :=
  if sdlNlen sdl > 0 then
    match stringAt (sdlData sdl) with
    | some text => .ok (snprintf h.ifiName (padded (sdlNlen sdl) text))
    | none => .error .undefined
  else .ok (snprintf h.ifiName (indexText (sdlIndex sdl)))

/-- `memcpy` from `LLADDR` -/
def haddrOf (h : Unpifi) (sdl : Sa) : List UInt8 :=
  ((sdlData sdl).drop (sdlNlen sdl)).take (min h.ifiHaddr (sdlAlen sdl))

/-- The entry that an `RTM_IFINFO` with an `RTAX_IFP` address makes. -/
def newIfi (h : Unpifi) (flags : Nat) (sa : Sa) : Except Stop IfiInfo :=
  if sa.family = afLink then
    match ifiNameOf h sa with
    | .ok name =>
        .ok
          { flags, name
            index := sdlIndex sa
            hlen := sdlAlen sa
            haddr := haddrOf h sa }
    | .error stop => .error stop
  else .ok { flags }

/-- The new entry for another address of an interface. -/
def IfiInfo.alias (ifisave : IfiInfo) : IfiInfo :=
  { flags := ifisave.flags
    index := ifisave.index
    hlen := ifisave.hlen
    name := ifisave.name
    haddr := ifisave.haddr }

/-- The addresses of an `RTM_NEWADDR` are copied to an entry. -/
def copyAddrs (flags offset : Nat) (rtiInfo : List (Option Sa)) (ifi : IfiInfo) : IfiInfo :=
  let brd := (rtiInfo.getD rtaxBrd none).map Sa.value
  { ifi with
    addr :=
      match rtiInfo.getD rtaxIfa none with
      | some sa => some { offset, sa := sa.value }
      | none => ifi.addr
    brdaddr := if flags &&& iffBroadcast ≠ 0 then brd <|> ifi.brdaddr else ifi.brdaddr
    dstaddr := if flags &&& iffPointopoint ≠ 0 then brd <|> ifi.dstaddr else ifi.dstaddr }

/-- The loop's variables: `ifi` is the last of the list once it is set, as `ifipnext` is its
`ifi_next`.
-/
structure Builder where
  before : List IfiInfo
  ifi : Option IfiInfo
  flags : Nat

def start : Builder where
  before := []
  ifi := none
  flags := 0

/-- What `ifihead` leads to. -/
def Builder.list (s : Builder) : List IfiInfo := s.before ++ s.ifi.toList

/-- A new entry is put at the end, and `ifi` is it. -/
def Builder.link (s : Builder) (ifi : IfiInfo) : Builder :=
  { s with before := s.list, ifi := some ifi }

def step (h : Unpifi) (doaliases : Int) (s : Builder) : Msg → Except Stop Builder
  | .ifinfo flags addrs sa =>
      -- `flags` is set even where the interface is skipped and `ifi` stays.
      let s := { s with flags }
      if flags &&& iffUp = 0 then .ok s
      else
        match (getRtaddrs addrs sa).getD rtaxIfp none with
        | some ifp =>
            match newIfi h flags ifp with
            | .ok ifi => .ok (s.link ifi)
            | .error stop => .error stop
        | none => .ok s
  | .newaddr offset addrs sa =>
      match s.ifi with
      | some ifi =>
          let copied := copyAddrs s.flags offset (getRtaddrs addrs sa)
          if ifi.addr.isSome then
            if doaliases = 0 then .ok s else .ok (s.link (copied ifi.alias))
          else .ok { s with ifi := some (copied ifi) }
      | none => .error .undefined
  | .other type => .error (.unexpected type)

def run (h : Unpifi) (doaliases : Int) (s : Builder) (msgs : List Msg) : Except Stop Builder :=
  msgs.foldlM (step h doaliases) s

/-- `get_ifi_info` for the messages in the buffer. -/
def getIfiInfo (h : Unpifi) (doaliases : Int) (msgs : List Msg) : Except Stop (List IfiInfo) :=
  (run h doaliases start msgs).map Builder.list

-----------------------------------------------------------------------------------------
-- Well-formed messages
-----------------------------------------------------------------------------------------

/-- The name and the hardware address are in the `sockaddr_dl`, and the name is one. -/
structure Link (sdl : Sa) : Prop where
  room : 8 + sdlNlen sdl + sdlAlen sdl ≤ sdl.len
  name : 0 ∉ (sdlData sdl).take (sdlNlen sdl)

/-- An `RTM_IFINFO` with an `RTAX_IFP` address. -/
structure Ifinfo extends Addrs where
  flags : Nat
  ifp : SockAddr
  hasIfp : sas rtaxIfp = some ifp
  link : ifp.bytes.family = afLink → Link ifp.bytes

/-- An `RTM_NEWADDR`. -/
structure Newaddr extends Addrs where
  offset : Nat
  ifa : SockAddr
  hasIfa : sas rtaxIfa = some ifa

/-- An interface's message and those of its addresses, up to the next interface. -/
structure Interface where
  info : Ifinfo
  addrs : List Newaddr

def Ifinfo.msg (m : Ifinfo) : Msg := .ifinfo m.flags m.addrs m.area

def Newaddr.msg (m : Newaddr) : Msg := .newaddr m.offset m.addrs m.area

def Interface.messages (i : Interface) : List Msg := i.info.msg :: i.addrs.map Newaddr.msg

def Interface.offsets (i : Interface) : List Nat := i.addrs.map Newaddr.offset

def Interface.Up (i : Interface) : Prop := i.info.flags &&& iffUp ≠ 0

instance (i : Interface) : Decidable i.Up := inferInstanceAs (Decidable (_ ≠ _))

/-- The interface's own name: the bytes that are counted, as far as there is room. -/
def ownName (h : Unpifi) (sdl : Sa) : List UInt8 :=
  snprintf h.ifiName
    (if sdlNlen sdl > 0 then (sdlData sdl).take (sdlNlen sdl) else indexText (sdlIndex sdl))

/-- An entry with what is known of the interface. -/
def Interface.entry (h : Unpifi) (i : Interface) : IfiInfo :=
  let sdl := i.info.ifp.bytes
  if sdl.family = afLink then
    { flags := i.info.flags
      name := ownName h sdl
      index := sdlIndex sdl
      hlen := sdlAlen sdl
      haddr := haddrOf h sdl }
  else { flags := i.info.flags }

/-- An entry of an interface with the flags, with an address. -/
def attach (flags : Nat) (ifi : IfiInfo) (a : Newaddr) : IfiInfo :=
  let brd := (a.sas rtaxBrd).map fun s => s.bytes.value
  { ifi.alias with
    addr := some { offset := a.offset, sa := a.ifa.bytes.value }
    brdaddr := if flags &&& iffBroadcast ≠ 0 then brd else none
    dstaddr := if flags &&& iffPointopoint ≠ 0 then brd else none }

/-- The interface's addresses, each with what is known of the interface. -/
def Interface.expected (h : Unpifi) (i : Interface) : List IfiInfo :=
  if i.Up then i.addrs.map (attach i.info.flags (i.entry h)) else []

-----------------------------------------------------------------------------------------
-- The name and the hardware address
-----------------------------------------------------------------------------------------

/-- What the buffer holds from the name on. -/
def Ifinfo.text (m : Ifinfo) : List UInt8 := sdlData m.ifp.bytes ++ m.behind rtaxIfp

/-- The string that starts with the name ends in the buffer. -/
def Ifinfo.Ends (m : Ifinfo) : Prop :=
  m.ifp.bytes.family = afLink → sdlNlen m.ifp.bytes > 0 → 0 ∈ m.text

/-- The name fills `ifi_name`, or a null follows it. -/
def Ifinfo.Alone (h : Unpifi) (m : Ifinfo) : Prop :=
  m.ifp.bytes.family = afLink → sdlNlen m.ifp.bytes > 0 →
    h.ifiName ≤ sdlNlen m.ifp.bytes + 1 ∨ m.text[sdlNlen m.ifp.bytes]? = some 0

/-- The string is the counted name and what follows it up to a null. -/
theorem snprintf_padded_iff {size count : Nat} {text : List UInt8}
    (name : 0 ∉ text.take count) (long : count ≤ text.length) (ends : 0 ∈ text)
    : snprintf size (padded count (text.takeWhile (· ≠ 0))) = snprintf size (text.take count)
      ↔ size ≤ count + 1 ∨ text[count]? = some 0 := by
  have length : (text.take count).length = count := List.length_take_of_le long
  -- No byte of the name ends the string, so it goes on behind the name.
  have split : text.takeWhile (· ≠ 0)
      = text.take count ++ (text.drop count).takeWhile (· ≠ 0) := by
    conv_lhs => rw [← List.take_append_drop count text]
    refine List.takeWhile_append_of_pos fun byte among => ?_
    have nonzero : byte ≠ 0 := fun null => name (null ▸ among)
    simpa using nonzero
  have unpadded : padded count (text.takeWhile (· ≠ 0)) = text.takeWhile (· ≠ 0) := by
    have wide : count - (text.takeWhile (· ≠ 0)).length = 0 := by
      rw [split, List.length_append, length]
      omega
    rw [padded, wide]
    rfl
  have following : (text.drop count).takeWhile (· ≠ 0) = [] ↔ text[count]? = some 0 := by
    rw [← List.head?_drop]
    cases rest : text.drop count with
    | nil =>
        rw [← List.take_append_drop count text, rest, List.append_nil] at ends
        exact absurd ends name
    | cons byte more => simp [List.takeWhile_cons]
  rw [unpadded, split, snprintf, snprintf, List.take_append, length, List.append_right_eq_self,
    List.take_eq_nil_iff, following]
  exact or_congr_left (by omega)

/-- The index lies in front of what follows. -/
@[simp]
theorem sdlIndex_append (s : SockAddr) (more : List UInt8)
    : sdlIndex (s.bytes ++ more) = sdlIndex s.bytes := by
  rw [sdlIndex, s.getD_append more (by decide), s.getD_append more (by decide), sdlIndex]

/-- The length of the name lies in front of what follows. -/
@[simp]
theorem sdlNlen_append (s : SockAddr) (more : List UInt8)
    : sdlNlen (s.bytes ++ more) = sdlNlen s.bytes := by
  rw [sdlNlen, s.getD_append more (by decide), sdlNlen]

/-- The length of the address lies in front of what follows. -/
@[simp]
theorem sdlAlen_append (s : SockAddr) (more : List UInt8)
    : sdlAlen (s.bytes ++ more) = sdlAlen s.bytes := by
  rw [sdlAlen, s.getD_append more (by decide), sdlAlen]

/-- The data goes on with what follows. -/
@[simp]
theorem sdlData_append (s : SockAddr) (more : List UInt8)
    : sdlData (s.bytes ++ more) = sdlData s.bytes ++ more :=
  List.drop_append_of_le_length s.header_le

/-- The data lies behind eight bytes. -/
theorem length_sdlData (s : SockAddr) : (sdlData s.bytes).length = s.bytes.length - 8 :=
  List.length_drop

/-- The hardware address is copied from the address itself. -/
theorem haddrOf_append {s : SockAddr} (link : Link s.bytes) (h : Unpifi) (more : List UInt8)
    : haddrOf h (s.bytes ++ more) = haddrOf h s.bytes := by
  have room := link.room
  have len := s.len_le
  have data := length_sdlData s
  have inside : min h.ifiHaddr (sdlAlen s.bytes)
      ≤ ((sdlData s.bytes).drop (sdlNlen s.bytes)).length := by
    rw [List.length_drop]
    omega
  rw [haddrOf, haddrOf, sdlNlen_append, sdlAlen_append, sdlData_append,
    List.drop_append_of_le_length (by omega), List.take_append_of_le_length inside]

/-- The name that is read is the interface's own exactly if it stands alone. -/
theorem ifiNameOf_append {m : Ifinfo} (h : Unpifi) (isLink : m.ifp.bytes.family = afLink)
    (ends : m.Ends)
    : ∃ name, ifiNameOf h (m.ifp.bytes ++ m.behind rtaxIfp) = .ok name
        ∧ (name = ownName h m.ifp.bytes ↔ m.Alone h) := by
  have link := m.link isLink
  by_cases named : sdlNlen m.ifp.bytes > 0
  · have room := link.room
    have len := m.ifp.len_le
    have data := length_sdlData m.ifp
    have counted : m.text.take (sdlNlen m.ifp.bytes)
        = (sdlData m.ifp.bytes).take (sdlNlen m.ifp.bytes) :=
      List.take_append_of_le_length (by omega)
    have name : 0 ∉ m.text.take (sdlNlen m.ifp.bytes) := counted ▸ link.name
    have long : sdlNlen m.ifp.bytes ≤ m.text.length := by
      rw [Ifinfo.text, List.length_append]
      omega
    have null : 0 ∈ m.text := ends isLink named
    have here : sdlData (m.ifp.bytes ++ m.behind rtaxIfp) = m.text := sdlData_append ..
    refine ⟨snprintf h.ifiName (padded (sdlNlen m.ifp.bytes) (m.text.takeWhile (· ≠ 0))), ?_, ?_⟩
    · rw [ifiNameOf, sdlNlen_append, if_pos named, here, stringAt, if_pos null]
    · rw [ownName, if_pos named, ← counted, snprintf_padded_iff name long null]
      exact ⟨fun alone _ _ => alone, fun alone => alone isLink named⟩
  · refine ⟨_, by rw [ifiNameOf, sdlNlen_append, if_neg named, sdlIndex_append], ?_⟩
    rw [ownName, if_neg named]
    exact ⟨fun _ _ some => absurd some named, fun _ => rfl⟩

/-- An entry is an alias of itself. -/
theorem alias_entry (h : Unpifi) (i : Interface) : (i.entry h).alias = i.entry h := by
  by_cases isLink : i.info.ifp.bytes.family = afLink
  · rw [Interface.entry, if_pos isLink]
    rfl
  · rw [Interface.entry, if_neg isLink]
    rfl

/-- The entry that is made for an interface is the right one exactly if its name is. -/
theorem newIfi_of_ends {i : Interface} (h : Unpifi) (ends : i.info.Ends)
    : ∃ ifi,
        newIfi h i.info.flags (i.info.ifp.bytes ++ i.info.behind rtaxIfp) = .ok ifi
        ∧ ifi.alias = ifi ∧ (ifi = i.entry h ↔ i.info.Alone h) := by
  by_cases isLink : i.info.ifp.bytes.family = afLink
  · obtain ⟨name, read, own⟩ := ifiNameOf_append h isLink ends
    refine ⟨_, by rw [newIfi, SockAddr.family_append, if_pos isLink, read], rfl, ?_⟩
    rw [← own, Interface.entry, if_pos isLink, sdlIndex_append, sdlAlen_append,
      haddrOf_append (i.info.link isLink)]
    simp
  · refine ⟨_, by rw [newIfi, SockAddr.family_append, if_neg isLink], rfl, ?_⟩
    rw [Interface.entry, if_neg isLink]
    exact ⟨fun _ link => absurd link isLink, fun _ => rfl⟩

/-- A name that does not end in the message is undefined behaviour. -/
theorem newIfi_of_not_ends {i : Interface} (h : Unpifi) (unended : ¬i.info.Ends)
    : newIfi h i.info.flags (i.info.ifp.bytes ++ i.info.behind rtaxIfp)
      = .error .undefined := by
  simp only [Ifinfo.Ends, Classical.not_imp] at unended
  obtain ⟨isLink, named, noNull⟩ := unended
  have here : sdlData (i.info.ifp.bytes ++ i.info.behind rtaxIfp) = i.info.text :=
    sdlData_append ..
  rw [newIfi, SockAddr.family_append, if_pos isLink, ifiNameOf, sdlNlen_append, if_pos named,
    here, stringAt, if_neg noNull]

-----------------------------------------------------------------------------------------
-- One message
-----------------------------------------------------------------------------------------

variable {h : Unpifi} {doaliases : Int} {s s' : Builder} {ifi : IfiInfo}

/-- The entries that have an address. -/
def attached (list : List IfiInfo) : List IfiInfo := list.filter fun ifi => ifi.addr.isSome

/-- The current entry has an address. -/
def Builder.Taken (s : Builder) : Prop := ∃ ifi, s.ifi = some ifi ∧ ifi.addr.isSome

/-- A new entry is linked at the end. -/
@[simp]
theorem list_link (s : Builder) (ifi : IfiInfo) : (s.link ifi).list = s.list ++ [ifi] := rfl

/-- The entries with an address, of two lists. -/
theorem attached_append (list list' : List IfiInfo)
    : attached (list ++ list') = attached list ++ attached list' :=
  List.filter_append ..

/-- The current entry is the last. -/
theorem list_of_ifi (current : s.ifi = some ifi) : s.list = s.before ++ [ifi] := by
  rw [Builder.list, current]
  rfl

/-- The address of an attached entry. -/
@[simp]
theorem attach_addr (flags : Nat) (ifi : IfiInfo) (a : Newaddr)
    : (attach flags ifi a).addr = some { offset := a.offset, sa := a.ifa.bytes.value } :=
  rfl

/-- An address leaves the rest of the entry alone. -/
@[simp]
theorem attach_alias (flags : Nat) (ifi : IfiInfo) (a : Newaddr)
    : (attach flags ifi a).alias = ifi.alias :=
  rfl

/-- What the entry held before in its address does not matter. -/
theorem attach_congr {ifi' : IfiInfo} (same : ifi.alias = ifi'.alias) (flags : Nat)
    : attach flags ifi = attach flags ifi' := by
  funext a
  rw [attach, attach, same]

/-- The address that is copied. -/
theorem copyAddrs_addr (flags : Nat) (a : Newaddr) (ifi : IfiInfo)
    : (copyAddrs flags a.offset (getRtaddrs a.addrs a.area) ifi).addr
      = some { offset := a.offset, sa := a.ifa.bytes.value } := by
  rw [copyAddrs, getD_getRtaddrs a.toAddrs (by decide), a.hasIfa]
  simp

/-- A new entry gets the addresses of the message. -/
theorem copyAddrs_alias (flags : Nat) (a : Newaddr) (ifi : IfiInfo)
    : copyAddrs flags a.offset (getRtaddrs a.addrs a.area) ifi.alias = attach flags ifi a := by
  rw [copyAddrs, getD_getRtaddrs a.toAddrs (by decide), getD_getRtaddrs a.toAddrs (by decide),
    a.hasIfa, attach]
  simp [IfiInfo.alias, Function.comp_def]

/-- A message of an interface that is down only sets `flags`. -/
theorem step_down {i : Interface} (down : ¬i.Up)
    : step h doaliases s i.info.msg = .ok { s with flags := i.info.flags } := by
  have masked : i.info.flags &&& iffUp = 0 := not_not.mp down
  rw [Ifinfo.msg, step, if_pos masked]

/-- A message of an interface that is up makes an entry. -/
theorem step_up {i : Interface} (up : i.Up)
    (made : newIfi h i.info.flags (i.info.ifp.bytes ++ i.info.behind rtaxIfp) = .ok ifi)
    : step h doaliases s i.info.msg
      = .ok (Builder.link { s with flags := i.info.flags } ifi) := by
  rw [Ifinfo.msg, step, if_neg up, getD_getRtaddrs i.info.toAddrs (by decide), i.info.hasIfp]
  simp only [Option.map_some, made]

/-- An interface whose name does not end. -/
theorem step_up_undefined {i : Interface} (up : i.Up) (unended : ¬i.info.Ends)
    : step h doaliases s i.info.msg = .error .undefined := by
  rw [Ifinfo.msg, step, if_neg up, getD_getRtaddrs i.info.toAddrs (by decide), i.info.hasIfp]
  simp only [Option.map_some, newIfi_of_not_ends h unended]

/-- An address before any interface. -/
theorem step_uninitialized (a : Newaddr) (none : s.ifi = none)
    : step h doaliases s a.msg = .error .undefined := by
  simp only [Newaddr.msg, step, none]

/-- Without `doaliases` the first address is the only one. -/
theorem step_skip (a : Newaddr) (taken : s.Taken) : step h 0 s a.msg = .ok s := by
  obtain ⟨ifi, current, some⟩ := taken
  simp only [Newaddr.msg, step, current, some, if_true]

/-- A further address becomes an alias. -/
theorem step_alias (a : Newaddr) (current : s.ifi = some ifi) (taken : ifi.addr.isSome)
    (aliases : doaliases ≠ 0)
    : step h doaliases s a.msg = .ok (s.link (attach s.flags ifi a)) := by
  simp only [Newaddr.msg, step, current, taken, if_true, if_neg aliases, copyAddrs_alias]

/-- The first address goes to the entry. -/
theorem step_first (a : Newaddr) (current : s.ifi = some ifi) (free : ifi.addr = none)
    : step h doaliases s a.msg
      = .ok
          { s with ifi := some (copyAddrs s.flags a.offset (getRtaddrs a.addrs a.area) ifi) } := by
  simp [Newaddr.msg, step, current, free]

/-- An address that is not skipped is attached to some entry, unless there is none. -/
theorem step_attaches (a : Newaddr) (current : s.ifi = some ifi)
    (through : ¬(doaliases = 0 ∧ s.Taken))
    : ∃ s' e, step h doaliases s a.msg = .ok s'
        ∧ attached s'.list = attached s.list ++ [e]
        ∧ e.addr = some { offset := a.offset, sa := a.ifa.bytes.value } := by
  by_cases taken : ifi.addr.isSome
  · have aliases : doaliases ≠ 0 := fun zero => through ⟨zero, ifi, current, taken⟩
    refine ⟨_, attach s.flags ifi a, step_alias a current taken aliases, ?_, rfl⟩
    rw [list_link, attached_append]
    rfl
  · have free : ifi.addr = none := Option.not_isSome_iff_eq_none.mp taken
    have addr := copyAddrs_addr s.flags a ifi
    refine ⟨_, _, step_first a current free, ?_, addr⟩
    rw [list_of_ifi current, Builder.list, attached_append, attached_append]
    simp [attached, free, addr]

-----------------------------------------------------------------------------------------
-- The messages of an interface
-----------------------------------------------------------------------------------------

/-- The first message and the others. -/
theorem run_cons (m : Msg) (msgs : List Msg)
    : run h doaliases s (m :: msgs)
      = (step h doaliases s m).bind fun s' => run h doaliases s' msgs :=
  rfl

/-- Messages one after the other. -/
theorem run_append (msgs msgs' : List Msg)
    : run h doaliases s (msgs ++ msgs')
      = (run h doaliases s msgs).bind fun s' => run h doaliases s' msgs' :=
  List.foldlM_append

/-- Entries with addresses from messages at the offsets. -/
def From (offsets : List Nat) (list : List IfiInfo) : Prop :=
  ∀ e ∈ list, ∃ c, e.addr = some c ∧ c.offset ∈ offsets

/-- More sources. -/
theorem From.mono {offsets offsets' : List Nat} {list : List IfiInfo}
    (sub : offsets ⊆ offsets') (source : From offsets list)
    : From offsets' list := by
  intro e among
  obtain ⟨c, addr, here⟩ := source e among
  exact ⟨c, addr, sub here⟩

/-- The sources of two lists. -/
theorem From.append {offsets : List Nat} {list list' : List IfiInfo}
    (left : From offsets list) (right : From offsets list')
    : From offsets (list ++ list') := by
  intro e among
  rcases List.mem_append.mp among with among | among
  · exact left e among
  · exact right e among

/-- A message of an address keeps the attached entries and adds at most one. -/
theorem step_attached (a : Newaddr) (ok : step h doaliases s a.msg = .ok s')
    : ∃ new, attached s'.list = attached s.list ++ new ∧ From [a.offset] new := by
  cases current : s.ifi with
  | none => rw [step_uninitialized a current] at ok; contradiction
  | some ifi =>
      by_cases skipped : doaliases = 0 ∧ s.Taken
      · obtain ⟨rfl, taken⟩ := skipped
        rw [step_skip a taken] at ok
        cases ok
        exact ⟨[], (List.append_nil _).symm, by simp [From]⟩
      · obtain ⟨t, e, steps, list, addr⟩ := step_attaches (h := h) a current skipped
        rw [steps] at ok
        cases ok
        exact ⟨[e], list, by simp [From, addr]⟩

/-- The addresses of an interface keep what is attached, by induction on them. -/
theorem run_addrs_attached {addrs : List Newaddr}
    (ok : run h doaliases s (addrs.map Newaddr.msg) = .ok s')
    : ∃ new, attached s'.list = attached s.list ++ new
        ∧ From (addrs.map Newaddr.offset) new := by
  induction addrs generalizing s with
  | nil =>
      cases ok
      exact ⟨[], (List.append_nil _).symm, by simp [From]⟩
  | cons a rest ih =>
      rw [List.map_cons, run_cons] at ok
      cases first : step h doaliases s a.msg with
      | error stop => rw [first] at ok; contradiction
      | ok t =>
          rw [first] at ok
          obtain ⟨new, list, source⟩ := step_attached a first
          obtain ⟨new', list', source'⟩ := ih ok
          refine ⟨new ++ new', by rw [list', list, List.append_assoc], ?_⟩
          exact (source.mono (by simp)).append (source'.mono (by simp))

/-- The addresses after an interface's first that are kept. -/
def more (doaliases : Int) (addrs : List Newaddr) : List Newaddr :=
  if doaliases = 0 then [] else addrs

def kept (doaliases : Int) : List Newaddr → List Newaddr
  | [] => []
  | a :: rest => a :: more doaliases rest

/-- Without `doaliases` all addresses after the first are skipped, by induction on them. -/
theorem run_skip (addrs : List Newaddr) (taken : s.Taken)
    : run h 0 s (addrs.map Newaddr.msg) = .ok s := by
  induction addrs with
  | nil => rfl
  | cons a rest ih =>
      rw [List.map_cons, run_cons, step_skip a taken]
      exact ih

/-- Further addresses of an entry are skipped or clone it, by induction on them. -/
theorem run_taken (h : Unpifi) (doaliases : Int) (addrs : List Newaddr)
    (current : s.ifi = some ifi)
    (taken : ifi.addr.isSome)
    : ∃ s', run h doaliases s (addrs.map Newaddr.msg) = .ok s'
        ∧ s'.list = s.list ++ (more doaliases addrs).map (attach s.flags ifi)
        ∧ s'.Taken := by
  by_cases zero : doaliases = 0
  · subst zero
    exact ⟨s, run_skip addrs ⟨ifi, current, taken⟩, by simp [more], ifi, current, taken⟩
  · simp only [more, if_neg zero]
    induction addrs generalizing s ifi with
    | nil => exact ⟨s, rfl, (List.append_nil _).symm, ifi, current, taken⟩
    | cons a rest ih =>
        obtain ⟨s', runs, list, taken'⟩ := ih (s := s.link (attach s.flags ifi a)) rfl rfl
        refine ⟨s', ?_, ?_, taken'⟩
        · rw [List.map_cons, run_cons, step_alias a current taken zero]
          exact runs
        · rw [list, list_link, attach_congr (attach_alias s.flags ifi a)]
          exact List.append_assoc ..

/-- Addresses that are not all skipped attach some entry, unless there is none. -/
theorem run_addrs_attaches {addrs : List Newaddr}
    (through : ¬(addrs = [] ∨ doaliases = 0 ∧ s.Taken))
    (ok : run h doaliases s (addrs.map Newaddr.msg) = .ok s')
    : ∃ new, attached s'.list = attached s.list ++ new ∧ new ≠ [] := by
  cases addrs with
  | nil => exact absurd (.inl rfl) through
  | cons a rest =>
      rw [List.map_cons, run_cons] at ok
      cases current : s.ifi with
      | none => rw [step_uninitialized a current] at ok; contradiction
      | some ifi =>
          obtain ⟨t, e, steps, list, -⟩ :=
            step_attaches (h := h) a current fun skipped => through (.inr skipped)
          rw [steps] at ok
          obtain ⟨new, list', -⟩ := run_addrs_attached ok
          refine ⟨e :: new, ?_, List.cons_ne_nil e new⟩
          rw [list', list, List.append_assoc]
          rfl

/-- Attached entries have addresses. -/
theorem attached_attach (flags : Nat) (ifi : IfiInfo) (addrs : List Newaddr)
    : attached (addrs.map (attach flags ifi)) = addrs.map (attach flags ifi) := by
  simp [attached, List.filter_eq_self]

/-- An interface that is up adds its kept addresses, with the entry that is made for it. -/
theorem run_up (doaliases : Int) (s : Builder) {i : Interface} (up : i.Up)
    (made : newIfi h i.info.flags (i.info.ifp.bytes ++ i.info.behind rtaxIfp) = .ok ifi)
    (fresh : ifi.alias = ifi)
    : ∃ s', run h doaliases s i.messages = .ok s'
        ∧ attached s'.list
          = attached s.list ++ (kept doaliases i.addrs).map (attach i.info.flags ifi)
        ∧ (s'.Taken ↔ i.addrs ≠ []) := by
  have free : ifi.addr = none := by
    rw [← fresh]
    rfl
  have first : run h doaliases s i.messages
      = run h doaliases (Builder.link { s with flags := i.info.flags } ifi)
        (i.addrs.map Newaddr.msg) := by
    rw [Interface.messages, run_cons, step_up up made]
    rfl
  rw [first]
  cases addrs : i.addrs with
  | nil =>
      refine ⟨_, rfl, ?_, ?_⟩
      · rw [list_link, attached_append]
        simp [attached, free, kept]
        rfl
      · simp [Builder.Taken, Builder.link, free]
  | cons a rest =>
      have copied : copyAddrs i.info.flags a.offset (getRtaddrs a.addrs a.area) ifi
          = attach i.info.flags ifi a := by
        rw [← copyAddrs_alias, fresh]
      obtain ⟨s', runs, list, taken⟩ := run_taken h doaliases rest
        (s :=
          { Builder.link { s with flags := i.info.flags } ifi with
            ifi := some (attach i.info.flags ifi a) })
        rfl rfl
      refine ⟨s', ?_, ?_, iff_of_true taken (List.cons_ne_nil a rest)⟩
      · rw [List.map_cons, run_cons, step_first a rfl free]
        simp only [Builder.link, copied]
        exact runs
      · have whole : s'.list
            = s.list ++ (kept doaliases (a :: rest)).map (attach i.info.flags ifi) := by
          rw [list, attach_congr (attach_alias i.info.flags ifi a)]
          simp [kept, Builder.list, Builder.link]
        rw [whole, attached_append, attached_attach]

/-- An interface that is down leaves its addresses to the entry before it. -/
theorem run_down {i : Interface} (down : ¬i.Up)
    : run h doaliases s i.messages
      = run h doaliases { s with flags := i.info.flags } (i.addrs.map Newaddr.msg) := by
  rw [Interface.messages, run_cons, step_down down]
  rfl

/-- An interface that is down changes nothing if its addresses are skipped. -/
theorem run_down_skip {i : Interface} (down : ¬i.Up)
    (skipped : i.addrs = [] ∨ doaliases = 0 ∧ s.Taken)
    : run h doaliases s i.messages = .ok { s with flags := i.info.flags } := by
  rw [run_down down]
  rcases skipped with none | ⟨rfl, taken⟩
  · rw [none]
    rfl
  · exact run_skip i.addrs (s := { s with flags := i.info.flags }) taken

/-- Attached entries come from their addresses. -/
theorem from_attach {addrs addrs' : List Newaddr} (sub : addrs ⊆ addrs') (flags : Nat)
    (ifi : IfiInfo)
    : From (addrs'.map Newaddr.offset) (addrs.map (attach flags ifi)) := by
  intro e among
  obtain ⟨a, here, rfl⟩ := List.mem_map.mp among
  exact ⟨_, rfl, List.mem_map_of_mem (sub here)⟩

/-- The kept addresses are among all. -/
theorem kept_subset (addrs : List Newaddr) : kept doaliases addrs ⊆ addrs := by
  cases addrs with
  | nil => exact List.Subset.refl []
  | cons a rest =>
      rw [kept, more]
      split
      · simp
      · exact List.Subset.refl _

/-- With aliases all addresses are kept. -/
theorem kept_of_aliases (aliases : doaliases ≠ 0) (addrs : List Newaddr)
    : kept doaliases addrs = addrs := by
  cases addrs with
  | nil => rfl
  | cons a rest => rw [kept, more, if_neg aliases]

/-- The messages of one interface attach entries of its own. -/
theorem run_interface_attached {i : Interface}
    (ok : run h doaliases s i.messages = .ok s')
    : ∃ new, attached s'.list = attached s.list ++ new ∧ From i.offsets new := by
  by_cases up : i.Up
  · by_cases ends : i.info.Ends
    · obtain ⟨ifi, made, fresh, -⟩ := newIfi_of_ends h ends
      obtain ⟨t, runs, list, -⟩ := run_up doaliases s up made fresh
      rw [runs] at ok
      cases ok
      exact ⟨_, list, from_attach (kept_subset i.addrs) i.info.flags ifi⟩
    · rw [Interface.messages, run_cons, step_up_undefined up ends] at ok
      contradiction
  · rw [run_down up] at ok
    exact run_addrs_attached (s := { s with flags := i.info.flags }) ok

-----------------------------------------------------------------------------------------
-- All messages
-----------------------------------------------------------------------------------------

def messages (is : List Interface) : List Msg := is.flatMap Interface.messages

def offsets (is : List Interface) : List Nat := is.flatMap Interface.offsets

/-- The addresses of the interfaces that are up, each with its own interface's entry. -/
def expected (h : Unpifi) (is : List Interface) : List IfiInfo :=
  is.flatMap (Interface.expected h)

/-- The messages of interfaces that are up are read well, and no address of an interface that is
down is attached. What is carried along is whether the last interface that was up has an address.
-/
def Fine (h : Unpifi) (doaliases : Int) : Prop → List Interface → Prop
  | _, [] => True
  | taken, i :: rest =>
      if i.Up then
        i.info.Ends ∧ (i.addrs ≠ [] → i.info.Alone h) ∧ Fine h doaliases (i.addrs ≠ []) rest
      else (i.addrs = [] ∨ doaliases = 0 ∧ taken) ∧ Fine h doaliases taken rest

/-- The messages are handled and add entries of the interfaces that are up. -/
def Conveyed (h : Unpifi) (doaliases : Int) (s : Builder) (msgs : List Msg)
    (expected : List IfiInfo) (s' : Builder) : Prop :=
  run h doaliases s msgs = .ok s'
  ∧ ∃ new, attached s'.list = attached s.list ++ new
    ∧ (∀ e ∈ new, e ∈ expected) ∧ (doaliases ≠ 0 → new = expected)

/-- The messages attach entries of their own. -/
theorem run_attached {is : List Interface} (ok : run h doaliases s (messages is) = .ok s')
    : ∃ new, attached s'.list = attached s.list ++ new ∧ From (offsets is) new := by
  induction is generalizing s with
  | nil =>
      cases ok
      exact ⟨[], (List.append_nil _).symm, by simp [From]⟩
  | cons i rest ih =>
      rw [messages, List.flatMap_cons, run_append] at ok
      cases first : run h doaliases s i.messages with
      | error stop => rw [first] at ok; contradiction
      | ok t =>
          rw [first] at ok
          obtain ⟨new, list, source⟩ := run_interface_attached first
          obtain ⟨new', list', source'⟩ := ih ok
          refine ⟨new ++ new', by rw [list', list, List.append_assoc], ?_⟩
          rw [offsets, List.flatMap_cons]
          exact (source.mono (List.subset_append_left ..)).append
            (source'.mono (List.subset_append_right ..))

/-- The entries expected of an interface come from it. -/
theorem from_interface (h : Unpifi) (i : Interface) : From i.offsets (i.expected h) := by
  unfold Interface.expected
  split
  · exact from_attach (List.Subset.refl i.addrs) i.info.flags (i.entry h)
  · simp [From]

/-- The entries expected come from their interfaces. -/
theorem from_expected (h : Unpifi) (is : List Interface)
    : From (offsets is) (expected h is) := by
  intro e among
  obtain ⟨i, here, own⟩ := List.mem_flatMap.mp among
  obtain ⟨c, addr, offset⟩ := from_interface h i e own
  exact ⟨c, addr, List.mem_flatMap.mpr ⟨i, here, offset⟩⟩

/-- Entries from messages at different places are different. -/
theorem From.disjoint {o o' : List Nat} {list list' : List IfiInfo} (apart : o.Disjoint o')
    (left : From o list) (right : From o' list')
    : list.Disjoint list' := by
  intro e among among'
  obtain ⟨c, addr, here⟩ := left e among
  obtain ⟨c', addr', here'⟩ := right e among'
  rw [addr] at addr'
  cases addr'
  exact apart here here'

/-- A list splits in one way into parts without common elements. -/
theorem append_inj_of_disjoint {α : Type} {a b c d : List α} (eq : a ++ b = c ++ d)
    (left : a.Disjoint d) (right : c.Disjoint b)
    : a = c ∧ b = d := by
  rcases List.append_eq_append_iff.mp eq with ⟨more, rfl, rfl⟩ | ⟨more, rfl, rfl⟩
  · have none : more = [] := List.eq_nil_iff_forall_not_mem.mpr fun x among =>
      right (List.mem_append_right a among) (List.mem_append_left d among)
    simp [none]
  · have none : more = [] := List.eq_nil_iff_forall_not_mem.mpr fun x among =>
      left (List.mem_append_right c among) (List.mem_append_left b among)
    simp [none]

/-- The whole run is right exactly if the first interface's messages and the rest are, as
addresses are told apart by their places.
-/
theorem conveyed_cons {i : Interface} {rest : List Interface}
    (placed : (offsets (i :: rest)).Nodup)
    : (∃ s', Conveyed h doaliases s (messages (i :: rest)) (expected h (i :: rest)) s')
      ↔ ∃ t, Conveyed h doaliases s i.messages (i.expected h) t
        ∧ ∃ s', Conveyed h doaliases t (messages rest) (expected h rest) s' := by
  have apart : i.offsets.Disjoint (offsets rest) := by
    rw [offsets, List.flatMap_cons] at placed
    exact fun a here later => (List.nodup_append.mp placed).2.2 a here a later rfl
  have split : run h doaliases s (messages (i :: rest))
      = (run h doaliases s i.messages).bind fun t => run h doaliases t (messages rest) := by
    rw [messages, List.flatMap_cons, run_append]
    rfl
  have whole : expected h (i :: rest) = i.expected h ++ expected h rest := List.flatMap_cons ..
  unfold Conveyed
  rw [split, whole]
  constructor
  · rintro ⟨s', runs, new, list, own, all⟩
    cases first : run h doaliases s i.messages with
    | error stop => rw [first] at runs; contradiction
    | ok t =>
        rw [first] at runs
        obtain ⟨newI, listI, fromI⟩ := run_interface_attached first
        obtain ⟨newRest, listRest, fromRest⟩ := run_attached runs
        have parts : new = newI ++ newRest := by
          rw [listI, List.append_assoc] at listRest
          exact List.append_cancel_left (list.symm.trans listRest)
        subst parts
        -- An entry of one part cannot be expected of the other, as its message is elsewhere.
        have left := From.disjoint apart fromI (from_expected h rest)
        have right := From.disjoint apart (from_interface h i) fromRest
        refine ⟨t, ⟨rfl, newI, listI, fun e among => ?_, fun aliases => ?_⟩,
          s', runs, newRest, listRest, fun e among => ?_, fun aliases => ?_⟩
        · rcases List.mem_append.mp (own e (List.mem_append_left _ among)) with here | later
          · exact here
          · exact absurd later (left among)
        · exact (append_inj_of_disjoint (all aliases) left right).1
        · rcases List.mem_append.mp (own e (List.mem_append_right _ among)) with here | later
          · exact absurd among (right here)
          · exact later
        · exact (append_inj_of_disjoint (all aliases) left right).2
  · rintro ⟨t, ⟨first, newI, listI, ownI, allI⟩, s', runs, newRest, listRest, ownRest, allRest⟩
    refine ⟨s', by rw [first]; exact runs, newI ++ newRest,
      by rw [listRest, listI, List.append_assoc], fun e among => ?_, fun aliases => ?_⟩
    · rcases List.mem_append.mp among with among | among
      · exact List.mem_append_left _ (ownI e among)
      · exact List.mem_append_right _ (ownRest e among)
    · rw [allI aliases, allRest aliases]

/-- The entries made for an interface are its own exactly if its name is read well. -/
theorem attach_mem_iff {i : Interface} (up : i.Up) (fresh : ifi.alias = ifi)
    : (∀ e ∈ (kept doaliases i.addrs).map (attach i.info.flags ifi), e ∈ i.expected h)
      ↔ (i.addrs ≠ [] → ifi = i.entry h) := by
  rw [Interface.expected, if_pos up]
  constructor
  · intro own some
    obtain ⟨a, rest, addrs⟩ := List.exists_cons_of_ne_nil some
    have first := own (attach i.info.flags ifi a) (by simp [addrs, kept])
    obtain ⟨a', -, same⟩ := List.mem_map.mp first
    have info := congrArg IfiInfo.alias same
    rw [attach_alias, attach_alias, alias_entry, fresh] at info
    exact info.symm
  · intro same e among
    obtain ⟨a, here, rfl⟩ := List.mem_map.mp among
    have here := kept_subset i.addrs here
    rw [same (List.ne_nil_of_mem here)]
    exact List.mem_map_of_mem here

/-- What has to hold for an interface that is up to be reported. -/
theorem conveyed_up {i : Interface} {t : Builder} (up : i.Up)
    : Conveyed h doaliases s i.messages (i.expected h) t
      → i.info.Ends ∧ (i.addrs ≠ [] → i.info.Alone h) ∧ (t.Taken ↔ i.addrs ≠ []) := by
  rintro ⟨runs, new, list, own, -⟩
  by_cases ends : i.info.Ends
  · obtain ⟨ifi, made, fresh, name⟩ := newIfi_of_ends h ends
    obtain ⟨t', runs', list', taken⟩ := run_up doaliases s up made fresh
    rw [runs'] at runs
    cases runs
    have same := List.append_cancel_left (list.symm.trans list')
    rw [same, attach_mem_iff up fresh] at own
    exact ⟨ends, fun some => name.mp (own some), taken⟩
  · rw [Interface.messages, run_cons, step_up_undefined up ends] at runs
    contradiction

/-- An interface that is up is reported where this holds. -/
theorem exists_conveyed_up {i : Interface} (s : Builder) (up : i.Up) (ends : i.info.Ends)
    (alone : i.addrs ≠ [] → i.info.Alone h)
    : ∃ t, Conveyed h doaliases s i.messages (i.expected h) t := by
  obtain ⟨ifi, made, fresh, name⟩ := newIfi_of_ends h ends
  obtain ⟨t, runs, list, taken⟩ := run_up doaliases s up made fresh
  have own : i.addrs ≠ [] → ifi = i.entry h := fun some => name.mpr (alone some)
  refine ⟨t, runs, _, list, (attach_mem_iff up fresh).mpr own, fun aliases => ?_⟩
  rw [kept_of_aliases aliases, Interface.expected, if_pos up]
  cases addrs : i.addrs with
  | nil => rfl
  | cons a rest => rw [own (by simp [addrs])]

/-- When an interface that is down is left out. -/
theorem conveyed_down {i : Interface} {t : Builder} (down : ¬i.Up)
    : Conveyed h doaliases s i.messages (i.expected h) t
      ↔ (i.addrs = [] ∨ doaliases = 0 ∧ s.Taken) ∧ t = { s with flags := i.info.flags } := by
  have nothing : i.expected h = [] := if_neg down
  rw [nothing]
  constructor
  · rintro ⟨runs, new, list, own, -⟩
    have skipped : i.addrs = [] ∨ doaliases = 0 ∧ s.Taken := by
      by_contra through
      rw [run_down down] at runs
      obtain ⟨new', list', some⟩ :=
        run_addrs_attaches (s := { s with flags := i.info.flags }) through runs
      have same : new = new' := List.append_cancel_left (list.symm.trans list')
      obtain ⟨e, rest, rfl⟩ := List.exists_cons_of_ne_nil some
      exact absurd (own e (same ▸ List.mem_cons_self)) (by simp)
    rw [run_down_skip down skipped] at runs
    cases runs
    exact ⟨skipped, rfl⟩
  · rintro ⟨skipped, rfl⟩
    exact ⟨run_down_skip down skipped, [], (List.append_nil _).symm, by simp, fun _ => rfl⟩

/-- The run is right exactly for fine messages, by induction on the interfaces. -/
theorem conveyed_iff {is : List Interface} (placed : (offsets is).Nodup)
    : (∃ s', Conveyed h doaliases s (messages is) (expected h is) s')
      ↔ Fine h doaliases s.Taken is := by
  induction is generalizing s with
  | nil => exact iff_of_true ⟨s, rfl, [], (List.append_nil _).symm, by simp, fun _ => rfl⟩ trivial
  | cons i rest ih =>
      have placedRest : (offsets rest).Nodup := by
        rw [offsets, List.flatMap_cons] at placed
        exact (List.nodup_append.mp placed).2.1
      rw [conveyed_cons placed, Fine]
      by_cases up : i.Up
      · rw [if_pos up]
        constructor
        · rintro ⟨t, first, later⟩
          obtain ⟨ends, alone, taken⟩ := conveyed_up up first
          exact ⟨ends, alone, propext taken ▸ (ih placedRest).mp later⟩
        · rintro ⟨ends, alone, fine⟩
          obtain ⟨t, first⟩ := exists_conveyed_up s up ends alone
          obtain ⟨-, -, taken⟩ := conveyed_up up first
          exact ⟨t, first, (ih placedRest).mpr (propext taken ▸ fine)⟩
      · rw [if_neg up]
        constructor
        · rintro ⟨t, first, later⟩
          obtain ⟨skipped, rfl⟩ := (conveyed_down up).mp first
          exact ⟨skipped, (ih (s := { s with flags := i.info.flags }) placedRest).mp later⟩
        · rintro ⟨skipped, fine⟩
          exact ⟨_, (conveyed_down up).mpr ⟨skipped, rfl⟩,
            (ih (s := { s with flags := i.info.flags }) placedRest).mpr fine⟩

/-- Each address of an interface that is up is listed with its own interface, with `doaliases`
all of them in order, and no other address, exactly if the messages are fine.
-/
theorem getIfiInfo_iff (h : Unpifi) (doaliases : Int) (is : List Interface)
    (placed : (offsets is).Nodup)
    : (∃ list, getIfiInfo h doaliases (messages is) = .ok list
        ∧ (∀ e ∈ attached list, e ∈ expected h is)
        ∧ (doaliases ≠ 0 → attached list = expected h is))
      ↔ Fine h doaliases False is := by
  have nothing : start.Taken ↔ False := by simp [Builder.Taken, start]
  rw [← propext nothing, ← conveyed_iff placed]
  constructor
  · rintro ⟨list, returns, own, all⟩
    cases runs : run h doaliases start (messages is) with
    | error stop => rw [getIfiInfo, runs] at returns; contradiction
    | ok s' =>
        rw [getIfiInfo, runs] at returns
        cases returns
        exact ⟨s', runs, attached s'.list, rfl, own, all⟩
  · rintro ⟨s', runs, new, list, own, all⟩
    have same : attached s'.list = new := list
    refine ⟨s'.list, by rw [getIfiInfo, runs]; rfl, ?_⟩
    rw [same]
    exact ⟨own, all⟩

def sizes : Unpifi where
  ifiName := 16
  ifiHaddr := 8

/-- An Ethernet interface `en0` or `en1`, by the digit and the first byte of its address. -/
def ethernet (digit first : UInt8) : SockAddr where
  bytes :=
    [20, 18, 1, 0, 6, 3, 6, 0, 101, 110, digit, first, 0x80, 0xc8, 0x2b, 0xd9, 0x28, 0, 0, 0,
      0, 0, 0, 0]
  filled := show 24 = stride 20 by decide

def inet (host : UInt8) : SockAddr where
  bytes := [16, 2, 0, 0, 10, 0, 0, host, 0, 0, 0, 0, 0, 0, 0, 0]
  filled := show 16 = stride 16 by decide

def onlyAddr (slot : Nat) (s : SockAddr) : Addrs where
  addrs := 2 ^ slot
  sas := fun i => if i = slot then some s else none
  after := []
  present := by
    intro i _
    rw [Nat.testBit_two_pow]
    by_cases here : i = slot
    · simp [here]
    · simp [here, Ne.symm here]

def newaddrOf (offset : Nat) (host : UInt8) : Newaddr where
  toAddrs := onlyAddr rtaxIfa (inet host)
  offset := offset
  ifa := inet host
  hasIfa := rfl

def ethernetOf (flags : Nat) (sdl : SockAddr) (link : Link sdl.bytes) (addrs : List Newaddr)
    : Interface where
  info :=
    { toAddrs := onlyAddr rtaxIfp sdl
      flags
      ifp := sdl
      hasIfp := rfl
      link := fun _ => link }
  addrs := addrs

/-- `en0` with two addresses, and a hardware address that starts with a null. -/
def twoAddrs : List Interface :=
  [ethernetOf iffUp (ethernet 48 0) ⟨by decide, by decide⟩ [newaddrOf 1 1, newaddrOf 2 2]]

/-- One interface with two addresses. -/
theorem getIfiInfo_iff_twoAddrs
    : (offsets twoAddrs).Nodup
      ∧ ∃ list, getIfiInfo sizes 1 (messages twoAddrs) = .ok list
        ∧ (∀ e ∈ attached list, e ∈ expected sizes twoAddrs)
        ∧ ((1 : Int) ≠ 0 → attached list = expected sizes twoAddrs) := by
  have placed : (offsets twoAddrs).Nodup := by decide
  refine ⟨placed, (getIfiInfo_iff sizes 1 twoAddrs placed).mpr ?_⟩
  rw [twoAddrs, Fine, if_pos (by decide)]
  exact ⟨fun _ _ => by decide, fun _ _ _ => .inr (by decide), trivial⟩

/-- `en0` is up and `en1` is down, both with an address. -/
def downLast : List Interface :=
  [ethernetOf iffUp (ethernet 48 0) ⟨by decide, by decide⟩ [newaddrOf 1 1],
    ethernetOf 0 (ethernet 49 0) ⟨by decide, by decide⟩ [newaddrOf 3 2]]

/-- `en0` with a hardware address that starts with another byte. -/
def namedOn : List Interface :=
  [ethernetOf iffUp (ethernet 48 8) ⟨by decide, by decide⟩ [newaddrOf 1 1]]

/-- The address of `en1` is listed for `en0`, and the hardware address in the name. -/
theorem getIfiInfo_lists_down
    : (offsets downLast).Nodup
      ∧ (getIfiInfo sizes 1 (messages downLast)).map (List.map fun e => (e.name, e.addr))
        = .ok
          [([101, 110, 48], some ⟨1, (inet 1).bytes⟩), ([101, 110, 48], some ⟨3, (inet 2).bytes⟩)]
      ∧ (¬∃ list, getIfiInfo sizes 1 (messages downLast) = .ok list
        ∧ (∀ e ∈ attached list, e ∈ expected sizes downLast)
        ∧ ((1 : Int) ≠ 0 → attached list = expected sizes downLast))
      ∧ (getIfiInfo sizes 1 (messages namedOn)).map (List.map fun e => e.name)
        = .ok [[101, 110, 48, 8, 0x80, 0xc8, 0x2b, 0xd9, 0x28]] := by
  refine ⟨by decide, rfl, ?_, rfl⟩
  rintro ⟨list, returns, -, all⟩
  have two : (getIfiInfo sizes 1 (messages downLast)).map (fun list => (attached list).length)
      = .ok 2 := rfl
  have one : (expected sizes downLast).length = 1 := rfl
  rw [returns] at two
  have length : (attached list).length = 2 := Except.ok.inj two
  rw [all (by decide), one] at length
  contradiction

end Minions.Unp.GetIfiInfo
