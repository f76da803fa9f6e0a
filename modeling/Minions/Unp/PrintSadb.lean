import Minions.Data.ByteOrder
import Minions.Data.Localtime
import Minions.Data.Query

/-! Printing a PF_KEY message: `key/printsadbmsg.c`, which walks over the extensions of the
message by their length fields.
-/

namespace Minions.Unp.Sadb

open Minions.Data

-----------------------------------------------------------------------------------------
-- The printers
-----------------------------------------------------------------------------------------

/-- A computation on memory. Offsets are from the start of the message. -/
abbrev Printer := Query Nat Byte

/-- A member of a structure, of `size` bytes. -/
def field (e : Endian) (offset size : Nat) : Printer Nat := do
  let bytes ← Query.getAll (List.range' offset size)
  pure (e.number bytes)

def PF_KEY_V2 : Nat := 2

def SADB_EXT_RESERVED : Nat := 0
def SADB_EXT_SA : Nat := 1
def SADB_EXT_LIFETIME_CURRENT : Nat := 2
def SADB_EXT_LIFETIME_HARD : Nat := 3
def SADB_EXT_LIFETIME_SOFT : Nat := 4
def SADB_EXT_ADDRESS_SRC : Nat := 5
def SADB_EXT_ADDRESS_DST : Nat := 6
def SADB_EXT_ADDRESS_PROXY : Nat := 7
def SADB_EXT_KEY_AUTH : Nat := 8
def SADB_EXT_KEY_ENCRYPT : Nat := 9
def SADB_EXT_IDENTITY_SRC : Nat := 10
def SADB_EXT_IDENTITY_DST : Nat := 11
def SADB_EXT_SENSITIVITY : Nat := 12
def SADB_EXT_PROPOSAL : Nat := 13
def SADB_EXT_SUPPORTED_AUTH : Nat := 14
def SADB_EXT_SUPPORTED_ENCRYPT : Nat := 15
def SADB_EXT_SPIRANGE : Nat := 16

/-- What is printed about an extension, by the numbers that are printed. -/
inductive Item where
  | reserved
  | sa (spi replay state auth encrypt : Nat) (pfs : Bool)
  | current (allocations bytes : Nat) (added : Tm) (used : Option Tm)
  | lifetime (exttype allocations bytes addtime usetime : Nat)
  | address (exttype : Nat) (text : List Byte) (prefixlen proto : Nat)
  | key (exttype bits : Nat) (bytes : List Byte)
  | identity
  | sensitivity
  | proposal
  | supported (exttype : Nat) (algs : List (Nat × Nat × Nat × Nat))
  | spirange
  | unknown (exttype : Nat)
deriving DecidableEq

/-- `sock_ntop` for the socket address structure at an offset and its length. -/
abbrev SockNtop := Nat → Nat → Printer (List Byte)

variable (sockNtop : SockNtop) (zone : Int → Int) (e : Endian)

/-- `sa_print`. -/
def saPrint (ext : Nat) : Printer Item := do
  let spi ← field e (ext + 4) 4
  let replay ← field e (ext + 8) 1
  let state ← field e (ext + 9) 1
  let auth ← field e (ext + 10) 1
  let encrypt ← field e (ext + 11) 1
  let flags ← field e (ext + 12) 4
  pure (.sa spi replay state auth encrypt (flags &&& 1 ≠ 0))

/-- The loop of `supported_print` from the algorithm at `alg`. -/
def algLoop (alg : Nat) (len : Int) : Printer (List (Nat × Nat × Nat × Nat)) :=
  if len > 0 then do
    let id ← field e alg 1
    let ivlen ← field e (alg + 1) 1
    let minbits ← field e (alg + 2) 2
    let maxbits ← field e (alg + 4) 2
    let algs ← algLoop (alg + 8) (len - 8)
    pure ((id, ivlen, minbits, maxbits) :: algs)
  else pure []
termination_by len.toNat

/-- `supported_print`. No algorithms are printed as `None`. -/
def supportedPrint (ext : Nat) : Printer Item := do
  let exttype ← field e (ext + 2) 2
  let len ← field e ext 2
  let len : Int := len * 8 - 8
  if len = 0 then pure (.supported exttype [])
  else do
    let algs ← algLoop e (ext + 8) len
    pure (.supported exttype algs)

/-- A `uint64_t` as a `time_t`. -/
def timeT (v : Nat) : Int := signedT 64 v

/-- `lifetime_print`. Where `localtime` returns `NULL`, `strftime` reads through it and the program
crashes.
-/
def lifetimePrint (ext : Nat) : Printer (Option Item) := do
  let exttype ← field e (ext + 2) 2
  let allocations ← field e (ext + 4) 4
  let bytes ← field e (ext + 8) 8
  let addtime ← field e (ext + 16) 8
  if exttype = SADB_EXT_LIFETIME_CURRENT then
    match localtime zone (timeT addtime) with
    | none => pure none
    | some added => do
        let usetime ← field e (ext + 24) 8
        if usetime = 0 then pure (some (.current allocations bytes added none))
        else
          pure ((localtime zone (timeT usetime)).map fun used =>
            .current allocations bytes added (some used))
  else do
    let usetime ← field e (ext + 24) 8
    pure (some (.lifetime exttype allocations bytes addtime usetime))

/-- `address_print`. -/
def addressPrint (ext : Nat) : Printer Item := do
  let exttype ← field e (ext + 2) 2
  let len ← field e ext 2
  let text ← sockNtop (ext + 8) (((len : Int) * 8 - 8) % 2 ^ 32).toNat
  let prefixlen ← field e (ext + 5) 1
  let proto ← field e (ext + 4) 1
  pure (.address exttype text prefixlen proto)

/-- The loop of `key_print` from the byte at `p`. -/
def keyLoop (p bits : Nat) : Printer (List Byte) :=
  if bits > 0 then do
    let byte ← Query.get p
    let bytes ← keyLoop (p + 1) (bits - 8)
    pure (byte :: bytes)
  else pure []
termination_by bits

/-- `key_print`. -/
def keyPrint (ext : Nat) : Printer Item := do
  let exttype ← field e (ext + 2) 2
  let bits ← field e (ext + 4) 2
  let bytes ← keyLoop (ext + 8) bits
  pure (.key exttype bits bytes)

/-- A printer that does not crash. -/
def returning (print : Printer Item) : Printer (Option Item) := do
  let item ← print
  pure (some item)

/-- The `switch` of `print_sadb_msg`, which has no result where a printer crashes. -/
def extPrint (ext type : Nat) : Printer (Option Item) :=
  if type = SADB_EXT_RESERVED then pure (some .reserved)
  else if type = SADB_EXT_SA then returning (saPrint e ext)
  else if type = SADB_EXT_LIFETIME_CURRENT ∨ type = SADB_EXT_LIFETIME_HARD
      ∨ type = SADB_EXT_LIFETIME_SOFT then lifetimePrint zone e ext
  else if type = SADB_EXT_ADDRESS_SRC ∨ type = SADB_EXT_ADDRESS_DST
      ∨ type = SADB_EXT_ADDRESS_PROXY then returning (addressPrint sockNtop e ext)
  else if type = SADB_EXT_KEY_AUTH ∨ type = SADB_EXT_KEY_ENCRYPT then returning (keyPrint e ext)
  else if type = SADB_EXT_IDENTITY_SRC ∨ type = SADB_EXT_IDENTITY_DST then pure (some .identity)
  else if type = SADB_EXT_SENSITIVITY then pure (some .sensitivity)
  else if type = SADB_EXT_PROPOSAL then pure (some .proposal)
  else if type = SADB_EXT_SUPPORTED_AUTH ∨ type = SADB_EXT_SUPPORTED_ENCRYPT then
    returning (supportedPrint e ext)
  else if type = SADB_EXT_SPIRANGE then pure (some .spirange)
  else pure (some (.unknown type))

/-- The loop of `print_sadb_msg` from the extension at `ext`. Without enough fuel it has no
result, and where a printer crashes it has none either.
-/
def extLoop : Nat → Nat → Int → Printer (Option (List Item))
  | 0, _, _ => pure none
  | fuel + 1, ext, msglen =>
      if msglen > 0 then do
        let type ← field e (ext + 2) 2
        match ← extPrint sockNtop zone e ext type with
        | none => pure none
        | some item => do
            let len ← field e ext 2
            let items ← extLoop fuel (ext + 8 * len) (msglen - 8 * len)
            pure (items.map (item :: ·))
      else pure (some [])

/-- What is printed about a message. -/
inductive Printed where
  | wrongLength (len msglen : Nat)
  | wrongVersion
  | message (type errno satype seq pid : Nat) (items : List Item)
deriving DecidableEq

/-- `print_sadb_msg`. -/
def printSadbMsg (fuel msglen : Nat) : Printer (Option Printed) := do
  let len ← field e 4 2
  if msglen ≠ len * 8 then pure (some (.wrongLength (len * 8) msglen))
  else do
    let version ← field e 0 1
    if version ≠ PF_KEY_V2 then pure (some .wrongVersion)
    else do
      let type ← field e 1 1
      let errno ← field e 2 1
      let satype ← field e 3 1
      let seq ← field e 8 4
      let pid ← field e 12 4
      if msglen = 16 then pure (some (.message type errno satype seq pid []))
      else do
        let items ← extLoop sockNtop zone e fuel 16 ((msglen : Int) - 16)
        pure (items.map (.message type errno satype seq pid))

-----------------------------------------------------------------------------------------
-- Where the printers look
-----------------------------------------------------------------------------------------

/-- The number that a member of a structure has. -/
def fieldOf (table : Nat → Byte) (offset size : Nat) : Nat :=
  e.number ((List.range' offset size).map table)

/-- Inside a message of `n` bytes. -/
def Inside (n : Nat) (i : Nat) : Prop := i < n

variable {sockNtop zone e} {table : Nat → Byte} {ext msglen : Nat}

/-- A field has its value. -/
@[simp]
theorem run_field (offset size : Nat)
    : (field e offset size).run table = fieldOf e table offset size := by
  simp [field, fieldOf]

/-- A field is looked at inside the message. -/
@[simp]
theorem within_field (offset size : Nat)
    : (field e offset size).Within (Inside msglen) table ↔ size = 0 ∨ offset + size ≤ msglen := by
  simp only [field, Query.within_bind, Query.within_getAll, Query.within_pure, and_true, Inside,
    List.mem_range'_1]
  refine ⟨fun inside => ?_, fun fits i range => by omega⟩
  rcases Nat.eq_zero_or_pos size with none | some
  · exact .inl none
  · have := inside (offset + size - 1) (by omega)
    omega

/-- The key's bytes. -/
theorem within_keyLoop (p bits : Nat)
    : (keyLoop p bits).Within (Inside msglen) table
        ↔ bits = 0 ∨ p + (bits + 7) / 8 ≤ msglen := by
  induction p, bits using keyLoop.induct with
  | case1 p bits more ih =>
      rw [keyLoop, if_pos more]
      simp only [Query.within_bind, Query.within_get, Query.within_pure, and_true, ih, Inside]
      omega
  | case2 p bits last =>
      rw [keyLoop, if_neg last]
      simp only [Query.within_pure, true_iff]
      omega

/-- The algorithms: every one has 8 bytes, of which the last two are not looked at. -/
theorem within_algLoop (e : Endian) (table : Nat → Byte) (aligned : msglen % 8 = 0) (alg : Nat)
    (start : alg % 8 = 0) (len : Int) (whole : len % 8 = 0)
    : (algLoop e alg len).Within (Inside msglen) table ↔ len ≤ 0 ∨ (alg : Int) + len ≤ msglen := by
  induction alg, len using algLoop.induct with
  | case1 alg len more ih =>
      rw [algLoop, if_pos more]
      have rest := ih (by omega) (by omega)
      simp only [Query.within_bind, within_field, Query.within_pure, and_true, rest]
      omega
  | case2 alg len last =>
      rw [algLoop, if_neg last]
      simp only [Query.within_pure, true_iff]
      omega

/-- The times of a current lifetime have a date. A time of use of 0 is not converted. -/
def HasTimes (zone : Int → Int) (e : Endian) (table : Nat → Byte) (ext : Nat) : Prop :=
  (localtime zone (timeT (fieldOf e table (ext + 16) 8))).isSome
    ∧ (fieldOf e table (ext + 24) 8 ≠ 0
      → (localtime zone (timeT (fieldOf e table (ext + 24) 8))).isSome)

/-- What the printer of an extension needs: bytes inside the message, and times with a date. -/
@[mk_iff]
structure Fits (sockNtop : SockNtop) (zone : Int → Int) (e : Endian) (table : Nat → Byte)
    (msglen ext : Nat) : Prop where
  sa : fieldOf e table (ext + 2) 2 = SADB_EXT_SA → ext + 16 ≤ msglen
  lifetime : fieldOf e table (ext + 2) 2 ∈
      [SADB_EXT_LIFETIME_CURRENT, SADB_EXT_LIFETIME_HARD, SADB_EXT_LIFETIME_SOFT]
    → ext + 32 ≤ msglen
  current : fieldOf e table (ext + 2) 2 = SADB_EXT_LIFETIME_CURRENT → HasTimes zone e table ext
  address : fieldOf e table (ext + 2) 2 ∈
      [SADB_EXT_ADDRESS_SRC, SADB_EXT_ADDRESS_DST, SADB_EXT_ADDRESS_PROXY]
    → (sockNtop (ext + 8) (((fieldOf e table ext 2 : Int) * 8 - 8) % 2 ^ 32).toNat).Within
        (Inside msglen) table
  key : fieldOf e table (ext + 2) 2 ∈ [SADB_EXT_KEY_AUTH, SADB_EXT_KEY_ENCRYPT]
    → ext + 8 + (fieldOf e table (ext + 4) 2 + 7) / 8 ≤ msglen
  supported : fieldOf e table (ext + 2) 2 ∈ [SADB_EXT_SUPPORTED_AUTH, SADB_EXT_SUPPORTED_ENCRYPT]
    → ext + 8 * fieldOf e table ext 2 ≤ msglen

/-- The printer does not crash and looks only into a message of `msglen` bytes. -/
def Prints (table : Nat → Byte) (msglen : Nat) (print : Printer (Option Item)) : Prop :=
  (print.run table).isSome ∧ print.Within (Inside msglen) table

/-- An item without a look at the message is printed. -/
@[simp]
theorem prints_pure (item : Item) : Prints table msglen (pure (some item)) :=
  ⟨by simp, Query.within_pure _⟩

/-- A printer that returns prints exactly if it looks inside. -/
@[simp]
theorem prints_returning (print : Printer Item)
    : Prints table msglen (returning print) ↔ print.Within (Inside msglen) table := by
  simp [Prints, returning]

/-- The printers of an extension that starts inside the message. -/
theorem within_saPrint (room : ext + 8 ≤ msglen)
    : (saPrint e ext).Within (Inside msglen) table ↔ ext + 16 ≤ msglen := by
  simp only [saPrint, Query.within_bind, within_field, Query.within_pure, and_true]
  omega

/-- A lifetime is printed exactly if it is inside and its times have a year. -/
theorem prints_lifetimePrint (zone : Int → Int) (e : Endian) (table : Nat → Byte)
    (room : ext + 8 ≤ msglen)
    : Prints table msglen (lifetimePrint zone e ext)
        ↔ ext + 32 ≤ msglen
          ∧ (fieldOf e table (ext + 2) 2 = SADB_EXT_LIFETIME_CURRENT
            → HasTimes zone e table ext) := by
  have header : ext + 2 + 2 ≤ msglen ∧ ext + 4 + 4 ≤ msglen := by omega
  have last : ext + 24 + 8 ≤ msglen ↔ ext + 32 ≤ msglen := by omega
  simp only [Prints, lifetimePrint, Query.run_bind, Query.within_bind, run_field, within_field,
    header, or_true, true_and]
  by_cases whole : ext + 32 ≤ msglen
  · have inside : ext + 8 + 8 ≤ msglen ∧ ext + 16 + 8 ≤ msglen := by omega
    by_cases current : fieldOf e table (ext + 2) 2 = SADB_EXT_LIFETIME_CURRENT
    · simp only [current, if_true, HasTimes, forall_const, whole, inside, or_true, true_and]
      cases localtime zone (timeT (fieldOf e table (ext + 16) 8)) with
      | none => simp
      | some added =>
          by_cases unused : fieldOf e table (ext + 24) 8 = 0 <;> simp [unused, last, whole]
    · simp [current, whole, inside]
  · -- The time of use is outside, unless the program crashes before it looks there.
    refine iff_of_false ?_ fun fits => whole fits.1
    rintro ⟨printed, -, -, inside⟩
    revert printed inside
    split
    · cases localtime zone (timeT (fieldOf e table (ext + 16) 8)) <;> simp [last, whole]
    · simp [last, whole]

/-- An address is looked at where its `sock_ntop` looks. -/
theorem within_addressPrint (room : ext + 8 ≤ msglen)
    : (addressPrint sockNtop e ext).Within (Inside msglen) table
        ↔ (sockNtop (ext + 8) (((fieldOf e table ext 2 : Int) * 8 - 8) % 2 ^ 32).toNat).Within
          (Inside msglen) table := by
  simp only [addressPrint, Query.within_bind, within_field, Query.within_pure, and_true, run_field]
  refine ⟨fun inside => inside.2.2.1, fun inside => ?_⟩
  exact ⟨by omega, by omega, inside, by omega, by omega⟩

/-- A key is looked at inside exactly if its bits are. -/
theorem within_keyPrint (aligned : msglen % 8 = 0) (start : ext % 8 = 0) (room : ext + 8 ≤ msglen)
    : (keyPrint e ext).Within (Inside msglen) table
        ↔ ext + 8 + (fieldOf e table (ext + 4) 2 + 7) / 8 ≤ msglen := by
  simp only [keyPrint, Query.within_bind, within_field, Query.within_pure, and_true, run_field,
    within_keyLoop]
  omega

/-- The algorithms are looked at inside exactly if the extension is. -/
theorem within_supportedPrint (aligned : msglen % 8 = 0) (start : ext % 8 = 0)
    (room : ext + 8 ≤ msglen)
    : (supportedPrint e ext).Within (Inside msglen) table
        ↔ ext + 8 * fieldOf e table ext 2 ≤ msglen := by
  have loop := within_algLoop e table aligned (ext + 8) (by omega)
    ((fieldOf e table ext 2 : Int) * 8 - 8) (by omega)
  simp only [supportedPrint, Query.within_bind, within_field, Query.within_ite, Query.within_pure,
    and_true, run_field, loop, implies_true, true_and]
  omega

/-- An extension is printed exactly if it fits. -/
theorem prints_extPrint (aligned : msglen % 8 = 0) (start : ext % 8 = 0) (room : ext + 8 ≤ msglen)
    : Prints table msglen (extPrint sockNtop zone e ext (fieldOf e table (ext + 2) 2))
        ↔ Fits sockNtop zone e table msglen ext := by
  rw [fits_iff]
  have times := prints_lifetimePrint zone e table room
  generalize fieldOf e table (ext + 2) 2 = type at times ⊢
  unfold extPrint
  by_cases reserved : type = SADB_EXT_RESERVED
  · subst reserved
    simp +decide
  by_cases sa : type = SADB_EXT_SA
  · subst sa
    simp +decide [within_saPrint room]
  rw [if_neg reserved, if_neg sa]
  by_cases lifetime : type = SADB_EXT_LIFETIME_CURRENT ∨ type = SADB_EXT_LIFETIME_HARD
      ∨ type = SADB_EXT_LIFETIME_SOFT
  · rw [if_pos lifetime, times]
    rcases lifetime with rfl | rfl | rfl <;> simp +decide
  rw [if_neg lifetime]
  by_cases address : type = SADB_EXT_ADDRESS_SRC ∨ type = SADB_EXT_ADDRESS_DST
      ∨ type = SADB_EXT_ADDRESS_PROXY
  · rw [if_pos address]
    rcases address with rfl | rfl | rfl <;> simp +decide [within_addressPrint room]
  rw [if_neg address]
  by_cases key : type = SADB_EXT_KEY_AUTH ∨ type = SADB_EXT_KEY_ENCRYPT
  · rw [if_pos key]
    rcases key with rfl | rfl <;> simp +decide [within_keyPrint aligned start room]
  rw [if_neg key]
  by_cases supported : type = SADB_EXT_SUPPORTED_AUTH ∨ type = SADB_EXT_SUPPORTED_ENCRYPT
  · rcases supported with rfl | rfl <;> simp +decide [within_supportedPrint aligned start room]
  -- The other types are printed without a look at what follows the header.
  rw [if_neg supported]
  obtain ⟨current, hard, soft⟩ : _ ∧ _ ∧ _ := by simpa only [not_or] using lifetime
  simp only [sa, List.mem_cons, List.not_mem_nil, or_false, current, hard, soft, address, key,
    supported, and_self, false_implies, iff_true]
  split_ifs <;> exact prints_pure _

-----------------------------------------------------------------------------------------
-- The walk over the extensions
-----------------------------------------------------------------------------------------

/-- From the one at `ext` the extensions use up the message: each has a length, and its
printer does not crash and looks only into the message.
-/
inductive Extensions (sockNtop : SockNtop) (zone : Int → Int) (e : Endian) (table : Nat → Byte)
    (msglen : Nat) : Nat → Prop
  | done {ext : Nat} (last : msglen ≤ ext) : Extensions sockNtop zone e table msglen ext
  | step {ext : Nat} (before : ext < msglen) (fits : Fits sockNtop zone e table msglen ext)
    (nonempty : fieldOf e table ext 2 ≠ 0)
    (rest : Extensions sockNtop zone e table msglen (ext + 8 * fieldOf e table ext 2))
    : Extensions sockNtop zone e table msglen ext

/-- The message ends before its extensions, or these use it up. -/
structure Message (sockNtop : SockNtop) (zone : Int → Int) (e : Endian) (table : Nat → Byte)
    (msglen : Nat) : Prop where
  length : 6 ≤ msglen
  header : msglen = fieldOf e table 4 2 * 8 → fieldOf e table 0 1 = PF_KEY_V2 → 16 ≤ msglen
  extensions : msglen = fieldOf e table 4 2 * 8 → fieldOf e table 0 1 = PF_KEY_V2
    → Extensions sockNtop zone e table msglen 16

/-- A computation with fuel returns and looks only into a message of `msglen` bytes. -/
def Safe (table : Nat → Byte) (msglen : Nat) {α : Type} (print : Nat → Printer (Option α)) : Prop :=
  (∃ fuel, ((print fuel).run table).isSome) ∧ ∀ fuel, (print fuel).Within (Inside msglen) table

/-- The loop on the extension at `ext`, which starts inside the message. -/
theorem extLoop_succ (fuel : Nat) (before : ext < msglen)
    : extLoop sockNtop zone e (fuel + 1) ext ((msglen : Int) - ext) = (do
        let type ← field e (ext + 2) 2
        match ← extPrint sockNtop zone e ext type with
        | none => pure none
        | some item => do
            let len ← field e ext 2
            let items ← extLoop sockNtop zone e fuel (ext + 8 * len)
              ((msglen : Int) - (ext + 8 * len : Nat))
            pure (items.map (item :: ·))) := by
  have more : (msglen : Int) - ext > 0 := by omega
  rw [extLoop, if_pos more]
  simp only [sub_sub, Nat.cast_add, Nat.cast_mul, Nat.cast_ofNat]

/-- A round of the loop over the extensions. -/
theorem run_extLoop_succ (sockNtop : SockNtop) (zone : Int → Int) (e : Endian) (table : Nat → Byte)
    (fuel : Nat) (before : ext < msglen)
    : ((extLoop sockNtop zone e (fuel + 1) ext ((msglen : Int) - ext)).run table).isSome
        ↔ ((extPrint sockNtop zone e ext (fieldOf e table (ext + 2) 2)).run table).isSome
          ∧ ((extLoop sockNtop zone e fuel (ext + 8 * fieldOf e table ext 2)
            ((msglen : Int) - (ext + 8 * fieldOf e table ext 2 : Nat))).run table).isSome := by
  rw [extLoop_succ fuel before]
  simp only [Query.run_bind, run_field]
  cases (extPrint sockNtop zone e ext (fieldOf e table (ext + 2) 2)).run table with
  | none => simp
  | some item => simp

/-- Where the printer does not crash. -/
theorem within_extLoop_succ (fuel : Nat) (aligned : msglen % 8 = 0) (start : ext % 8 = 0)
    (before : ext < msglen)
    (printed : ((extPrint sockNtop zone e ext (fieldOf e table (ext + 2) 2)).run table).isSome)
    : (extLoop sockNtop zone e (fuel + 1) ext ((msglen : Int) - ext)).Within (Inside msglen) table
        ↔ Fits sockNtop zone e table msglen ext
          ∧ (extLoop sockNtop zone e fuel (ext + 8 * fieldOf e table ext 2)
            ((msglen : Int) - (ext + 8 * fieldOf e table ext 2 : Nat))).Within
              (Inside msglen) table := by
  have room : ext + 8 ≤ msglen := by omega
  have header : ext + 2 + 2 ≤ msglen ∧ ext + 2 ≤ msglen := by omega
  obtain ⟨item, result⟩ := Option.isSome_iff_exists.mp printed
  rw [extLoop_succ fuel before, ← prints_extPrint aligned start room, Prints]
  simp only [Query.within_bind, Query.within_pure, and_true, within_field, run_field, header,
    or_true, true_and, result, Option.isSome_some]

/-- Behind the message the loop ends. -/
theorem extLoop_last (fuel : Nat) (last : msglen ≤ ext)
    : extLoop sockNtop zone e (fuel + 1) ext ((msglen : Int) - ext) = pure (some []) := by
  have none : ¬ (msglen : Int) - ext > 0 := by omega
  rw [extLoop, if_neg none]

/-- The loop returns and stays inside if and only if the extensions use up the message. -/
theorem safe_extLoop_iff (sockNtop : SockNtop) (zone : Int → Int) (e : Endian)
    (table : Nat → Byte) (aligned : msglen % 8 = 0) (start : ext % 8 = 0)
    : Safe table msglen (fun fuel => extLoop sockNtop zone e fuel ext ((msglen : Int) - ext))
        ↔ Extensions sockNtop zone e table msglen ext := by
  constructor
  · rintro ⟨⟨fuel, returns⟩, inside⟩
    simp only at returns inside
    induction fuel generalizing ext with
    | zero => simp [extLoop] at returns
    | succ fuel ih =>
        rcases Nat.lt_or_ge ext msglen with before | last
        · rw [run_extLoop_succ sockNtop zone e table fuel before] at returns
          obtain ⟨printed, returns⟩ := returns
          have step := fun fuel => (within_extLoop_succ fuel aligned start before printed).mp
            (inside (fuel + 1))
          have later := ih (by omega) (fun fuel => (step fuel).2) returns
          by_cases empty : fieldOf e table ext 2 = 0
          · simpa [empty] using later
          · exact .step before (step 0).1 empty later
        · exact .done last
  · intro extensions
    induction extensions with
    | @done ext last =>
        refine ⟨⟨1, ?_⟩, fun fuel => ?_⟩
        · simp only [extLoop_last 0 last, Query.run_pure, Option.isSome_some]
        · cases fuel with
          | zero => simp [extLoop]
          | succ fuel => simp only [extLoop_last fuel last, Query.within_pure]
    | @step ext before fits nonempty rest ih =>
        have printed := ((prints_extPrint aligned start (by omega)).mpr fits).1
        obtain ⟨⟨fuel, returns⟩, inside⟩ := ih (by omega)
        refine ⟨⟨fuel + 1, ?_⟩, fun fuel => ?_⟩
        · exact (run_extLoop_succ sockNtop zone e table fuel before).mpr ⟨printed, returns⟩
        · cases fuel with
          | zero => simp [extLoop]
          | succ fuel =>
              exact (within_extLoop_succ fuel aligned start before printed).mpr
                ⟨fits, inside fuel⟩

/-- At an extension without a length the loop never ends. -/
theorem run_extLoop_empty (sockNtop : SockNtop) (zone : Int → Int) {e : Endian}
    {table : Nat → Byte} (fuel : Nat) (before : ext < msglen) (empty : fieldOf e table ext 2 = 0)
    : (extLoop sockNtop zone e fuel ext ((msglen : Int) - ext)).run table = none := by
  induction fuel with
  | zero => simp [extLoop]
  | succ fuel ih =>
      have again := run_extLoop_succ sockNtop zone e table fuel before
      simp only [empty, Nat.mul_zero, Nat.add_zero, ih] at again
      simpa using again

/-- Before the extensions. -/
theorem within_printSadbMsg (fuel : Nat)
    : (printSadbMsg sockNtop zone e fuel msglen).Within (Inside msglen) table
        ↔ 6 ≤ msglen ∧ (msglen = fieldOf e table 4 2 * 8 → fieldOf e table 0 1 = PF_KEY_V2
          → 16 ≤ msglen ∧ (extLoop sockNtop zone e fuel 16 ((msglen : Int) - 16)).Within
            (Inside msglen) table ∨ msglen = 16) := by
  simp only [printSadbMsg, Query.within_bind, within_field, Query.within_ite, Query.within_pure,
    run_field, implies_true, true_and, and_true, ne_eq, not_not, OfNat.ofNat_ne_zero, false_or,
    one_ne_zero]
  constructor
  · rintro ⟨length, header⟩
    refine ⟨length, fun whole version => ?_⟩
    obtain ⟨-, -, -, -, room, rest⟩ := (header whole).2 version
    by_cases bare : msglen = 16
    · exact .inr bare
    · exact .inl ⟨room, rest bare⟩
  · rintro ⟨length, header⟩
    refine ⟨length, fun whole => ⟨by omega, fun version => ?_⟩⟩
    have room : 16 ≤ msglen := by
      rcases header whole version with ⟨room, -⟩ | bare
      · exact room
      · omega
    refine ⟨by omega, by omega, by omega, by omega, room, fun more => ?_⟩
    exact ((header whole version).resolve_right more).2

/-- A message is printed exactly if its extensions are. -/
theorem run_printSadbMsg (fuel : Nat)
    : ((printSadbMsg sockNtop zone e fuel msglen).run table).isSome
        ↔ (msglen = fieldOf e table 4 2 * 8 → fieldOf e table 0 1 = PF_KEY_V2
          → msglen ≠ 16
          → ((extLoop sockNtop zone e fuel 16 ((msglen : Int) - 16)).run table).isSome) := by
  simp only [printSadbMsg, Query.run_bind, Query.run_ite, run_field, Query.run_pure]
  split_ifs with other version bare <;> simp_all

/-- `print_sadb_msg` returns and looks only into the message if and only if the message is one
that its extensions use up.
-/
theorem printSadbMsg_safe_iff (sockNtop : SockNtop) (zone : Int → Int) (e : Endian)
    (table : Nat → Byte) (msglen : Nat)
    : Safe table msglen (fun fuel => printSadbMsg sockNtop zone e fuel msglen)
        ↔ Message sockNtop zone e table msglen := by
  simp only [Safe, run_printSadbMsg, within_printSadbMsg]
  have loop : msglen % 8 = 0 → _ := fun aligned =>
    safe_extLoop_iff sockNtop zone e table aligned (show 16 % 8 = 0 by decide)
  constructor
  · rintro ⟨⟨fuel, returns⟩, inside⟩
    refine ⟨(inside 0).1, fun whole version => ?_, fun whole version => ?_⟩
    · rcases (inside 0).2 whole version with ⟨room, -⟩ | bare
      · exact room
      · omega
    · by_cases bare : msglen = 16
      · exact .done (by omega)
      · refine (loop (by omega)).mp ⟨⟨fuel, returns whole version bare⟩, fun fuel => ?_⟩
        exact (((inside fuel).2 whole version).resolve_right bare).2
  · rintro ⟨length, header, extensions⟩
    by_cases whole : msglen = fieldOf e table 4 2 * 8
    · by_cases version : fieldOf e table 0 1 = PF_KEY_V2
      · obtain ⟨⟨fuel, returns⟩, inside⟩ := (loop (by omega)).mpr (extensions whole version)
        exact ⟨⟨fuel, fun _ _ _ => returns⟩, fun fuel => ⟨length, fun _ _ =>
          .inl ⟨header whole version, inside fuel⟩⟩⟩
      · exact ⟨⟨0, fun _ two => absurd two version⟩, fun _ => ⟨length, fun _ two =>
          absurd two version⟩⟩
    · exact ⟨⟨0, fun same => absurd same whole⟩, fun _ => ⟨length, fun same => absurd same whole⟩⟩

/-- A message of 24 bytes whose only extension has the length 0. -/
def endlessMsg (i : Nat) : Byte := [2, 0, 0, 0, 3, 0].getD i 0

/-- A message with an extension of length 0. -/
theorem printSadbMsg_endless
    : (∀ fuel,
          (printSadbMsg (fun _ _ => pure []) (fun _ => 0) .little fuel 24).run endlessMsg = none)
        ∧ ¬ Safe endlessMsg 24 fun fuel =>
          printSadbMsg (fun _ _ => pure []) (fun _ => 0) .little fuel 24 := by
  have never : ∀ fuel,
      (printSadbMsg (fun _ _ => pure []) (fun _ => 0) .little fuel 24).run endlessMsg = none := by
    intro fuel
    rw [← Option.not_isSome_iff_eq_none, run_printSadbMsg]
    intro returns
    have more := returns (by decide) (by decide) (by decide)
    have empty : fieldOf .little endlessMsg 16 2 = 0 := by decide
    have endless := run_extLoop_empty (fun _ _ => pure []) (fun _ => 0) fuel
      (show 16 < 24 by decide) empty
    rw [show ((24 : Nat) : Int) - 16 = ((24 : Nat) : Int) - (16 : Nat) from rfl, endless] at more
    cases more
  refine ⟨never, fun safe => ?_⟩
  obtain ⟨⟨fuel, returns⟩, -⟩ := safe
  simp [never] at returns

end Minions.Unp.Sadb
