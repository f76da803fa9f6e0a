import Minions.Data.Bytes
import Minions.Data.Decimal

/-! Print requests as `print.h` declares them, and how they lie in memory and in files.
The host is little-endian.
-/

namespace Minions.Printer

open Minions.Data

def USERNM_MAX : Nat := 64
def JOBNM_MAX : Nat := 256
def PR_TEXT : UInt32 := 1

/-- `sizeof(struct printreq)`. -/
def PRINTREQ_SZ : Nat := 8 + USERNM_MAX + JOBNM_MAX

/-- `struct printreq`. -/
@[ext] structure PrintReq where
  size : UInt32
  flags : UInt32
  usernm : List Byte
  jobnm : List Byte
  usernmLen : usernm.length = USERNM_MAX
  jobnmLen : jobnm.length = JOBNM_MAX
deriving DecidableEq

/-- The request of which every byte is 0. -/
def blankReq : PrintReq where
  size := 0
  flags := 0
  usernm := List.replicate USERNM_MAX 0
  jobnm := List.replicate JOBNM_MAX 0
  usernmLen := List.length_replicate
  jobnmLen := List.length_replicate

/-- A 32-bit number in memory. -/
def hostBytes (x : UInt32) : List Byte :=
  [UInt8.ofNat x.toNat, UInt8.ofNat (x.toNat / 256), UInt8.ofNat (x.toNat / 65536),
    UInt8.ofNat (x.toNat / 16777216)]

/-- The 32-bit number at the start of a piece of memory. -/
def ofHostBytes : List Byte → UInt32
  | b₀ :: b₁ :: b₂ :: b₃ :: _ =>
      UInt32.ofNat
        (b₀.toNat + 256 * b₁.toNat + 65536 * b₂.toNat + 16777216 * b₃.toNat)
  | _ => 0

/-- `ntohl` and `htonl`. -/
def ntohl (x : UInt32) : UInt32 := ofHostBytes (hostBytes x).reverse

/-- A request in memory. -/
def PrintReq.bytes (r : PrintReq) : List Byte :=
  hostBytes r.size ++ hostBytes r.flags ++ r.usernm ++ r.jobnm

/-- The request that a piece of memory of its size holds. -/
def PrintReq.ofBytes (mem : List Byte) (len : mem.length = PRINTREQ_SZ) : PrintReq where
  size := ofHostBytes mem
  flags := ofHostBytes (mem.drop 4)
  usernm := (mem.drop 8).take USERNM_MAX
  jobnm := mem.drop (8 + USERNM_MAX)
  usernmLen := by
    simp only [PRINTREQ_SZ, USERNM_MAX, JOBNM_MAX] at len
    simp [USERNM_MAX, len]
  jobnmLen := by
    simp only [PRINTREQ_SZ, USERNM_MAX, JOBNM_MAX] at len
    simp [USERNM_MAX, JOBNM_MAX, len]

@[simp] theorem hostBytes_length (x : UInt32) : (hostBytes x).length = 4 := rfl

@[simp] theorem PrintReq.bytes_length (r : PrintReq) : r.bytes.length = PRINTREQ_SZ := by
  simp only [PrintReq.bytes, List.length_append, hostBytes_length, r.usernmLen, r.jobnmLen,
    PRINTREQ_SZ]

/-- Four bytes are read back as the number. -/
theorem ofHostBytes_hostBytes (x : UInt32) (rest : List Byte)
    : ofHostBytes (hostBytes x ++ rest) = x := by
  have small := x.toNat_lt
  apply UInt32.toNat_inj.mp
  simp only [hostBytes, List.cons_append, List.nil_append, ofHostBytes, UInt8.toNat_ofNat',
    UInt32.toNat_ofNat']
  omega

/-- A number is written back as the four bytes. -/
theorem hostBytes_ofHostBytes (b₀ b₁ b₂ b₃ : Byte)
    : hostBytes (ofHostBytes [b₀, b₁, b₂, b₃]) = [b₀, b₁, b₂, b₃] := by
  have h₀ := b₀.toNat_lt
  have h₁ := b₁.toNat_lt
  have h₂ := b₂.toNat_lt
  have h₃ := b₃.toNat_lt
  simp only [ofHostBytes, hostBytes, UInt32.toNat_ofNat', List.cons.injEq, ← UInt8.toNat_inj,
    UInt8.toNat_ofNat', and_true]
  refine ⟨?_, ?_, ?_, ?_⟩ <;> omega

/-- Converting a number twice gives it back. -/
theorem ntohl_ntohl (x : UInt32) : ntohl (ntohl x) = x := by
  have twice : hostBytes (ntohl x) = (hostBytes x).reverse := hostBytes_ofHostBytes _ _ _ _
  rw [ntohl, twice, List.reverse_reverse]
  simpa using ofHostBytes_hostBytes x []

/-- A request that is written and read again is the same request. -/
theorem PrintReq.ofBytes_bytes (r : PrintReq) : PrintReq.ofBytes r.bytes r.bytes_length = r := by
  have size : ofHostBytes r.bytes = r.size := by
    simp only [PrintReq.bytes, List.append_assoc]
    exact ofHostBytes_hostBytes _ _
  have flags : ofHostBytes (r.bytes.drop 4) = r.flags := by
    simp only [PrintReq.bytes, List.append_assoc]
    rw [List.drop_left' (hostBytes_length _)]
    exact ofHostBytes_hostBytes _ _
  have names : r.bytes.drop 8 = r.usernm ++ r.jobnm := by
    simp only [PrintReq.bytes, List.append_assoc]
    rw [← List.append_assoc (hostBytes _)]
    exact List.drop_left' rfl
  apply PrintReq.ext
  · exact size
  · exact flags
  · show (r.bytes.drop 8).take USERNM_MAX = r.usernm
    rw [names, List.take_left' r.usernmLen]
  · show r.bytes.drop (8 + USERNM_MAX) = r.jobnm
    rw [← List.drop_drop, names, List.drop_left' r.usernmLen]

end Minions.Printer
