import Mathlib.Algebra.Order.BigOperators.Group.List
import Minions.Data.ByteOrder
import Minions.Data.OnesComplement

/-! The Internet checksum: `libfree/in_cksum.c`, and `udp_write` in `udpcksum/udpwrite.c`,
which stores it in a UDP header.
-/

namespace Minions.Unp.Cksum

open Minions.Data

-----------------------------------------------------------------------------------------
-- in_cksum
-----------------------------------------------------------------------------------------

/-- The 16-bit words of an array, in host order. An odd byte at the end is followed by 0. -/
def words (e : Endian) : List Byte → List Nat
  | first :: second :: rest => e.word first second :: words e rest
  | [last] => [e.word last 0]
  | [] => []

/-- The loop of `in_cksum` and the odd byte after it, from the accumulator `sum`. -/
def accumulate (e : Endian) : List Byte → UInt32 → UInt32
  | first :: second :: rest, sum => accumulate e rest (sum + UInt32.ofNat (e.word first second))
  | [last], sum => sum + UInt32.ofNat (e.word last 0)
  | [], sum => sum

/-- Adding back the carries, twice. -/
def addCarries (sum : UInt32) : UInt32 :=
  let sum := (sum >>> 16) + (sum &&& 0xffff)
  sum + (sum >>> 16)

/-- `in_cksum` of the array `addr`, whose length is `len`. -/
def inCksum (e : Endian) (addr : List Byte) : UInt16 :=
  (~~~ addCarries (accumulate e addr 0)).toUInt16

/-- The words of a packet have 16 bits. -/
theorem words_le (e : Endian) (addr : List Byte) : ∀ w ∈ words e addr, w ≤ 65535 := by
  induction addr using words.induct with
  | case1 first second rest ih =>
      have := e.word_lt first second
      intro w member
      rcases List.mem_cons.mp member with rfl | later
      · omega
      · exact ih w later
  | case2 last =>
      have := e.word_lt last 0
      simp [words]
      omega
  | case3 => simp [words]

/-- The words of two parts, the first of even length. -/
theorem words_append (e : Endian) {front rest : List Byte} (even : front.length % 2 = 0)
    : words e (front ++ rest) = words e front ++ words e rest := by
  induction front using words.induct with
  | case1 first second tail ih =>
      have shorter : tail.length % 2 = 0 := by
        simp only [List.length_cons] at even
        omega
      simp [words, ih shorter]
  | case2 last => simp at even
  | case3 => rfl

/-- The sum of the words of a short array. -/
theorem words_sum_le (e : Endian) (addr : List Byte)
    : (words e addr).sum ≤ (addr.length + 1) / 2 * 65535 := by
  have count : (words e addr).length = (addr.length + 1) / 2 := by
    induction addr using words.induct with
    | case1 first second rest ih =>
        simp only [words, List.length_cons, ih]
        omega
    | case2 last => simp [words]
    | case3 => rfl
  rw [← count]
  exact List.sum_le_card_nsmul _ _ (words_le e addr)

/-- Adding one word. -/
theorem add_word_toNat (e : Endian) {first second : Byte} {sum : UInt32}
    (fits : sum.toNat + e.word first second < 2 ^ 32)
    : (sum + UInt32.ofNat (e.word first second)).toNat = sum.toNat + e.word first second := by
  have := e.word_lt first second
  rw [UInt32.toNat_add, UInt32.toNat_ofNat', Nat.add_mod_mod, Nat.mod_eq_of_lt fits]

/-- As long as the sum of the words fits in 32 bits, the accumulator has it. -/
theorem accumulate_toNat (e : Endian) {addr : List Byte} {sum : UInt32}
    (fits : sum.toNat + (words e addr).sum < 2 ^ 32)
    : (accumulate e addr sum).toNat = sum.toNat + (words e addr).sum := by
  induction addr using words.induct generalizing sum with
  | case1 first second rest ih =>
      simp only [words, List.sum_cons] at fits ⊢
      have now := add_word_toNat e (show sum.toNat + e.word first second < 2 ^ 32 by omega)
      rw [accumulate, ih (by rw [now]; omega), now, Nat.add_assoc]
  | case2 last =>
      simp only [words, List.sum_cons, List.sum_nil] at fits ⊢
      exact add_word_toNat e fits
  | case3 => rfl

/-- The foldings do not overflow. -/
theorem addCarries_toNat (sum : UInt32)
    : (addCarries sum).toNat = sum.toNat / 65536 + sum.toNat % 65536
        + (sum.toNat / 65536 + sum.toNat % 65536) / 65536 := by
  have shift : ∀ n : UInt32, (n >>> 16).toNat = n.toNat / 65536 := by
    simp [UInt32.toNat_shiftRight, Nat.shiftRight_eq_div_pow]
  have mask : (sum &&& 0xffff).toNat = sum.toNat % 65536 := by
    have := Nat.and_two_pow_sub_one_eq_mod sum.toNat 16
    simpa [UInt32.toNat_and] using this
  have bound := sum.toNat_lt
  have first : (sum.toNat / 65536 + sum.toNat % 65536) % 2 ^ 32
      = sum.toNat / 65536 + sum.toNat % 65536 := Nat.mod_eq_of_lt (by omega)
  simp only [addCarries, UInt32.toNat_add, shift, mask, first]
  exact Nat.mod_eq_of_lt (by omega)

/-- Two foldings are enough for the sum of any short array. -/
theorem addCarries_accumulate (e : Endian) {addr : List Byte} (short : addr.length ≤ 65535)
    : (words e addr).sum < 2 ^ 32
        ∧ (accumulate e addr 0).toNat = (words e addr).sum
        ∧ (addCarries (accumulate e addr 0)).toNat % 65536 = onesSum 65535 (words e addr) := by
  have bound : (words e addr).sum ≤ 32768 * 65535 :=
    (words_sum_le e addr).trans (Nat.mul_le_mul_right _ (by omega))
  have total : (accumulate e addr 0).toNat = (words e addr).sum := by
    have zero : (0 : UInt32).toNat = 0 := rfl
    have sum : (accumulate e addr 0).toNat = (0 : UInt32).toNat + (words e addr).sum :=
      accumulate_toNat e (by omega)
    rwa [zero, Nat.zero_add] at sum
  refine ⟨by omega, total, ?_⟩
  have digits := Nat.div_add_mod (words e addr).sum 65536
  rw [addCarries_toNat, total, fold_fold (show 0 < 65535 by decide) (by omega) (by omega), digits,
    onesSum_eq (by decide) (words_le e addr)]

/-- The checksum is the complement of the ones' complement sum. -/
theorem inCksum_toNat (e : Endian) {addr : List Byte} (short : addr.length ≤ 65535)
    : (inCksum e addr).toNat = 65535 - onesSum 65535 (words e addr) := by
  have folded := (addCarries_accumulate e short).2.2
  rw [inCksum, UInt32.toNat_toUInt16, UInt32.toNat_not, UInt32.size, ← folded]
  have := (addCarries (accumulate e addr 0)).toNat_lt
  omega

-----------------------------------------------------------------------------------------
-- udp_write
-----------------------------------------------------------------------------------------

/-- `struct in_addr`, as it is in memory. -/
structure InAddr where
  b₁ : Byte := 0
  b₂ : Byte := 0
  b₃ : Byte := 0
  b₄ : Byte := 0

def InAddr.bytes (a : InAddr) : List Byte := [a.b₁, a.b₂, a.b₃, a.b₄]

/-- The part of `struct sockaddr_in` that is used. The port is in network byte order. -/
structure SockaddrIn where
  addr : InAddr
  port : UInt16

/-- `struct udpiphdr`: the pseudoheader, where the IP header will be, and the UDP header. -/
structure Udpiphdr where
  pr : Byte := 0
  len : UInt16 := 0
  src : InAddr := {}
  dst : InAddr := {}
  sport : UInt16 := 0
  dport : UInt16 := 0
  ulen : UInt16 := 0
  sum : UInt16 := 0

/-- The UDP header in memory. -/
def Udpiphdr.udp (e : Endian) (ui : Udpiphdr) : List Byte :=
  e.bytes ui.sport.toNat ++ e.bytes ui.dport.toNat ++ e.bytes ui.ulen.toNat
    ++ e.bytes ui.sum.toNat

/-- The structure in memory. -/
def Udpiphdr.bytes (e : Endian) (ui : Udpiphdr) : List Byte :=
  List.replicate 9 0 ++ [ui.pr] ++ e.bytes ui.len.toNat ++ ui.src.bytes ++ ui.dst.bytes
    ++ ui.udp e

def IPPROTO_UDP : Byte := 17

def TTL_OUT : Byte := 64

/-- The fields that `udp_write` fills in before the checksum. -/
def udpFields (e : Endian) (src dst : SockaddrIn) (userlen : Nat) : Udpiphdr where
  pr := IPPROTO_UDP
  len := UInt16.ofNat (e.htons (UInt16.ofNat (8 + userlen)).toNat)
  src := src.addr
  dst := dst.addr
  sport := src.port
  dport := dst.port
  ulen := UInt16.ofNat (e.htons (UInt16.ofNat (8 + userlen)).toNat)

/-- `udp_write` up to the checksum, for `data` behind the empty header. -/
def udpHeader (e : Endian) (zerosum : Bool) (src dst : SockaddrIn) (data : List Byte)
    : Udpiphdr :=
  let ui := udpFields e src dst data.length
  if zerosum then ui
  else
    let ui := { ui with sum := inCksum e (ui.bytes e ++ data) }
    if ui.sum = 0 then { ui with sum := 0xffff } else ui

/-- `udp_write`: what `Sendto` is given. Whether `ip_len` is in network byte order depends on
the system.
-/
def udpWrite (e : Endian) (networkLen zerosum : Bool) (src dst : SockaddrIn) (data : List Byte)
    : List Byte :=
  let ui := udpHeader e zerosum src dst data
  let userlen := data.length + 28
  [0x45, 0] ++ e.bytes (if networkLen then e.htons userlen else userlen) ++ [0, 0, 0, 0]
    ++ [TTL_OUT, ui.pr] ++ e.bytes ui.len.toNat ++ ui.src.bytes ++ ui.dst.bytes ++ ui.udp e ++ data

/-- The checksum covers what is sent, from the addresses on. -/
theorem udpWrite_drop (e : Endian) (networkLen zerosum : Bool) (src dst : SockaddrIn)
    (data : List Byte)
    : (udpWrite e networkLen zerosum src dst data).drop 12
        = ((udpHeader e zerosum src dst data).bytes e ++ data).drop 12 := by
  cases e <;> simp [udpWrite, Udpiphdr.bytes, Endian.bytes, List.replicate]

/-- The header has 28 bytes. -/
@[simp]
theorem Udpiphdr.bytes_length (e : Endian) (ui : Udpiphdr) : (ui.bytes e).length = 28 := by
  simp [Udpiphdr.bytes, Udpiphdr.udp, InAddr.bytes]

/-- The word of the checksum field is the checksum. -/
theorem words_bytes_sum (e : Endian) (n : UInt16) : words e (e.bytes n.toNat) = [n.toNat] := by
  have small := n.toNat_lt
  cases e <;> simp only [Endian.bytes, words, List.cons.injEq, and_true] <;>
    exact Endian.word_bytes _ (by omega) rfl

/-- The checksum field is a summand of its own. -/
theorem Udpiphdr.words_sum (e : Endian) {ui : Udpiphdr} (empty : ui.sum = 0) (sum : UInt16)
    (data : List Byte)
    : (words e (({ ui with sum } : Udpiphdr).bytes e ++ data)).sum
        = (words e (ui.bytes e ++ data)).sum + sum.toNat := by
  obtain ⟨front, length, split⟩ : ∃ front : List Byte, front.length = 26
      ∧ ∀ sum, ({ ui with sum } : Udpiphdr).bytes e = front ++ e.bytes sum.toNat := by
    refine ⟨List.replicate 9 0 ++ [ui.pr] ++ e.bytes ui.len.toNat ++ ui.src.bytes ++ ui.dst.bytes
      ++ (e.bytes ui.sport.toNat ++ e.bytes ui.dport.toNat ++ e.bytes ui.ulen.toNat),
      by simp [InAddr.bytes], fun sum => ?_⟩
    simp [Udpiphdr.bytes, Udpiphdr.udp]
  have apart : ∀ sum : UInt16, (words e (front ++ e.bytes sum.toNat ++ data)).sum
      = (words e front).sum + sum.toNat + (words e data).sum := by
    intro sum
    rw [words_append e (by simp [length]), words_append e (by simp [length]), words_bytes_sum]
    simp [Nat.add_assoc]
  have zero : ui.sum.toNat = 0 := by
    rw [empty]
    rfl
  have before := split ui.sum
  rw [split, show ui.bytes e = _ from before, apart, apart, zero]
  omega

/-- Storing the checksum, or the other zero in its place, makes the checksum 0. -/
theorem inCksum_stored (e : Endian) {ui : Udpiphdr} (empty : ui.sum = 0) {data : List Byte}
    (short : data.length ≤ 65507) {sum : UInt16}
    (stored : sum = inCksum e (ui.bytes e ++ data)
      ∨ inCksum e (ui.bytes e ++ data) = 0 ∧ sum = 0xffff)
    : inCksum e (({ ui with sum } : Udpiphdr).bytes e ++ data) = 0 := by
  have length : ∀ ui : Udpiphdr, (ui.bytes e ++ data).length ≤ 65535 := by
    intro ui
    rw [List.length_append, Udpiphdr.bytes_length]
    omega
  have positive : 0 < 65535 := by decide
  have before : (inCksum e (ui.bytes e ++ data)).toNat
      = 65535 - endAround 65535 (words e (ui.bytes e ++ data)).sum := by
    rw [inCksum_toNat e (length _), onesSum_eq positive (words_le e _)]
  have after : (inCksum e (({ ui with sum } : Udpiphdr).bytes e ++ data)).toNat
      = 65535 - endAround 65535 ((words e (ui.bytes e ++ data)).sum + sum.toNat) := by
    rw [inCksum_toNat e (length _), onesSum_eq positive (words_le e _),
      Udpiphdr.words_sum e empty]
  generalize (words e (ui.bytes e ++ data)).sum = others at before after
  have complement : endAround 65535 (others + sum.toNat) = 65535 := by
    rcases stored with rfl | ⟨zero, rfl⟩
    · rw [before]
      exact endAround_add_complement positive
    · have limit := endAround_le (n := others) positive
      rw [zero, show (0 : UInt16).toNat = 0 from rfl] at before
      have whole : endAround 65535 others = 65535 := by omega
      rw [show (0xffff : UInt16).toNat = 65535 from rfl, ← onesAdd_endAround positive le_rfl, whole]
      rfl
  rw [complement] at after
  exact UInt16.toNat_inj.mp after

/-- For an array of at most 65535 bytes the accumulator of `in_cksum` does not overflow, two
foldings suffice, and the result is the complement of the one's complement sum of the words.
So with the sum that `udp_write` stores, which is not 0, the checksum over the same bytes is 0.
-/
theorem inCksum_udpHeader (e : Endian)
    : (∀ addr : List Byte, addr.length ≤ 65535
          → (words e addr).sum < 2 ^ 32
            ∧ (accumulate e addr 0).toNat = (words e addr).sum
            ∧ (addCarries (accumulate e addr 0)).toNat % 65536 = onesSum 65535 (words e addr)
            ∧ (inCksum e addr).toNat = 65535 - onesSum 65535 (words e addr))
        ∧ ∀ (src dst : SockaddrIn) (data : List Byte), data.length ≤ 65507
          → inCksum e ((udpHeader e false src dst data).bytes e ++ data) = 0
            ∧ (udpHeader e false src dst data).sum ≠ 0 := by
  constructor
  · intro addr short
    obtain ⟨fits, total, folded⟩ := addCarries_accumulate e short
    exact ⟨fits, total, folded, inCksum_toNat e short⟩
  · intro src dst data short
    have empty : (udpFields e src dst data.length).sum = 0 := rfl
    generalize fields : udpFields e src dst data.length = ui at empty
    simp only [udpHeader, Bool.false_eq_true, if_false, fields]
    split
    · next zero =>
        have other : (0xffff : UInt16) ≠ 0 := by decide
        exact ⟨inCksum_stored e empty short (.inr ⟨zero, rfl⟩), other⟩
    · next nonzero => exact ⟨inCksum_stored e empty short (.inl rfl), nonzero⟩

/-- A short array and a datagram. -/
theorem inCksum_udpHeader_hello
    : (inCksum .little [1, 2, 3]).toNat = 65535 - onesSum 65535 [513, 3]
        ∧ inCksum .little ((udpHeader .little false ⟨⟨10, 0, 0, 1⟩, 3⟩ ⟨⟨10, 0, 0, 2⟩, 4⟩
            [104, 105]).bytes .little ++ [104, 105]) = 0 := by
  obtain ⟨arrays, datagrams⟩ := inCksum_udpHeader .little
  exact ⟨(arrays [1, 2, 3] (by decide)).2.2.2, (datagrams _ _ [104, 105] (by decide)).1⟩

end Minions.Unp.Cksum
