import Mathlib.Data.List.TakeWhile

/-! The file transfer of `udpfileserv`.
The server sends a file in blocks of `NET_BUF_SIZE` enciphered characters and marks its end
with an `EOF` character in the last block; the client prints what comes before the marker.
-/

namespace Minions.Unp.UdpFile

def netBufSize : Nat := 32

def cipherKey : Int8 := 83

def eof : Int := -1

/-- `File Not Found!` -/
def nofile : List Int8 :=
  [70, 105, 108, 101, 32, 78, 111, 116, 32, 70, 111, 117, 110, 100, 33]

/-- `Cipher`, the same function on both sides. -/
def cipher (ch : Int8) : Int8 := ch ^^^ cipherKey

/-- `fgetc` on what is left of a file. -/
def fgetc : List UInt8 → Int × List UInt8
  | [] => (eof, [])
  | byte :: rest => (byte.toNat, rest)

/-- The bytes that `printf("%c", ch)` writes. -/
def printed (ch : Int8) : UInt8 := ch.toUInt8

/-- The byte that as a `char` compares equal to `EOF`. -/
def eofByte : UInt8 := 255

/-- A `net_buf`. -/
structure NetBuf where
  cells : List Int8
  size : cells.length = netBufSize

/-- `clearBuf` -/
def clearBuf (_ : NetBuf) : NetBuf where
  cells := List.replicate netBufSize 0
  size := List.length_replicate

-----------------------------------------------------------------------------------------
-- The server
-----------------------------------------------------------------------------------------

/-- The loop of `sendFile` over the cells of the buffer, with what is left of the file.
It stops at an `EOF` character and leaves the cells behind it as they were.
-/
def sendCells : List Int8 → List UInt8 → Bool × List Int8 × List UInt8
  | [], rest => (false, [], rest)
  | _ :: cells, rest =>
      let (c, rest) := fgetc rest
      let ch := Int8.ofInt c
      let ch2 := cipher ch
      if ch.toInt = eof then (true, ch2 :: cells, rest)
      else
        let (done, out, rest) := sendCells cells rest
        (done, ch2 :: out, rest)

/-- The loop stops at a byte that looks like the end of the file. -/
theorem sendCells_marker {cell : Int8} {cells : List Int8} {rest : List UInt8}
    (marker : (Int8.ofInt (fgetc rest).1).toInt = eof)
    : sendCells (cell :: cells) rest
      = (true, cipher (Int8.ofInt (fgetc rest).1) :: cells, (fgetc rest).2) := by
  simp only [sendCells, if_pos marker]

/-- Any other byte is enciphered and sent. -/
theorem sendCells_plain {cell : Int8} {cells : List Int8} {rest : List UInt8}
    (plain : (Int8.ofInt (fgetc rest).1).toInt ≠ eof)
    : sendCells (cell :: cells) rest
      = ((sendCells cells (fgetc rest).2).1,
          cipher (Int8.ofInt (fgetc rest).1) :: (sendCells cells (fgetc rest).2).2.1,
          (sendCells cells (fgetc rest).2).2.2) := by
  simp only [sendCells, if_neg plain]

/-- A buffer of the same length is sent. -/
theorem sendCells_length (cells : List Int8) (rest : List UInt8)
    : (sendCells cells rest).2.1.length = cells.length := by
  induction cells generalizing rest with
  | nil => rfl
  | cons cell cells ih =>
      by_cases marker : (Int8.ofInt (fgetc rest).1).toInt = eof
      · rw [sendCells_marker marker]
        rfl
      · rw [sendCells_plain marker]
        exact congrArg (· + 1) (ih _)

/-- `sendFile`. A file that was not opened is answered with a fixed text. -/
def sendFile (fp : Option (List UInt8)) (buf : NetBuf)
    : Bool × NetBuf × Option (List UInt8) :=
  match fp with
  | none =>
      let text := nofile ++ [Int8.ofInt eof]
      (true,
        { cells := text.map cipher ++ buf.cells.drop text.length
          size := by
            rw [List.length_append, List.length_map, List.length_drop, buf.size]
            rfl },
        none)
  | some rest =>
      let sent := sendCells buf.cells rest
      (sent.1, ⟨sent.2.1, (sendCells_length _ _).trans buf.size⟩, some sent.2.2)

/-- How much of a file is left. -/
def remaining (fp : Option (List UInt8)) : Nat := (fp.getD []).length

/-- A block that does not end the file takes its characters from the file. -/
theorem sendCells_rest {cells : List Int8} {rest : List UInt8}
    (goes : (sendCells cells rest).1 = false)
    : (sendCells cells rest).2.2.length + cells.length = rest.length := by
  induction cells generalizing rest with
  | nil => rfl
  | cons cell cells ih =>
      by_cases marker : (Int8.ofInt (fgetc rest).1).toInt = eof
      · rw [sendCells_marker marker] at goes
        cases goes
      · rw [sendCells_plain marker] at goes ⊢
        have tail := ih goes
        cases rest with
        | nil => exact absurd (by decide) marker
        | cons byte rest =>
            change (sendCells cells rest).2.2.length + cells.length = rest.length at tail
            change (sendCells cells rest).2.2.length + (cells.length + 1) = rest.length + 1
            omega

/-- A buffer that is not the last takes bytes from the file. -/
theorem sendFile_remaining {fp : Option (List UInt8)} {buf : NetBuf}
    (goes : (sendFile fp buf).1 = false)
    : remaining (sendFile fp buf).2.2 < remaining fp := by
  cases fp with
  | none => cases goes
  | some rest =>
      have taken : _ + buf.cells.length = rest.length := sendCells_rest goes
      have size := buf.size
      simp only [netBufSize] at size
      simp only [remaining, sendFile, Option.getD_some]
      omega

/-- The inner loop of the server: the datagrams sent for one request. -/
def sendLoop (fp : Option (List UInt8)) (buf : NetBuf) : List NetBuf :=
  if (sendFile fp buf).1 then [(sendFile fp buf).2.1]
  else
    let sent := (sendFile fp buf).2
    sent.1 :: sendLoop sent.2 (clearBuf sent.1)
termination_by remaining fp
decreasing_by
  apply sendFile_remaining
  rename_i goes
  exact Bool.not_eq_true _ ▸ goes

/-- The name in a request: the buffer up to its NUL. -/
def fileName (request : NetBuf) : List Int8 := request.cells.takeWhile fun ch => ch ≠ 0

/-- One turn of the server's outer loop. The first block is built over the request itself. -/
def answer (fopen : List Int8 → Option (List UInt8)) (request : NetBuf) : List NetBuf :=
  sendLoop (fopen (fileName request)) request

/-- The loop of `recvFile` over the cells: whether it returns 1, and what it prints. -/
def recvCells : List Int8 → Bool × List UInt8
  | [] => (false, [])
  | cell :: cells =>
      let ch := cipher cell
      if ch.toInt = eof then (true, [])
      else
        let (done, out) := recvCells cells
        (done, printed ch :: out)

/-- `recvFile` -/
def recvFile (buf : NetBuf) : Bool × List UInt8 := recvCells buf.cells

/-- The inner loop of the client on the datagrams that arrive: what is printed until
`recvFile` returns 1, and the datagrams not received by then. Without a datagram the client
waits in `recvfrom` and the loop has not ended.
-/
def recvLoop : List NetBuf → Option (List UInt8 × List NetBuf)
  | [] => none
  | datagram :: arriving =>
      let (done, out) := recvFile datagram
      if done then some (out, arriving)
      else (recvLoop arriving).map fun (more, left) => (out ++ more, left)

/-- The client's outer loop over the names it is given. The server answers each request while
the client waits, behind what the socket still holds.
-/
def clientLoop (fopen : List Int8 → Option (List UInt8))
    : List NetBuf → List NetBuf → Option (List (List UInt8) × List NetBuf)
  | [], socket => some ([], socket)
  | request :: requests, socket =>
      (recvLoop (socket ++ answer fopen request)).bind fun (out, socket) =>
        (clientLoop fopen requests socket).map fun (outs, socket) => (out :: outs, socket)

-----------------------------------------------------------------------------------------
-- The transfer
-----------------------------------------------------------------------------------------

/-- The cipher undoes itself. -/
@[simp]
theorem cipher_cipher (ch : Int8) : cipher (cipher ch) = ch := by
  rw [cipher, cipher, Int8.xor_assoc, Int8.xor_self, Int8.xor_zero]

/-- A byte read by `fgetc` compares equal to `EOF` once it is stored in a `char`, for one
byte value.
-/
theorem char_eq_eof_iff (byte : UInt8)
    : (Int8.ofInt byte.toNat).toInt = eof ↔ byte = eofByte := by
  have below := byte.toNat_lt
  rw [Int8.toInt_ofInt, ← UInt8.toNat_inj]
  change Int.bmod byte.toNat 256 = -1 ↔ byte.toNat = 255
  rw [Int.bmod_def]
  constructor
  · intro marker
    split at marker <;> omega
  · intro last
    rw [last]
    decide

/-- A byte is printed as it was. -/
theorem printed_char (byte : UInt8) : printed (Int8.ofInt byte.toNat) = byte := by
  apply UInt8.toBitVec_inj.mp
  change (Int8.ofInt byte.toNat).toBitVec = byte.toBitVec
  rw [Int8.toBitVec_ofInt]
  simp

/-- The part of a file that the transfer carries. -/
def carried (content : List UInt8) : List UInt8 :=
  content.takeWhile fun byte => byte ≠ eofByte

/-- One block: the client sees the marker exactly where the server wrote it, and what it
prints, with what the rest of the file carries if there was no marker, is what the file
carried before the block.
-/
theorem recvCells_sendCells (cells : List Int8) (rest : List UInt8)
    : let sent := sendCells cells rest
      (recvCells sent.2.1).1 = sent.1
        ∧ (recvCells sent.2.1).2 ++ (if sent.1 then [] else carried sent.2.2)
          = carried rest := by
  induction cells generalizing rest with
  | nil => simp [sendCells, recvCells]
  | cons cell cells ih =>
      by_cases marker : (Int8.ofInt (fgetc rest).1).toInt = eof
      · have ended : carried rest = [] := by
          cases rest with
          | nil => rfl
          | cons byte rest => simp [carried, (char_eq_eof_iff byte).mp marker]
        simp only [sendCells_marker marker, recvCells, cipher_cipher, if_pos marker, ended]
        exact ⟨trivial, rfl⟩
      · cases rest with
        | nil => exact absurd (by decide) marker
        | cons byte rest =>
            obtain ⟨seen, kept⟩ := ih rest
            have plain : byte ≠ eofByte :=
              fun last => marker ((char_eq_eof_iff byte).mpr last)
            have more : carried (byte :: rest) = byte :: carried rest := by
              simp [carried, plain]
            have shown : printed (Int8.ofInt (fgetc (byte :: rest)).1) = byte :=
              printed_char byte
            simp only [sendCells_plain marker, recvCells, cipher_cipher, if_neg marker, shown,
              more]
            exact ⟨seen, congrArg (byte :: ·) kept⟩

/-- The client ends with the datagrams sent for its request, whatever the file holds, and has
then printed the file up to the first byte that reads as `EOF`.
-/
theorem recvLoop_sendLoop (content : List UInt8) (buf : NetBuf) (later : List NetBuf)
    : recvLoop (sendLoop (some content) buf ++ later) = some (carried content, later) := by
  -- The induction is on what is left of the file before each block.
  induction left : content.length using Nat.strong_induction_on generalizing content buf with
  | _ n ih =>
      obtain ⟨seen, kept⟩ := recvCells_sendCells buf.cells content
      rw [sendLoop]
      by_cases done : (sendFile (some content) buf).1 = true
      · have ended : (sendCells buf.cells content).1 = true := done
        rw [if_pos done]
        rw [ended] at seen
        simp only [ended, if_true, List.append_nil] at kept
        simp [recvLoop, recvFile, sendFile, seen, kept]
      · have goes : (sendCells buf.cells content).1 = false := Bool.not_eq_true _ ▸ done
        rw [if_neg done]
        rw [goes] at seen
        simp only [goes, Bool.false_eq_true, if_false] at kept
        have shorter : remaining (sendFile (some content) buf).2.2 < _ := sendFile_remaining goes
        have tail := ih _ (left ▸ shorter) (sendCells buf.cells content).2.2
          (clearBuf (sendFile (some content) buf).2.1) rfl
        simp only [List.cons_append, recvLoop, recvFile]
        change (if (recvCells (sendCells buf.cells content).2.1).1 then _ else _) = _
        rw [seen, if_neg Bool.false_ne_true]
        change (recvLoop (sendLoop (some (sendCells buf.cells content).2.2) _ ++ later)).map _ = _
        rw [tail, Option.map_some, ← kept]
        rfl

/-- The client prints the file, and no datagram of its request is left over, exactly if no
byte of the file reads as `EOF`. -/
theorem transfer_complete_iff (content : List UInt8) (buf : NetBuf) (later : List NetBuf)
    : recvLoop (sendLoop (some content) buf ++ later) = some (content, later)
      ↔ eofByte ∉ content := by
  rw [recvLoop_sendLoop, Option.some_inj, Prod.mk.injEq, and_iff_left rfl, carried,
    List.takeWhile_eq_self_iff]
  simp only [decide_eq_true_eq]
  constructor
  · intro plain member
    exact plain _ member rfl
  · intro absent byte member same
    exact absent (same ▸ member)

/-- A file of one byte is printed as an empty one. -/
theorem transfer_loses_byte
    : ¬ ∀ (content : List UInt8) (buf : NetBuf),
        recvLoop (sendLoop (some content) buf) = some (content, []) := by
  intro complete
  have lost := complete [eofByte] ⟨List.replicate netBufSize 0, List.length_replicate⟩
  rw [← List.append_nil (sendLoop _ _), recvLoop_sendLoop] at lost
  exact absurd lost (by simp [carried])

/-- A request for a file that cannot be opened is answered with one datagram. -/
theorem recvLoop_nofile (buf : NetBuf) (later : List NetBuf)
    : recvLoop (sendLoop none buf ++ later) = some (nofile.map printed, later) := by
  have answered : (sendFile none buf).1 = true := rfl
  rw [sendLoop, if_pos answered]
  rfl

/-- What the client prints for a name. -/
def shown : Option (List UInt8) → List UInt8
  | none => nofile.map printed
  | some content => carried content

/-- The client shows what the server has answered. -/
theorem recvLoop_answer (fopen : List Int8 → Option (List UInt8)) (request : NetBuf)
    : recvLoop (answer fopen request) = some (shown (fopen (fileName request)), []) := by
  rw [answer, ← List.append_nil (sendLoop _ _)]
  cases fopen (fileName request) with
  | none => exact recvLoop_nofile request []
  | some content => exact recvLoop_sendLoop content request []

/-- Over a whole session the answers stay apart: each request prints what its own file
carries, and nothing is left in the socket for the next one.
-/
theorem clientLoop_prints (fopen : List Int8 → Option (List UInt8)) (requests : List NetBuf)
    : clientLoop fopen requests []
      = some (requests.map fun request => shown (fopen (fileName request)), []) := by
  induction requests with
  | nil => rfl
  | cons request requests ih =>
      rw [clientLoop, List.nil_append, recvLoop_answer, Option.bind_some]
      simp [ih]

end Minions.Unp.UdpFile
