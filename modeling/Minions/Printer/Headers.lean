import Minions.Printer.Connection

/-! The headers that `printer_thread` sends before a file, as the stores that build them.
Each name that goes into them is bounded where it is read; the buffers are not checked where the
headers are put together.
-/

namespace Minions.Printer

open Minions.Data

def IBUFSZ : Nat := 512
def HBUFSZ : Nat := 512
def IPP_PORT : Nat := 631

/-- The value of `limits.h` on Linux; where there is none, `print.h` takes 256. -/
def HOST_NAME_MAX : Nat := 64

def OP_PRINT_JOB : Nat := 0x02
def TAG_OPERATION_ATTR : Byte := 0x01
def TAG_END_OF_ATTR : Byte := 0x03
def TAG_NAMEWOLANG : Byte := 0x42
def TAG_URI : Byte := 0x45
def TAG_CHARSET : Byte := 0x47
def TAG_NATULANG : Byte := 0x48
def TAG_MIMETYPE : Byte := 0x49

/-- The characters of a C string. -/
abbrev CText := { chars : List Byte // 0 ∉ chars }

/-- The characters of the string at the start of a piece of memory. -/
def cText (mem : List Byte) : List Byte := mem.takeWhile (· ≠ 0)

/-- A string ends at its null character. -/
theorem cText_append {chars : List Byte} (rest : List Byte) (noNul : 0 ∉ chars)
    : cText (chars ++ 0 :: rest) = chars := by
  rw [cText, List.takeWhile_append_of_pos]
  · simp
  · intro b member
    simp only [decide_eq_true_eq]
    rintro rfl
    exact noNul member

-----------------------------------------------------------------------------------------
-- The request of `submit_file`
-----------------------------------------------------------------------------------------

/-- `strncpy(usernm, name, USERNM_MAX - 1)` and the terminator behind it. -/
def userField (name : List Byte) : List Byte :=
  name.take (USERNM_MAX - 1) ++ List.replicate (USERNM_MAX - (name.take (USERNM_MAX - 1)).length) 0

/-- The name of the job in its field, which held `stale`. A long name loses its front. -/
def jobField (stale fname : List Byte) : List Byte :=
  if fname.length ≥ JOBNM_MAX then
    let started := pwrite 0 stale 0 (text "... " ++ [0])
    pwrite 0 started 4
      ((fname.drop (fname.length - JOBNM_MAX + 5)).take (JOBNM_MAX - 5) ++ [0])
  else pwrite 0 stale 0 (fname ++ [0])

/-- The field of the user name has its size. -/
theorem length_userField (name : List Byte) : (userField name).length = USERNM_MAX := by
  simp only [userField, USERNM_MAX, List.length_append, List.length_take, List.length_replicate]
  omega

/-- The field of the job name has its size. -/
theorem length_jobField {stale : List Byte} (fname : List Byte) (len : stale.length = JOBNM_MAX)
    : (jobField stale fname).length = JOBNM_MAX := by
  have front : (text "... " ++ [(0 : Byte)]).length = 5 := rfl
  unfold jobField
  split
  · simp only [length_pwrite, front, len, List.length_append, List.length_take, List.length_drop,
      List.length_singleton, JOBNM_MAX]
    omega
  · simp only [length_pwrite, len, List.length_append, List.length_singleton, JOBNM_MAX] at *
    omega

/-- `submit_file`: the request for a file of `nbytes` bytes. `stale` is what the structure held,
and `pwName` the name of the user, where `getpwuid` finds one.
-/
def submitFile (stale : PrintReq) (pwName : Option CText) (fname : CText) (nbytes : Nat)
    (isText : Bool)
    : PrintReq where
  size := ntohl (UInt32.ofNat nbytes)
  flags := if isText then ntohl PR_TEXT else 0
  usernm :=
    match pwName with
    | none => pwrite 0 stale.usernm 0 (text "unknown" ++ [0])
    | some name => userField name.1
  jobnm := jobField stale.jobnm fname.1
  usernmLen := by
    cases pwName with
    | none =>
        have front : (text "unknown" ++ [(0 : Byte)]).length = 8 := rfl
        simp only [length_pwrite, stale.usernmLen, front, USERNM_MAX]
        omega
    | some name => exact length_userField name.1
  jobnmLen := length_jobField fname.1 stale.jobnmLen

/-- The length of the user name in a request. -/
def userLength (pwName : Option CText) : Nat :=
  match pwName with
  | none => 7
  | some name => min (USERNM_MAX - 1) name.1.length

/-- The length of the job name in a request. -/
def jobLength (fname : CText) : Nat := min (JOBNM_MAX - 1) fname.1.length

/-- A string that is stored at the start of a field is read from there. -/
theorem cText_pwrite_zero (field : List Byte) {chars : List Byte} (noNul : 0 ∉ chars)
    : cText (pwrite 0 field 0 (chars ++ [0])) = chars := by
  have split : pwrite 0 field 0 (chars ++ [0])
      = chars ++ 0 :: field.drop (chars.length + 1) := by
    simp [pwrite]
  rw [split, cText_append _ noNul]

/-- A string that is stored behind the four characters of a first one continues it. -/
theorem cText_pwrite_four (field : List Byte) {chars : List Byte} (noNul : 0 ∉ chars)
    : cText (pwrite 0 (pwrite 0 field 0 (text "... " ++ [0])) 4 (chars ++ [0]))
      = text "... " ++ chars := by
  have started : pwrite 0 field 0 (text "... " ++ [0]) = text "... " ++ 0 :: field.drop 5 := by
    simp [pwrite, show (text "... ").length = 4 from rfl]
  have split := pwrite_behind 0 (text "... ") (0 :: field.drop 5) (chars ++ [0])
  rw [started, show 4 = (text "... ").length from rfl, split, ← List.append_assoc (text "... "),
    List.append_assoc _ [0], List.singleton_append, cText_append]
  intro member
  rcases List.mem_append.mp member with dots | rest
  · exact absurd dots (by decide)
  · exact noNul rest

/-- The user name that a request says. -/
def userName (pwName : Option CText) : List Byte :=
  match pwName with
  | none => text "unknown"
  | some name => name.1.take (USERNM_MAX - 1)

/-- The job name that a request says: the name of the file, or its end. -/
def jobName (fname : CText) : List Byte :=
  if fname.1.length < JOBNM_MAX then fname.1
  else text "... " ++ fname.1.drop (fname.1.length - (JOBNM_MAX - 5))

/-- The user name that is sent. -/
theorem cText_usernm (stale : PrintReq) (pwName : Option CText) (fname : CText) (nbytes : Nat)
    (isText : Bool)
    : cText (submitFile stale pwName fname nbytes isText).usernm = userName pwName := by
  cases pwName with
  | none => exact cText_pwrite_zero _ (by decide)
  | some name =>
      have noNul : 0 ∉ name.1.take (USERNM_MAX - 1) := fun member =>
        name.2 (List.mem_of_mem_take member)
      have size : (name.1.take (USERNM_MAX - 1)).length ≤ 63 := List.length_take_le _ _
      obtain ⟨k, more⟩ : ∃ k, USERNM_MAX - (name.1.take (USERNM_MAX - 1)).length = k + 1 :=
        ⟨63 - (name.1.take (USERNM_MAX - 1)).length, Nat.succ_sub size⟩
      change cText (userField name.1) = _
      rw [userField, more, List.replicate_succ, cText_append _ noNul, userName]

/-- The job name that is sent. -/
theorem cText_jobnm (stale : PrintReq) (pwName : Option CText) (fname : CText) (nbytes : Nat)
    (isText : Bool)
    : cText (submitFile stale pwName fname nbytes isText).jobnm = jobName fname := by
  change cText (jobField stale.jobnm fname.1) = _
  by_cases short : fname.1.length < JOBNM_MAX
  · rw [jobField, if_neg (Nat.not_le.mpr short), cText_pwrite_zero _ fname.2, jobName, if_pos short]
  · have long : fname.1.length ≥ JOBNM_MAX := Nat.not_lt.mp short
    have start : fname.1.length - JOBNM_MAX + 5 = fname.1.length - (JOBNM_MAX - 5) := by
      simp only [JOBNM_MAX] at long ⊢
      omega
    have whole : (fname.1.drop (fname.1.length - JOBNM_MAX + 5)).length ≤ JOBNM_MAX - 5 := by
      simp only [List.length_drop, JOBNM_MAX] at long ⊢
      omega
    have noNul : 0 ∉ fname.1.drop (fname.1.length - JOBNM_MAX + 5) := fun member =>
      fname.2 (List.mem_of_mem_drop member)
    rw [jobField, if_pos long, List.take_of_length_le whole, cText_pwrite_four _ noNul, start,
      jobName, if_neg short]

/-- The length of the user name that is sent. -/
theorem length_cText_usernm (stale : PrintReq) (pwName : Option CText) (fname : CText)
    (nbytes : Nat) (isText : Bool)
    : (cText (submitFile stale pwName fname nbytes isText).usernm).length = userLength pwName := by
  rw [cText_usernm]
  cases pwName with
  | none => rfl
  | some name => rw [userName, List.length_take, userLength]

/-- The length of the job name that is sent. -/
theorem length_cText_jobnm (stale : PrintReq) (pwName : Option CText) (fname : CText)
    (nbytes : Nat) (isText : Bool)
    : (cText (submitFile stale pwName fname nbytes isText).jobnm).length = jobLength fname := by
  have front : (text "... ").length = 4 := rfl
  rw [cText_jobnm, jobName, jobLength]
  split
  · simp only [JOBNM_MAX] at *
    omega
  · simp only [List.length_append, List.length_drop, front, JOBNM_MAX] at *
    omega

-----------------------------------------------------------------------------------------
-- The stores of `printer_thread`
-----------------------------------------------------------------------------------------

/-- The arrays that hold the headers and the address of the printer. -/
inductive Target
  | str
  | ibuf
  | hbuf
deriving Repr, DecidableEq

def Target.size : Target → Nat
  | .str => 64
  | .ibuf => IBUFSZ
  | .hbuf => HBUFSZ

/-- Bytes that are stored at an offset of an array. -/
structure Store where
  target : Target
  offset : Nat
  bytes : List Byte
deriving Repr, DecidableEq

/-- The store stays inside its array. -/
def Store.Inside (w : Store) : Prop := w.offset + w.bytes.length ≤ w.target.size

instance (w : Store) : Decidable w.Inside := inferInstanceAs (Decidable (_ ≤ _))

/-- `htons`, in memory. -/
def htons (n : Nat) : List Byte := [UInt8.ofNat (n / 256), UInt8.ofNat n]

/-- `add_option` at `cp`: the stores, and where the next option goes. `strcpy` stores a
terminator behind each string, over which the next store goes.
-/
def addOption (cp : Nat) (tag : Byte) (optname optval : List Byte) : List Store × Nat :=
  let n := optname.length
  let m := optval.length
  ([⟨.ibuf, cp, [tag]⟩, ⟨.ibuf, cp + 1, htons n⟩, ⟨.ibuf, cp + 3, optname ++ [0]⟩,
    ⟨.ibuf, cp + 3 + n, htons m⟩, ⟨.ibuf, cp + 5 + n, optval ++ [0]⟩],
    cp + 5 + n + m)

/-- The type of the document, and the extra byte that a text needs. -/
def document (req : PrintReq) : List Byte × Nat :=
  if req.flags &&& PR_TEXT ≠ 0 then (text "text/plain", 1) else (text "application/postscript", 0)

/-- The address of the printer. -/
def printerUri (printerName : List Byte) : List Byte :=
  text "http://" ++ printerName ++ text "/ipp"

/-- The stores of the IPP header, and its length. -/
def ippStores (printerName : List Byte) (jobid : UInt32) (req : PrintReq) : List Store × Nat :=
  let str := printerUri printerName
  let o₁ := addOption 9 TAG_CHARSET (text "attributes-charset") (text "utf-8")
  let o₂ := addOption o₁.2 TAG_NATULANG (text "attributes-natural-language") (text "en-us")
  let o₃ := addOption o₂.2 TAG_URI (text "printer-uri") str
  let o₄ := addOption o₃.2 TAG_NAMEWOLANG (text "requesting-user-name") (cText req.usernm)
  let o₅ := addOption o₄.2 TAG_NAMEWOLANG (text "job-name") (cText req.jobnm)
  let o₆ := addOption o₅.2 TAG_MIMETYPE (text "document-format") (document req).1
  ([⟨.ibuf, 0, [1]⟩, ⟨.ibuf, 1, [1]⟩, ⟨.ibuf, 2, htons OP_PRINT_JOB⟩,
      ⟨.ibuf, 4, (hostBytes jobid).reverse⟩, ⟨.ibuf, 8, [TAG_OPERATION_ATTR]⟩]
    ++ o₁.1 ++ o₂.1 ++ [⟨.str, 0, str ++ [0]⟩] ++ o₃.1 ++ o₄.1 ++ o₅.1 ++ o₆.1
    ++ [⟨.ibuf, o₆.2, [TAG_END_OF_ATTR]⟩],
    o₆.2 + 1)

/-- Conversion to `long`. -/
def int64 (v : Int) : Int := (v + 2 ^ 63) % 2 ^ 64 - 2 ^ 63

/-- Store the lines of the HTTP header one behind the other, each with a terminator. -/
def lineStores : Nat → List (List Byte) → List Store × Nat
  | hcp, [] => ([], hcp)
  | hcp, line :: rest =>
      let later := lineStores (hcp + line.length) rest
      (⟨.hbuf, hcp, line ++ [0]⟩ :: later.1, later.2)

/-- The stores of the HTTP header for a file of `stSize` bytes behind an IPP header of `ilen`
bytes.
-/
def httpStores (printerName : List Byte) (stSize ilen extra : Nat) : List Store :=
  let lines := lineStores 0
    [text "POST /ipp HTTP/1.1\r\n",
      text "Content-Length: " ++ decimalInt (int64 (stSize + ilen + extra)) ++ text "\r\n",
      text "Content-Type: application/ipp\r\n",
      text "Host: " ++ printerName ++ text ":" ++ decimal IPP_PORT ++ text "\r\n"]
  lines.1 ++ [⟨.hbuf, lines.2, [13]⟩, ⟨.hbuf, lines.2 + 1, [10]⟩]

/-- All stores of `printer_thread` that build the headers of a job. -/
def headerStores (printerName : List Byte) (jobid : UInt32) (stSize : Nat) (req : PrintReq)
    : List Store :=
  let ipp := ippStores printerName jobid req
  ipp.1 ++ httpStores printerName stSize ipp.2 (document req).2

/-- The options fit exactly if the terminator of the last string does. -/
theorem addOption_inside {cp : Nat} {tag : Byte} {optname optval : List Byte}
    : (∀ w ∈ (addOption cp tag optname optval).1, w.Inside)
      ↔ cp + 6 + optname.length + optval.length ≤ IBUFSZ := by
  simp only [addOption, htons, Store.Inside, Target.size, List.mem_cons, List.not_mem_nil, or_false,
    forall_eq_or_imp, forall_eq, List.length_append, List.length_cons, List.length_nil]
  omega

/-- An option takes five bytes, its name and its value. -/
theorem addOption_next (cp : Nat) (tag : Byte) (optname optval : List Byte)
    : (addOption cp tag optname optval).2 = cp + 5 + optname.length + optval.length :=
  rfl

/-- The length of the document type. -/
theorem length_document (req : PrintReq)
    : (document req).1.length = if req.flags &&& PR_TEXT ≠ 0 then 10 else 22 := by
  unfold document
  split
  · rfl
  · rfl

/-- The length of the printer's address. -/
theorem length_printerUri (printerName : List Byte)
    : (printerUri printerName).length = printerName.length + 11 := by
  simp only [printerUri, List.length_append, show (text "http://").length = 7 from rfl,
    show (text "/ipp").length = 4 from rfl]
  omega

/-- The IPP header fits exactly if the address of the printer fits into its array and the
options together into theirs.
-/
theorem ippStores_inside {printerName : List Byte} {jobid : UInt32} {req : PrintReq}
    : (∀ w ∈ (ippStores printerName jobid req).1, w.Inside)
      ↔ printerName.length ≤ 52
        ∧ 160 + printerName.length + (cText req.usernm).length + (cText req.jobnm).length
          + (document req).1.length ≤ IBUFSZ := by
  have charset : (text "attributes-charset").length = 18 := rfl
  have utf8 : (text "utf-8").length = 5 := rfl
  have language : (text "attributes-natural-language").length = 27 := rfl
  have english : (text "en-us").length = 5 := rfl
  have uri : (text "printer-uri").length = 11 := rfl
  have user : (text "requesting-user-name").length = 20 := rfl
  have job : (text "job-name").length = 8 := rfl
  have format : (text "document-format").length = 15 := rfl
  simp only [ippStores, List.forall_mem_append, addOption_inside, addOption_next, charset, utf8,
    language, english, uri, user, job, format, length_printerUri]
  simp only [Store.Inside, Target.size, htons, List.mem_cons, List.not_mem_nil, or_false,
    forall_eq_or_imp, forall_eq, List.length_append, List.length_cons, List.length_nil,
    List.length_reverse, hostBytes_length, length_printerUri]
  simp only [IBUFSZ]
  omega

/-- A 64-bit number is in its range. -/
theorem int64_range (v : Int) : -(2 ^ 63) ≤ int64 v ∧ int64 v < 2 ^ 63 := by
  simp only [int64]
  omega

/-- The HTTP header fits where the address of the printer does. -/
theorem httpStores_inside {printerName : List Byte} (short : printerName.length ≤ 52)
    (stSize ilen extra : Nat)
    : ∀ w ∈ httpStores printerName stSize ilen extra, w.Inside := by
  have post : (text "POST /ipp HTTP/1.1\r\n").length = 20 := rfl
  have size : (text "Content-Length: ").length = 16 := rfl
  have type : (text "Content-Type: application/ipp\r\n").length = 31 := rfl
  have host : (text "Host: ").length = 6 := rfl
  have colon : (text ":").length = 1 := rfl
  have newline : (text "\r\n").length = 2 := rfl
  have port : (decimal IPP_PORT).length = 3 := by decide
  have range := int64_range (stSize + ilen + extra)
  have digits : (decimalInt (int64 (stSize + ilen + extra))).length ≤ 20 :=
    decimalInt_length_le 19 (by omega) (by omega) (by omega)
  simp only [httpStores, lineStores, Store.Inside, Target.size, List.forall_mem_append,
    List.mem_cons, List.not_mem_nil, or_false, forall_eq_or_imp, forall_eq, List.length_append,
    List.length_cons, List.length_nil, post, size, type, host, colon, newline, port, HBUFSZ]
  omega

/-- The request of a client as it stands in the queue: the daemon converts its numbers, and
marks a file whose first piece `buf` does not start as PostScript does.
-/
def queued (req : PrintReq) : Option (List Byte × List Byte) → PrintReq
  | none => req.toHost
  | some (buf, stale) => req.toHost.markText buf stale

/-- The queue keeps the user name. -/
theorem queued_usernm (req : PrintReq) (first : Option (List Byte × List Byte))
    : (queued req first).usernm = req.usernm := by
  rcases first with _ | ⟨buf, stale⟩
  · rfl
  · simp only [queued, PrintReq.markText]
    split
    · rfl
    · rfl

/-- The queue keeps the job name. -/
theorem queued_jobnm (req : PrintReq) (first : Option (List Byte × List Byte))
    : (queued req first).jobnm = req.jobnm := by
  rcases first with _ | ⟨buf, stale⟩
  · rfl
  · simp only [queued, PrintReq.markText]
    split
    · rfl
    · rfl

/-- For every request that `submit_file` builds and every name of the printer, each store of
`printer_thread` lies inside its array exactly if the name has at most 52 characters and the
names of the printer, the user and the job together leave room for the fixed part of the IPP
header.
-/
theorem headers_inside_iff (stale : PrintReq) (pwName : Option CText) (fname printerName : CText)
    (nbytes stSize : Nat) (isText : Bool) (first : Option (List Byte × List Byte)) (jobid : UInt32)
    : (∀ w ∈ headerStores printerName.1 jobid stSize
          (queued (submitFile stale pwName fname nbytes isText) first), w.Inside)
      ↔ printerName.1.length ≤ 52
        ∧ printerName.1.length + userLength pwName + jobLength fname
          ≤ if (queued (submitFile stale pwName fname nbytes isText) first).flags &&& PR_TEXT ≠ 0
            then 342 else 330 := by
  have user := length_cText_usernm stale pwName fname nbytes isText
  have job := length_cText_jobnm stale pwName fname nbytes isText
  simp only [headerStores, List.forall_mem_append, ippStores_inside, queued_usernm, queued_jobnm,
    user, job, length_document, IBUFSZ]
  rw [and_iff_left_of_imp fun fits => httpStores_inside fits.1 _ _ _]
  refine and_congr_right fun _ => ?_
  split
  · omega
  · omega

/-- A name of 53 characters. -/
def longName : CText := ⟨List.replicate 53 (ascii 'p'), by decide⟩

/-- It overruns the array for the address of the printer. -/
theorem headers_overrun
    : ¬ ∀ (stale : PrintReq) (pwName : Option CText) (fname printerName : CText)
        (nbytes stSize : Nat) (isText : Bool) (first : Option (List Byte × List Byte))
        (jobid : UInt32),
        printerName.1.length ≤ HOST_NAME_MAX
        → ∀ w ∈ headerStores printerName.1 jobid stSize
            (queued (submitFile stale pwName fname nbytes isText) first), w.Inside := by
  intro always
  have inside := always blankReq none ⟨text "f", by decide⟩ longName 0 0 false none 1 (by decide)
    ⟨.str, 0, printerUri longName.1 ++ [0]⟩ (by decide +kernel)
  exact absurd inside (by decide)

end Minions.Printer
