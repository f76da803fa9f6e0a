import Minions.Printer.Headers
import Minions.Printer.Restart

/-! The `print` command and the daemon together. `submit_file` sends a header and the file over
the connection, which may split them anywhere; the thread of the daemon takes them in pieces of
its own, beside the other threads.
-/

namespace Minions.Printer

open Minions.Data Minions.Logic

-----------------------------------------------------------------------------------------
-- The client
-----------------------------------------------------------------------------------------

/-- What is written for a file, one `read` after the other. -/
def filePieces : List Byte → List (List Byte)
  | [] => []
  | b :: bs => (b :: bs).take IOBUFSZ :: filePieces ((b :: bs).drop IOBUFSZ)
termination_by contents => contents.length
decreasing_by simp only [List.length_drop, List.length_cons, IOBUFSZ]; omega

/-- What `submit_file` writes to the server. -/
def submitWrites (req : PrintReq) (contents : List Byte) : List (List Byte) :=
  req.bytes :: filePieces contents

/-- What the command prints in the end. -/
inductive Answer
  | rejected (msg : Msg)
  | jobID (id : Nat)
deriving DecidableEq

/-- The end of `submit_file`. -/
def PrintResp.answer (res : PrintResp) : Answer :=
  if res.retcode ≠ 0 then .rejected res.msg else .jobID (ntohl res.jobid).toNat

/-- Nothing of the file is lost or sent twice. -/
theorem filePieces_flatten (contents : List Byte) : (filePieces contents).flatten = contents := by
  fun_induction filePieces contents with
  | case1 => rfl
  | case2 b bs ih => rw [List.flatten_cons, ih, List.take_append_drop]

/-- The client sends the request and then the contents. -/
theorem submitWrites_flatten (req : PrintReq) (contents : List Byte)
    : (submitWrites req contents).flatten = req.bytes ++ contents := by
  rw [submitWrites, List.flatten_cons, filePieces_flatten]

-----------------------------------------------------------------------------------------
-- The connection
-----------------------------------------------------------------------------------------

/-- What arrives without a pause can be read in any amount. -/
theorem arrive_delivered {n : Nat} {events : List Event} (enough : n ≤ (delivered events).length)
    : ∃ rest, arrive n events = some ((delivered events).take n, rest)
        ∧ delivered rest = (delivered events).drop n := by
  induction events generalizing n with
  | nil =>
      obtain rfl : n = 0 := Nat.le_zero.mp enough
      exact ⟨[], rfl, rfl⟩
  | cons e events ih =>
      cases e with
      | data b bs =>
          rw [delivered, List.length_append, List.length_cons] at enough
          rw [arrive, delivered]
          by_cases small : n < bs.length + 1
          · have inside : n ≤ (b :: bs).length := Nat.le_of_lt small
            refine ⟨_, by rw [if_pos small, List.take_append_of_le_length inside], ?_⟩
            rw [delivered_ready, List.drop_append_of_le_length inside]
          · obtain ⟨rest, found, left⟩ := ih (n := n - (bs.length + 1)) (by omega)
            have beyond : (b :: bs).length ≤ n := Nat.le_of_not_lt small
            refine ⟨rest, ?_, ?_⟩
            · rw [if_neg small, found, Option.map_some, List.take_append,
                List.take_of_length_le beyond, List.length_cons]
            · rw [left, List.drop_append, List.drop_of_length_le beyond, List.length_cons,
                List.nil_append]
      | timeout | selectError | readError =>
          obtain rfl : n = 0 := Nat.le_zero.mp enough
          exact ⟨_, arrive_zero _, rfl⟩

/-- What is delivered starts with the request. -/
theorem header_of_delivered {conn : Conn} {req : PrintReq} {contents : List Byte}
    (carries : delivered conn.events = req.bytes ++ contents)
    : ∃ rest, conn.header = some (req.toHost, rest) ∧ delivered rest = contents := by
  have whole : PRINTREQ_SZ ≤ (delivered conn.events).length := by
    rw [carries, List.length_append, req.bytes_length]
    exact Nat.le_add_right _ _
  obtain ⟨rest, arrives, left⟩ := arrive_delivered whole
  rw [carries, List.take_left' req.bytes_length] at arrives
  rw [carries, List.drop_left' req.bytes_length] at left
  refine ⟨rest, ?_, left⟩
  rw [Conn.header, arrives]
  simp only [Option.bind_some, PrintReq.bytes_length, ↓reduceDIte, PrintReq.ofBytes_bytes]

/-- The header says what was asked for; it may be marked as text. -/
theorem request_of_delivered {conn : Conn} {req : PrintReq} {contents : List Byte}
    (carries : delivered conn.events = req.bytes ++ contents)
    : conn.body = contents ∧ ∃ flags, conn.request = some { req.toHost with flags := flags }
        ∧ (flags = req.toHost.flags ∨ flags = req.toHost.flags ||| PR_TEXT) := by
  obtain ⟨rest, header, left⟩ := header_of_delivered carries
  have body : conn.body = contents := by
    rw [Conn.body, header]
    exact left
  refine ⟨body, ?_⟩
  rw [Conn.request, header, Option.map_some]
  cases rest with
  | nil => exact ⟨_, rfl, .inl rfl⟩
  | cons e rest =>
      cases e with
      | timeout | selectError | readError => exact ⟨_, rfl, .inl rfl⟩
      | data b bs =>
          simp only [PrintReq.markText]
          split
          · exact ⟨_, rfl, .inl rfl⟩
          · exact ⟨_, rfl, .inr rfl⟩

-----------------------------------------------------------------------------------------
-- The job
-----------------------------------------------------------------------------------------

/-- What the daemon knows of a file from its request. -/
structure Describes (req : PrintReq) (pwName : Option CText) (fname : CText) (nbytes : Nat)
    (isText : Bool)
    : Prop where
  size : req.size.toNat = nbytes % 2 ^ 32
  usernm : cText req.usernm = userName pwName
  jobnm : cText req.jobnm = jobName fname
  flags : req.flags = PR_TEXT ∨ req.flags = 0 ∧ isText = false

/-- The request describes the file that is submitted. -/
theorem submitFile_describes {stale : PrintReq} {pwName : Option CText} {fname : CText}
    {nbytes : Nat} {isText : Bool} {flags : UInt32}
    (marked : flags = (submitFile stale pwName fname nbytes isText).toHost.flags
      ∨ flags = (submitFile stale pwName fname nbytes isText).toHost.flags ||| PR_TEXT)
    : Describes { (submitFile stale pwName fname nbytes isText).toHost with flags := flags }
        pwName fname nbytes isText := by
  constructor
  case size => simp only [PrintReq.toHost, submitFile, ntohl_ntohl, UInt32.toNat_ofNat']
  case usernm => exact cText_usernm stale pwName fname nbytes isText
  case jobnm => exact cText_jobnm stale pwName fname nbytes isText
  case flags =>
    simp only [PrintReq.toHost, submitFile] at marked
    cases isText with
    | true =>
        left
        rw [if_pos rfl, ntohl_ntohl] at marked
        rcases marked with same | same
        · exact same
        · exact same.trans rfl
    | false =>
        rw [if_neg Bool.false_ne_true] at marked
        rcases marked with same | same
        · exact .inr ⟨same.trans rfl, rfl⟩
        · exact .inl (same.trans rfl)

/-- In every run of the daemon on an empty spool that has handed out fewer than 2 ^ 31 numbers: when
`print` says which job ID its file has got, then until this job is printed the file lies under the
ID in the spool, byte by byte, with a request that names the user and the file, however the network
has split what `submit_file` wrote.
-/
theorem submit_spooled {launch : Launch} {c : System} (empty : launch.spool = .empty)
    (run : Reaches enabled launch.system c) (few : c.st.issued.length < 2 ^ 31)
    {conn : Conn} {res : PrintResp} {id : Nat} (reply : (conn, res) ∈ c.st.replies)
    (told : res.answer = .jobID id) (unprinted : int32 id ∉ c.st.confirmed)
    {stale : PrintReq} {pwName : Option CText} {fname : CText} {nbytes : Nat} {isText : Bool}
    {contents : List Byte}
    (carries : delivered conn.events
      = (submitWrites (submitFile stale pwName fname nbytes isText) contents).flatten)
    : c.st.files .data (decimalInt (int32 id)) = some contents
      ∧ ∃ req, c.st.files .reqs (decimalInt (int32 id)) = some req.bytes
        ∧ Describes req pwName fname nbytes isText := by
  have kept := run.kept_few empty few
  obtain ⟨success, same⟩ : res.retcode = 0 ∧ res.id = int32 id := by
    rw [PrintResp.answer] at told
    split at told
    · cases told
    · next success =>
        cases told
        exact ⟨not_not.mp success, rfl⟩
  have member : (conn, res) ∈ c.st.acks := List.mem_filter.mpr ⟨reply, by simpa using success⟩
  obtain ⟨-, fate⟩ := kept.acked (conn, res) member
  obtain ⟨data, req, request, file⟩ : Intact c.st conn res.id :=
    fate.resolve_left (same ▸ unprinted)
  rw [submitWrites_flatten] at carries
  obtain ⟨body, flags, request', marked⟩ := request_of_delivered carries
  rw [same, body] at data
  rw [same] at file
  rw [request', Option.some.injEq] at request
  refine ⟨data, req, file, ?_⟩
  rw [← request]
  exact submitFile_describes marked

def sar : CText := ⟨text "sar", by decide⟩

def source : CText := ⟨text "f.c", by decide⟩

/-- A user prints a file of two bytes. -/
def printReq : PrintReq := submitFile blankReq (some sar) source 2 false

def printConn : Conn := ⟨ready (printReq.bytes ++ [104, 105]) [.timeout], [], []⟩

def printing : System :=
  turns true (.client 0) 20 (turns false (.client 0) 20
    (connect 0 printConn (turns false .main 10 firstLaunch.system)))

/-- The run comes to the printer. -/
theorem printing_reached : Reaches enabled firstLaunch.system printing :=
  ((((Reaches.refl _ _).turns proceeds_enabled 10).connect 0 printConn).turns
    proceeds_enabled 20).turns proceeds_enabled 20

/-- The connection carries what the client has sent. -/
theorem printConn_carries
    : delivered printConn.events = (submitWrites printReq [104, 105]).flatten := by
  rw [submitWrites_flatten, printConn, delivered_ready]
  exact List.append_nil _

/-- A small file is spooled with its request. -/
theorem submit_spooled_printing
    : printing.st.files .data (decimalInt 1) = some [104, 105]
      ∧ ∃ req, printing.st.files .reqs (decimalInt 1) = some req.bytes
        ∧ Describes req (some sar) source 2 false := by
  have few : printing.st.issued.length < 2 ^ 31 := by decide +kernel
  have reply : (printConn, acceptResp 1) ∈ printing.st.replies := by decide +kernel
  have told : (acceptResp 1).answer = .jobID 1 := by decide +kernel
  have unprinted : int32 (1 : Nat) ∉ printing.st.confirmed := by decide +kernel
  exact submit_spooled firstLaunch_empty printing_reached few reply told unprinted
    printConn_carries

-----------------------------------------------------------------------------------------
-- The answer
-----------------------------------------------------------------------------------------

/-- Without faults every piece is written whole. -/
theorem written_nil (parts : List (List Byte)) : written [] parts = some [] := by
  induction parts with
  | nil => rfl
  | cons piece rest ih =>
      have whole : Fault.whole piece.length .none := by simp [Fault.whole, Fault.passes, Fault.count]
      rw [written, List.headD_nil, if_pos whole]
      exact ih

/-- Where no call of the daemon fails, what `submit_file` sends is stored, and `print` says its
job ID.
-/
theorem submit_accepted (p : Thread) (l : Loc) (st : Printd) {conn : Conn}
    (faultless : conn.faults = []) (low : 0 ≤ st.nextjob) (high : st.nextjob < 2 ^ 31)
    {stale : PrintReq} {pwName : Option CText} {fname : CText} {nbytes : Nat} {isText : Bool}
    {contents : List Byte}
    (carries : delivered conn.events
      = (submitWrites (submitFile stale pwName fname nbytes isText) contents).flatten)
    : (clientThread conn).EndsIn (alone p) (l, st) fun w =>
        ∃ res, w.2.replies = st.replies ++ [(conn, res)]
          ∧ res.answer = .jobID st.nextjob.toNat
          ∧ w.2.files .data (decimalInt st.nextjob) = some contents := by
  rw [submitWrites_flatten] at carries
  obtain ⟨rest, header, -⟩ := header_of_delivered carries
  obtain ⟨body, -⟩ := request_of_delivered carries
  have spooled : conn.spooled := by
    rw [Conn.spooled, Conn.stored, header, Option.bind_some, faultless]
    simp [written_nil, recorded, Fault.whole, Fault.passes, Fault.count]
  refine clientThread_ends (fun _ w replies file => ?_) fun no _ _ => ?_
  · refine ⟨acceptResp st.nextjob, replies, ?_, body ▸ file⟩
    have number : (st.nextjob % 2 ^ 32).toNat % 2 ^ 32 = st.nextjob.toNat := by omega
    simp only [PrintResp.answer, acceptResp, ntohl_ntohl, UInt32.toNat_ofNat', number]
    exact if_neg (not_not.mpr rfl)
  · rw [spooled] at no
    cases no

/-- A small file is accepted with number 1. -/
theorem submit_accepted_printing
    : (clientThread printConn).EndsIn (alone (.client 0)) (freshLoc, .boot [] .empty) fun w =>
        ∃ res, w.2.replies = [(printConn, res)] ∧ res.answer = .jobID 1
          ∧ w.2.files .data (decimalInt 1) = some [104, 105] := by
  have low : 0 ≤ (Printd.boot [] .empty).nextjob := by decide +kernel
  have high : (Printd.boot [] .empty).nextjob < 2 ^ 31 := by decide +kernel
  exact submit_accepted (.client 0) freshLoc (.boot [] .empty) rfl low high printConn_carries

end Minions.Printer
