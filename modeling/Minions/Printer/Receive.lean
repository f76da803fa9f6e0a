import Minions.Logic.Alone
import Minions.Printer.Reading

/-! One client thread from its connection to its answer.
The thread stores what arrives until the first end of file, timeout or error, and does not
compare it with the size that the client announced.
-/

namespace Minions.Printer

open Minions.Data Minions.Logic

-----------------------------------------------------------------------------------------
-- Which connections are answered with success
-----------------------------------------------------------------------------------------

/-- The pieces in which a file is received: the results of `tread` up to the first that is not
data.
-/
def pieces : Nat → List Event → List (List Byte)
  | 0, _ => []
  | fuel + 1, events =>
      match treadResult IOBUFSZ events with
      | (.ok (b :: bs), rest) => (b :: bs) :: pieces fuel rest
      | _ => []

/-- A call that ends so does not fail. -/
def Fault.passes : Fault → Bool
  | .error _ => false
  | _ => true

/-- A write of `len` bytes that ends so is whole. -/
def Fault.whole (len : Nat) (f : Fault) : Bool := f.passes && f.count len = len

/-- The faults after writes of the given pieces, if every write is whole. -/
def written : List Fault → List (List Byte) → Option (List Fault)
  | faults, [] => some faults
  | faults, piece :: rest =>
      if (faults.headD .none).whole piece.length then written faults.tail rest else none

/-- The header arrives whole and the data file is created and written without an error: the
faults of the calls after that.
-/
def Conn.stored (conn : Conn) : Option (List Fault) :=
  conn.header.bind fun (_, rest) =>
    if (conn.faults.headD .none).passes then
      written conn.faults.tail (pieces (weight rest) rest)
    else none

/-- The request file is created and written without an error. -/
def recorded (faults : List Fault) : Bool :=
  (faults.headD .none).passes && (faults.tail.headD .none).whole PRINTREQ_SZ

/-- The header arrives whole, and the data file and the request file are created and written
without an error.
-/
def Conn.spooled (conn : Conn) : Bool := conn.stored.elim false recorded

/-- `req.size`. -/
def Conn.announced (conn : Conn) : Nat := conn.header.elim 0 fun (req, _) => req.size.toNat

/-- All that the client sends after the header. -/
def Conn.file (conn : Conn) : List Byte := conn.header.elim [] fun (_, rest) => sent rest

/-- A timed read that gets bytes takes them from the events. -/
theorem treadResult_data {n : Nat} {events rest : List Event} {b : Byte} {bs : List Byte}
    (h : treadResult n events = (.ok (b :: bs), rest))
    : weight rest + (bs.length + 1) = weight events
      ∧ delivered events = b :: bs ++ delivered rest := by
  cases events with
  | nil => simp [treadResult] at h
  | cons e events =>
      cases e with
      | data c cs =>
          obtain ⟨piece, rfl⟩ := Prod.mk.inj h
          have piece := Except.ok.inj piece
          rw [weight_ready, delivered_ready, ← piece]
          constructor
          · have lengths := congrArg List.length (List.take_append_drop n (c :: cs))
            rw [List.length_append, piece] at lengths
            simp only [List.length_cons] at lengths
            simp only [weight]
            omega
          · rw [← List.append_assoc, List.take_append_drop, delivered]
      | timeout => simp [treadResult] at h
      | selectError e => simp [treadResult] at h
      | readError e => simp [treadResult] at h

/-- A read that brings no data ends the file. -/
theorem treadResult_end {n : Nat} {events : List Event} (pos : 0 < n)
    (h : ∀ b bs, (treadResult n events).1 ≠ .ok (b :: bs))
    : delivered events = [] := by
  cases events with
  | nil => rfl
  | cons e events =>
      cases e with
      | data c cs =>
          obtain ⟨n, rfl⟩ : ∃ k, n = k + 1 := ⟨n - 1, by omega⟩
          exact absurd rfl (h c (cs.take n))
      | timeout => rfl
      | selectError e => rfl
      | readError e => rfl

/-- More fuel does not change the pieces. -/
theorem pieces_of_le {fuel fuel' : Nat} {events : List Event} (h : weight events ≤ fuel)
    (h' : weight events ≤ fuel')
    : pieces fuel events = pieces fuel' events := by
  induction fuel generalizing fuel' events with
  | zero =>
      cases fuel' with
      | zero => rfl
      | succ fuel' =>
          simp only [pieces]
          split
          · next b bs rest result =>
              have := (treadResult_data result).1
              omega
          · rfl
  | succ fuel ih =>
      cases fuel' with
      | zero =>
          simp only [pieces]
          split
          · next b bs rest result =>
              have := (treadResult_data result).1
              omega
          · rfl
      | succ fuel' =>
          simp only [pieces]
          split
          · next b bs rest result =>
              have := (treadResult_data result).1
              exact congrArg _ (ih (by omega) (by omega))
          · rfl

/-- The first piece and the others. -/
theorem pieces_data {events rest : List Event} {b : Byte} {bs : List Byte}
    (h : treadResult IOBUFSZ events = (.ok (b :: bs), rest))
    : pieces (weight events) events = (b :: bs) :: pieces (weight rest) rest := by
  have smaller := (treadResult_data h).1
  obtain ⟨fuel, eq⟩ : ∃ fuel, weight events = fuel + 1 := ⟨weight events - 1, by omega⟩
  rw [eq, pieces, h]
  exact congrArg _ (pieces_of_le (by omega) (Nat.le_refl _))

/-- The pieces end where a read gets nothing. -/
theorem pieces_end {fuel : Nat} {events : List Event}
    (h : ∀ b bs, (treadResult IOBUFSZ events).1 ≠ .ok (b :: bs))
    : pieces fuel events = [] := by
  cases fuel with
  | zero => rfl
  | succ fuel =>
      simp only [pieces]
      split
      · next b bs rest result => exact absurd (congrArg Prod.fst result) (h b bs)
      · rfl

-----------------------------------------------------------------------------------------
-- Calls of a thread that nobody disturbs
-----------------------------------------------------------------------------------------

/-- The machine on which no call waits. -/
abbrev ungated : Machine Sys Thread Loc Printd := daemonWith fun _ _ => True

/-- Thread `p` runs alone. -/
def sole (p : Thread) : Discipline Sys Thread Loc Printd Unit where
  inv _ := True
  rely q s t := q = p → t = s
  permit _ _ _ _ := True
  onCall _ _ _ _ := True
  rely_refl _ _ _ := rfl
  rely_trans h h' q := (h' q).trans (h q)

/-- A thread that is alone may read. -/
theorem sole_freeReads (p : Thread) : FreeReads (sole p) p :=
  ⟨fun _ _ _ => trivial, fun _ _ _ => trivial, fun _ _ => trivial, fun _ _ => trivial⟩

variable {α β : Type} {p : Thread} {ab : Prop} {Q : α → Loc → Printd × Unit → Prop} {l : Loc}
  {st st₀ : Printd}

/-- A call of a thread that is alone. -/
theorem sole_call {c : Call} {next : c.Resp → Prog Sys α}
    (h : wp ungated (sole p) p ab (next (execCall p c l st).1) Q (execCall p c l st).2.1
      ((execCall p c l st).2.2, ()))
    : wp ungated (sole p) p ab (.call c next) Q l (st, ()) := by
  intro s' rely _ _
  obtain rfl := rely rfl
  exact ⟨trivial, (), trivial, fun q different same => absurd same different, trivial, h⟩

/-- The end of a thread that is alone. -/
theorem sole_ret {a : α} (h : Q a l (st, ())) : wp ungated (sole p) p ab (.ret a) Q l (st, ()) := by
  intro s' rely _
  obtain rfl := rely rfl
  exact h

/-- `creat` makes an empty file. -/
theorem execCall_creat_passes {d : Dir} {n : Name} (h : l.fault.passes)
    : execCall p (.creat d n) l st
      = (.ok (), { l.next with offset := 0 }, st.setFile d n (some [])) := by
  rcases fault : l.fault with _ | e | k
  · simp [execCall, fault]
  · simp [fault, Fault.passes] at h
  · simp [execCall, fault]

/-- `creat` fails and leaves the files alone. -/
theorem execCall_creat_fails {d : Dir} {n : Name} (h : l.fault.passes = false)
    : ∃ e, execCall p (.creat d n) l st = (.error e, l.next, st) := by
  rcases fault : l.fault with _ | e | k
  · simp [fault, Fault.passes] at h
  · exact ⟨e, by simp [execCall, fault]⟩
  · simp [fault, Fault.passes] at h

/-- `creat` and what follows. -/
theorem sole_creat {d : Dir} {n : Name} {next : Except Errno Unit → Prog Sys α}
    (created : l.fault.passes → wp ungated (sole p) p ab (next (.ok ())) Q
      { l.next with offset := 0 } (st.setFile d n (some []), ()))
    (failed : l.fault.passes = false
      → ∀ e, wp ungated (sole p) p ab (next (.error e)) Q l.next (st, ()))
    : wp ungated (sole p) p ab (.call (.creat d n) next) Q l (st, ()) := by
  refine sole_call ?_
  cases h : l.fault.passes with
  | true =>
      rw [execCall_creat_passes h]
      exact created h
  | false =>
      obtain ⟨e, eq⟩ := execCall_creat_fails (p := p) (d := d) (n := n) h
      rw [eq]
      exact failed h e

/-- A write that is whole. -/
theorem execCall_write_whole {d : Dir} {n : Name} {bytes : List Byte}
    (h : l.fault.whole bytes.length)
    : execCall p (.write d n bytes) l st
      = (.ok bytes.length, { l.next with offset := l.offset + bytes.length },
          st.writeFile d n l.offset bytes) := by
  rcases fault : l.fault with _ | e | k
  · simp [execCall, fault, Fault.count]
  · simp [fault, Fault.whole, Fault.passes] at h
  · have full : min k bytes.length = bytes.length := by
      simpa [fault, Fault.whole, Fault.passes, Fault.count] using h
    simp [execCall, fault, Fault.count, full]

/-- A write that is not whole is reported by its result. -/
theorem execCall_write_broken {d : Dir} {n : Name} {bytes : List Byte}
    (h : l.fault.whole bytes.length = false)
    : (∃ e, (execCall p (.write d n bytes) l st).1 = .error e)
      ∨ ∃ nw, (execCall p (.write d n bytes) l st).1 = .ok nw ∧ nw ≠ bytes.length := by
  rcases fault : l.fault with _ | e | k
  · simp [fault, Fault.whole, Fault.passes, Fault.count] at h
  · exact Or.inl ⟨e, by simp [execCall, fault]⟩
  · refine Or.inr ⟨min k bytes.length, by simp [execCall, fault, Fault.count], ?_⟩
    simpa [fault, Fault.whole, Fault.passes, Fault.count] using h

/-- A write that fails leaves the responses as they are. -/
theorem execCall_write_replies (p : Thread) (l : Loc) (st : Printd) (d : Dir) (n : Name)
    (bytes : List Byte)
    : (execCall p (.write d n bytes) l st).2.2.replies = st.replies
      ∧ (execCall p (.write d n bytes) l st).2.1.conn = l.conn := by
  have kept : ∀ offset bytes, (st.writeFile d n offset bytes).replies = st.replies := by
    intro offset bytes
    simp only [Printd.writeFile]
    split <;> rfl
  rcases fault : l.fault with _ | e | k <;> simp [execCall, fault, kept, Loc.next]

/-- A whole write, or an error, and what follows. -/
theorem sole_writeAll {d : Dir} {n : Name} {bytes : List Byte}
    {next : Option Errno → Prog Sys α}
    (whole : l.fault.whole bytes.length → wp ungated (sole p) p ab (next none) Q
      { l.next with offset := l.offset + bytes.length } (st.writeFile d n l.offset bytes, ()))
    (broken : l.fault.whole bytes.length = false → ∀ e l' st', l'.conn = l.conn
      → st'.replies = st.replies → wp ungated (sole p) p ab (next (some e)) Q l' (st', ()))
    : wp ungated (sole p) p ab ((writeAll d n bytes).bind next) Q l (st, ()) := by
  refine sole_call ?_
  obtain ⟨replies, conn⟩ := execCall_write_replies p l st d n bytes
  cases h : l.fault.whole bytes.length with
  | true =>
      rw [execCall_write_whole h]
      simpa using whole h
  | false =>
      rcases execCall_write_broken h with ⟨e, result⟩ | ⟨nw, result, short⟩
      · rw [result]
        exact broken h e _ _ conn replies
      · rw [result]
        simp only [Prog.ret_bind, Prog.pure_eq, if_neg short]
        exact broken h EIO _ _ conn replies

-----------------------------------------------------------------------------------------
-- The receive loop
-----------------------------------------------------------------------------------------

/-- The client was told that its request failed. -/
def Refused (conn : Conn) (before after : Printd) : Prop :=
  ∃ res, after.replies = before.replies ++ [(conn, res)] ∧ res.retcode ≠ 0

/-- An error is answered with a code that is not 0. -/
theorem errorResp_retcode (e : Errno) : (errorResp e).retcode ≠ 0 := by
  intro zero
  have code : ntohl (ntohl e.code) = ntohl 0 := congrArg ntohl zero
  rw [ntohl_ntohl] at code
  exact e.nonzero code

/-- The file that has been set. -/
theorem files_setFile_self (st : Printd) (d : Dir) (n : Name) (content : Option (List Byte))
    : (st.setFile d n content).files d n = content := by
  simp [Printd.files, Printd.setFile, Spool.set]

/-- The other files. -/
theorem files_setFile_other {d d' : Dir} {n n' : Name} {content : Option (List Byte)}
    (h : ¬ (d' = d ∧ n' = n))
    : (st.setFile d n content).files d' n' = st.files d' n' := by
  simp only [Printd.files, Printd.setFile, Spool.set, if_neg h]

/-- A write leaves the other files alone. -/
theorem files_writeFile_other {d d' : Dir} {n n' : Name} {offset : Nat} {bytes : List Byte}
    (h : ¬ (d' = d ∧ n' = n))
    : (st.writeFile d n offset bytes).files d' n' = st.files d' n' := by
  simp only [Printd.writeFile]
  split
  · rfl
  · exact files_setFile_other h

/-- A write at the end of a file appends. -/
theorem files_writeFile_end {d : Dir} {n : Name} {content : List Byte} (bytes : List Byte)
    (h : st.files d n = some content)
    : (st.writeFile d n content.length bytes).files d n = some (content ++ bytes) := by
  simp only [Printd.writeFile, h, files_setFile_self, pwrite_end]

/-- A write sends no answer. -/
theorem writeFile_replies (st : Printd) (d : Dir) (n : Name) (offset : Nat) (bytes : List Byte)
    : (st.writeFile d n offset bytes).replies = st.replies := by
  simp only [Printd.writeFile]
  split <;> rfl

/-- `unlink` sends no answer. -/
theorem unlink_replies (p : Thread) (l : Loc) (st : Printd) (d : Dir) (n : Name)
    : (execCall p (.unlink d n) l st).2.2.replies = st.replies := by
  rcases fault : l.fault with _ | e | k <;> simp [execCall, fault, Printd.setFile]

/-- `unlink` keeps the connection. -/
theorem unlink_conn (p : Thread) (l : Loc) (st : Printd) (d : Dir) (n : Name)
    : (execCall p (.unlink d n) l st).2.1.conn = l.conn := by
  rcases fault : l.fault with _ | e | k <;> simp [execCall, fault, Loc.next]

/-- The loop ends: it has stored what was delivered if every write was whole, and told the
client otherwise.
-/
theorem sole_receiveFile {name : Name} {req : PrintReq} {stale : List Byte}
    {next : Option PrintReq → Prog Sys α} (created : st.files .data name = some [])
    (start : l.offset = 0)
    (whole : ∀ req' l' st',
      written l.faults (pieces (weight l.events) l.events) = some l'.faults
      → l'.conn = l.conn → st'.replies = st.replies
      → st'.files .data name = some (delivered l.events)
      → wp ungated (sole p) p ab (next (some req')) Q l' (st', ()))
    (broken : ∀ l' st', written l.faults (pieces (weight l.events) l.events) = none
      → l'.conn = l.conn → Refused l.conn st st'
      → wp ungated (sole p) p ab (next none) Q l' (st', ()))
    : wp ungated (sole p) p ab ((receiveFile name req stale).bind next) Q l (st, ()) := by
  -- what is stored and what is still to come make up the file
  let I : Nat → Bool × PrintReq → Loc → Printd × Unit → Prop := fun n _ l' s' =>
    ∃ content, s'.1.files .data name = some content ∧ s'.1.replies = st.replies
      ∧ l'.offset = content.length ∧ l'.conn = l.conn
      ∧ content ++ delivered l'.events = delivered l.events
      ∧ written l'.faults (pieces (weight l'.events) l'.events)
        = written l.faults (pieces (weight l.events) l.events)
      ∧ n = weight l'.events
  refine wp_loop I (fun s' rely _ => ?_) ?_
  · obtain rfl := rely rfl
    exact ⟨weight l.events, [], created, rfl, by simpa using start, rfl, rfl, rfl, rfl⟩
  rintro n ⟨first, req⟩ l' ⟨st', ⟨⟩⟩ ⟨content, file, replies, offset, conn, split, faults, rfl⟩ -
  refine wp_tread (K := fun s => s = (st', ())) (sole_freeReads p)
    (fun s t eq rely _ => (rely rfl).trans eq) rfl ?_
  rintro _ rfl -
  have ends : (∀ b bs, (treadResult IOBUFSZ l'.events).1 ≠ .ok (b :: bs)) → ∀ req rest,
      wp ungated (sole p) p ab (next (some req)) Q { l' with events := rest } (st', ()) := by
    intro no req rest
    rw [treadResult_end (by decide) no, List.append_nil] at split
    rw [pieces_end no, written] at faults
    exact whole req _ st' faults.symm conn replies (split ▸ file)
  rcases result : treadResult IOBUFSZ l'.events with ⟨r, rest⟩
  rw [result] at ends
  match r with
  | .error e => exact sole_ret (ends nofun req rest)
  | .ok [] => exact sole_ret (ends nofun req rest)
  | .ok (b :: bs) =>
      obtain ⟨smaller, more⟩ := treadResult_data result
      rw [pieces_data result, written] at faults
      refine sole_writeAll (fun complete => ?_) fun incomplete e l'' st'' conn' replies' => ?_
      · -- the piece is stored
        rw [if_pos (show (l'.faults.headD .none).whole (b :: bs).length from complete)] at faults
        refine sole_ret ⟨weight rest, by omega, content ++ (b :: bs), ?_, ?_, ?_, conn, ?_, faults,
          rfl⟩
        · rw [offset]
          exact files_writeFile_end _ file
        · rw [writeFile_replies, replies]
        · simp [offset]
        · rw [more] at split
          rw [List.append_assoc]
          exact split
      · -- the client is told
        have incomplete : (l'.faults.headD .none).whole (b :: bs).length = false := incomplete
        rw [if_neg (by rw [incomplete]; nofun)] at faults
        have conn'' : l''.conn = l.conn := conn'.trans conn
        refine sole_call (sole_call (sole_call (sole_ret ?_)))
        refine broken _ _ faults.symm ((unlink_conn _ _ _ _ _).trans conn'') ⟨errorResp e, ?_,
          errorResp_retcode e⟩
        rw [unlink_replies]
        exact congrArg₂ (fun replies conn => replies ++ [(conn, errorResp e)])
          (replies'.trans replies) conn''

-----------------------------------------------------------------------------------------
-- The whole thread
-----------------------------------------------------------------------------------------

/-- The first part of the thread ends with a job number and the file stored under it, or with a
client that was told of an error.
-/
theorem sole_acceptFile (p : Thread) (conn : Conn) (l : Loc) (st : Printd)
    : wp ungated (sole p) p False (acceptFile conn)
        (fun r l' s' =>
          l'.conn = conn
          ∧ ((r = none ∧ conn.stored = none ∧ Refused conn st s'.1)
            ∨ ∃ req, r = some (st.nextjob, req) ∧ conn.stored = some l'.faults
              ∧ s'.1.replies = st.replies
              ∧ s'.1.files .data (decimalInt st.nextjob) = some conn.body))
        l (st, ()) := by
  refine sole_call ?_
  refine wp_treadn (K := fun s => s = (st, ())) (sole_freeReads p)
    (fun s t eq rely _ => (rely rfl).trans eq) rfl ?_ ?_
  · rintro bytes rest _ arrived rfl -
    have arrived : arrive PRINTREQ_SZ conn.events = some (bytes, rest) := arrived
    have size := arrive_length arrived
    have header : conn.header = some ((PrintReq.ofBytes bytes size).toHost, rest) := by
      simp [Conn.header, arrived, size]
    simp only [size, dite_true]
    have stored : conn.stored
        = if (conn.faults.headD .none).passes then
            written conn.faults.tail (pieces (weight rest) rest)
          else none := by
      rw [Conn.stored, header, Option.bind_some]
    have body : conn.body = delivered rest := by simp [Conn.body, header]
    refine sole_call (sole_creat (fun passes => ?_) fun fails e => ?_)
    · rw [if_pos (show (conn.faults.headD .none).passes from passes)] at stored
      refine sole_receiveFile (files_setFile_self _ _ _ _) rfl ?_ ?_
      · intro req' l' st' whole same replies file
        refine sole_ret ⟨same, Or.inr ⟨req', rfl, stored.trans whole, replies, ?_⟩⟩
        rw [body]
        exact file
      · intro l' st' broken same refused
        exact sole_ret ⟨same, Or.inl ⟨rfl, stored.trans broken, refused⟩⟩
    · have fails : (conn.faults.headD .none).passes = false := fails
      rw [if_neg (by rw [fails]; nofun)] at stored
      refine sole_call (sole_call (sole_ret ⟨rfl, Or.inl ⟨rfl, stored, errorResp e, rfl, ?_⟩⟩))
      exact errorResp_retcode e
  · rintro result rest _ arrived short rfl -
    have arrived : arrive PRINTREQ_SZ conn.events = none := arrived
    have stored : conn.stored = none := by simp [Conn.stored, Conn.header, arrived]
    match result with
    | .error e =>
        refine sole_call (sole_ret ⟨rfl, Or.inl ⟨rfl, stored, errorResp e, rfl, ?_⟩⟩)
        exact errorResp_retcode e
    | .ok bytes =>
        simp only [short bytes rfl, dite_false]
        refine sole_call (sole_ret ⟨rfl, Or.inl ⟨rfl, stored, errorResp EIO, rfl, ?_⟩⟩)
        exact errorResp_retcode EIO

/-- The calls of thread `p` when it is alone. -/
abbrev alone (p : Thread) : (c : Call) → Loc × Printd → c.Resp × (Loc × Printd) := daemon.alone p

section Alone

variable {P : Loc × Printd → Prop}

/-- `creat` and what follows, alone. -/
theorem alone_creat {d : Dir} {n : Name} {next : Except Errno Unit → Prog Sys α}
    (created : l.fault.passes → (next (.ok ())).EndsIn (alone p)
      ({ l.next with offset := 0 }, st.setFile d n (some [])) P)
    (failed : l.fault.passes = false → ∀ e, (next (.error e)).EndsIn (alone p) (l.next, st) P)
    : (Prog.call (S := Sys) (Call.creat d n) next).EndsIn (alone p) (l, st) P := by
  refine .call ?_
  cases h : l.fault.passes with
  | true =>
      rw [show alone p (.creat d n) (l, st) = _ from execCall_creat_passes (p := p) h]
      exact created h
  | false =>
      obtain ⟨e, eq⟩ := execCall_creat_fails (p := p) (d := d) (n := n) h
      rw [show alone p (.creat d n) (l, st) = _ from eq]
      exact failed h e

/-- A whole write and what follows, alone. -/
theorem alone_writeAll {d : Dir} {n : Name} {bytes : List Byte}
    {next : Option Errno → Prog Sys α}
    (whole : l.fault.whole bytes.length → (next none).EndsIn (alone p)
      ({ l.next with offset := l.offset + bytes.length }, st.writeFile d n l.offset bytes) P)
    (broken : l.fault.whole bytes.length = false → ∀ e l' st', l'.conn = l.conn
      → st'.replies = st.replies → (next (some e)).EndsIn (alone p) (l', st') P)
    : ((writeAll d n bytes).bind next).EndsIn (alone p) (l, st) P := by
  refine .call ?_
  obtain ⟨replies, conn⟩ := execCall_write_replies p l st d n bytes
  cases h : l.fault.whole bytes.length with
  | true =>
      rw [show alone p (.write d n bytes) (l, st) = _ from execCall_write_whole (p := p) h]
      simpa using whole h
  | false =>
      rcases execCall_write_broken (p := p) h with ⟨e, result⟩ | ⟨nw, result, short⟩
      · rw [show (alone p (.write d n bytes) (l, st)).1 = _ from result]
        exact broken h e _ _ conn replies
      · rw [show (alone p (.write d n bytes) (l, st)).1 = _ from result]
        simp only [Prog.ret_bind, Prog.pure_eq, if_neg short]
        exact broken h EIO _ _ conn replies

/-- Queueing a job touches neither the responses nor the spool. -/
theorem alone_addJob {job : Job} {next : Bool → Prog Sys α}
    (h : ∀ queued l' st', st'.replies = st.replies → st'.files = st.files
      → (next queued).EndsIn (alone p) (l', st') P)
    : (Prog.call (S := Sys) (Call.addJob job) next).EndsIn (alone p) (l, st) P := by
  refine .call (h _ _ _ ?_ ?_)
  · rcases fault : l.fault with _ | e | k <;> simp [daemonWith, Machine.alone, execCall, fault]
  · rcases fault : l.fault with _ | e | k <;>
      simp [daemonWith, Machine.alone, execCall, fault, Printd.files]

/-- The calls after a refusal send no other response. -/
theorem refused_unlink (p : Thread) {d : Dir} {n : Name} {conn : Conn} (h : Refused conn st₀ st)
    : Refused conn st₀ (execCall p (.unlink d n) l st).2.2 := by
  obtain ⟨res, eq, nonzero⟩ := h
  exact ⟨res, (unlink_replies p l st d n).trans eq, nonzero⟩

/-- The last part of the thread ends; the client is told of success if and only if the request
file was written, and the data file stays.
-/
theorem submitJob_ends {jobid : Int} {name : Name} {req : PrintReq}
    (accepted : recorded l.faults → ∀ w : Loc × Printd,
      w.2.replies = st.replies ++ [(l.conn, acceptResp jobid)]
      → w.2.files .data name = st.files .data name → P w)
    (refused : recorded l.faults = false → ∀ w : Loc × Printd, Refused l.conn st w.2 → P w)
    : (submitJob jobid name req).EndsIn (alone p) (l, st) P := by
  refine alone_creat (fun created => ?_) fun failed e => ?_
  · have created : (l.faults.headD .none).passes = true := created
    refine alone_writeAll (fun whole => ?_) fun broken e l' st' conn replies => ?_
    · rw [PrintReq.bytes_length] at whole
      have whole : (l.faults.tail.headD .none).whole PRINTREQ_SZ = true := whole
      have yes : recorded l.faults = true := by rw [recorded, created, whole, Bool.and_self]
      refine .call (.call (alone_addJob fun queued l' st' replies files => ?_))
      have told : P (l', st') := by
        refine accepted yes _ (replies.trans ?_) ((congrFun₂ files _ _).trans ?_)
        · exact congrArg (· ++ [(l.conn, acceptResp jobid)]) (writeFile_replies _ _ _ _ _)
        · have other : ¬ (Dir.data = Dir.reqs ∧ name = name) := by simp
          exact (files_writeFile_other other).trans (files_setFile_other other)
      cases queued with
      | true => exact .ret told
      | false => exact .abort told
    · rw [PrintReq.bytes_length] at broken
      have broken : (l.faults.tail.headD .none).whole PRINTREQ_SZ = false := broken
      have no : recorded l.faults = false := by rw [recorded, broken, Bool.and_false]
      refine .call (.call (.call (.call (.ret
        (refused no _ (refused_unlink p (refused_unlink p ?_)))))))
      refine ⟨errorResp e, ?_, errorResp_retcode e⟩
      exact congrArg₂ (fun replies conn => replies ++ [(conn, errorResp e)]) replies conn
  · have no : recorded l.faults = false := by
      rw [recorded, show (l.faults.headD .none).passes = false from failed, Bool.false_and]
    refine .call (.call (.call (.ret (refused no _ (refused_unlink p ?_)))))
    exact ⟨errorResp e, rfl, errorResp_retcode e⟩

/-- The thread ends, with one response: of success, if the whole request was spooled. -/
theorem clientThread_ends {conn : Conn}
    (accepted : conn.spooled → ∀ w : Loc × Printd,
      w.2.replies = st.replies ++ [(conn, acceptResp st.nextjob)]
      → w.2.files .data (decimalInt st.nextjob) = some conn.body → P w)
    (refused : conn.spooled = false → ∀ w : Loc × Printd, Refused conn st w.2 → P w)
    : (clientThread conn).EndsIn (alone p) (l, st) P := by
  obtain ⟨out, l', ⟨st', ⟨⟩⟩, ends, -, post⟩ := wp_alone (M := ungated) (fun _ => True)
    (fun _ _ _ _ => trivial) (fun _ _ _ _ => trivial) trivial trivial (sole_acceptFile p conn l st)
  match out, post with
  | .done _, ⟨_, Or.inl ⟨rfl, stored, told⟩⟩ =>
      refine ⟨_, _, ends.bind (.ret () _), refused ?_ _ told⟩
      rw [Conn.spooled, stored, Option.elim_none]
  | .done _, ⟨same, Or.inr ⟨req, rfl, stored, replies, file⟩⟩ =>
      have spooled : conn.spooled = recorded l'.faults := by
        rw [Conn.spooled, stored, Option.elim_some]
      subst same
      obtain ⟨out, w, last, holds⟩ : (submitJob st.nextjob (decimalInt st.nextjob) req).EndsIn
          (alone p) (l', st') P := by
        refine submitJob_ends (fun yes w replies' file' => ?_) fun no w told => ?_
        · exact accepted (spooled.trans yes) w (by rw [replies', replies]) (file'.trans file)
        · obtain ⟨res, eq, nonzero⟩ := told
          exact refused (spooled.trans no) w ⟨res, by rw [eq, replies], nonzero⟩
      exact ⟨out, w, ends.bind last, holds⟩

end Alone

-----------------------------------------------------------------------------------------
-- Acknowledged and complete
-----------------------------------------------------------------------------------------

/-- What a thread acknowledges is complete: for every response of success that it sent, the data
file under the job ID in the response is the file of the announced size that the client sent.
-/
def AcknowledgesComplete (conn : Conn) (before after : Printd) : Prop :=
  ∀ reply ∈ after.replies.drop before.replies.length, reply.2.retcode = 0
    → ∃ data, after.files .data (decimalInt reply.2.id) = some data
        ∧ data = conn.file.take conn.announced ∧ data.length = conn.announced

/-- The answer carries the job number. -/
theorem acceptResp_id {v : Int} (low : -(2 ^ 31) ≤ v) (high : v < 2 ^ 31)
    : (acceptResp v).id = v := by
  simp only [PrintResp.id, acceptResp, ntohl_ntohl, UInt32.toNat_ofNat', int32]
  omega

/-- The body is the front of the file. -/
theorem body_front (conn : Conn) : conn.body <+: conn.file := by
  simp only [Conn.body, Conn.file]
  cases conn.header with
  | none => exact List.prefix_rfl
  | some found => exact delivered_front found.2

/-- For every connection, `client_thread` ends, and what it acknowledges is complete if and only
if it acknowledges nothing, because the header, the data file or the request file failed, or
exactly the announced number of bytes arrives before the first end of file, timeout or error.
Witness: the thread stores what is delivered up to there.
-/
theorem clientThread_acknowledges_iff (p : Thread) (conn : Conn) (l : Loc) (st : Printd)
    (low : -(2 ^ 31) ≤ st.nextjob) (high : st.nextjob < 2 ^ 31)
    : (clientThread conn).EndsIn (alone p) (l, st) fun w =>
        AcknowledgesComplete conn st w.2
        ↔ (conn.spooled = false ∨ conn.body.length = conn.announced) := by
  refine clientThread_ends (fun spooled w replies file => ?_) fun refused w told => ?_
  · have answer : w.2.replies.drop st.replies.length = [(conn, acceptResp st.nextjob)] := by
      rw [replies, List.drop_left]
    constructor
    · intro complete
      obtain ⟨data, found, -, size⟩ := complete (conn, acceptResp st.nextjob)
        (by rw [answer]; simp) rfl
      rw [acceptResp_id low high, file] at found
      rw [Option.some.inj found]
      exact Or.inr size
    · rintro (no | size) reply sent success
      · rw [spooled] at no
        exact absurd no nofun
      · rw [answer, List.mem_singleton] at sent
        subst sent
        refine ⟨conn.body, ?_, ?_, size⟩
        · rw [acceptResp_id low high]
          exact file
        · rw [← size]
          exact List.prefix_iff_eq_take.mp (body_front conn)
  · obtain ⟨res, replies, nonzero⟩ := told
    refine iff_of_true (fun reply sent success => ?_) (Or.inl refused)
    rw [replies, List.drop_left, List.mem_singleton] at sent
    subst sent
    exact absurd success nonzero

/-- The header of a request of `size` bytes without names, as it comes from the network. -/
def plainHeader (size : Byte) : Event := .data 0 ([0, 0, size] ++ List.replicate 324 0)

/-- A thread that has not done anything yet. -/
def freshLoc : Loc where
  conn := ⟨[], [], []⟩
  events := []
  faults := []
  offset := 0
  names := []
  answers := []

/-- A client that announces two bytes and sends them. -/
def wholeConn : Conn := ⟨[plainHeader 2, .data 104 [105], .timeout], [], []⟩

/-- A connection that sends everything. -/
theorem clientThread_acknowledges_iff_whole
    : (clientThread wholeConn).EndsIn (alone (.client 0)) (freshLoc, .boot [] .empty) fun w =>
        AcknowledgesComplete wholeConn (.boot [] .empty) w.2
        ↔ (wholeConn.spooled = false ∨ wholeConn.body.length = wholeConn.announced) :=
  clientThread_acknowledges_iff (.client 0) wholeConn freshLoc (.boot [] .empty) (by decide)
    (by decide)

/-- A client that announces five bytes, sends two and falls silent. -/
def cutConn : Conn := ⟨[plainHeader 5, .data 104 [105], .timeout], [], []⟩

/-- The request is answered with success and job ID 1, and two bytes are stored under it. -/
theorem cut_transfer_acknowledged
    : ∃ w, (clientThread cutConn).Ends (alone (.client 0)) (freshLoc, .boot [] .empty) (.done ()) w
        ∧ w.2.replies = [(cutConn, acceptResp 1)]
        ∧ w.2.files .data (decimalInt 1) = some [104, 105] ∧ cutConn.announced = 5
        ∧ ¬ AcknowledgesComplete cutConn (.boot [] .empty) w.2 := by
  let result := (clientThread cutConn).run (alone (.client 0)) 9 (freshLoc, .boot [] .empty)
  have done : result.1 = .done () := by decide +kernel
  have replies : result.2.2.replies = [(cutConn, acceptResp 1)] := by decide +kernel
  have file : result.2.2.files .data (decimalInt 1) = some [104, 105] := by decide +kernel
  have announced : cutConn.announced = 5 := by decide +kernel
  have ends : (clientThread cutConn).Ends (alone (.client 0)) (freshLoc, .boot [] .empty) _ _ :=
    .of_run 9 (by rw [show _ = _ from done]; nofun)
  refine ⟨result.2, done ▸ ends, replies, file, announced, fun complete => ?_⟩
  obtain ⟨data, found, -, size⟩ := complete (cutConn, acceptResp 1)
    (by rw [replies]; exact List.mem_singleton_self _) rfl
  have name : (acceptResp 1).id = 1 := by decide +kernel
  rw [name, file] at found
  rw [← Option.some.inj found, announced] at size
  exact absurd size (by decide)

end Minions.Printer
