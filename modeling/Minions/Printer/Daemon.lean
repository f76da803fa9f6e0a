import Minions.Logic.System
import Minions.Printer.Connection
import Minions.Printer.JobList

/-! The state of the print daemon and the calls of its threads.
The spool directory outlives the process. A thread interleaves with the others at every
file-system and socket call and at every access to what the threads share. The list of jobs is
taken as the sequence that `Minions.Printer.Queue` shows it to be. A descriptor is modelled by
the path it was opened with and an offset.
-/

namespace Minions.Printer

open Minions.Data Minions.Logic

/-- `DATADIR` and `REQDIR`. -/
inductive Dir
  | data
  | reqs
deriving DecidableEq

/-- The name of a file in its directory. -/
abbrev Name := List Byte

/-- `SPOOLDIR`: the job file, and the files of the two directories. -/
structure Spool where
  jobno : List Byte
  files : Dir → Name → Option (List Byte)

def Spool.empty : Spool where
  jobno := []
  files := fun _ _ => none

/-- The spool with one file replaced or removed. -/
def Spool.set (sp : Spool) (d : Dir) (n : Name) (content : Option (List Byte)) : Spool :=
  { sp with
    files := fun d' n' => if d' = d ∧ n' = n then content else sp.files d' n' }

/-- The texts that the daemon sends to its clients. -/
inductive Msg
  | strerror (code : UInt32)
  /-- `"request ID %d"` -/
  | requestID (jobid : Int)
deriving DecidableEq

/-- `struct printresp`. -/
structure PrintResp where
  retcode : UInt32
  jobid : UInt32
  msg : Msg
deriving DecidableEq

/-- The job ID that a client reads in a response. -/
def PrintResp.id (res : PrintResp) : Int := int32 (ntohl res.jobid).toNat

/-- The messages that the threads log. -/
inductive LogMsg
  /-- `"client_thread: can't create %s: %s"` -/
  | cantCreate (d : Dir) (n : Name) (code : UInt32)
  /-- `"client_thread: can't write %s: %s"` -/
  | cantWrite (d : Dir) (n : Name) (code : UInt32)
  /-- `"adding job %d to queue"` -/
  | addingJob (jobid : Int)
  /-- `"build_qonstart: can't read %s: %s"` -/
  | cantRead (n : Name) (e : Errno)
  /-- `"daemon initialized"` -/
  | initialized
  /-- `"printer_thread: picked up job %d"` -/
  | pickedUp (jobid : Int)
  /-- `"job %d canceled - can't open %s: %s"` -/
  | cantOpen (jobid : Int) (n : Name) (e : Errno)
  /-- `"job %d canceled - can't fstat %s: %s"` -/
  | cantFstat (jobid : Int) (n : Name) (e : Errno)
  /-- `"job %d deferred - can't contact printer: %s"` -/
  | cantContact (jobid : Int) (e : Errno)
  /-- `"can't write to printer"` -/
  | cantSend
  /-- `"short write (%d/%d) to printer"` -/
  | shortSend (nw nr : Nat)
  /-- `"can't read %s"` -/
  | cantReadData (n : Name) (e : Errno)
deriving DecidableEq

/-- What the threads do to the world and to each other. The queue is reached under `joblock`
only, so that each access is one step; `takeJob` also waits for a job. `accept` stands for the
main thread's `accept` and `pthread_create`. `printerStatus` stands for the calls of
`printer_status`, which change nothing of the state.
-/
inductive Call
  | accept (conn : Conn)
  | select (timout : Nat)
  | recv (n : Nat)
  | getNewjobno
  | creat (d : Dir) (n : Name)
  | write (d : Dir) (n : Name) (bytes : List Byte)
  | unlink (d : Dir) (n : Name)
  | reply (res : PrintResp)
  | logMsg (msg : LogMsg)
  | addJob (job : Job)
  | opendir
  | readdir
  | open (d : Dir) (n : Name)
  | read (d : Dir) (n : Name) (len : Nat)
  | fstat (d : Dir) (n : Name)
  | takeJob
  | replaceJob (job : Job)
  | lseekJobno
  | loadNextjob
  | writeJobno (bytes : List Byte)
  | setReread
  | takeReread
  | getPrintaddr
  | connect
  | send (len : Nat)
  | printerStatus (jobid : Int)

@[reducible] def Call.Resp : Call → Type
  | .select _ => Ready
  | .recv _ => Except Errno (List Byte)
  | .getNewjobno => Int
  | .creat _ _ => Except Errno Unit
  | .write _ _ _ => Except Errno Nat
  | .addJob _ => Bool
  | .opendir => Bool
  | .readdir => Option Name
  | .open _ _ => Except Errno Unit
  | .read _ _ _ => Except Errno (List Byte)
  | .fstat _ _ => Except Errno Nat
  | .takeJob => Job
  | .lseekJobno => Except Errno Unit
  | .loadNextjob => Int
  | .writeJobno _ => Except Errno Nat
  | .takeReread => Bool
  | .getPrintaddr => Bool
  | .connect => Except Errno Unit
  | .send _ => Except Errno Nat
  | .printerStatus _ => Bool
  | _ => Unit

/-- Why a thread ends the process. -/
inductive Exit
  | mallocFailed
  | cantSeek
  | cantUpdate
  | noPrinter
deriving DecidableEq

abbrev Sys : Sig where
  Call := Call
  Resp := Call.Resp
  Err := Exit

inductive Thread
  | main
  | printer
  | signal
  | client (n : Nat)
deriving DecidableEq

/-- What belongs to one thread: its connection, what is still to happen on its socket and to
its calls, the offset of its open file, the rest of its directory stream and the printer's
answers to come.
-/
structure Loc where
  conn : Conn
  events : List Event
  faults : List Fault
  offset : Nat
  names : List Name
  answers : List Bool

/-- The spool, the memory that the threads share, and what has happened in this run: the job
numbers handed out, the responses sent, the jobs added to the queue, the jobs whose printing
was confirmed, and the log.
-/
structure Printd where
  spool : Spool
  jobOffset : Nat
  nextjob : Int
  queue : List Job
  reread : Bool
  issued : List (Thread × Int)
  replies : List (Conn × PrintResp)
  added : List Job
  confirmed : List Int
  log : List LogMsg

def Printd.files (st : Printd) : Dir → Name → Option (List Byte) := st.spool.files

def Printd.setFile (st : Printd) (d : Dir) (n : Name) (content : Option (List Byte)) : Printd :=
  { st with spool := st.spool.set d n content }

/-- A write to an open file; nobody sees what is written to a file that was removed. -/
def Printd.writeFile (st : Printd) (d : Dir) (n : Name) (offset : Nat) (bytes : List Byte)
    : Printd :=
  match st.files d n with
  | none => st
  | some content => st.setFile d n (some (pwrite 0 content offset bytes))

/-- How the next call of the thread ends. -/
def Loc.fault (l : Loc) : Fault := l.faults.headD .none

/-- The thread after a call whose end was decided. -/
def Loc.next (l : Loc) : Loc := { l with faults := l.faults.tail }

/-- The number of bytes of a write of `len` bytes that are written. -/
def Fault.count (len : Nat) : Fault → Nat
  | .short n => min n len
  | _ => len

/-- Waiting: a connection is accepted when the main thread has built the queue, and a job is
taken when there is one.
-/
def enabled : Call → Printd → Prop
  | .accept _, st => .initialized ∈ st.log
  | .takeJob, st => st.queue ≠ []
  | _, _ => True

/-- The effect of a call of thread `p`. -/
def execCall (p : Thread) : (c : Call) → Loc → Printd → c.Resp × Loc × Printd
  | .accept conn, l, st =>
      ((), { l with conn := conn, events := conn.events, faults := conn.faults }, st)
  | .select _, l, st => ((select l.events).1, { l with events := (select l.events).2 }, st)
  | .recv n, l, st => ((recv n l.events).1, { l with events := (recv n l.events).2 }, st)
  | .getNewjobno, l, st =>
      (st.nextjob, l,
        { st with nextjob := advance st.nextjob, issued := st.issued ++ [(p, st.nextjob)] })
  | .creat d n, l, st =>
      match l.fault with
      | .error e => (.error e, l.next, st)
      | _ => (.ok (), { l.next with offset := 0 }, st.setFile d n (some []))
  | .write d n bytes, l, st =>
      match l.fault with
      | .error e => (.error e, l.next, st)
      | fault =>
          let count := fault.count bytes.length
          (.ok count, { l.next with offset := l.offset + count },
            st.writeFile d n l.offset (bytes.take count))
  | .unlink d n, l, st =>
      match l.fault with
      | .error _ => ((), l.next, st)
      | _ => ((), l.next, st.setFile d n none)
  | .reply res, l, st => ((), l, { st with replies := st.replies ++ [(l.conn, res)] })
  | .logMsg msg, l, st => ((), l, { st with log := st.log ++ [msg] })
  | .addJob job, l, st =>
      match l.fault with
      | .error _ => (false, l.next, st)
      | _ => (true, l.next, { st with queue := st.queue ++ [job], added := st.added ++ [job] })
  | .opendir, l, st =>
      match l.fault with
      | .error _ => (false, l.next, st)
      | _ => (true, l.next, st)
  | .readdir, l, st => (l.names.head?, { l with names := l.names.tail }, st)
  | .open d n, l, st =>
      match l.fault with
      | .error e => (.error e, l.next, st)
      | _ =>
          (if (st.files d n).isSome then .ok () else .error ENOENT, { l.next with offset := 0 }, st)
  | .read d n len, l, st =>
      match l.fault with
      | .error e => (.error e, l.next, st)
      | _ =>
          let bytes := pread ((st.files d n).getD []) l.offset len
          (.ok bytes, { l.next with offset := l.offset + bytes.length }, st)
  | .fstat d n, l, st =>
      match l.fault with
      | .error e => (.error e, l.next, st)
      | _ => (.ok ((st.files d n).getD []).length, l.next, st)
  | .takeJob, l, st => (st.queue.headD ⟨0, blankReq⟩, l, { st with queue := st.queue.tail })
  | .replaceJob job, l, st => ((), l, { st with queue := job :: st.queue })
  | .lseekJobno, l, st =>
      match l.fault with
      | .error e => (.error e, l.next, st)
      | _ => (.ok (), l.next, { st with jobOffset := 0 })
  | .loadNextjob, l, st => (st.nextjob, l, st)
  | .writeJobno bytes, l, st =>
      match l.fault with
      | .error e => (.error e, l.next, st)
      | fault =>
          let count := fault.count bytes.length
          (.ok count, l.next,
            { st with
              spool.jobno := pwrite 0 st.spool.jobno st.jobOffset (bytes.take count)
              jobOffset := st.jobOffset + count })
  | .setReread, l, st => ((), l, { st with reread := true })
  | .takeReread, l, st => (st.reread, l, { st with reread := false })
  | .getPrintaddr, l, st =>
      match l.fault with
      | .error _ => (false, l.next, st)
      | _ => (true, l.next, st)
  | .connect, l, st =>
      match l.fault with
      | .error e => (.error e, l.next, st)
      | _ => (.ok (), l.next, st)
  | .send len, l, st =>
      match l.fault with
      | .error e => (.error e, l.next, st)
      | fault => (.ok (fault.count len), l.next, st)
  | .printerStatus jobid, l, st =>
      if l.answers.headD false then
        (true, { l with answers := l.answers.tail },
          { st with confirmed := st.confirmed ++ [jobid] })
      else (false, { l with answers := l.answers.tail }, st)

/-- The machine that the threads run on, when `gate` says which calls may be made. -/
def daemonWith (gate : Call → Printd → Prop) : Machine Sys Thread Loc Printd where
  enabled _ c _ st := gate c st
  exec := execCall
  leave _ st := st

/-- The machine that the threads run on. -/
abbrev daemon : Machine Sys Thread Loc Printd := daemonWith enabled

end Minions.Printer
