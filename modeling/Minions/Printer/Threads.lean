import Minions.Printer.Daemon

/-! The threads of `printd.c`, statement by statement.
What `close`, the worker registry and the printer's address do is left out here: none of it
touches the spool or the queue.
-/

namespace Minions.Printer

open Minions.Data Minions.Logic

/-- One call. -/
abbrev sys (c : Call) : Prog Sys c.Resp := Prog.perform (S := Sys) c

/-- `tread`: wait for data and read it once. -/
def tread (n timout : Nat) : Prog Sys (Except Errno (List Byte)) := do
  match ← sys (.select timout) with
  | .timedOut => pure (.error ETIME)
  | .failed e => pure (.error e)
  | .ready => sys (.recv n)

/-- `treadn`: read exactly `nbytes` bytes, if they come. -/
def treadn (nbytes timout : Nat) : Prog Sys (Except Errno (List Byte)) :=
  Prog.iter [] fun got : List Byte =>
    if 0 < nbytes - got.length then do
      match ← tread (nbytes - got.length) timout with
      | .error e => pure (.inr (if got.length = 0 then .error e else .ok got))
      | .ok [] => pure (.inr (.ok got))
      | .ok (b :: bs) => pure (.inl (got ++ b :: bs))
    else pure (.inr (.ok got))

-----------------------------------------------------------------------------------------
-- Client threads
-----------------------------------------------------------------------------------------

/-- The response of a request that failed. The text is that of the converted number. -/
def errorResp (e : Errno) : PrintResp where
  retcode := ntohl e.code
  jobid := 0
  msg := .strerror (ntohl e.code)

/-- The response of a request that was accepted. -/
def acceptResp (jobid : Int) : PrintResp where
  retcode := 0
  jobid := ntohl (UInt32.ofNat (jobid % 2 ^ 32).toNat)
  msg := .requestID jobid

/-- `write`, checked for its length: the error to report, if there is one. -/
def writeAll (d : Dir) (n : Name) (bytes : List Byte) : Prog Sys (Option Errno) := do
  match ← sys (.write d n bytes) with
  | .error e => pure (some e)
  | .ok nw => pure (if nw = bytes.length then none else some EIO)

/-- The receive loop of `client_thread`: store the file that arrives. It leaves with the
request, or with nothing when the data file cannot be written and the client was told so.
-/
def receiveFile (name : Name) (req : PrintReq) (stale : List Byte)
    : Prog Sys (Option PrintReq) :=
  Prog.iter (true, req) fun (first, req) => do
    match ← tread IOBUFSZ 20 with
    | .error _ => pure (.inr (some req))
    | .ok [] => pure (.inr (some req))
    | .ok (b :: bs) =>
        let req := if first then req.markText (b :: bs) stale else req
        match ← writeAll .data name (b :: bs) with
        | none => pure (.inl (false, req))
        | some e =>
            sys (.logMsg (.cantWrite .data name (errorResp e).retcode))
            sys (.reply (errorResp e))
            sys (.unlink .data name)
            pure (.inr none)

/-- The last part of `client_thread`: write the control file, answer and queue the job. -/
def submitJob (jobid : Int) (name : Name) (req : PrintReq) : Prog Sys Unit := do
  match ← sys (.creat .reqs name) with
  | .error e =>
      sys (.logMsg (.cantCreate .reqs name (errorResp e).retcode))
      sys (.reply (errorResp e))
      sys (.unlink .data name)
  | .ok () =>
      match ← writeAll .reqs name req.bytes with
      | some e =>
          sys (.logMsg (.cantWrite .reqs name (errorResp e).retcode))
          sys (.reply (errorResp e))
          sys (.unlink .reqs name)
          sys (.unlink .data name)
      | none =>
          sys (.reply (acceptResp jobid))
          sys (.logMsg (.addingJob jobid))
          match ← sys (.addJob ⟨jobid, req⟩) with
          | true => pure ()
          | false => .abort .mallocFailed

/-- The first part of `client_thread`: read the header, get a job number and store the file that
arrives. It leaves with the job number and the request, or with nothing when the client was
told of an error.
-/
def acceptFile (conn : Conn) : Prog Sys (Option (Int × PrintReq)) := do
  sys (.accept conn)
  match ← treadn PRINTREQ_SZ 10 with
  | .error e =>
      sys (.reply (errorResp e))
      pure none
  | .ok header =>
      if whole : header.length = PRINTREQ_SZ then
        let req := (PrintReq.ofBytes header whole).toHost
        let jobid ← sys .getNewjobno
        let name := decimalInt jobid
        match ← sys (.creat .data name) with
        | .error e =>
            sys (.logMsg (.cantCreate .data name (errorResp e).retcode))
            sys (.reply (errorResp e))
            pure none
        | .ok () =>
            let received ← receiveFile name req conn.stale
            pure (received.map fun req => (jobid, req))
      else
        sys (.reply (errorResp EIO))
        pure none

/-- `client_thread` with the connection that was accepted for it. -/
def clientThread (conn : Conn) : Prog Sys Unit := do
  match ← acceptFile conn with
  | none => pure ()
  | some (jobid, req) => submitJob jobid (decimalInt jobid) req

/-- One entry of the directory of requests. -/
def queueEntry (name : Name) : Prog Sys Unit := do
  if name = text "." ∨ name = text ".." then pure ()
  else
    match ← sys (.open .reqs name) with
    | .error _ => pure ()
    | .ok () =>
        let nr ← sys (.read .reqs name PRINTREQ_SZ)
        match nr with
        | .error e =>
            sys (.logMsg (.cantRead name e))
            sys (.unlink .reqs name)
            sys (.unlink .data name)
        | .ok bytes =>
            if whole : bytes.length = PRINTREQ_SZ then
              let jobid := int32 (atol name)
              sys (.logMsg (.addingJob jobid))
              match ← sys (.addJob ⟨jobid, PrintReq.ofBytes bytes whole⟩) with
              | true => pure ()
              | false => .abort .mallocFailed
            else
              sys (.logMsg (.cantRead name EIO))
              sys (.unlink .reqs name)
              sys (.unlink .data name)

/-- `build_qonstart`. -/
def buildQonstart : Prog Sys Unit := do
  match ← sys .opendir with
  | false => pure ()
  | true =>
      Prog.iter () fun _ => do
        match ← sys .readdir with
        | none => pure (.inr ())
        | some name =>
            queueEntry name
            pure (.inl ())

/-- `main` from `build_qonstart` to the loop that accepts connections. -/
def mainThread : Prog Sys Unit := do
  buildQonstart
  sys (.logMsg .initialized)

-----------------------------------------------------------------------------------------
-- The printer thread and the signal thread
-----------------------------------------------------------------------------------------

def updateJobno : Prog Sys Unit := do
  match ← sys .lseekJobno with
  | .error _ => .abort .cantSeek
  | .ok () =>
      let nextjob ← sys .loadNextjob
      match ← sys (.writeJobno (decimalInt nextjob)) with
      | .error _ => .abort .cantUpdate
      | .ok _ => pure ()

/-- Look for a change of the configuration, and read it again. -/
def checkConfig : Prog Sys Unit := do
  match ← sys .takeReread with
  | false => pure ()
  | true =>
      match ← sys .getPrintaddr with
      | true => pure ()
      | false => .abort .noPrinter

/-- A write to the printer that must be whole; true when it was. `short` is what is logged when
only a part was written.
-/
def sendAll (len : Nat) (short : Nat → LogMsg) : Prog Sys Bool := do
  match ← sys (.send len) with
  | .error _ =>
      sys (.logMsg .cantSend)
      pure false
  | .ok nw =>
      if nw = len then pure true
      else
        sys (.logMsg (short nw))
        pure false

/-- The loop that copies the data file to the printer; true when all of it was sent. -/
def sendFile (name : Name) : Prog Sys Bool :=
  Prog.iter () fun _ => do
    match ← sys (.read .data name IOBUFSZ) with
    | .error e =>
        sys (.logMsg (.cantReadData name e))
        pure (.inr false)
    | .ok [] => pure (.inr true)
    | .ok (b :: bs) =>
        match ← sendAll (b :: bs).length (.shortSend · (b :: bs).length) with
        | true => pure (.inl ())
        | false => pure (.inr false)

/-- Send the headers, of `hlen` bytes in all, and the file. -/
def sendDocument (job : Job) (name : Name) (hlen : Nat) : Prog Sys Bool := do
  match ← sendAll hlen (fun _ => .cantSend) with
  | false => pure false
  | true =>
      if job.req.flags &&& PR_TEXT ≠ 0 then
        match ← sendAll 1 (fun _ => .cantSend) with
        | false => pure false
        | true => sendFile name
      else sendFile name

/-- One round of `printer_thread`. `hlen` is the length of the headers. -/
def printerThread (hlen : Nat) : Prog Sys Unit := do
  let job ← sys .takeJob
  sys (.logMsg (.pickedUp job.jobid))
  updateJobno
  checkConfig
  let name := decimalInt job.jobid
  match ← sys (.open .data name) with
  | .error e => sys (.logMsg (.cantOpen job.jobid name e))
  | .ok () =>
      match ← sys (.fstat .data name) with
      | .error e => sys (.logMsg (.cantFstat job.jobid name e))
      | .ok _ =>
          match ← sys .connect with
          | .error e =>
              sys (.logMsg (.cantContact job.jobid e))
              sys (.replaceJob job)
          | .ok () =>
              match ← sendDocument job name hlen with
              | false => sys (.replaceJob job)
              | true =>
                  match ← sys (.printerStatus job.jobid) with
                  | false => sys (.replaceJob job)
                  | true =>
                      sys (.unlink .data name)
                      sys (.unlink .reqs name)

/-- `signal_thread` on `SIGHUP`. -/
def signalThread : Prog Sys Unit := sys .setReread

/-- What a thread does next. -/
inductive Op
  | start
  | print (hlen : Nat)
  | hangup
  | serve (conn : Conn)

def threadCode : Op → Unit → Prog Sys (Unit × Unit)
  | .start, _ => mainThread.bind fun _ => .ret ((), ())
  | .print hlen, _ => (printerThread hlen).bind fun _ => .ret ((), ())
  | .hangup, _ => signalThread.bind fun _ => .ret ((), ())
  | .serve conn, _ => (clientThread conn).bind fun _ => .ret ((), ())

/-- Which thread runs which code. The main thread is started once. -/
def mayRun : Thread → Op → Prop
  | .printer, .print _ => True
  | .signal, .hangup => True
  | .client _, .serve _ => True
  | _, _ => False

/-- The threads of one process, and the daemon's state. -/
abbrev System := Config Sys Thread Op Unit Unit Loc Printd

/-- The daemon when `init_request` has read the job file. -/
def Printd.boot (stale : List Byte) (spool : Spool) : Printd where
  spool := spool
  jobOffset := min spool.jobno.length FILENMSZ
  nextjob := initRequest stale spool.jobno
  queue := []
  reread := false
  issued := []
  replies := []
  added := []
  confirmed := []
  log := []

/-- A started process: the main thread is about to build the queue. -/
def boot (stale : List Byte) (env : Thread → Loc) (spool : Spool) : System where
  procs
    | .main => .busy .start (threadCode .start ()) (env .main)
    | t => .idle () (env t)
  st := .boot stale spool

end Minions.Printer
