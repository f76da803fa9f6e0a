import Minions.Printer.Counter
import Minions.Printer.Requests

/-! A connection of the print daemon: what its socket delivers and how the file-system calls of
its thread end. Every run of a client thread is determined by its connection and by the state
of the daemon.
-/

namespace Minions.Printer

open Minions.Data

/-- An error number; a call that fails sets one, and none of them is 0. -/
structure Errno where
  code : UInt32
  nonzero : code ≠ 0
deriving DecidableEq

def EIO : Errno := ⟨5, by decide⟩
def ENOENT : Errno := ⟨2, by decide⟩
def ETIME : Errno := ⟨62, by decide⟩

/-- What happens on a socket, in order. The end of the sequence is the end of file. -/
inductive Event
  /-- Some bytes arrive, at least one. -/
  | data (first : Byte) (rest : List Byte)
  /-- Nothing arrives for as long as a `select` waits. -/
  | timeout
  | selectError (e : Errno)
  | readError (e : Errno)
deriving DecidableEq

/-- How one file-system call ends. -/
inductive Fault
  | none
  | error (e : Errno)
  /-- A write stops after `n` bytes. -/
  | short (n : Nat)
deriving DecidableEq

/-- One client connection: what its socket delivers, how the calls of its thread end, and what
the thread's data buffer holds before it is first used.
-/
structure Conn where
  events : List Event
  faults : List Fault
  stale : List Byte
deriving DecidableEq

/-- Bytes that are ready before other events. -/
def ready (bytes : List Byte) (events : List Event) : List Event :=
  match bytes with
  | [] => events
  | b :: bs => .data b bs :: events

/-- What `select` returns. -/
inductive Ready
  | ready
  | timedOut
  | failed (e : Errno)
deriving DecidableEq

/-- `select` for reading; a read error and the end of file make a socket readable. -/
def select : List Event → Ready × List Event
  | .timeout :: rest => (.timedOut, rest)
  | .selectError e :: rest => (.failed e, rest)
  | events => (.ready, events)

/-- `read` of at most `n` bytes, which waits as long as nothing arrives. -/
def recv (n : Nat) : List Event → Except Errno (List Byte) × List Event
  | [] => (.ok [], [])
  | .data b bs :: rest => (.ok ((b :: bs).take n), ready ((b :: bs).drop n) rest)
  | .readError e :: rest => (.error e, rest)
  | .timeout :: rest => recv n rest
  | .selectError _ :: rest => recv n rest

/-- The first `n` bytes that arrive, if they arrive before anything else happens, and the
events after them.
-/
def arrive : Nat → List Event → Option (List Byte × List Event)
  | n, .data b bs :: rest =>
      if n < bs.length + 1 then some ((b :: bs).take n, ready ((b :: bs).drop n) rest)
      else (arrive (n - (bs.length + 1)) rest).map fun r => (b :: bs ++ r.1, r.2)
  | 0, events => some ([], events)
  | _ + 1, _ => none

/-- The bytes that arrive before the end of file, a timeout or an error. -/
def delivered : List Event → List Byte
  | .data b bs :: rest => b :: bs ++ delivered rest
  | _ => []

/-- All the bytes that arrive. -/
def sent : List Event → List Byte
  | [] => []
  | .data b bs :: rest => b :: bs ++ sent rest
  | _ :: rest => sent rest

/-- What is delivered is the front of what was sent. -/
theorem delivered_front (events : List Event) : delivered events <+: sent events := by
  induction events with
  | nil => exact List.prefix_rfl
  | cons e rest ih =>
      cases e with
      | data b bs => exact List.prefix_append_right_inj (b :: bs) |>.mpr ih
      | timeout => exact List.nil_prefix
      | selectError e => exact List.nil_prefix
      | readError e => exact List.nil_prefix

def IOBUFSZ : Nat := 8192

/-- The numbers of a request header in the order of the host. -/
def PrintReq.toHost (r : PrintReq) : PrintReq :=
  { r with size := ntohl r.size, flags := ntohl r.flags }

/-- `strncmp(buf, "%!PS", 4) == 0`. -/
def isPostScript (buf : List Byte) : Bool := buf.take 4 = text "%!PS"

/-- A file that does not start as PostScript does is marked as text. `buf` is the first piece
of the file; the buffer holds `stale` behind it.
-/
def PrintReq.markText (r : PrintReq) (buf stale : List Byte) : PrintReq :=
  if isPostScript (buf ++ stale) then r else { r with flags := r.flags ||| PR_TEXT }

/-- The request header, if it arrives whole, and the events after it. -/
def Conn.header (conn : Conn) : Option (PrintReq × List Event) :=
  (arrive PRINTREQ_SZ conn.events).bind fun (bytes, rest) =>
    if h : bytes.length = PRINTREQ_SZ then some ((PrintReq.ofBytes bytes h).toHost, rest) else none

/-- The file that arrives after the header. -/
def Conn.body (conn : Conn) : List Byte := conn.header.elim [] fun (_, rest) => delivered rest

/-- The request that is queued: the header, marked as text or not after its first piece. -/
def Conn.request (conn : Conn) : Option PrintReq :=
  conn.header.map fun (req, rest) =>
    match rest with
    | .data b bs :: _ => req.markText ((b :: bs).take IOBUFSZ) conn.stale
    | _ => req

end Minions.Printer
