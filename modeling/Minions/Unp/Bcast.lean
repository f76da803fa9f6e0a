import Minions.Logic.Events

/-! The broadcast clients `bcast/dgclibcast1.c` to `dgclibcast6.c`. After each line that it
sends, `dg_cli` prints replies until `SIGALRM` ends the wait. The versions differ in how the
signal gets them out of the loop. Replies arrive, the alarm expires and the handler runs
between any two steps of the client. Other calls do not fail.
-/

namespace Minions.Unp.Bcast

open Minions.Logic

variable {α : Type}

-----------------------------------------------------------------------------------------
-- The client
-----------------------------------------------------------------------------------------

/-- Where `dg_cli` is. The last Boolean of a location says whether `select` has reported the
pipe.
-/
inductive Loc (α : Type) where
  /-- Before `Fgets`. -/
  | idle
  /-- After `Sendto`. -/
  | sent
  /-- After `Sigprocmask(SIG_BLOCK)`, before `alarm`. -/
  | blocked
  /-- At the top of the loop. -/
  | top
  /-- In the loop, before the call that waits. -/
  | entered
  /-- In the call that waits. -/
  | waiting
  /-- After `EINTR`, before `Sigprocmask(SIG_BLOCK)`. -/
  | interrupted
  /-- With a reply, before `Sigprocmask(SIG_BLOCK)`. -/
  | returned (reply : α)
  /-- After `select` or `pselect`, which has reported the socket or not. -/
  | selected (sock pipe : Bool)
  /-- With a reply to print. -/
  | received (reply : α) (pipe : Bool)
  /-- Before the test of the pipe. -/
  | checking (pipe : Bool)
  /-- After `siglongjmp` without a `sigsetjmp`. -/
  | undefined

def Loc.isWaiting : Loc α → Bool
  | .waiting => true
  | _ => false

def Loc.isInterrupted : Loc α → Bool
  | .interrupted => true
  | _ => false

/-- The client with its socket and its pipe, and what has happened to the replies. -/
structure Client (α : Type) where
  loc : Loc α := .idle
  /-- The alarm is set and has not expired. -/
  alarmed : Bool := false
  /-- `SIGALRM` is generated and not delivered. -/
  pending : Bool := false
  /-- `SIGALRM` is blocked. -/
  mask : Bool := false
  /-- `sigsetjmp` has set `jmpbuf`. -/
  jmpbuf : Bool := false
  /-- The number of bytes in the pipe. -/
  pipe : Nat := 0
  socket : List α := []
  printed : List α := []
  /-- All replies that have arrived at the socket. -/
  arrived : List α := []
  /-- The replies that were received and not printed. -/
  dropped : List α := []
  /-- How often the loop was left. -/
  left : Nat := 0

namespace Client

/-- The reply that the client has received and not printed. -/
def hand (s : Client α) : List α :=
  match s.loc with
  | .returned reply | .received reply _ => [reply]
  | _ => []

/-- `break` out of the loop. -/
def leave (s : Client α) : Client α := { s with loc := .idle, left := s.left + 1 }

/-- `recvfrom` takes the first reply, or goes on waiting. -/
def recvfrom (s : Client α) (next : α → Loc α) : Option (Client α) :=
  match s.socket with
  | [] => none
  | reply :: rest => some { s with loc := next reply, socket := rest }

def print (s : Client α) (reply : α) (next : Loc α) : Client α :=
  { s with loc := next, printed := s.printed ++ [reply] }

/-- `alarm`. -/
def alarm (s : Client α) : Client α := { s with loc := .top, alarmed := true }

end Client

-----------------------------------------------------------------------------------------
-- The versions
-----------------------------------------------------------------------------------------

/-- The reply loop of `dgclibcast2.c` is that of `dgclibcast1.c` with a `sleep` after each
reply.
-/
inductive Version where
  | dgclibcast1
  | dgclibcast3
  | dgclibcast4
  | dgclibcast5
  | dgclibcast6
deriving DecidableEq

/-- `dgclibcast1.c`: `recvfrom`. -/
def step1 (s : Client α) : Option (Client α) :=
  match s.loc with
  | .sent => some s.alarm
  | .top => some { s with loc := .waiting }
  | .waiting => s.recvfrom fun reply => .received reply false
  | .received reply _ => some (s.print reply .top)
  | _ => none

/-- `dgclibcast3.c`: `recvfrom` with the signal unblocked. A pending signal is delivered before
`Sigprocmask` returns.
-/
def step3 (s : Client α) : Option (Client α) :=
  match s.loc with
  | .sent => some s.alarm
  | .top => some { s with loc := .entered, mask := false, pending := false }
  | .entered => some { s with loc := .waiting }
  | .waiting => s.recvfrom .returned
  | .returned reply => some { s with loc := .received reply false, mask := true }
  | .interrupted => some { s with mask := true }.leave
  | .received reply _ => some (s.print reply .top)
  | _ => none

/-- `dgclibcast4.c`: `pselect` with an empty mask. -/
def step4 (s : Client α) : Option (Client α) :=
  match s.loc with
  | .sent => some { s with loc := .blocked, mask := true }
  | .blocked => some s.alarm
  | .top => some { s with loc := .waiting }
  | .waiting => if s.socket.isEmpty then none else some { s with loc := .selected true false }
  | .selected _ _ => s.recvfrom fun reply => .received reply false
  | .received reply _ => some (s.print reply .top)
  | _ => none

/-- `dgclibcast5.c`: `sigsetjmp` before each `Recvfrom`. -/
def step5 (s : Client α) : Option (Client α) :=
  match s.loc with
  | .sent => some s.alarm
  | .top => some { s with loc := .entered, jmpbuf := true }
  | .entered => some { s with loc := .waiting }
  | .waiting => s.recvfrom fun reply => .received reply false
  | .received reply _ => some (s.print reply .top)
  | _ => none

/-- `dgclibcast6.c`: `select` on the socket and the pipe. -/
def step6 (s : Client α) : Option (Client α) :=
  match s.loc with
  | .sent => some s.alarm
  | .top => some { s with loc := .waiting }
  | .waiting =>
      if s.socket.isEmpty && s.pipe = 0 then none
      else some { s with loc := .selected (!s.socket.isEmpty) (s.pipe ≠ 0) }
  | .selected sock pipe =>
      if sock then s.recvfrom fun reply => .received reply pipe
      else some { s with loc := .checking pipe }
  | .received reply pipe => some (s.print reply (.checking pipe))
  | .checking pipe =>
      if pipe then some { s with pipe := s.pipe - 1 }.leave else some { s with loc := .top }
  | _ => none

/-- The next step of the client. -/
def Version.step : Version → Client α → Option (Client α)
  | dgclibcast1 => step1
  | dgclibcast3 => step3
  | dgclibcast4 => step4
  | dgclibcast5 => step5
  | dgclibcast6 => step6

/-- A pending signal can be delivered: it is not blocked, or `pselect` has unblocked it. -/
def Version.deliverable (v : Version) (s : Client α) : Bool :=
  !s.mask || (v = dgclibcast4 && s.loc.isWaiting)

/-- Where `siglongjmp` goes; a reply that has not been printed is given up. -/
def jump (s : Client α) : Client α :=
  if s.jmpbuf then { s with dropped := s.dropped ++ s.hand }.leave
  else { s with loc := .undefined }

/-- `recvfrom_alarm`, and that a call that waits is interrupted by it. -/
def Version.recvfromAlarm (v : Version) (s : Client α) : Client α :=
  match v with
  | dgclibcast1 | dgclibcast4 => if s.loc.isWaiting then s.leave else s
  | dgclibcast3 => if s.loc.isWaiting then { s with loc := .interrupted } else s
  | dgclibcast5 => jump s
  | dgclibcast6 =>
      if s.loc.isWaiting then { s with pipe := s.pipe + 1, loc := .top }
      else { s with pipe := s.pipe + 1 }

/-- What can happen next: a line is sent, the client makes a step, a reply arrives, the alarm
expires, or the signal is delivered.
-/
inductive Event (α : Type) where
  | line
  | step
  | arrive (reply : α)
  | expire
  | deliver

def Version.next (v : Version) (s : Client α) : Event α → Option (Client α)
  | .line => match s.loc with
      | .idle => some { s with loc := .sent }
      | _ => none
  | .step => v.step s
  | .arrive reply =>
      some { s with socket := s.socket ++ [reply], arrived := s.arrived ++ [reply] }
  | .expire => if s.alarmed then some { s with alarmed := false, pending := true } else none
  | .deliver =>
      if s.pending && v.deliverable s then some (v.recvfromAlarm { s with pending := false })
      else none

/-- The client itself goes on, by a step or by its handler. -/
def Event.own : Event α → Bool
  | .step => true
  | .deliver => true
  | _ => false

def Event.isArrival : Event α → Bool
  | .arrive _ => true
  | _ => false

/-- The states that a client comes to. -/
def Version.Comes (v : Version) (s : Client α) : Prop := Reachable v.next {} s

/-- A signal that is delivered was pending, and its handler ran. -/
theorem deliver_next {v : Version} {s s' : Client α} (next : v.next s .deliver = some s')
    : s.pending ∧ v.deliverable s ∧ s' = v.recvfromAlarm { s with pending := false } := by
  simp only [Version.next, Option.ite_none_right_eq_some, Bool.and_eq_true] at next
  obtain ⟨⟨signal, can⟩, same⟩ := next
  cases same
  exact ⟨signal, can, rfl⟩

end Minions.Unp.Bcast
