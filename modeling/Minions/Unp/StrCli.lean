import Minions.Data.Staging
import Minions.Logic.Events

/-! The nonblocking `str_cli` of `strclinonb.c`.
One buffer carries what is read from standard input to the socket, another what is read from
the socket to standard output. Each round asks `select` and then tries up to four calls, none
of which blocks.
-/

namespace Minions.Unp.StrCli

open Minions.Data Minions.Logic

def maxLine : Nat := 4096

/-- Where the loop is: before `Select`, or at one of the four `if`s. -/
inductive Loc
  | selecting
  | readStdin
  | readSocket
  | writeStdout
  | writeSocket
  | returned
  | quit
  deriving DecidableEq

/-- What a nonblocking `read` returns. No bytes are the end of the file. -/
inductive ReadResult
  | wouldBlock
  | error
  | bytes (values : List UInt8)

/-- What a nonblocking `write` returns. -/
inductive WriteResult
  | wouldBlock
  | error
  | wrote (n : Nat)

/-- The variables of `str_cli`, with the buffers `to` and `fr`, and what has happened so far. -/
structure Client where
  toBuf : Staging UInt8
  frBuf : Staging UInt8
  stdineof : Bool
  rsetStdin : Bool
  rsetSocket : Bool
  wsetStdout : Bool
  wsetSocket : Bool
  loc : Loc
  fromStdin : List UInt8
  toSocket : List UInt8
  fromSocket : List UInt8
  toStdout : List UInt8
  /-- How often `Shutdown` was called. -/
  shutdowns : Nat

/-- Before the loop. The buffers are not initialised. -/
def start (toBuf frBuf : Vector UInt8 maxLine) : Client where
  toBuf := { cells := toBuf.toList, iptr := 0, optr := 0 }
  frBuf := { cells := frBuf.toList, iptr := 0, optr := 0 }
  stdineof := false
  rsetStdin := false
  rsetSocket := false
  wsetStdout := false
  wsetSocket := false
  loc := .selecting
  fromStdin := []
  toSocket := []
  fromSocket := []
  toStdout := []
  shutdowns := 0

/-- The sets that `Select` is given. -/
def fdSets (s : Client) : Client :=
  { s with
    rsetStdin := !s.stdineof && s.toBuf.iptr < maxLine
    rsetSocket := s.frBuf.iptr < maxLine
    wsetSocket := s.toBuf.optr ≠ s.toBuf.iptr
    wsetStdout := s.frBuf.optr ≠ s.frBuf.iptr }

/-- `read` from standard input returns. -/
def readStdin (s : Client) (r : ReadResult) : Client :=
  match r with
  | .wouldBlock => { s with loc := .readSocket }
  | .error => { s with loc := .quit }
  | .bytes [] =>
      let s := { s with stdineof := true, loc := .readSocket }
      if s.toBuf.optr = s.toBuf.iptr then { s with shutdowns := s.shutdowns + 1 } else s
  | .bytes values =>
      { s with
        toBuf := s.toBuf.fill values
        fromStdin := s.fromStdin ++ values
        wsetSocket := true
        loc := .readSocket }

/-- `read` from the socket returns. -/
def readSocket (s : Client) (r : ReadResult) : Client :=
  match r with
  | .wouldBlock => { s with loc := .writeStdout }
  | .error => { s with loc := .quit }
  | .bytes [] => { s with loc := if s.stdineof then .returned else .quit }
  | .bytes values =>
      { s with
        frBuf := s.frBuf.fill values
        fromSocket := s.fromSocket ++ values
        wsetStdout := true
        loc := .writeStdout }

/-- `write` to standard output returns. -/
def writeStdout (s : Client) (r : WriteResult) : Client :=
  match r with
  | .wouldBlock => { s with loc := .writeSocket }
  | .error => { s with loc := .quit }
  | .wrote n =>
      { s with
        toStdout := s.toStdout ++ s.frBuf.pending.take n
        frBuf := s.frBuf.drain n
        loc := .writeSocket }

/-- `write` to the socket returns. -/
def writeSocket (s : Client) (r : WriteResult) : Client :=
  match r with
  | .wouldBlock => { s with loc := .selecting }
  | .error => { s with loc := .quit }
  | .wrote n =>
      let emptied := s.toBuf.optr + n = s.toBuf.iptr
      { s with
        toSocket := s.toSocket ++ s.toBuf.pending.take n
        toBuf := s.toBuf.drain n
        shutdowns := if emptied ∧ s.stdineof then s.shutdowns + 1 else s.shutdowns
        loc := .selecting }

inductive Event
  /-- `Select` leaves some of the descriptors in the sets. -/
  | select (stdin socketIn socketOut stdout : Bool)
  | read (r : ReadResult)
  | write (r : WriteResult)
  /-- The condition of the next `if` is false. -/
  | skip

/-- `read` returns no more than it was asked for. -/
def ReadResult.atMost : ReadResult → Nat → Bool
  | .bytes values, asked => values.length ≤ asked
  | _, _ => true

/-- `write` writes no more than it was given. -/
def WriteResult.atMost : WriteResult → Nat → Bool
  | .wrote n, given => n ≤ given
  | _, _ => true

def step (s : Client) : Event → Option Client
  | .select stdin socketIn socketOut stdout =>
      match s.loc with
      | .selecting =>
          let s := fdSets s
          some { s with
            rsetStdin := s.rsetStdin && stdin
            rsetSocket := s.rsetSocket && socketIn
            wsetSocket := s.wsetSocket && socketOut
            wsetStdout := s.wsetStdout && stdout
            loc := .readStdin }
      | _ => none
  | .read r =>
      match s.loc with
      | .readStdin =>
          if s.rsetStdin && r.atMost (maxLine - s.toBuf.iptr) then some (readStdin s r) else none
      | .readSocket =>
          if s.rsetSocket && r.atMost (maxLine - s.frBuf.iptr) then some (readSocket s r) else none
      | _ => none
  | .write r =>
      match s.loc with
      | .writeStdout =>
          if s.wsetStdout && s.frBuf.iptr - s.frBuf.optr > 0
              && r.atMost (s.frBuf.iptr - s.frBuf.optr) then
            some (writeStdout s r)
          else none
      | .writeSocket =>
          if s.wsetSocket && s.toBuf.iptr - s.toBuf.optr > 0
              && r.atMost (s.toBuf.iptr - s.toBuf.optr) then
            some (writeSocket s r)
          else none
      | _ => none
  | .skip =>
      match s.loc with
      | .readStdin => if s.rsetStdin then none else some { s with loc := .readSocket }
      | .readSocket => if s.rsetSocket then none else some { s with loc := .writeStdout }
      | .writeStdout =>
          if s.wsetStdout && s.frBuf.iptr - s.frBuf.optr > 0 then none
          else some { s with loc := .writeSocket }
      | .writeSocket =>
          if s.wsetSocket && s.toBuf.iptr - s.toBuf.optr > 0 then none
          else some { s with loc := .selecting }
      | _ => none

/-- A buffer between what was read into it and what was written from it. -/
structure Relays (b : Staging UInt8) (read written : List UInt8) : Prop where
  fits : b.Fits maxLine
  bytes : written ++ b.pending = read

/-- Both directions are relayed; a `read` asks for at least one byte; the socket is shut down
once, as soon as standard input has ended and all of it is written.
-/
structure Sound (s : Client) : Prop where
  toBuf : Relays s.toBuf s.fromStdin s.toSocket
  frBuf : Relays s.frBuf s.fromSocket s.toStdout
  asksStdin : s.loc = .readStdin → s.rsetStdin → 1 ≤ maxLine - s.toBuf.iptr
  opened : s.loc = .readStdin → s.rsetStdin → ¬ s.stdineof
  asksSocket : s.loc = .readStdin ∨ s.loc = .readSocket → s.rsetSocket → 1 ≤ maxLine - s.frBuf.iptr
  shutdown : s.shutdowns = if s.stdineof ∧ s.toSocket = s.fromStdin then 1 else 0

variable {s s' : Client} {event : Event} {b : Staging UInt8} {read written values : List UInt8}
  {n : Nat}

/-- A buffer that is filled relays more. -/
theorem Relays.fill (h : Relays b read written) (room : values.length ≤ maxLine - b.iptr)
    : Relays (b.fill values) (read ++ values) written := by
  refine ⟨h.fits.fill room, ?_⟩
  rw [h.fits.pending_fill, ← List.append_assoc, h.bytes]

/-- A buffer that is drained relays more. -/
theorem Relays.drain (h : Relays b read written) (few : n ≤ b.iptr - b.optr)
    : Relays (b.drain n) read (written ++ b.pending.take n) := by
  have count := h.fits.length_pending
  refine ⟨h.fits.drain (by omega), ?_⟩
  rw [List.append_assoc, ← h.fits.pending_drain n, h.bytes]

/-- All that was read is written exactly where nothing is pending. -/
theorem Relays.written_eq_iff (h : Relays b read written)
    : written = read ↔ b.optr = b.iptr := by
  rw [← h.fits.pending_eq_nil_iff, ← h.bytes]
  simp

-----------------------------------------------------------------------------------------
-- Steps
-----------------------------------------------------------------------------------------

/-- `select` keeps soundness. -/
theorem Sound.select (sound : Sound s) (stdin socketIn socketOut stdout : Bool)
    : Sound { fdSets s with
        rsetStdin := (fdSets s).rsetStdin && stdin
        rsetSocket := (fdSets s).rsetSocket && socketIn
        wsetSocket := (fdSets s).wsetSocket && socketOut
        wsetStdout := (fdSets s).wsetStdout && stdout
        loc := .readStdin } := by
  constructor
  case toBuf => exact sound.toBuf
  case frBuf => exact sound.frBuf
  case asksStdin =>
    intro _ isSet
    simp only [fdSets, Bool.and_eq_true, decide_eq_true_eq] at isSet ⊢
    omega
  case opened =>
    intro _ isSet
    simp only [fdSets, Bool.and_eq_true] at isSet
    simpa [fdSets] using isSet.1.1
  case asksSocket =>
    intro _ isSet
    simp only [fdSets, Bool.and_eq_true, decide_eq_true_eq] at isSet ⊢
    omega
  case shutdown => exact sound.shutdown

/-- Standard input ends once, and is shut down at once where all of it is written. -/
theorem Sound.readStdin (sound : Sound s) (here : s.loc = .readStdin) (isSet : s.rsetStdin)
    {r : ReadResult} (atMost : r.atMost (maxLine - s.toBuf.iptr))
    : Sound (readStdin s r) := by
  have opened := sound.opened here isSet
  have asks := sound.asksSocket (.inl here)
  have shutdown := sound.shutdown
  rw [if_neg (by simp [opened])] at shutdown
  unfold StrCli.readStdin
  split
  · exact ⟨sound.toBuf, sound.frBuf, by simp, by simp, fun _ => asks, sound.shutdown⟩
  · exact ⟨sound.toBuf, sound.frBuf, by simp, by simp, by simp, sound.shutdown⟩
  · dsimp only
    split
    · next met =>
        refine ⟨sound.toBuf, sound.frBuf, by simp, by simp, fun _ => asks, ?_⟩
        simp [sound.toBuf.written_eq_iff.mpr met, shutdown]
    · next apart =>
        refine ⟨sound.toBuf, sound.frBuf, by simp, by simp, fun _ => asks, ?_⟩
        simp [sound.toBuf.written_eq_iff, apart, shutdown]
  · next values notEmpty =>
      have room : values.length ≤ maxLine - s.toBuf.iptr := by
        simpa [ReadResult.atMost] using atMost
      exact ⟨sound.toBuf.fill room, sound.frBuf, by simp, by simp, fun _ => asks,
        by simpa [opened] using shutdown⟩

/-- A read from the socket keeps soundness. -/
theorem Sound.readSocket (sound : Sound s) {r : ReadResult}
    (atMost : r.atMost (maxLine - s.frBuf.iptr))
    : Sound (readSocket s r) := by
  unfold StrCli.readSocket
  split
  · exact ⟨sound.toBuf, sound.frBuf, by simp, by simp, by simp, sound.shutdown⟩
  · exact ⟨sound.toBuf, sound.frBuf, by simp, by simp, by simp, sound.shutdown⟩
  · cases ended : s.stdineof <;>
      exact ⟨sound.toBuf, sound.frBuf, by simp, by simp, by simp, ended ▸ sound.shutdown⟩
  · next values _ =>
      have room : values.length ≤ maxLine - s.frBuf.iptr := by
        simpa [ReadResult.atMost] using atMost
      exact ⟨sound.toBuf, sound.frBuf.fill room, by simp, by simp, by simp, sound.shutdown⟩

/-- A write to the output keeps soundness. -/
theorem Sound.writeStdout (sound : Sound s) {r : WriteResult}
    (atMost : r.atMost (s.frBuf.iptr - s.frBuf.optr))
    : Sound (writeStdout s r) := by
  unfold StrCli.writeStdout
  split
  · exact ⟨sound.toBuf, sound.frBuf, by simp, by simp, by simp, sound.shutdown⟩
  · exact ⟨sound.toBuf, sound.frBuf, by simp, by simp, by simp, sound.shutdown⟩
  · next n =>
      have few : n ≤ s.frBuf.iptr - s.frBuf.optr := by
        simpa [WriteResult.atMost] using atMost
      exact ⟨sound.toBuf, sound.frBuf.drain few, by simp, by simp, by simp, sound.shutdown⟩

/-- The write that empties the buffer after the end of standard input shuts down the socket. -/
theorem Sound.writeSocket (sound : Sound s) (some_ : s.toBuf.iptr - s.toBuf.optr > 0)
    {r : WriteResult} (atMost : r.atMost (s.toBuf.iptr - s.toBuf.optr))
    : Sound (writeSocket s r) := by
  unfold StrCli.writeSocket
  split
  · exact ⟨sound.toBuf, sound.frBuf, by simp, by simp, by simp, sound.shutdown⟩
  · exact ⟨sound.toBuf, sound.frBuf, by simp, by simp, by simp, sound.shutdown⟩
  · next n =>
      have few : n ≤ s.toBuf.iptr - s.toBuf.optr := by
        simpa [WriteResult.atMost] using atMost
      have drained := sound.toBuf.drain few
      have before : ¬ s.toSocket = s.fromStdin := by
        rw [sound.toBuf.written_eq_iff]
        omega
      have shutdown := sound.shutdown
      rw [if_neg (by simp [before])] at shutdown
      refine ⟨drained, sound.frBuf, by simp, by simp, by simp, ?_⟩
      have emptied : (s.toBuf.drain n).optr = (s.toBuf.drain n).iptr
          ↔ s.toBuf.optr + n = s.toBuf.iptr := by
        unfold Staging.drain
        dsimp only
        split
        · next met => simp [met]
        · exact Iff.rfl
      simp only [drained.written_eq_iff, emptied, shutdown, and_comm]

/-- Every event keeps soundness. -/
theorem step_sound (h : step s event = some s') (sound : Sound s)
    : Sound s' := by
  cases event with
  | select stdin socketIn socketOut stdout =>
      simp only [step] at h
      split at h <;> cases h
      exact sound.select stdin socketIn socketOut stdout
  | read r =>
      simp only [step] at h
      split at h
      · next here =>
          split at h <;> cases h
          next enabled =>
            simp only [Bool.and_eq_true] at enabled
            exact sound.readStdin here enabled.1 enabled.2
      · next here =>
          split at h <;> cases h
          next enabled =>
            simp only [Bool.and_eq_true] at enabled
            exact sound.readSocket enabled.2
      · cases h
  | write r =>
      simp only [step] at h
      split at h
      · split at h <;> cases h
        next enabled =>
          simp only [Bool.and_eq_true] at enabled
          exact sound.writeStdout enabled.2
      · split at h <;> cases h
        next enabled =>
          simp only [Bool.and_eq_true, decide_eq_true_eq] at enabled
          exact sound.writeSocket enabled.1.2 enabled.2
      · cases h
  | skip =>
      simp only [step] at h
      split at h
      · next here =>
          split at h <;> cases h
          exact ⟨sound.toBuf, sound.frBuf, by simp, by simp,
            fun _ => sound.asksSocket (.inl here), sound.shutdown⟩
      · split at h <;> cases h
        exact ⟨sound.toBuf, sound.frBuf, by simp, by simp, by simp, sound.shutdown⟩
      · split at h <;> cases h
        exact ⟨sound.toBuf, sound.frBuf, by simp, by simp, by simp, sound.shutdown⟩
      · split at h <;> cases h
        exact ⟨sound.toBuf, sound.frBuf, by simp, by simp, by simp, sound.shutdown⟩
      · cases h

/-- The client is sound at the start. -/
theorem start_sound (toBuf frBuf : Vector UInt8 maxLine)
    : Sound (start toBuf frBuf) := by
  have empty : ∀ cells : Vector UInt8 maxLine, Relays ⟨cells.toList, 0, 0⟩ [] [] :=
    fun cells => ⟨⟨by simp, Nat.le_refl 0, Nat.zero_le _⟩, by simp [Staging.pending]⟩
  exact ⟨empty toBuf, empty frBuf, by simp [start], by simp [start], by simp [start],
    by simp [start]⟩

/-- At every point of every run the two buffers relay what was read, in order and without
loss, every `read` asks for at least one byte, and the socket is shut down once, in the step in
which standard input has ended and all of it is written. Witness: induction over the run.
-/
theorem reachable_relay_sound {toBuf frBuf : Vector UInt8 maxLine}
    (h : Reachable step (start toBuf frBuf) s)
    : Sound s :=
  h.invariant (start_sound toBuf frBuf) step_sound

/-- Standard input ends while its last byte is pending. -/
def endsWithPending : List Event :=
  [.select true false false false, .read (.bytes [1, 2, 3]), .skip, .skip, .write (.wrote 2),
    .select true false true false, .read (.bytes []), .skip, .skip, .write .wouldBlock,
    .select false false true false, .skip, .skip, .skip, .write (.wrote 1)]

/-- A run whose input ends while bytes are pending. -/
theorem reachable_relay_sound_endsWithPending
    : ∃ s, runEvents step (start (.replicate maxLine 0) (.replicate maxLine 0)) endsWithPending
        = some s
      ∧ s.toBuf.optr = 0 ∧ s.shutdowns = 1 ∧ s.toSocket = [1, 2, 3] ∧ Sound s := by
  have happens : (runEvents step (start (.replicate maxLine 0) (.replicate maxLine 0))
      endsWithPending).isSome := by
    decide
  exact ⟨_, (Option.some_get happens).symm, rfl, rfl, rfl,
    reachable_relay_sound (.of_isSome happens)⟩

-----------------------------------------------------------------------------------------
-- The normal end
-----------------------------------------------------------------------------------------

/-- Where the end of the socket follows the end of standard input, nothing that was read from the
socket is pending.
-/
def DrainedAtEof (s : Client) : Event → Prop
  | .read (.bytes []) => s.loc = .readSocket → s.stdineof → s.frBuf.optr = s.frBuf.iptr
  | _ => True

/-- Only the end of the socket after that of standard input returns, and it writes nothing. -/
theorem step_returned (h : step s event = some s') (returned : s'.loc = .returned)
    : s.loc = .readSocket ∧ s.stdineof ∧ event = .read (.bytes [])
      ∧ s'.toStdout = s.toStdout ∧ s'.fromSocket = s.fromSocket := by
  cases event with
  | select stdin socketIn socketOut stdout =>
      simp only [step] at h
      split at h <;> cases h
      cases returned
  | read r =>
      simp only [step] at h
      split at h
      · split at h <;> cases h
        unfold readStdin at returned
        split at returned
        · cases returned
        · cases returned
        · dsimp only at returned
          split at returned <;> cases returned
        · cases returned
      · next here =>
          split at h <;> cases h
          unfold readSocket at returned ⊢
          split at returned
          · cases returned
          · cases returned
          · cases ended : s.stdineof with
            | false => simp [ended] at returned
            | true => exact ⟨here, rfl, rfl, rfl, rfl⟩
          · cases returned
      · cases h
  | write r =>
      simp only [step] at h
      split at h
      · split at h <;> cases h
        unfold writeStdout at returned
        split at returned <;> cases returned
      · split at h <;> cases h
        unfold writeSocket at returned
        split at returned <;> cases returned
      · cases h
  | skip =>
      simp only [step] at h
      split at h
      · split at h <;> cases h
        cases returned
      · split at h <;> cases h
        cases returned
      · split at h <;> cases h
        cases returned
      · split at h <;> cases h
        cases returned
      · cases h

/-- A client that has returned does not step. -/
theorem step_of_returned (returned : s.loc = .returned) : step s event = none := by
  cases event <;> simp [step, returned]

/-- A run that returns has written all that it has read from the socket exactly where the last
step meets the condition, by induction on the run.
-/
private theorem runEvents_returned_iff {events : List Event}
    (h : runEvents step s events = some s') (sound : Sound s) (going : s.loc ≠ .returned)
    (returned : s'.loc = .returned)
    : s'.toStdout = s'.fromSocket ↔ EveryStep step DrainedAtEof s events := by
  induction events generalizing s with
  | nil =>
      cases h
      exact absurd returned going
  | cons event rest ih =>
      obtain ⟨middle, hstep, hrest⟩ := runEvents_cons h
      have later : EveryStep step DrainedAtEof s (event :: rest)
          ↔ DrainedAtEof s event ∧ EveryStep step DrainedAtEof middle rest := by
        simp [EveryStep, hstep]
      rw [later]
      by_cases ends : middle.loc = .returned
      · obtain ⟨here, ended, rfl, toStdout, fromSocket⟩ := step_returned hstep ends
        obtain ⟨rfl, rfl⟩ : rest = [] ∧ s' = middle := by
          cases rest with
          | nil =>
              cases hrest
              exact ⟨rfl, rfl⟩
          | cons event' rest' =>
              obtain ⟨_, hstep', -⟩ := runEvents_cons hrest
              rw [step_of_returned ends] at hstep'
              cases hstep'
        rw [toStdout, fromSocket, sound.frBuf.written_eq_iff]
        simp [DrainedAtEof, EveryStep, here, ended]
      · have met : DrainedAtEof s event := by
          unfold DrainedAtEof
          split
          · intro here ended
            simp only [step, here] at hstep
            split at hstep <;> cases hstep
            simp [readSocket, ended] at ends
          · trivial
        rw [ih hrest (step_sound hstep sound) ends]
        exact (and_iff_right met).symm

/-- A run in which `str_cli` returns has written to standard output all that it has read from the
socket exactly where nothing was pending when the socket ended.
-/
theorem returned_prints_iff {toBuf frBuf : Vector UInt8 maxLine} {events : List Event}
    (h : runEvents step (start toBuf frBuf) events = some s) (returned : s.loc = .returned)
    : s.toStdout = s.fromSocket ↔ EveryStep step DrainedAtEof (start toBuf frBuf) events :=
  runEvents_returned_iff h (start_sound toBuf frBuf) (by simp [start]) returned

/-- Standard input ends, two bytes come from the socket, and standard output takes `taken` of them
before the socket ends.
-/
def slowOutput (taken : Nat) : List Event :=
  [.select true false false false, .read (.bytes []), .skip, .skip, .skip,
    .select false true false false, .skip, .read (.bytes [7, 8]), .write (.wrote taken), .skip,
    .select false true false false, .skip, .read (.bytes [])]

/-- A run with a slow output. -/
theorem returned_prints_iff_slowOutput
    : ∃ s, runEvents step (start (.replicate maxLine 0) (.replicate maxLine 0)) (slowOutput 2)
        = some s
      ∧ s.loc = .returned
      ∧ (s.toStdout = s.fromSocket ↔ EveryStep step DrainedAtEof
        (start (.replicate maxLine 0) (.replicate maxLine 0)) (slowOutput 2)) := by
  have happens : (runEvents step (start (.replicate maxLine 0) (.replicate maxLine 0))
      (slowOutput 2)).isSome := by
    decide
  exact ⟨_, (Option.some_get happens).symm, rfl,
    returned_prints_iff (Option.some_get happens).symm rfl⟩

/-- The byte that standard output has not taken is lost. -/
theorem returned_loses_pending
    : ¬ ∀ toBuf frBuf events s,
        runEvents step (start toBuf frBuf) events = some s → s.loc = .returned →
          s.toStdout = s.fromSocket := by
  intro always
  have happens : (runEvents step (start (.replicate maxLine 0) (.replicate maxLine 0))
      (slowOutput 1)).isSome := by
    decide
  have lost : ([7] : List UInt8) = [7, 8] := always _ _ _ _ (Option.some_get happens).symm rfl
  exact absurd lost (by decide)

end Minions.Unp.StrCli
