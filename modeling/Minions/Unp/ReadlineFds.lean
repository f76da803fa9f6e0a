import Minions.Logic.Events
import Minions.Unp.ReadlineCalls

/-! One thread that calls `readline` of `threads/readline.c` on several descriptors.
The buffer belongs to the thread and not to the descriptor, so that what one call has read ahead
is there for the next one, whatever that one reads.
-/

namespace Minions.Unp.Readline

open Minions.Data
open Minions.Logic

/-- The descriptors, and what each open file still has for its readers. -/
structure World where
  fds : Nat → Option Nat
  files : Nat → List (Delivery Byte)

/-- `read(fd, rl_buf, MAXLINE)`, made again until it is not interrupted. -/
def readFd (fd : Nat) (w : World) : Option (Got Byte MAXLINE × World) :=
  match w.fds fd with
  | none => some (.error, w)
  | some file =>
      (readAgain MAXLINE (w.files file)).map fun found =>
        (found.1, { w with files := Function.update w.files file found.2 })

/-- A thread, and what its calls have returned so far. -/
structure Thread where
  tsd : Option Rline
  world : World
  /-- the open file that the last call that took bytes was made on -/
  origin : Option Nat
  /-- what the calls on open files have returned, in order -/
  returned : List (Nat × Answer)

/-- What the thread can do next. -/
inductive Event where
  | readline (fd maxlen : Nat)
  /-- a descriptor that is not in use comes to refer to an open file -/
  | opens (fd file : Nat)
  | closes (fd : Nat)

/-- A call that does not return has no next state. -/
def step (s : Thread) : Event → Option Thread
  | .readline fd maxlen =>
      match readline (readFd fd) maxlen (s.tsd, s.world) with
      | some (.returned a, (tsd, world)) =>
          some
            { tsd := tsd
              world := world
              origin := if 1 < maxlen then s.world.fds fd else s.origin
              returned := s.returned ++ ((s.world.fds fd).map (·, a)).toList }
      | _ => none
  | .opens fd file =>
      if s.world.fds fd = none then
        some { s with world := { s.world with fds := Function.update s.world.fds fd (some file) } }
      else none
  | .closes fd =>
      some { s with world := { s.world with fds := Function.update s.world.fds fd none } }

/-- A thread that has not called `readline`. -/
def start (fds : Nat → Option Nat) (files : Nat → List (Delivery Byte)) : Thread :=
  ⟨none, ⟨fds, files⟩, none, []⟩

/-- The buffer of the thread. -/
def Thread.rline (s : Thread) : Rline := s.tsd.getD Rline.init

/-- A call finds in the buffer only what was read from the open file that it is made on. -/
def OwnBuffer (s : Thread) : Event → Prop
  | .readline fd maxlen =>
      1 < maxlen → 0 < s.rline.rl_cnt → ∃ file, s.world.fds fd = some file ∧ s.origin = some file
  | _ => True

/-- What an open file still brings to the calls on it: what was read ahead of it, and what is still
to be read.
-/
def Thread.stream (A : Nat) (s : Thread) : List (Item Byte) :=
  (if s.origin = some A then s.rline.pending.map .byte else []) ++ items (s.world.files A)

/-- What the calls on an open file have returned. -/
def Thread.answersOn (A : Nat) (s : Thread) : List Answer :=
  (s.returned.filter (·.1 = A)).map Prod.snd

/-- The bytes that the calls on an open file have stored. -/
def Thread.bytesOn (A : Nat) (s : Thread) : List Byte := (s.answersOn A).flatMap Answer.stored

section Calls

variable {A fd maxlen : Nat} {s s' : Thread} {w : World}

/-- A world in which only the one open file has been read. -/
def OnlyRead (w : World) (A : Nat) (w' : World) : Prop :=
  w'.fds = w.fds ∧ ∀ B, B ≠ A → w'.files B = w.files B

/-- Reading a descriptor brings what its open file has, and leaves the others. -/
theorem conveys_readFd (file : w.fds fd = some A)
    : Conveys (OnlyRead w A) (readFd fd) (fun w => items (w.files A)) where
  blocked w' only h := by
    rw [readFd, only.1, file] at h
    exact items_of_readAgain_none (Option.map_eq_none_iff.mp h)
  brings w' got w'' only h := by
    rw [readFd, only.1, file] at h
    obtain ⟨⟨got', rest⟩, run, eq⟩ := Option.map_eq_some_iff.mp h
    cases eq
    refine ⟨?_, rfl, fun B other => (Function.update_of_ne other _ _).trans (only.2 B other)⟩
    simp only [items_of_readAgain (by decide) run, Function.update_self]

/-- A call on an open file, with nothing else in the buffer, is the call on what the file brings,
and leaves the other files.
-/
theorem readline_eq_callOf (file : s.world.fds fd = some A)
    (own : s.stream A = bufferedItems (fun w => items (w.files A)) (s.rline, s.world))
    {outcome : Outcome} {tsd : Option Rline} {world : World}
    (run : readline (readFd fd) maxlen (s.tsd, s.world) = some (outcome, (tsd, world)))
    : callOf SIZE_MAX (fun n => ssizeT n) maxlen (s.stream A)
        = some (outcome, bufferedItems (fun w => items (w.files A)) (tsd.getD Rline.init, world))
      ∧ OnlyRead s.world A world := by
  have reads := reads_myRead (conveys_readFd file)
  have only : OnlyRead s.world A s.world := ⟨rfl, fun _ _ => rfl⟩
  obtain ⟨l, loop_eq, eq⟩ := Option.map_eq_some_iff.mp run
  have called := map_exits (s := (s.rline, s.world)) reads (show 1 ≤ SIZE_MAX by decide) only
    maxlen (fun n => ssizeT n)
  have loop_eq : loop (myRead (readFd fd)) SIZE_MAX maxlen 1 [] (s.rline, s.world)
      = some l := loop_eq
  rw [loop_eq, ← own] at called
  cases eq
  refine ⟨?_, ?_⟩
  · rw [← called]
    simp [Prod.map]
  · obtain ⟨blocked, goes⟩ := loop_spec SIZE_MAX maxlen (n := 1) reads (by decide) []
      (s := (s.rline, s.world)) only
    cases found : lineOf newline (room SIZE_MAX maxlen 1)
        (bufferedItems (fun w => items (w.files A)) (s.rline, s.world)) with
    | none =>
        rw [blocked found] at loop_eq
        cases loop_eq
    | some line =>
        obtain ⟨s'', run', -, after⟩ := goes line.1 line.2.1 line.2.2 found
        rw [loop_eq] at run'
        cases run'
        exact after

/-- A call that has no room for a byte takes none. -/
theorem readline_small {κ : Type} {read : κ → Option (Got Byte MAXLINE × κ)} (small : ¬ 1 < maxlen)
    (tsd : Option Rline) (k : κ)
    : readline read maxlen (tsd, k)
      = some (.returned ⟨ssizeT 1, [], true⟩, (some (tsd.getD Rline.init), k)) := by
  rw [readline, loop, if_neg small]
  rfl

/-- A call with no room for a byte. -/
theorem callOf_small (small : ¬ 1 < maxlen) (stream : List (Item Byte))
    : callOf SIZE_MAX (fun n => ssizeT n) maxlen stream
      = some (.returned ⟨ssizeT 1, [], true⟩, stream) := by
  rw [callOf, loop, if_neg small]
  rfl

/-- A call on a descriptor that is not open finds nothing in the buffer and fails. -/
theorem readline_closed (closed : s.world.fds fd = none) (some_room : 1 < maxlen)
    (nothing : ¬ 0 < s.rline.rl_cnt)
    : readline (readFd fd) maxlen (s.tsd, s.world)
      = some (.returned ⟨-1, [], false⟩, (some (s.rline.fail (-1) (by omega)), s.world)) := by
  have next : myRead (readFd fd) (s.rline, s.world)
      = some (.error, (s.rline.fail (-1) (by omega), s.world)) := by
    rw [myRead, dif_neg nothing]
    simp only [readFd, closed]
  have run : loop (myRead (readFd fd)) SIZE_MAX maxlen 1 [] (s.rline, s.world)
      = some ⟨.ends .error, 1, [], (s.rline.fail (-1) (by omega), s.world)⟩ := by
    rw [loop, if_pos some_room, next]
  exact congrArg (Option.map _) run

/-- What a call on a descriptor does to the open files it is not made on: nothing. -/
theorem stream_of_other {B : Nat} (own : OwnBuffer s (.readline fd maxlen)) (some_room : 1 < maxlen)
    (other : s.world.fds fd ≠ some B)
    : s.stream B = items (s.world.files B) := by
  unfold Thread.stream
  split
  next origin =>
    have nothing : ¬ 0 < s.rline.rl_cnt := by
      intro some_
      obtain ⟨file, refers, from_⟩ := own some_room some_
      rw [from_] at origin
      exact other (refers.trans origin)
    rw [pending_of_nonpos nothing]
    rfl
  next => rfl

/-- What a call on an open file finds in the buffer comes from the file. -/
theorem stream_of_own (own : OwnBuffer s (.readline fd maxlen)) (some_room : 1 < maxlen)
    (file : s.world.fds fd = some A)
    : s.stream A = bufferedItems (fun w => items (w.files A)) (s.rline, s.world) := by
  unfold Thread.stream bufferedItems
  by_cases some_ : 0 < s.rline.rl_cnt
  · obtain ⟨file', refers, from_⟩ := own some_room some_
    rw [if_pos (by rw [from_, ← refers, file])]
  · rw [pending_of_nonpos some_]
    split <;> rfl

/-- A call reads at most the open file that its descriptor refers to. -/
theorem readline_world {outcome : Outcome} {tsd : Option Rline} {world : World}
    (own : OwnBuffer s (.readline fd maxlen))
    (run : readline (readFd fd) maxlen (s.tsd, s.world) = some (outcome, (tsd, world)))
    : world.fds = s.world.fds
      ∧ ∀ A, s.world.fds fd ≠ some A → world.files A = s.world.files A := by
  by_cases some_room : 1 < maxlen
  · cases refers : s.world.fds fd with
    | none =>
        have nothing : ¬ 0 < s.rline.rl_cnt := by
          intro some_
          obtain ⟨_, refers', -⟩ := own some_room some_
          rw [refers] at refers'
          cases refers'
        rw [readline_closed refers some_room nothing] at run
        cases run
        exact ⟨rfl, fun _ _ => rfl⟩
    | some B =>
        obtain ⟨-, fds, files⟩ := readline_eq_callOf refers (stream_of_own own some_room refers) run
        exact ⟨fds, fun A other => files A fun same => other (congrArg some same.symm)⟩
  · rw [readline_small some_room] at run
    cases run
    exact ⟨rfl, fun _ _ => rfl⟩

/-- An answer is noted for the open file that the call was made on. -/
theorem answers_snoc {file : Option Nat} {a : Answer} (other : file ≠ some A)
    : ((s.returned ++ (file.map (·, a)).toList).filter (·.1 = A)).map Prod.snd
      = s.answersOn A := by
  rw [List.filter_append, List.map_append, Thread.answersOn]
  cases file with
  | none => simp
  | some B =>
      have different : B ≠ A := fun same => other (congrArg some same)
      simp [different]

/-- A step is a call on the open file, or it leaves what the file brings and has brought. -/
theorem step_stream {event : Event} (h : step s event = some s') (own : OwnBuffer s event) (A : Nat)
    : (∃ fd maxlen a, event = .readline fd maxlen ∧ s.world.fds fd = some A
        ∧ callOf SIZE_MAX (fun n => ssizeT n) maxlen (s.stream A) = some (.returned a, s'.stream A)
        ∧ s'.answersOn A = s.answersOn A ++ [a])
      ∨ (∀ fd maxlen, event = .readline fd maxlen → s.world.fds fd ≠ some A)
        ∧ s'.stream A = s.stream A ∧ s'.answersOn A = s.answersOn A := by
  cases event with
  | opens fd file =>
      obtain ⟨-, eq⟩ := Option.ite_none_right_eq_some.mp h
      cases eq
      exact .inr ⟨nofun, rfl, rfl⟩
  | closes fd =>
      cases h
      exact .inr ⟨nofun, rfl, rfl⟩
  | readline fd maxlen =>
      simp only [step] at h
      split at h
      case h_2 => cases h
      case h_1 a tsd world run =>
        cases h
        by_cases file : s.world.fds fd = some A
        · refine .inl ⟨fd, maxlen, a, rfl, file, ?_, ?_⟩
          · by_cases some_room : 1 < maxlen
            · have own_stream := stream_of_own own some_room file
              rw [(readline_eq_callOf file own_stream run).1]
              simp [Thread.stream, Thread.rline, bufferedItems, some_room, file]
            · rw [readline_small some_room] at run
              cases run
              rw [callOf_small some_room]
              simp [Thread.stream, Thread.rline, some_room]
          · simp [Thread.answersOn, file]
        · refine .inr ⟨?_, ?_, answers_snoc file⟩
          · intro fd' maxlen' eq
            cases eq
            exact file
          · by_cases some_room : 1 < maxlen
            · have kept : world.files A = s.world.files A := (readline_world own run).2 A file
              rw [stream_of_other own some_room file]
              simp [Thread.stream, some_room, file, kept]
            · rw [readline_small some_room] at run
              cases run
              simp [Thread.stream, Thread.rline, some_room]

/-- Which open files the descriptors refer to does not depend on what the files have. -/
theorem step_fds {t t' : Thread} {event : Event} (h : step s event = some s')
    (h' : step t event = some t') (own : OwnBuffer s event) (own' : OwnBuffer t event)
    (same : s.world.fds = t.world.fds)
    : s'.world.fds = t'.world.fds := by
  have kept : ∀ {s s' : Thread} {fd maxlen : Nat}, step s (.readline fd maxlen) = some s'
      → OwnBuffer s (.readline fd maxlen) → s'.world.fds = s.world.fds := by
    intro s s' fd maxlen h own
    simp only [step] at h
    split at h
    case h_2 => cases h
    case h_1 a tsd world run =>
      cases h
      exact (readline_world own run).1
  cases event with
  | readline fd maxlen => rw [kept h own, kept h' own', same]
  | opens fd file =>
      obtain ⟨-, eq⟩ := Option.ite_none_right_eq_some.mp h
      obtain ⟨-, eq'⟩ := Option.ite_none_right_eq_some.mp h'
      cases eq
      cases eq'
      exact congrArg (Function.update · fd (some file)) same
  | closes fd =>
      cases h
      cases h'
      exact congrArg (Function.update · fd none) same

end Calls

/-- A call stores the bytes that come next and leaves those that follow. -/
theorem itemBytes_of_callOf {top maxlen : Nat} {convert : Nat → Int}
    {stream rest : List (Item Byte)}
    {a : Answer} (positive : 1 ≤ top)
    (call : callOf top convert maxlen stream = some (.returned a, rest))
    : itemBytes stream = a.stored ++ itemBytes rest := by
  obtain ⟨l, run, eq⟩ := Option.map_eq_some_iff.mp call
  cases ends : l.ended with
  | overflow => simp [exits, ends] at eq
  | ends ending =>
      have line := (loop_line reads_nextItem positive trivial run ends).1
      rw [exits, ends] at eq
      cases ending <;> cases eq <;> exact line.itemBytes_eq

section Runs

variable {A : Nat} {s s' t t' : Thread} {events : List Event}

/-- The calls on an open file store its bytes one after the other, by induction on the run. -/
theorem bytesOn_append (run : runEvents step s events = some s')
    (every : EveryStep step OwnBuffer s events)
    : s'.bytesOn A ++ itemBytes (s'.stream A) = s.bytesOn A ++ itemBytes (s.stream A) := by
  induction events generalizing s with
  | nil =>
      cases run
      rfl
  | cons event rest ih =>
      obtain ⟨middle, hstep, hrest⟩ := runEvents_cons run
      obtain ⟨own, later⟩ := every
      rw [hstep] at later
      rw [ih hrest later]
      rcases step_stream hstep own A with ⟨_, _, a, -, -, call, answers⟩ | ⟨-, stream, answers⟩
      · rw [itemBytes_of_callOf (by decide) call, Thread.bytesOn, answers]
        simp [Thread.bytesOn]
      · rw [stream, Thread.bytesOn, answers, Thread.bytesOn]

/-- Two runs in which the descriptors refer to the same open files, one of which brings the same in
both, return the same for it, by induction on the runs.
-/
theorem answersOn_eq (run : runEvents step s events = some s')
    (run' : runEvents step t events = some t') (every : EveryStep step OwnBuffer s events)
    (every' : EveryStep step OwnBuffer t events) (fds : s.world.fds = t.world.fds)
    (stream : s.stream A = t.stream A) (answers : s.answersOn A = t.answersOn A)
    : s'.answersOn A = t'.answersOn A := by
  induction events generalizing s t with
  | nil =>
      cases run
      cases run'
      exact answers
  | cons event rest ih =>
      obtain ⟨middle, hstep, hrest⟩ := runEvents_cons run
      obtain ⟨middle', hstep', hrest'⟩ := runEvents_cons run'
      obtain ⟨own, later⟩ := every
      obtain ⟨own', later'⟩ := every'
      rw [hstep] at later
      rw [hstep'] at later'
      have both : middle.stream A = middle'.stream A
          ∧ middle.answersOn A = middle'.answersOn A := by
        rcases step_stream hstep own A with
          ⟨fd, maxlen, a, rfl, file, call, one⟩ | ⟨not_on, kept, one⟩
        · rcases step_stream hstep' own' A with ⟨_, _, a', eq, -, call', one'⟩ | ⟨not_on', -⟩
          · cases eq
            rw [stream, call'] at call
            simp only [Option.some.injEq, Prod.mk.injEq, Outcome.returned.injEq] at call
            obtain ⟨rfl, streams⟩ := call
            exact ⟨streams.symm, by rw [one, one', answers]⟩
          · exact absurd (fds ▸ file) (not_on' fd maxlen rfl)
        · rcases step_stream hstep' own' A with ⟨fd, maxlen, _, rfl, file, -⟩ | ⟨-, kept', one'⟩
          · exact absurd (fds ▸ file) (not_on fd maxlen rfl)
          · exact ⟨by rw [kept, kept', stream], by rw [one, one', answers]⟩
      exact ih hrest hrest' later later' (step_fds hstep hstep' own own' fds) both.1 both.2

end Runs

/-- In runs in which every call finds in the buffer only what was read from its own open file, the
calls on an open file store a prefix of its bytes, and what they return depends on nothing else:
two such runs on worlds that agree on the file return the same for it.
-/
theorem calls_isolated {fds : Nat → Option Nat} {files files' : Nat → List (Delivery Byte)}
    {A : Nat}
    (agree : items (files A) = items (files' A)) {events : List Event} {s s' : Thread}
    (run : runEvents step (start fds files) events = some s)
    (run' : runEvents step (start fds files') events = some s')
    (every : EveryStep step OwnBuffer (start fds files) events)
    (every' : EveryStep step OwnBuffer (start fds files') events)
    : s.bytesOn A <+: itemBytes (items (files A)) ∧ s.answersOn A = s'.answersOn A := by
  constructor
  · have all := bytesOn_append (A := A) run every
    exact ⟨_, all⟩
  · refine answersOn_eq run run' every every' rfl ?_ rfl
    simp [Thread.stream, start, agree]

/-- Descriptors 3 and 4 refer to the open files 0 and 1. -/
private def twoFds : Nat → Option Nat := fun fd =>
  if fd = 3 then some 0 else if fd = 4 then some 1 else none

/-- The file 1 has one line. -/
private def twoFiles : Nat → List (Delivery Byte) := fun file =>
  if file = 1 then [.data 97 [10]] else []

/-- A call with room for one byte stores the one that comes next. -/
private theorem readline_one {κ : Type} {read : κ → Option (Got Byte MAXLINE × κ)}
    {tsd : Option Rline} {k k' : κ} {c : Byte} {r : Rline}
    (next : myRead read (tsd.getD Rline.init, k) = some (.byte c, (r, k')))
    : ∃ a, readline read 2 (tsd, k) = some (.returned a, (some r, k')) ∧ a.stored = [c] := by
  by_cases is_newline : c = newline
  · have run : loop (myRead read) SIZE_MAX 2 1 [] (tsd.getD Rline.init, k)
        = some ⟨.ends .newline, 1, [c], (r, k')⟩ := by
      rw [loop, if_pos (by decide), next]
      simp only [if_pos is_newline, List.nil_append]
    exact ⟨_, congrArg (Option.map _) run, rfl⟩
  · have run : loop (myRead read) SIZE_MAX 2 1 [] (tsd.getD Rline.init, k)
        = some ⟨.ends .full, 2, [c], (r, k')⟩ := by
      rw [loop, if_pos (by decide), next]
      simp only [if_neg is_newline, if_neg (show ¬ 1 = SIZE_MAX by decide)]
      rw [loop, if_neg (by decide)]
      rfl
    exact ⟨_, congrArg (Option.map _) run, rfl⟩

/-- The step of a call that returns. -/
private theorem step_of_returned {s : Thread} {fd maxlen : Nat} {a : Answer} {tsd : Option Rline}
    {world : World}
    (call : readline (readFd fd) maxlen (s.tsd, s.world) = some (.returned a, (tsd, world)))
    : step s (.readline fd maxlen)
      = some
        { tsd := tsd
          world := world
          origin := if 1 < maxlen then s.world.fds fd else s.origin
          returned := s.returned ++ ((s.world.fds fd).map (·, a)).toList } := by
  simp only [step, call]

private theorem few : ([97, 10] : List Byte).length ≤ MAXLINE := by decide

/-- What a call with room for one byte leaves of the line of the file 1. -/
private def leftOver : Rline := ((Rline.init.fill [97, 10] few).take (Rline.init.fill_pos few)).2

private theorem leftOver_pos : 0 < leftOver.rl_cnt := Int.one_pos

/-- The call reads the whole line, whatever the other file has. -/
private theorem step_first (other : List (Delivery Byte))
    : ∃ a, step (start twoFds (Function.update twoFiles 0 other)) (.readline 4 2)
        = some
          { tsd := some leftOver
            world := ⟨twoFds, Function.update (Function.update twoFiles 0 other) 1 []⟩
            origin := some 1
            returned := [(1, a)] } := by
  have next : myRead (readFd 4)
        ((none : Option Rline).getD Rline.init, ⟨twoFds, Function.update twoFiles 0 other⟩)
      = some (.byte 97, (leftOver,
        ⟨twoFds, Function.update (Function.update twoFiles 0 other) 1 []⟩)) := rfl
  obtain ⟨a, first, -⟩ := readline_one next
  exact ⟨a, step_of_returned (s := start twoFds _) first⟩

/-- A call that finds the buffer empty stores a line of one letter, and leaves the buffer empty. -/
private theorem step_line {s : Thread} {fd file : Nat} {c : Byte} {rest : List (Delivery Byte)}
    (empty : ¬ 0 < s.rline.rl_cnt) (refers : s.world.fds fd = some file)
    (brings : s.world.files file = .data c [newline] :: rest) (plain : c ≠ newline)
    : ∃ r a, step s (.readline fd 8)
        = some
          { tsd := some r
            world := ⟨s.world.fds, Function.update s.world.files file rest⟩
            origin := some file
            returned := s.returned ++ [(file, a)] }
        ∧ a.stored = [c, newline] ∧ ¬ 0 < r.rl_cnt := by
  have few : ([c, newline] : List Byte).length ≤ MAXLINE := show 2 ≤ MAXLINE by decide
  let r₁ : Rline := ((s.rline.fill [c, newline] few).take (s.rline.fill_pos few)).2
  have left : 0 < r₁.rl_cnt := Int.one_pos
  have first : myRead (readFd fd) (s.rline, s.world)
      = some (.byte c, (r₁, ⟨s.world.fds, Function.update s.world.files file rest⟩)) := by
    have read : readFd fd s.world = some (.bytes [c, newline] few,
        ⟨s.world.fds, Function.update s.world.files file rest⟩) := by
      rw [readFd, refers]
      simp only [brings]
      rfl
    rw [myRead, dif_neg empty]
    simp only [read]
    rfl
  have second : myRead (readFd fd) (r₁, ⟨s.world.fds, Function.update s.world.files file rest⟩)
      = some (.byte newline, ((r₁.take left).2,
        ⟨s.world.fds, Function.update s.world.files file rest⟩)) := by
    rw [myRead, dif_pos left]
    rfl
  have run : loop (myRead (readFd fd)) SIZE_MAX 8 1 [] (s.rline, s.world)
      = some ⟨.ends .newline, 2, [c, newline], ((r₁.take left).2,
        ⟨s.world.fds, Function.update s.world.files file rest⟩)⟩ := by
    rw [loop, if_pos (by decide), first]
    simp only [if_neg plain, if_neg (show ¬ 1 = SIZE_MAX by decide)]
    rw [loop, if_pos (by decide), second]
    rfl
  refine ⟨(r₁.take left).2, ⟨ssizeT 2, [c, newline], true⟩, ?_, rfl, Int.lt_irrefl 0⟩
  rw [step_of_returned (congrArg (Option.map _) run), refers]
  rfl

/-- The file 1 has two lines, and the file 0 has one. -/
private def lines (c : Byte) : Nat → List (Delivery Byte) := fun file =>
  if file = 1 then [.data 97 [newline], .data 98 [newline]]
  else if file = 0 then [.data c [newline]] else []

/-- A line of the file 1, the line of the file 0, and the other line of the file 1. -/
private def switching : List Event := [.readline 4 8, .readline 3 8, .readline 4 8]

/-- Every call finds the buffer empty. -/
private theorem switching_run {c : Byte} (plain : c ≠ newline)
    : ∃ s, runEvents step (start twoFds (lines c)) switching = some s
      ∧ EveryStep step OwnBuffer (start twoFds (lines c)) switching
      ∧ s.bytesOn 1 = [97, newline, 98, newline] ∧ s.bytesOn 0 = [c, newline] := by
  let s₀ : Thread := start twoFds (lines c)
  obtain ⟨r₁, a₁, first, stored₁, empty₁⟩ := step_line (s := s₀) (Int.lt_irrefl 0)
    (show s₀.world.fds 4 = some 1 from rfl)
    (show s₀.world.files 1 = [.data 97 [newline], .data 98 [newline]] from rfl)
    (show (97 : Byte) ≠ newline by decide)
  let s₁ : Thread := ⟨some r₁, ⟨twoFds, Function.update (lines c) 1 [.data 98 [newline]]⟩, some 1,
    [(1, a₁)]⟩
  obtain ⟨r₂, a₂, second, stored₂, empty₂⟩ := step_line (s := s₁) empty₁
    (show s₁.world.fds 3 = some 0 from rfl)
    (show s₁.world.files 0 = [.data c [newline]] from rfl) plain
  let s₂ : Thread := ⟨some r₂, ⟨twoFds, Function.update s₁.world.files 0 []⟩, some 0,
    [(1, a₁), (0, a₂)]⟩
  obtain ⟨r₃, a₃, third, stored₃, -⟩ := step_line (s := s₂) empty₂
    (show s₂.world.fds 4 = some 1 from rfl) (show s₂.world.files 1 = [.data 98 [newline]] from rfl)
    (show (98 : Byte) ≠ newline by decide)
  let s₃ : Thread := ⟨some r₃, ⟨twoFds, Function.update s₂.world.files 1 []⟩, some 1,
    [(1, a₁), (0, a₂), (1, a₃)]⟩
  have first : step s₀ (.readline 4 8) = some s₁ := first
  have second : step s₁ (.readline 3 8) = some s₂ := second
  have third : step s₂ (.readline 4 8) = some s₃ := third
  refine ⟨s₃, ?_, ?_, ?_, ?_⟩
  · simp only [switching, runEvents, s₀, first, second, third, Option.bind_some]
  · refine ⟨fun _ some_ => absurd some_ (Int.lt_irrefl 0), ?_⟩
    rw [first]
    refine ⟨fun _ some_ => absurd some_ empty₁, ?_⟩
    rw [second]
    refine ⟨fun _ some_ => absurd some_ empty₂, ?_⟩
    rw [third]
    trivial
  · simp [Thread.bytesOn, Thread.answersOn, s₃, stored₁, stored₃]
  · simp [Thread.bytesOn, Thread.answersOn, s₃, stored₂]

/-- The calls on one file store its lines, whatever the line of the other file is. -/
theorem calls_isolated_switching
    : ∃ s s', runEvents step (start twoFds (lines 120)) switching = some s
      ∧ runEvents step (start twoFds (lines 121)) switching = some s'
      ∧ s.bytesOn 1 = [97, newline, 98, newline] ∧ s.bytesOn 0 ≠ s'.bytesOn 0
      ∧ s.bytesOn 1 <+: itemBytes (items (lines 120 1)) ∧ s.answersOn 1 = s'.answersOn 1 := by
  obtain ⟨s, run, every, bytes, other⟩ := switching_run (c := 120) (by decide)
  obtain ⟨s', run', every', -, other'⟩ := switching_run (c := 121) (by decide)
  refine ⟨s, s', run, run', bytes, ?_, calls_isolated (A := 1)
    (show items (lines 120 1) = items (lines 121 1) from rfl) run run' every every'⟩
  rw [other, other']
  decide

/-- The newline of one file is read ahead and then returned for the other. -/
theorem readline_leaks
    : ¬ ∀ fds files events s, runEvents step (start fds files) events = some s →
        ∀ A, s.bytesOn A <+: itemBytes (items (files A)) := by
  intro always
  obtain ⟨a, first⟩ := step_first [.data 120 [10]]
  have next : myRead (readFd 3) ((some leftOver).getD Rline.init,
        ⟨twoFds, Function.update (Function.update twoFiles 0 [.data 120 [10]]) 1 []⟩)
      = some (.byte 10, ((leftOver.take leftOver_pos).2,
        ⟨twoFds, Function.update (Function.update twoFiles 0 [.data 120 [10]]) 1 []⟩)) := rfl
  obtain ⟨b, call, stored⟩ := readline_one next
  have run : ∃ s, runEvents step (start twoFds (Function.update twoFiles 0 [.data 120 [10]]))
        [.readline 4 2, .readline 3 2] = some s
      ∧ s.returned = [(1, a), (0, b)] := by
    rw [runEvents, first, Option.bind_some, runEvents, step_of_returned call]
    exact ⟨_, rfl, rfl⟩
  obtain ⟨s, run, returned⟩ := run
  have leaked := always _ _ _ s run 0
  simp [Thread.bytesOn, Thread.answersOn, returned, stored, Delivery.items, itemBytes] at leaked

end Minions.Unp.Readline
