import Minions.Unp.SignalEcho

/-! When the handler of `dgecho01.c` gives up: `err_quit("receive overflow")`.
The handler tests `nqueue` before it looks for another datagram. Whether an overflow is a real one
is decided by what a delivery of `SIGIO` finds: the room in the queue, the datagrams in the socket,
those that arrive while the handler runs, and whether the loop is between a send and `nqueue--`.
-/

namespace Minions.Unp.SignalEcho

open Minions.Data Minions.Logic

variable {clilen : Nat} {s s' : Echo clilen} {event : Event clilen}

/-- A round of the handler calls `err_quit("receive overflow")`. -/
def Overflows (s : Echo clilen) : Event clilen → Prop
  | .sigIo => s.loc ≠ .quit ∧ s.handler.isSome ∧ s.nqueue ≥ qSize
  | _ => False

/-- `QSIZE` datagrams wait to be sent, and one more is in the socket. -/
def Full (s : Echo clilen) : Prop := (unsent s).length = qSize ∧ s.socket ≠ []

/-- Where a round of the handler begins with `nqueue` at `QSIZE`, the socket is not empty and no
datagram that has been sent is still counted.
-/
def MoreBehind (s : Echo clilen) : Event clilen → Prop
  | .sigIo =>
      s.loc ≠ .quit → s.handler.isSome → s.nqueue = qSize
        → s.socket ≠ [] ∧ s.loc.uncounted = 0
  | _ => True

instance (s : Echo clilen) (event : Event clilen) : Decidable (MoreBehind s event) := by
  cases event <;> unfold MoreBehind <;> infer_instance

/-- The places left in the queue. -/
def room (s : Echo clilen) : Nat := (qSize - s.nqueue).toNat

/-- How many rounds of handlers are among the events. -/
def rounds : List (Event clilen) → Nat
  | [] => 0
  | .sigIo :: rest => rounds rest + 1
  | _ :: rest => rounds rest

/-- How many datagrams arrive before the `n`-th round. -/
def arrivedBefore : Nat → List (Event clilen) → Nat
  | _, [] => 0
  | n, .arrive _ :: rest => arrivedBefore n rest + 1
  | 0, .sigIo :: _ => 0
  | n + 1, .sigIo :: rest => arrivedBefore n rest
  | n, _ :: rest => arrivedBefore n rest

/-- The handler is delivered to this state. If each of its rounds for which the queue has room finds
a datagram, and it gets to one more round, then the signal does not come between a send and
`nqueue--`, and what the handler finds is not exactly what the queue has room for.
-/
def Delivers (s : Echo clilen) (rest : List (Event clilen)) : Prop :=
  room s < rounds rest → (∀ n < room s, n < s.socket.length + arrivedBefore n rest)
    → s.loc.uncounted = 0 ∧ s.socket.length + arrivedBefore (room s) rest ≠ room s

/-- Every delivery of `SIGIO` in the run. -/
def EveryDelivery (s : Echo clilen) (events : List (Event clilen)) : Prop :=
  ∀ before rest middle, events = before ++ .sigio :: rest
    → runEvents step s before = some middle → Delivers middle rest

/-- Nothing is left to be done: the socket and the queue are empty and the loop is suspended. -/
structure Quiet (s : Echo clilen) : Prop where
  handler : s.handler = none
  socket : s.socket = []
  loc : s.loc = .suspended
  nqueue : s.nqueue = 0

/-- The datagrams that arrive, in order. -/
def arrivals (events : List (Event clilen)) : List (Datagram clilen) :=
  events.filterMap fun
    | .arrive d => some d
    | _ => none

/-- The queue is full where `nqueue` is `QSIZE` and counts no datagram that has been sent. -/
theorem Inv.overflows_full_iff (inv : Inv s)
    : (Overflows s event → Full s) ↔ MoreBehind s event := by
  cases event with
  | sigIo =>
      simp only [Overflows, Full, MoreBehind]
      cases inv with
      | quit at_ => exact iff_of_true (fun h => absurd at_ h.1) (fun h => absurd at_ h)
      | running ring at_ =>
          have nqueue := at_.nqueue
          have room := at_.room
          have count : (unsent s).length = s.nqueue.toNat - s.loc.uncounted := by
            rw [ring.unsent_eq, length_ringPath]
            omega
          constructor
          · intro full notQuit handled isFull
            obtain ⟨all, more⟩ := full ⟨notQuit, handled, by omega⟩
            refine ⟨more, ?_⟩
            rw [count] at all
            omega
          · rintro behind ⟨notQuit, handled, isFull⟩
            obtain ⟨more, none_sent⟩ := behind notQuit handled (by omega)
            refine ⟨?_, more⟩
            rw [count]
            omega
  | _ => exact iff_of_true nofun trivial

/-- What has been received and what is in the socket are what has arrived. -/
theorem step_received (h : step s event = some s')
    : s'.received ++ s'.socket.map Datagram.packet
      = s.received ++ s.socket.map Datagram.packet ++ (arrivals [event]).map Datagram.packet := by
  cases event with
  | arrive d =>
      cases h
      simp [arrivals]
  | sigIo =>
      simp only [step] at h
      split at h <;> cases h
      simp only [SignalEcho.sigIo]
      split
      · simp [arrivals]
      · split
        next empty => simp [arrivals, empty]
        next d rest more => simp [arrivals, more]
  | sigio =>
      simp only [step] at h
      split at h <;> cases h
      simp [arrivals]
  | recvfromError =>
      simp only [step] at h
      split at h <;> cases h
      simp [arrivals]
  | dgEcho =>
      simp only [step] at h
      split at h
      · unfold SignalEcho.dgEcho at h
        split at h <;> cases h <;> simp [arrivals]
      · cases h
  | sendtoError =>
      simp only [step] at h
      split at h <;> cases h
      simp [arrivals]

/-- The same of a whole run, by induction on it. -/
theorem runEvents_received {events : List (Event clilen)} (h : runEvents step s events = some s')
    : s'.received ++ s'.socket.map Datagram.packet
      = s.received ++ s.socket.map Datagram.packet ++ (arrivals events).map Datagram.packet := by
  induction events generalizing s with
  | nil =>
      cases h
      simp [arrivals]
  | cons event rest ih =>
      obtain ⟨middle, hstep, hrest⟩ := runEvents_cons h
      have split : arrivals (event :: rest) = arrivals [event] ++ arrivals rest := by
        simp only [arrivals, ← List.filterMap_append, List.singleton_append]
      rw [ih hrest, step_received hstep, split, List.map_append, List.append_assoc]

/-- What is sent stays sent. -/
theorem step_sent (h : step s event = some s') : s.sent.IsPrefix s'.sent := by
  cases event with
  | arrive d =>
      cases h
      exact List.prefix_rfl
  | sigIo =>
      simp only [step] at h
      split at h <;> cases h
      simp only [SignalEcho.sigIo]
      split
      · exact List.prefix_rfl
      · split <;> exact List.prefix_rfl
  | dgEcho =>
      simp only [step] at h
      split at h
      · unfold SignalEcho.dgEcho at h
        split at h <;> cases h <;> simp
      · cases h
  | _ =>
      simp only [step] at h
      split at h <;> cases h
      exact List.prefix_rfl

/-- How many datagrams are not sent yet. -/
def backlog (s : Echo clilen) : Nat := (unsent s).length + s.socket.length

/-- What was received has been sent or is still counted. -/
theorem Inv.backlog_eq (inv : Inv s)
    : s.sent.length + backlog s = s.received.length + s.socket.length := by
  have placed := inv.sound.placed
  have echoed := inv.sound.echoed.length_le
  rw [backlog, unsent, List.length_drop]
  omega

/-- Only arrivals add to what is not sent yet. -/
theorem backlog_le (h : step s event = some s') (inv : Inv s)
    : backlog s' ≤ backlog s + (arrivals [event]).length := by
  have before := inv.backlog_eq
  have after := (step_inv h inv).backlog_eq
  have sent := (step_sent h).length_le
  have total := congrArg List.length (step_received h)
  simp only [List.length_append, List.length_map] at total
  omega

/-- No handler overflows while no more than `QSIZE` datagrams are not sent yet, by induction on the
run.
-/
theorem no_overflow {events : List (Event clilen)} (inv : Inv s)
    (every : EveryStep step MoreBehind s events)
    (few : backlog s + (arrivals events).length ≤ qSize)
    : EveryStep step (fun s event => ¬ Overflows s event) s events := by
  induction events generalizing s with
  | nil => trivial
  | cons event rest ih =>
      obtain ⟨met, later⟩ := every
      have split : arrivals (event :: rest) = arrivals [event] ++ arrivals rest := by
        simp only [arrivals, ← List.filterMap_append, List.singleton_append]
      rw [split, List.length_append] at few
      refine ⟨?_, ?_⟩
      · intro overflows
        obtain ⟨all, more⟩ := inv.overflows_full_iff.mpr met overflows
        have := List.length_pos_of_ne_nil more
        rw [backlog, all] at few
        omega
      · cases hstep : step s event with
        | none => trivial
        | some s' =>
            rw [hstep] at later
            have := backlog_le hstep inv
            exact ih (step_inv hstep inv) later (by omega)

/-- At rest everything that was received has been sent. -/
theorem Quiet.sent_eq (quiet : Quiet s) (inv : Inv s) : s.sent = s.received := by
  cases inv with
  | quit at_ =>
      rw [quiet.loc] at at_
      cases at_
  | @running k ring at_ =>
      have nqueue := at_.nqueue
      rw [quiet.nqueue] at nqueue
      obtain rfl : k = 0 := by omega
      have nothing : ringCells s.dg (first s) 0 = [] := List.length_eq_zero_iff.mp (by simp)
      rw [ring.received, nothing, List.map_nil, List.append_nil]

-----------------------------------------------------------------------------------------
-- From the rounds to the deliveries
-----------------------------------------------------------------------------------------

/-- After the quit no handler takes another round. -/
theorem rounds_of_quit {events : List (Event clilen)} (quit : s.loc = .quit)
    (run : runEvents step s events = some s')
    : rounds events = 0 := by
  induction events generalizing s with
  | nil => rfl
  | cons event rest ih =>
      obtain ⟨middle, hstep, hrest⟩ := runEvents_cons run
      cases event with
      | arrive d =>
          cases hstep
          exact ih (by exact quit) hrest
      | _ => simp [step, quit, Loc.open, dgEcho] at hstep

/-- The deliveries after the first event, and the first event if it is one. -/
theorem everyDelivery_cons {rest : List (Event clilen)} (h : step s event = some s')
    : EveryDelivery s (event :: rest)
      ↔ (event = .sigio → Delivers s rest) ∧ EveryDelivery s' rest := by
  constructor
  · intro every
    refine ⟨?_, ?_⟩
    · rintro rfl
      exact every [] rest s rfl rfl
    · rintro before after middle rfl run
      exact every (event :: before) after middle rfl (by simpa [runEvents, h] using run)
  · rintro ⟨first, later⟩ before after middle split run
    cases before with
    | nil =>
        cases split
        cases run
        exact first rfl
    | cons head before =>
        cases split
        rw [runEvents, h] at run
        exact later before after middle rfl run

/-- An arrival while the handler runs. -/
theorem delivers_arrive {rest : List (Event clilen)} (d : Datagram clilen)
    : Delivers s (.arrive d :: rest)
      ↔ Delivers { s with socket := s.socket ++ [d] } rest := by
  have same : ∀ n, s.socket.length + arrivedBefore n (.arrive d :: rest)
      = (s.socket ++ [d]).length + arrivedBefore n rest := by
    intro n
    rw [arrivedBefore, List.length_append, List.length_singleton]
    omega
  simp only [Delivers, rounds, same, room]

/-- A round for which there is no room. -/
theorem delivers_full {rest : List (Event clilen)} (full : room s = 0)
    : Delivers s (.sigIo :: rest) ↔ s.loc.uncounted = 0 ∧ s.socket ≠ [] := by
  simp [Delivers, full, rounds, arrivedBefore]

/-- A round that finds nothing. -/
theorem delivers_empty {rest : List (Event clilen)} (some_ : 0 < room s) (empty : s.socket = [])
    : Delivers s (.sigIo :: rest) := by
  intro _ found
  have first := found 0 some_
  simp [empty, arrivedBefore] at first

/-- A round that takes a datagram. -/
theorem delivers_take {rest : List (Event clilen)} (taken : room s = room s' + 1)
    (socket : s.socket.length = s'.socket.length + 1) (loc : s'.loc = s.loc)
    : Delivers s (.sigIo :: rest) ↔ Delivers s' rest := by
  have later : (∀ n < room s' + 1, n < s'.socket.length + 1 + arrivedBefore n (.sigIo :: rest))
      ↔ ∀ n < room s', n < s'.socket.length + arrivedBefore n rest := by
    constructor
    · intro found n below
      have := found (n + 1) (by omega)
      simp only [arrivedBefore] at this
      omega
    · intro found n below
      cases n with
      | zero => omega
      | succ n =>
          have := found n (by omega)
          simp only [arrivedBefore]
          omega
  have more : s'.socket.length + 1 + arrivedBefore (room s' + 1) (.sigIo :: rest) ≠ room s' + 1
      ↔ s'.socket.length + arrivedBefore (room s') rest ≠ room s' := by
    simp only [arrivedBefore]
    omega
  simp only [Delivers, taken, socket, loc, rounds, later, more, Nat.add_lt_add_iff_right]

/-- A round of a running handler, for the condition of its delivery. -/
theorem delivers_sigIo {rest : List (Event clilen)} (inv : Inv s) {nread : Nat}
    (running : s.loc ≠ .quit) (handled : s.handler = some nread)
    : Delivers s (.sigIo :: rest)
      ↔ MoreBehind s .sigIo
        ∧ ((sigIo s nread).handler.isSome → (sigIo s nread).loc ≠ .quit
            → Delivers (sigIo s nread) rest) := by
  have bound : s.nqueue ≤ qSize := by
    cases inv with
    | quit at_ => exact absurd at_ running
    | running ring at_ => exact at_.room
  by_cases full : s.nqueue = qSize
  · have quits : (sigIo s nread).loc = .quit := by simp [sigIo, full]
    have none_ : room s = 0 := by simp [room, full]
    rw [delivers_full none_]
    simp [MoreBehind, running, handled, full, quits, and_comm]
  · have some_ : 0 < room s := by
      simp only [room]
      omega
    have goes : MoreBehind s .sigIo := fun _ _ eq => absurd eq full
    have below : ¬ s.nqueue ≥ qSize := by omega
    cases socket : s.socket with
    | nil =>
        refine iff_of_true (delivers_empty some_ socket) ⟨goes, ?_⟩
        simp [sigIo, below, socket]
    | cons d more =>
        have result : sigIo s nread = { s with
            dg := s.dg.set s.iput (({ s.dg[s.iput] with dgSalen := clilen } : DG).receive d.packet)
            socket := more
            received := s.received ++ [d.packet]
            places := s.places ++ [s.iput]
            handler := some (nread + 1)
            nqueue := s.nqueue + 1
            iput := ringNext s.iput } := by
          simp [sigIo, below, socket]
        have taken : room s = room (sigIo s nread) + 1 := by
          rw [result]
          simp only [room] at some_ ⊢
          omega
        rw [delivers_take taken (by rw [result, socket]; rfl) (by rw [result])]
        simp [goes, result, running]

/-- The loop starts and ends no handler. -/
theorem dgEcho_handler (h : dgEcho s = some s') : s'.handler = s.handler := by
  unfold dgEcho at h
  split at h <;> cases h <;> rfl

/-- The rounds of a run meet their condition exactly where its deliveries do, and the one of the
handler that runs already; by induction on the run.
-/
theorem everyStep_iff_everyDelivery {events : List (Event clilen)} (inv : Inv s)
    (run : runEvents step s events = some s')
    : EveryStep step MoreBehind s events
      ↔ (s.handler.isSome → s.loc ≠ .quit → Delivers s events) ∧ EveryDelivery s events := by
  induction events generalizing s with
  | nil =>
      refine iff_of_true trivial ⟨fun _ _ none_ => absurd none_ (by simp [rounds]), ?_⟩
      intro before rest middle split
      simp at split
  | cons event rest ih =>
      obtain ⟨next, hstep, hrest⟩ := runEvents_cons run
      have later := ih (step_inv hstep inv) hrest
      rw [EveryStep, hstep, Option.elim, later, everyDelivery_cons hstep]
      cases event with
      | arrive d =>
          cases hstep
          simp [MoreBehind, delivers_arrive]
      | sigio =>
          simp only [step] at hstep
          split at hstep <;> cases hstep
          next isOpen =>
            simp only [Bool.and_eq_true, Option.isNone_iff_eq_none] at isOpen
            obtain ⟨isOpen, idle⟩ := isOpen
            have running : s.loc ≠ .quit := by
              intro quit
              simp [quit, Loc.open] at isOpen
            have same : Delivers { s with handler := some 0 } rest ↔ Delivers s rest := .rfl
            simp [MoreBehind, idle, running, same]
      | sigIo =>
          simp only [step] at hstep
          split at hstep <;> cases hstep
          next nread handled notQuit =>
            have running : s.loc ≠ .quit := notQuit
            rw [delivers_sigIo inv running handled]
            simp [handled, running, and_assoc]
      | recvfromError =>
          simp only [step] at hstep
          split at hstep <;> cases hstep
          have none_ : rounds rest = 0 := rounds_of_quit rfl hrest
          have vacuous : Delivers s (.recvfromError :: rest) := by
            intro more
            simp [rounds, none_] at more
          simp [MoreBehind, vacuous]
      | dgEcho =>
          simp only [step] at hstep
          split at hstep
          · next idle =>
              rw [Option.isNone_iff_eq_none] at idle
              simp [MoreBehind, idle, (dgEcho_handler hstep).trans idle]
          · cases hstep
      | sendtoError =>
          simp only [step] at hstep
          split at hstep <;> cases hstep
          next enabled => simp [MoreBehind, enabled.2]

/-- Each overflow of the run is a real one. -/
def OverflowsOnlyFull (s : Echo clilen) (events : List (Event clilen)) : Prop :=
  EveryStep step (fun s event => Overflows s event → Full s) s events

/-- A burst of at most `QSIZE` datagrams that finds the server at rest makes no handler overflow,
and all of it is sent, in order, when the server is at rest again.
-/
def BurstsEchoed (s : Echo clilen) (events : List (Event clilen)) : Prop :=
  ∀ before burst after middle s', events = before ++ (burst ++ after)
    → runEvents step s before = some middle → runEvents step middle burst = some s'
    → Quiet middle → (arrivals burst).length ≤ qSize
    → EveryStep step (fun s event => ¬ Overflows s event) middle burst
      ∧ (Quiet s' → s'.sent = middle.sent ++ (arrivals burst).map Datagram.packet)

/-- A run of the server overflows only where its queue is full and more has come, and echoes its
bursts, exactly where no delivery of `SIGIO` finds just as many datagrams as the queue has room
for, and none that fills the queue comes between a send and `nqueue--`.
-/
theorem overflows_only_full_iff {dg : Vector DG qSize} {events : List (Event clilen)}
    (run : runEvents step (start clilen dg) events = some s)
    : OverflowsOnlyFull (start clilen dg) events ∧ BurstsEchoed (start clilen dg) events
      ↔ EveryDelivery (start clilen dg) events := by
  have same : OverflowsOnlyFull (start clilen dg) events
      ↔ EveryStep step MoreBehind (start clilen dg) events :=
    everyStep_congr_of_invariant step_inv (fun _ _ inv => inv.overflows_full_iff) (start_inv dg)
      events
  have deliveries : EveryStep step MoreBehind (start clilen dg) events
      ↔ EveryDelivery (start clilen dg) events :=
    (everyStep_iff_everyDelivery (start_inv dg) run).trans
      (and_iff_right fun handled => absurd handled Bool.false_ne_true)
  rw [same, ← deliveries]
  refine and_iff_left_of_imp ?_
  rintro every before burst after middle s' rfl first run quiet few
  have inv : Inv middle := runEvents_invariant step_inv first (start_inv dg)
  have later := ((everyStep_append first).mp every).2
  have nothing : backlog middle = 0 := by
    have total := inv.backlog_eq
    rw [quiet.sent_eq inv, quiet.socket, List.length_nil] at total
    omega
  refine ⟨no_overflow inv ((everyStep_append run).mp later).1 (by omega), ?_⟩
  intro rest
  have total := runEvents_received run
  rw [rest.socket, quiet.socket] at total
  rw [rest.sent_eq (runEvents_invariant step_inv run inv), quiet.sent_eq inv]
  simpa using total

/-- One datagram more than the queue has room for, the last of them while the handler runs. -/
def oneMore : List (Event 2) :=
  .dgEcho :: List.replicate qSize (.arrive ⟨[1], [30], by decide⟩)
    ++ .sigio :: List.replicate qSize .sigIo ++ [.arrive ⟨[2], [30], by decide⟩, .sigIo]

/-- One datagram more than the queue holds. -/
theorem overflows_only_full_iff_oneMore
    : ∃ s, runEvents step (start 2 (.replicate qSize ⟨[], 0, [], 2⟩)) oneMore = some s
      ∧ s.loc = .quit
      ∧ OverflowsOnlyFull (start 2 (.replicate qSize ⟨[], 0, [], 2⟩)) oneMore := by
  have happens : ∃ s ∈ runEvents step (start 2 (.replicate qSize ⟨[], 0, [], 2⟩)) oneMore,
      s.loc = .quit := by
    decide
  obtain ⟨s, run, quit⟩ := happens
  have every : EveryStep step MoreBehind (start 2 (.replicate qSize ⟨[], 0, [], 2⟩)) oneMore := by
    decide
  have deliveries := ((everyStep_iff_everyDelivery (start_inv _) run).mp every).2
  exact ⟨s, run, quit, ((overflows_only_full_iff run).mpr deliveries).1⟩

/-- A burst of `QSIZE` datagrams that one handler reads. -/
def burst : List (Event 2) :=
  .dgEcho :: List.replicate qSize (.arrive ⟨[1], [30], by decide⟩)
    ++ .sigio :: List.replicate qSize .sigIo

/-- The next round of the handler overflows with the socket empty. -/
theorem burst_overflows
    : ¬ ∀ events : List (Event 2),
        OverflowsOnlyFull (start 2 (.replicate qSize ⟨[], 0, [], 2⟩)) events := by
  intro always
  have happens : (runEvents step (start 2 (.replicate qSize ⟨[], 0, [], 2⟩)) burst).isSome := by
    decide
  have last := (everyStep_append (Option.some_get happens).symm).mp (always (burst ++ [.sigIo]))
  exact (last.2.1 ⟨(nofun : Loc.suspended ≠ .quit), rfl, Int.le_refl 8⟩).2 rfl

end Minions.Unp.SignalEcho
