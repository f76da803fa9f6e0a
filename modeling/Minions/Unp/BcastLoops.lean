import Minions.Unp.Bcast

/-! How the broadcast clients leave their loops. The signal must not be lost between the moment
in which the alarm expires and the call that it is to interrupt.
-/

namespace Minions.Unp.Bcast

open Minions.Logic

variable {α : Type}

-----------------------------------------------------------------------------------------
-- The end of a loop
-----------------------------------------------------------------------------------------

def Loc.inLoop : Loc α → Bool
  | .idle | .sent | .blocked | .undefined => false
  | _ => true

/-- The client is in its loop and the alarm has expired. -/
def Client.Fired (s : Client α) : Prop := s.loc.inLoop ∧ s.alarmed = false

/-- The loop is left: without a reply or anything else from outside the client goes on, and it
makes a bounded number of steps in the loop for each reply.
-/
def Version.Leaves (v : Version) (s : Client α) : Prop :=
  ∀ events s', runEvents v.next s events = some s' → s'.left = s.left
    → s'.Fired
      ∧ (∃ event : Event α, event.own ∧ (v.next s' event).isSome)
      ∧ events.countP Event.own
        ≤ 6 * (s.socket.length + events.countP Event.isArrival) + 10

/-- The loop is never left: the alarm has expired, and whatever arrives, the client stays in the
loop.
-/
def Version.Stays (v : Version) (s : Client α) : Prop :=
  s.Fired ∧ ∀ events s', runEvents v.next s events = some s' → s'.left = s.left

-----------------------------------------------------------------------------------------
-- The versions that lose the signal
-----------------------------------------------------------------------------------------

/-- The signal was delivered and the client has not noticed it. -/
structure Client.Gone (s : Client α) : Prop where
  inLoop : s.loc.inLoop
  alarmed : s.alarmed = false
  pending : s.pending = false

/-- No other signal comes, and a reply leaves the client where it is. -/
theorem gone_outside {v : Version} {s s' : Client α} {event : Event α} (gone : s.Gone)
    (outside : event ≠ .step) (next : v.next s event = some s')
    : s'.Gone ∧ s'.loc = s.loc ∧ s'.left = s.left := by
  obtain ⟨inLoop, alarmed, pending⟩ := gone
  cases event with
  | line => cases loc : s.loc <;> simp_all [Version.next, Loc.inLoop]
  | arrive reply =>
      cases next
      exact ⟨⟨inLoop, alarmed, pending⟩, rfl, rfl⟩
  | expire => simp [Version.next, alarmed] at next
  | deliver => simp [Version.next, pending] at next
  | step => exact absurd rfl outside

/-- Nothing ends the loop of `dgclibcast1.c` once the signal is gone. -/
theorem gone1 {s s' : Client α} {event : Event α} (gone : s.Gone)
    (next : Version.dgclibcast1.next s event = some s')
    : s'.Gone ∧ s'.left = s.left := by
  cases event with
  | line | arrive | expire | deliver =>
      obtain ⟨gone', -, left⟩ := gone_outside gone (by simp) next
      exact ⟨gone', left⟩
  | step =>
      obtain ⟨inLoop, alarmed, pending⟩ := gone
      simp only [Version.next, Version.step, step1] at next
      cases loc : s.loc with
      | top | received =>
          rw [loc] at next
          cases next
          exact ⟨⟨rfl, alarmed, pending⟩, rfl⟩
      | waiting =>
          rw [loc] at next
          cases socket : s.socket <;> simp only [Client.recvfrom, socket] at next <;> cases next
          exact ⟨⟨rfl, alarmed, pending⟩, rfl⟩
      | _ => simp_all [Loc.inLoop]

/-- Nothing ends the loop of `dgclibcast3.c` either, where no wait was interrupted. -/
theorem gone3 {s s' : Client α} {event : Event α} (gone : s.Gone ∧ s.loc.isInterrupted = false)
    (next : Version.dgclibcast3.next s event = some s')
    : (s'.Gone ∧ s'.loc.isInterrupted = false) ∧ s'.left = s.left := by
  cases event with
  | line | arrive | expire | deliver =>
      obtain ⟨gone', loc, left⟩ := gone_outside gone.1 (by simp) next
      exact ⟨⟨gone', loc ▸ gone.2⟩, left⟩
  | step =>
      obtain ⟨⟨inLoop, alarmed, pending⟩, uninterrupted⟩ := gone
      simp only [Version.next, Version.step, step3] at next
      cases loc : s.loc with
      | top =>
          rw [loc] at next
          cases next
          exact ⟨⟨⟨rfl, alarmed, rfl⟩, rfl⟩, rfl⟩
      | entered | returned | received =>
          rw [loc] at next
          cases next
          exact ⟨⟨⟨rfl, alarmed, pending⟩, rfl⟩, rfl⟩
      | waiting =>
          rw [loc] at next
          cases socket : s.socket <;> simp only [Client.recvfrom, socket] at next <;> cases next
          exact ⟨⟨⟨rfl, alarmed, pending⟩, rfl⟩, rfl⟩
      | interrupted => simp [loc, Loc.isInterrupted] at uninterrupted
      | _ => simp_all [Loc.inLoop]

/-- Where each event keeps the client in such a state, and in its loop, every run does. -/
theorem stays_of_kept {v : Version} {P : Client α → Prop}
    (kept : ∀ {s s' : Client α} {event}, P s → v.next s event = some s'
      → P s' ∧ s'.left = s.left)
    {s : Client α} (fired : s.Fired) (holds : P s)
    : v.Stays s := by
  refine ⟨fired, fun events s' run => ?_⟩
  have both : P s' ∧ s'.left = s.left := by
    refine runEvents_invariant (P := fun t => P t ∧ t.left = s.left) ?_ run ⟨holds, rfl⟩
    intro t event t' next both
    obtain ⟨holds', same⟩ := kept both.1 next
    exact ⟨holds', same.trans both.2⟩
  exact both.2

/-- The signal arrives between `alarm` and `recvfrom`. -/
def early : List (Event α) := [.line, .step, .expire, .deliver]

/-- The first version can stay in its loop. -/
theorem dgclibcast1_stays
    : ∃ s : Client α, Version.dgclibcast1.Comes s ∧ Version.dgclibcast1.Stays s :=
  ⟨{ loc := .top }, ⟨early, rfl⟩, stays_of_kept gone1 ⟨rfl, rfl⟩ ⟨rfl, rfl, rfl⟩⟩

/-- The third version can stay in its loop. -/
theorem dgclibcast3_stays
    : ∃ s : Client α, Version.dgclibcast3.Comes s ∧ Version.dgclibcast3.Stays s :=
  ⟨{ loc := .top }, ⟨early, rfl⟩, stays_of_kept gone3 ⟨rfl, rfl⟩ ⟨⟨rfl, rfl, rfl⟩, rfl⟩⟩

-----------------------------------------------------------------------------------------
-- The versions that keep the signal
-----------------------------------------------------------------------------------------

/-- In `dgclibcast4.c` the signal waits for `pselect`. -/
def Inv4 (s : Client α) : Prop :=
  match s.loc with
  | .idle | .sent => s.alarmed = false ∧ s.pending = false
  | .blocked => s.alarmed = false ∧ s.pending = false ∧ s.mask
  | .top | .waiting | .received _ _ => s.pending = !s.alarmed ∧ s.mask
  | .selected sock _ => s.pending = !s.alarmed ∧ s.mask ∧ sock ∧ s.socket ≠ []
  | _ => False

/-- In `dgclibcast5.c` the signal ends the loop at once. -/
def Inv5 (s : Client α) : Prop :=
  s.mask = false ∧
  match s.loc with
  | .idle | .sent | .undefined => s.alarmed = false ∧ s.pending = false
  | .top => s.pending = !s.alarmed
  | .entered | .waiting | .received _ _ => s.pending = !s.alarmed ∧ s.jmpbuf
  | _ => False

/-- In `dgclibcast6.c` the signal is in the pipe. -/
def Inv6 (s : Client α) : Prop :=
  s.mask = false ∧
  match s.loc with
  | .idle | .sent => s.alarmed = false ∧ s.pending = false ∧ s.pipe = 0
  | .top | .waiting => s.pipe + s.pending.toNat = (!s.alarmed).toNat
  | .selected sock pipe =>
      s.pipe + s.pending.toNat = (!s.alarmed).toNat ∧ (sock → s.socket ≠ [])
      ∧ (pipe → s.pipe = 1) ∧ (sock || pipe)
  | .received _ pipe | .checking pipe =>
      s.pipe + s.pending.toNat = (!s.alarmed).toNat ∧ (pipe → s.pipe = 1)
  | _ => False

/-- Every event keeps the invariant of the fourth version. -/
theorem inv4_next {s s' : Client α} {event : Event α} (inv : Inv4 s)
    (next : Version.dgclibcast4.next s event = some s')
    : Inv4 s' := by
  obtain ⟨loc, alarmed, pending, mask, jmpbuf, pipe, socket, printed, arrived, dropped, left⟩ := s
  cases event with
  | line =>
      cases loc <;> cases next
      exact inv
  | arrive reply =>
      cases next
      cases loc <;> first | exact inv | simp_all [Inv4]
  | expire =>
      cases alarmed <;> cases next
      cases loc <;> simp_all [Inv4]
  | deliver =>
      obtain ⟨signal, can, rfl⟩ := deliver_next next
      -- The mask lets the signal through only in `pselect`.
      cases loc <;> simp_all [Inv4, Version.deliverable, Loc.isWaiting, Version.recvfromAlarm,
        Client.leave]
  | step =>
      cases loc with
      | idle | entered | interrupted | returned | checking | undefined => cases next
      | sent =>
          cases next
          simp_all [Inv4]
      | blocked =>
          cases next
          simp_all [Inv4, Client.alarm]
      | top =>
          cases next
          exact inv
      | waiting =>
          cases socket <;> cases next
          simp_all [Inv4]
      | selected sock _ =>
          cases socket <;> cases next
          simp_all [Inv4]
      | received _ _ =>
          cases next
          simp_all [Inv4, Client.print]

/-- Every event keeps the invariant of the fifth version. -/
theorem inv5_next {s s' : Client α} {event : Event α} (inv : Inv5 s)
    (next : Version.dgclibcast5.next s event = some s')
    : Inv5 s' := by
  obtain ⟨loc, alarmed, pending, mask, jmpbuf, pipe, socket, printed, arrived, dropped, left⟩ := s
  cases event with
  | line =>
      cases loc <;> cases next
      exact inv
  | arrive reply =>
      cases next
      exact inv
  | expire =>
      cases alarmed <;> cases next
      cases loc <;> simp_all [Inv5]
  | deliver =>
      obtain ⟨signal, can, rfl⟩ := deliver_next next
      cases jmpbuf <;> cases loc <;> simp_all [Inv5, Version.deliverable, Version.recvfromAlarm,
        jump, Client.leave]
  | step =>
      cases loc with
      | idle | blocked | interrupted | returned | selected | checking | undefined => cases next
      | sent =>
          cases next
          simp_all [Inv5, Client.alarm]
      | top =>
          cases next
          simp_all [Inv5]
      | entered =>
          cases next
          exact inv
      | waiting =>
          cases socket <;> cases next
          exact inv
      | received _ _ =>
          cases next
          simp_all [Inv5, Client.print]

/-- Every event keeps the invariant of the sixth version. -/
theorem inv6_next {s s' : Client α} {event : Event α} (inv : Inv6 s)
    (next : Version.dgclibcast6.next s event = some s')
    : Inv6 s' := by
  obtain ⟨loc, alarmed, pending, mask, jmpbuf, pipe, socket, printed, arrived, dropped, left⟩ := s
  cases event with
  | line =>
      cases loc <;> cases next
      exact inv
  | arrive reply =>
      cases next
      cases loc <;> first | exact inv | simp_all [Inv6]
  | expire =>
      cases alarmed <;> cases next
      cases loc <;> cases pending <;> simp [Inv6] at inv ⊢ <;> grind
  | deliver =>
      obtain ⟨signal, can, rfl⟩ := deliver_next next
      cases signal
      cases alarmed <;> cases loc <;> simp [Inv6, Version.recvfromAlarm, Loc.isWaiting] at inv ⊢
        <;> grind
  | step =>
      cases loc with
      | idle | blocked | interrupted | returned | entered | undefined => cases next
      | sent =>
          cases next
          simp_all [Inv6, Client.alarm]
      | top =>
          cases next
          exact inv
      | waiting =>
          simp only [Version.next, Version.step, step6, Option.ite_none_left_eq_some] at next
          obtain ⟨ready, same⟩ := next
          cases same
          cases alarmed <;> simp [Inv6] at inv ready ⊢ <;> grind
      | selected sock _ =>
          cases sock <;> cases socket <;> cases next <;> simp_all [Inv6] <;> grind
      | received _ _ =>
          cases next
          exact inv
      | checking pipe =>
          cases pipe <;> cases next <;> cases pending <;> cases alarmed
            <;> simp [Inv6, Client.leave] at inv ⊢ <;> grind

-----------------------------------------------------------------------------------------
-- The steps to the end of the loop
-----------------------------------------------------------------------------------------

/-- A bound on the number of steps that the client makes here before it takes a reply. -/
def Loc.rank : Loc α → Nat
  | .received _ _ => 7
  | .checking false => 6
  | .top => 5
  | .entered => 4
  | .waiting => 3
  | .selected _ _ => 2
  | .checking true => 1
  | _ => 0

/-- A bound on the number of steps in the loop. -/
def Client.rank (s : Client α) : Nat := 6 * s.socket.length + s.loc.rank + 3 * s.pending.toNat

/-- What comes from outside brings the client no further and takes it back by an arrival only. -/
theorem rank_outside {v : Version} {s s' : Client α} {event : Event α} (fired : s.Fired)
    (outside : event.own = false) (next : v.next s event = some s')
    : s'.Fired ∧ s'.rank ≤ s.rank + 6 * event.isArrival.toNat := by
  cases event with
  | line => cases loc : s.loc <;> simp_all [Version.next, Client.Fired, Loc.inLoop]
  | arrive reply =>
      cases next
      refine ⟨fired, ?_⟩
      simp only [Client.rank, Event.isArrival, List.length_append, List.length_singleton,
        Bool.toNat_true]
      omega
  | expire => simp [Version.next, fired.2] at next
  | deliver | step => cases outside

/-- A step of the fourth version itself lowers the rank. -/
theorem rank4_own {s s' : Client α} {event : Event α} (inv : Inv4 s) (fired : s.Fired)
    (own : event.own) (next : Version.dgclibcast4.next s event = some s')
    (stays : s'.left = s.left)
    : s'.Fired ∧ s'.rank + 1 ≤ s.rank := by
  obtain ⟨loc, alarmed, pending, mask, jmpbuf, pipe, socket, printed, arrived, dropped, left⟩ := s
  cases event with
  | line | arrive | expire => cases own
  | deliver =>
      obtain ⟨signal, can, rfl⟩ := deliver_next next
      cases loc <;> simp_all [Inv4, Client.Fired, Loc.inLoop, Version.deliverable, Loc.isWaiting,
        Version.recvfromAlarm, Client.leave]
  | step =>
      cases loc with
      | idle | sent | blocked | undefined => cases fired.1
      | entered | interrupted | returned | checking => cases next
      | top | received =>
          cases next
          exact ⟨fired, by simp only [Client.rank, Loc.rank, Client.print]; omega⟩
      | waiting | selected =>
          cases socket <;> cases next
          exact ⟨fired, by simp only [Client.rank, Loc.rank, List.length_cons]; omega⟩

/-- A step of the fifth version itself lowers the rank. -/
theorem rank5_own {s s' : Client α} {event : Event α} (inv : Inv5 s) (fired : s.Fired)
    (jmpbuf : s.jmpbuf) (own : event.own) (next : Version.dgclibcast5.next s event = some s')
    (stays : s'.left = s.left)
    : s'.Fired ∧ s'.rank + 1 ≤ s.rank := by
  obtain ⟨loc, alarmed, pending, mask, jmpbuf, pipe, socket, printed, arrived, dropped, left⟩ := s
  cases event with
  | line | arrive | expire => cases own
  | deliver =>
      obtain ⟨signal, can, rfl⟩ := deliver_next next
      cases loc <;> simp_all [Version.recvfromAlarm, jump, Client.leave]
  | step =>
      cases loc with
      | idle | sent | blocked | undefined => cases fired.1
      | interrupted | returned | selected | checking => cases next
      | top | entered | received =>
          cases next
          exact ⟨fired, by simp only [Client.rank, Loc.rank, Client.print]; omega⟩
      | waiting =>
          cases socket <;> cases next
          exact ⟨fired, by simp only [Client.rank, Loc.rank, List.length_cons]; omega⟩

/-- A step of the sixth version itself lowers the rank. -/
theorem rank6_own {s s' : Client α} {event : Event α} (inv : Inv6 s) (fired : s.Fired)
    (own : event.own) (next : Version.dgclibcast6.next s event = some s')
    (stays : s'.left = s.left)
    : s'.Fired ∧ s'.rank + 1 ≤ s.rank := by
  obtain ⟨loc, alarmed, pending, mask, jmpbuf, pipe, socket, printed, arrived, dropped, left⟩ := s
  cases event with
  | line | arrive | expire => cases own
  | deliver =>
      obtain ⟨signal, can, rfl⟩ := deliver_next next
      cases signal
      cases loc <;> simp_all [Client.Fired, Loc.inLoop, Loc.isWaiting,
        Version.recvfromAlarm, Client.rank, Loc.rank]
  | step =>
      cases loc with
      | idle | sent | blocked | undefined => cases fired.1
      | interrupted | returned | entered => cases next
      | top =>
          cases next
          exact ⟨fired, by simp only [Client.rank, Loc.rank]; omega⟩
      | waiting =>
          simp only [Version.next, Version.step, step6, Option.ite_none_left_eq_some] at next
          obtain ⟨ready, same⟩ := next
          cases same
          exact ⟨fired, by simp only [Client.rank, Loc.rank]; omega⟩
      | selected sock pipe =>
          cases sock <;> cases pipe <;> cases socket <;> cases next <;>
            simp_all [Inv6, Client.rank, Loc.rank, Client.Fired, Loc.inLoop] <;> omega
      | received reply pipe =>
          cases next
          exact ⟨fired, by cases pipe <;> simp only [Client.rank, Loc.rank, Client.print] <;> omega⟩
      | checking pipe =>
          cases pipe <;> cases next
          · exact ⟨fired, by simp only [Client.rank, Loc.rank]; omega⟩
          · simp [Client.leave] at stays

/-- After the alarm the signal is pending, and `pselect` lets it through. -/
theorem goesOn4 {s : Client α} (inv : Inv4 s) (fired : s.Fired)
    : ∃ event : Event α, event.own ∧ (Version.dgclibcast4.next s event).isSome := by
  obtain ⟨loc, alarmed, pending, mask, jmpbuf, pipe, socket, printed, arrived, dropped, left⟩ := s
  cases loc with
  | idle | sent | blocked | undefined => cases fired.1
  | entered | interrupted | returned | checking => cases inv
  | top | received => exact ⟨.step, rfl, rfl⟩
  | waiting =>
      refine ⟨.deliver, rfl, ?_⟩
      simp_all [Inv4, Client.Fired, Version.next, Version.deliverable, Loc.isWaiting]
  | selected =>
      refine ⟨.step, rfl, ?_⟩
      cases socket with
      | nil => exact absurd rfl inv.2.2.2
      | cons reply rest => rfl

/-- After the alarm the signal can be delivered. -/
theorem deliverable5 {s : Client α} (inv : Inv5 s) (fired : s.Fired)
    : s.pending && Version.dgclibcast5.deliverable s := by
  obtain ⟨loc, alarmed, pending, mask, jmpbuf, pipe, socket, printed, arrived, dropped, left⟩ := s
  cases loc <;> simp_all [Inv5, Client.Fired, Loc.inLoop, Version.deliverable]

/-- After the alarm the fifth version can step. -/
theorem goesOn5 {s : Client α} (inv : Inv5 s) (fired : s.Fired)
    : ∃ event : Event α, event.own ∧ (Version.dgclibcast5.next s event).isSome := by
  refine ⟨.deliver, rfl, ?_⟩
  have signal : s.pending && Version.dgclibcast5.deliverable s := deliverable5 inv fired
  simp [Version.next, signal]

/-- After the alarm the signal is pending or its byte is in the pipe. -/
theorem goesOn6 {s : Client α} (inv : Inv6 s) (fired : s.Fired)
    : ∃ event : Event α, event.own ∧ (Version.dgclibcast6.next s event).isSome := by
  obtain ⟨loc, alarmed, pending, mask, jmpbuf, pipe, socket, printed, arrived, dropped, left⟩ := s
  cases loc with
  | idle | sent | blocked | undefined => cases fired.1
  | entered | interrupted | returned => cases inv.2
  | top | received => exact ⟨.step, rfl, rfl⟩
  | waiting =>
      cases pending with
      | true =>
          refine ⟨.deliver, rfl, ?_⟩
          simp_all [Inv6, Client.Fired, Version.next, Version.deliverable, Loc.isWaiting]
      | false =>
          -- The handler has run, so that there is a byte in the pipe.
          refine ⟨.step, rfl, ?_⟩
          simp_all [Inv6, Client.Fired, Version.next, Version.step, step6]
  | selected sock pipe =>
      refine ⟨.step, rfl, ?_⟩
      cases sock with
      | false => rfl
      | true =>
          cases socket with
          | nil => exact absurd rfl (inv.2.2.1 rfl)
          | cons reply rest => rfl
  | checking pipe =>
      exact ⟨.step, rfl, by cases pipe <;> rfl⟩

/-- The loops that were left are only counted. -/
theorem left_le_next {v : Version} {s s' : Client α} {event : Event α}
    (next : v.next s event = some s')
    : s.left ≤ s'.left := by
  cases event with
  | line => grind [Version.next]
  | arrive reply =>
      cases next
      exact Nat.le_refl _
  | expire => grind [Version.next]
  | deliver =>
      obtain ⟨signal, can, rfl⟩ := deliver_next next
      cases v <;> grind [Version.recvfromAlarm, jump, Client.leave]
  | step =>
      cases v with
      | dgclibcast1 =>
          replace next : step1 s = some s' := next
          grind [step1, Client.alarm, Client.recvfrom, Client.print]
      | dgclibcast3 =>
          replace next : step3 s = some s' := next
          grind [step3, Client.alarm, Client.recvfrom, Client.print, Client.leave]
      | dgclibcast4 =>
          replace next : step4 s = some s' := next
          grind [step4, Client.alarm, Client.recvfrom, Client.print]
      | dgclibcast5 =>
          replace next : step5 s = some s' := next
          grind [step5, Client.alarm, Client.recvfrom, Client.print]
      | dgclibcast6 =>
          replace next : step6 s = some s' := next
          grind [step6, Client.alarm, Client.recvfrom, Client.print, Client.leave]

/-- The loops that have been left only grow. -/
theorem left_le_run {v : Version} {s s' : Client α} {events : List (Event α)}
    (run : runEvents v.next s events = some s')
    : s.left ≤ s'.left :=
  runEvents_invariant (P := fun t => s.left ≤ t.left)
    (fun next le => Nat.le_trans le (left_le_next next)) run (Nat.le_refl _)

/-- The rank is bounded by what is in the socket. -/
theorem rank_le (s : Client α) : s.rank ≤ 6 * s.socket.length + 10 := by
  have loc : s.loc.rank ≤ 7 := by
    fun_cases Loc.rank s.loc <;> simp
  have pending : s.pending.toNat ≤ 1 := Bool.toNat_le _
  simp only [Client.rank]
  omega

/-- A jump buffer that is set stays set. -/
theorem jmpbuf_next {s s' : Client α} {event : Event α}
    (next : Version.dgclibcast5.next s event = some s') (jmpbuf : s.jmpbuf)
    : s'.jmpbuf := by
  cases event with
  | line => grind [Version.next]
  | arrive reply =>
      cases next
      exact jmpbuf
  | expire => grind [Version.next]
  | deliver =>
      obtain ⟨signal, can, rfl⟩ := deliver_next next
      grind [Version.recvfromAlarm, jump, Client.leave]
  | step =>
      replace next : step5 s = some s' := next
      grind [step5, Client.alarm, Client.recvfrom, Client.print]

/-- Until the loop is left each step of the client itself counts, by induction on the events. -/
theorem run_rank {v : Version} {P : Client α → Prop}
    (kept : ∀ {s s' : Client α} {event}, P s → v.next s event = some s' → P s')
    (forward : ∀ {s s' : Client α} {event : Event α}, P s → s.Fired → event.own
      → v.next s event = some s' → s'.left = s.left → s'.Fired ∧ s'.rank + 1 ≤ s.rank)
    {events : List (Event α)} {s s' : Client α} (holds : P s) (fired : s.Fired)
    (run : runEvents v.next s events = some s') (same : s'.left = s.left)
    : P s' ∧ s'.Fired
      ∧ s'.rank + events.countP Event.own ≤ s.rank + 6 * events.countP Event.isArrival := by
  induction events generalizing s with
  | nil =>
      cases run
      exact ⟨holds, fired, by simp⟩
  | cons event rest ih =>
      obtain ⟨middle, next, later⟩ := runEvents_cons run
      -- The loop was left neither in this step nor in a later one.
      have here : middle.left = s.left :=
        Nat.le_antisymm (same ▸ left_le_run later) (left_le_next next)
      have now : middle.Fired
          ∧ middle.rank + event.own.toNat ≤ s.rank + 6 * event.isArrival.toNat := by
        cases own : event.own with
        | true =>
            obtain ⟨fired', less⟩ := forward holds fired own next here
            exact ⟨fired', Nat.le_add_right_of_le less⟩
        | false => exact rank_outside fired own next
      obtain ⟨fired', less⟩ := now
      obtain ⟨holds', fired', bound⟩ := ih (kept holds next) fired' later (same.trans here.symm)
      refine ⟨holds', fired', ?_⟩
      rw [List.countP_cons, List.countP_cons]
      cases own : event.own <;> cases arrival : event.isArrival
        <;> simp [own, arrival] at less ⊢ <;> omega

/-- A version leaves its loop where its invariant lets it go on and each step of its own brings it
forward.
-/
theorem leaves_of_forward {v : Version} {P : Client α → Prop}
    (kept : ∀ {s s' : Client α} {event}, P s → v.next s event = some s' → P s')
    (goesOn : ∀ {s : Client α}, P s → s.Fired
      → ∃ event : Event α, event.own ∧ (v.next s event).isSome)
    (forward : ∀ {s s' : Client α} {event : Event α}, P s → s.Fired → event.own
      → v.next s event = some s' → s'.left = s.left → s'.Fired ∧ s'.rank + 1 ≤ s.rank)
    {s : Client α} (holds : P s) (fired : s.Fired)
    : v.Leaves s := by
  intro events s' run same
  obtain ⟨holds', fired', bound⟩ := run_rank kept forward holds fired run same
  refine ⟨fired', goesOn holds' fired', ?_⟩
  have start : s.rank ≤ 6 * s.socket.length + 10 := rank_le s
  omega

-----------------------------------------------------------------------------------------
-- The versions
-----------------------------------------------------------------------------------------

/-- The invariant holds in every state of the fourth version. -/
theorem inv4_of_comes {s : Client α} (comes : Version.dgclibcast4.Comes s) : Inv4 s :=
  comes.invariant ⟨rfl, rfl⟩ fun next inv => inv4_next inv next

/-- The invariant holds in every state of the fifth version. -/
theorem inv5_of_comes {s : Client α} (comes : Version.dgclibcast5.Comes s) : Inv5 s :=
  comes.invariant ⟨rfl, rfl, rfl⟩ fun next inv => inv5_next inv next

/-- The invariant holds in every state of the sixth version. -/
theorem inv6_of_comes {s : Client α} (comes : Version.dgclibcast6.Comes s) : Inv6 s :=
  comes.invariant ⟨rfl, rfl, rfl, rfl⟩ fun next inv => inv6_next inv next

/-- After the alarm the fourth version leaves its loop. -/
theorem dgclibcast4_leaves {s : Client α} (comes : Version.dgclibcast4.Comes s) (fired : s.Fired)
    : Version.dgclibcast4.Leaves s :=
  leaves_of_forward inv4_next goesOn4 rank4_own (inv4_of_comes comes) fired

/-- After the alarm the fifth version leaves its loop, if its jump buffer is set. -/
theorem dgclibcast5_leaves {s : Client α} (comes : Version.dgclibcast5.Comes s) (fired : s.Fired)
    (jmpbuf : s.jmpbuf)
    : Version.dgclibcast5.Leaves s :=
  leaves_of_forward (P := fun t => Inv5 t ∧ t.jmpbuf)
    (fun both next => ⟨inv5_next both.1 next, jmpbuf_next next both.2⟩)
    (fun both fired => goesOn5 both.1 fired)
    (fun both fired own next stays => rank5_own both.1 fired both.2 own next stays)
    ⟨inv5_of_comes comes, jmpbuf⟩ fired

/-- After the alarm the sixth version leaves its loop. -/
theorem dgclibcast6_leaves {s : Client α} (comes : Version.dgclibcast6.Comes s) (fired : s.Fired)
    : Version.dgclibcast6.Leaves s :=
  leaves_of_forward inv6_next goesOn6 rank6_own (inv6_of_comes comes) fired

/-- For the fifth version the jump buffer decides. -/
theorem dgclibcast5_leaves_iff {s : Client α} (comes : Version.dgclibcast5.Comes s)
    (fired : s.Fired)
    : Version.dgclibcast5.Leaves s ↔ s.jmpbuf := by
  refine ⟨fun leaves => ?_, dgclibcast5_leaves comes fired⟩
  by_contra unset
  have signal : s.pending && Version.dgclibcast5.deliverable s :=
    deliverable5 (inv5_of_comes comes) fired
  have run : runEvents Version.dgclibcast5.next s [.deliver]
      = some (jump { s with pending := false }) := by
    simp [runEvents, Version.next, signal, Version.recvfromAlarm]
  have away := (leaves [.deliver] _ run (by simp [jump, unset])).1.1
  simp [jump, unset, Loc.inLoop] at away

/-- The signal arrives between `alarm` and `sigsetjmp`. -/
theorem dgclibcast5_undefined
    : ∃ s : Client α, Version.dgclibcast5.Comes s ∧ s.loc = .undefined :=
  ⟨{ loc := .undefined }, ⟨early, rfl⟩, rfl⟩

/-- After the alarm `dgclibcast4.c` and `dgclibcast6.c` leave the loop, `dgclibcast5.c` does so
where `sigsetjmp` has been called, and `dgclibcast1.c` and `dgclibcast3.c` can stay in it for ever.
-/
theorem dgCli_leaves (α : Type)
    : (∀ s : Client α, Version.dgclibcast4.Comes s → s.Fired → Version.dgclibcast4.Leaves s)
      ∧ (∀ s : Client α, Version.dgclibcast6.Comes s → s.Fired → Version.dgclibcast6.Leaves s)
      ∧ (∀ s : Client α, Version.dgclibcast5.Comes s → s.Fired
        → (Version.dgclibcast5.Leaves s ↔ s.jmpbuf))
      ∧ (∃ s : Client α, Version.dgclibcast5.Comes s ∧ s.loc = .undefined)
      ∧ (∃ s : Client α, Version.dgclibcast1.Comes s ∧ Version.dgclibcast1.Stays s)
      ∧ ∃ s : Client α, Version.dgclibcast3.Comes s ∧ Version.dgclibcast3.Stays s :=
  ⟨fun _ => dgclibcast4_leaves, fun _ => dgclibcast6_leaves, fun _ => dgclibcast5_leaves_iff,
    dgclibcast5_undefined, dgclibcast1_stays, dgclibcast3_stays⟩

end Minions.Unp.Bcast
