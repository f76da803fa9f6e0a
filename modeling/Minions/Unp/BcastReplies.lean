import Minions.Unp.BcastLoops

/-! What becomes of the replies to the broadcast clients. Only `siglongjmp` in `dgclibcast5.c` can
lose one that the client has received.
-/

namespace Minions.Unp.Bcast

open Minions.Logic

variable {α : Type}

/-- The replies received are those printed and those dropped, and the printed ones come in the
order in which they arrived.
-/
def Client.Kept (s : Client α) : Prop :=
  ∃ taken, s.arrived = taken ++ (s.hand ++ s.socket) ∧ s.printed.Sublist taken
    ∧ taken.Perm (s.printed ++ s.dropped)

/-- What a step of the client does with the replies: nothing but take one, or print one, or,
in `dgclibcast5.c`, give one up.
-/
theorem own_replies {v : Version} {s s' : Client α} {event : Event α} (own : event.own)
    (safe : v = .dgclibcast5 → s.hand = [] ∨ s.jmpbuf)
    (next : v.next s event = some s')
    : s'.arrived = s.arrived
      ∧ (s'.hand ++ s'.socket = s.hand ++ s.socket ∧ s'.printed = s.printed
          ∧ s'.dropped = s.dropped
        ∨ (∃ reply, s.hand = [reply] ∧ s'.hand ++ s'.socket = s.socket
          ∧ s'.printed = s.printed ++ [reply] ∧ s'.dropped = s.dropped)
        ∨ v = .dgclibcast5 ∧ ∃ reply, s.hand = [reply] ∧ s'.hand ++ s'.socket = s.socket
          ∧ s'.printed = s.printed ∧ s'.dropped = s.dropped ++ [reply]) := by
  cases event with
  | line | arrive | expire => cases own
  | deliver =>
      obtain ⟨signal, can, rfl⟩ := deliver_next next
      cases v <;> cases set : s.jmpbuf <;> cases loc : s.loc <;>
        simp_all [Version.recvfromAlarm, jump, Client.leave, Client.hand, Loc.isWaiting]
  | step =>
      cases v with
      | dgclibcast1 =>
          replace next : step1 s = some s' := next
          grind [step1, Client.alarm, Client.recvfrom, Client.print, Client.hand]
      | dgclibcast3 =>
          replace next : step3 s = some s' := next
          grind [step3, Client.alarm, Client.recvfrom, Client.print, Client.leave, Client.hand]
      | dgclibcast4 =>
          replace next : step4 s = some s' := next
          grind [step4, Client.alarm, Client.recvfrom, Client.print, Client.hand]
      | dgclibcast5 =>
          replace next : step5 s = some s' := next
          grind [step5, Client.alarm, Client.recvfrom, Client.print, Client.hand]
      | dgclibcast6 =>
          replace next : step6 s = some s' := next
          grind [step6, Client.alarm, Client.recvfrom, Client.print, Client.leave, Client.hand]

/-- Where a reply is in hand the jump buffer is set. -/
theorem inv5_safe {s : Client α} (inv : Inv5 s) : s.hand = [] ∨ s.jmpbuf := by
  cases loc : s.loc <;> simp_all [Inv5, Client.hand]

/-- What comes from outside touches no reply that was received. -/
theorem outside_replies {v : Version} {s s' : Client α} {event : Event α}
    (outside : event.own = false) (next : v.next s event = some s')
    : s'.hand = s.hand ∧ s'.printed = s.printed ∧ s'.dropped = s.dropped
      ∧ ∃ replies, s'.socket = s.socket ++ replies ∧ s'.arrived = s.arrived ++ replies := by
  cases event with
  | line =>
      cases loc : s.loc <;> simp only [Version.next, loc] at next <;> cases next
      exact ⟨by simp [Client.hand, loc], rfl, rfl, [], by simp⟩
  | arrive reply =>
      cases next
      exact ⟨rfl, rfl, rfl, [reply], rfl, rfl⟩
  | expire =>
      cases alarmed : s.alarmed <;> simp only [Version.next, alarmed] at next <;> cases next
      exact ⟨rfl, rfl, rfl, [], by simp⟩
  | deliver | step => cases outside

/-- Every event keeps the accounts of the replies. -/
theorem kept_next {v : Version} {s s' : Client α} {event : Event α}
    (safe : v = .dgclibcast5 → s.hand = [] ∨ s.jmpbuf) (next : v.next s event = some s')
    (kept : s.Kept)
    : s'.Kept := by
  obtain ⟨taken, arrived, order, all⟩ := kept
  cases own : event.own with
  | false =>
      obtain ⟨hand, printed, dropped, replies, socket, more⟩ := outside_replies own next
      exact ⟨taken, by simp [more, arrived, hand, socket], printed ▸ order,
        by rw [printed, dropped]; exact all⟩
  | true =>
      obtain ⟨same, ⟨rest, printed, dropped⟩ | ⟨reply, hand, rest, printed, dropped⟩
        | ⟨_, reply, hand, rest, printed, dropped⟩⟩ := own_replies own safe next
      · exact ⟨taken, by rw [same, arrived, rest], printed ▸ order,
          by rw [printed, dropped]; exact all⟩
      · refine ⟨taken ++ [reply], by simp [same, arrived, rest, hand], ?_, ?_⟩
        · rw [printed]
          exact order.append (List.Sublist.refl _)
        · rw [printed, dropped, List.append_assoc]
          exact (all.append_right [reply]).trans (by
            rw [List.append_assoc]
            exact List.perm_append_comm.append_left s.printed)
      · refine ⟨taken ++ [reply], by simp [same, arrived, rest, hand], ?_, ?_⟩
        · rw [printed]
          exact order.trans (List.sublist_append_left _ _)
        · rw [printed, dropped, ← List.append_assoc]
          exact all.append_right [reply]

/-- Only the fifth version drops a reply. -/
theorem dropped_next {v : Version} (other : v ≠ .dgclibcast5) {s s' : Client α} {event : Event α}
    (next : v.next s event = some s')
    : s'.dropped = s.dropped := by
  cases own : event.own with
  | false => exact (outside_replies own next).2.2.1
  | true =>
      obtain ⟨same, ⟨rest, printed, dropped⟩ | ⟨reply, hand, rest, printed, dropped⟩
        | ⟨five, _⟩⟩ := own_replies own (fun five => absurd five other) next
      · exact dropped
      · exact dropped
      · exact absurd five other

/-- The accounts of the replies are right in every state. -/
theorem comes_kept {v : Version} {s : Client α} (comes : v.Comes s) : s.Kept := by
  have both : (v = .dgclibcast5 → Inv5 s) ∧ s.Kept := by
    refine comes.invariant (P := fun t => (v = .dgclibcast5 → Inv5 t) ∧ t.Kept)
      ⟨fun _ => ⟨rfl, rfl, rfl⟩, [], rfl, .slnil, .nil⟩ ?_
    intro s event s' next both
    refine ⟨fun five => ?_, kept_next (fun five => inv5_safe (both.1 five)) next both.2⟩
    subst five
    exact inv5_next (both.1 rfl) next
  exact both.2

/-- The other versions have dropped nothing. -/
theorem comes_dropped {v : Version} (other : v ≠ .dgclibcast5) {s : Client α} (comes : v.Comes s)
    : s.dropped = [] :=
  comes.invariant (P := fun t => t.dropped = []) rfl
    fun next none => (dropped_next other next).trans none

/-- In every run each reply that has arrived is printed once, or waits in the socket or at the
client, or was given up by `dgclibcast5.c`; and the replies are printed in their order.
-/
theorem run_replies (v : Version) (events : List (Event α)) (s : Client α)
    (run : runEvents v.next {} events = some s)
    : s.arrived.Perm (s.printed ++ s.dropped ++ (s.hand ++ s.socket))
      ∧ s.printed.Sublist s.arrived
      ∧ (v ≠ .dgclibcast5 → s.arrived = s.printed ++ (s.hand ++ s.socket)) := by
  obtain ⟨taken, arrived, order, all⟩ := comes_kept ⟨events, run⟩
  refine ⟨arrived ▸ all.append_right _, ?_, fun other => ?_⟩
  · rw [arrived]
    exact order.trans (List.sublist_append_left _ _)
  · rw [comes_dropped other ⟨events, run⟩, List.append_nil] at all
    rw [arrived, order.eq_of_length all.length_eq.symm]

/-- The signal arrives after `recvfrom` and before `printf`. -/
def late (reply : α) : List (Event α) :=
  [.line, .step, .step, .step, .arrive reply, .step, .expire, .deliver]

/-- Witness: `dgclibcast5.c` gives up a reply. -/
theorem run_replies_late
    : ∃ s : Client Nat, runEvents Version.dgclibcast5.next {} (late 7) = some s
      ∧ s.dropped = [7] ∧ s.arrived.Perm (s.printed ++ s.dropped ++ (s.hand ++ s.socket)) :=
  ⟨{ jmpbuf := true, arrived := [7], dropped := [7], left := 1 }, rfl, rfl,
    (run_replies .dgclibcast5 (late 7) _ rfl).1⟩

end Minions.Unp.Bcast
