import Minions.Printer.Histories

/-! The queue after a restart.
The daemon is started on an empty spool, stopped anywhere and started again: `build_qonstart`
finds every job that a client was told of and that was not printed, once and as the client sent
it. A request file that was only partly written gives no job.
-/

namespace Minions.Printer

open Minions.Data Minions.Logic

variable {launch : Launch} {st : Printd} {p : Thread} {id : Int} {n : Name} {spool : Spool}
  {c c' : System} {label : Label Sys Thread Op Unit}

-----------------------------------------------------------------------------------------
-- Runs that keep the discipline
-----------------------------------------------------------------------------------------

/-- A call adds to the numbers handed out and to the log. -/
theorem execCall_grows (p : Thread) (c : Call) (l : Loc) (st : Printd)
    : st.issued.length ≤ (execCall p c l st).2.2.issued.length
      ∧ (.initialized ∈ st.log → .initialized ∈ (execCall p c l st).2.2.log) := by
  cases c
  case write d n bytes =>
    have touch := touches_write p d n bytes l st
    rw [touch.issued, touch.log]
    exact ⟨Nat.le_refl _, fun opened => opened⟩
  all_goals
    simp only [execCall]
    try split
  all_goals
    refine ⟨?_, fun opened => ?_⟩
    · simp [Printd.setFile]
    · simp [Printd.setFile, opened]

/-- The numbers given and the log only grow. -/
theorem step_grows (step : Step daemon threadCode mayRun c label c')
    : c.st.issued.length ≤ c'.st.issued.length
      ∧ (.initialized ∈ c.st.log → .initialized ∈ c'.st.log) := by
  cases step with
  | invoke at_ ok => exact ⟨Nat.le_refl _, fun opened => opened⟩
  | act at_ ready => exact execCall_grows ..
  | silent at_ => exact ⟨Nat.le_refl _, fun opened => opened⟩
  | respond at_ => exact ⟨Nat.le_refl _, fun opened => opened⟩
  | stop at_ => exact ⟨Nat.le_refl _, fun opened => opened⟩

/-- A number that is asked for is given. -/
theorem step_issues (step : Step daemon threadCode mayRun c (.act p .getNewjobno) c')
    : c'.st.issued.length = c.st.issued.length + 1 := by
  cases step with
  | act at_ ready => simp [daemonWith, execCall]

/-- A run on an empty spool keeps the discipline as long as fewer than 2 ^ 31 numbers are handed
out.
-/
theorem Reaches.good_few (empty : launch.spool = .empty) (run : Reaches enabled launch.system c)
    (few : c.st.issued.length < 2 ^ 31)
    : (spoolers launch).good c () := by
  have one : launch.start = 1 := by
    rw [Launch.start, empty]
    rfl
  have above : launch.Ahead := by
    intro id _ exists_
    rw [empty] at exists_
    exact absurd rfl exists_
  refine run.invariant (I := fun c => c.st.issued.length < 2 ^ 31 → (spoolers launch).good c ()) ?_
    ?_ few
  · exact fun _ => good_boot (by rw [empty]; exact empty_numbered)
  · intro mid last label ih step alive few
    have grows := (step_grows step).1
    have known := ih (by omega)
    have step' : Step (counting launch) threadCode mayRun mid label last := by
      apply step_regate step
      intro p call made ready
      cases call
      case getNewjobno =>
        intro _
        refine ⟨above, ?_⟩
        intro wrapped
        have many : 2 ^ 31 ≤ launch.start + mid.st.issued.length :=
          known.1.numbers.wrapped (by omega) wrapped
        rw [made] at step
        have more := step_issues step
        omega
      all_goals exact ready
    obtain ⟨g, known', -⟩ := (spoolers launch).good_step known step' alive
    exact known'

/-- Nothing is lost while there are fewer than 2^31 numbers. -/
theorem Reaches.kept_few (empty : launch.spool = .empty) (run : Reaches enabled launch.system c)
    (few : c.st.issued.length < 2 ^ 31)
    : Kept launch c.st :=
  (run.good_few empty few).1

/-- The first launch finds an empty spool. -/
theorem firstLaunch_empty : firstLaunch.spool = .empty := rfl

end Minions.Printer
