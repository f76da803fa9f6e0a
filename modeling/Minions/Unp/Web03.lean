import Minions.Unp.WebThreads

/-! The web client of `web03.c`, whose `main` waits for a condition.
A thread stores `F_DONE` before it locks the mutex, and `main` joins every thread that it finds
done while it holds the mutex.
-/

namespace Minions.Unp.Web03

open Minions.Data Minions.Logic Minions.Unp.WebThreads

variable {nfiles : Nat}

/-- The next step of `main`, if it is not blocked. -/
def mainStep (s : Client nfiles) : Option (Client nfiles) :=
  match s.loc with
  | .mark i =>
      some { s.setFile i { s.file i with fFlags := .connecting } with loc := .create i }
  | .create i =>
      let f := s.file i
      some { s.setFile i { f with thread := .connecting, starts := f.starts + 1 } with
        nconn := s.nconn + 1
        nlefttoconn := s.nlefttoconn - 1
        loc := .inner }
  | .lock => lockStep s
  | .test =>
      some { s with loc := if s.ndone = 0 then .wait else .scan (List.finRange nfiles) }
  | .wait => some { s with mutex := none, loc := .waiting }
  | .waiting => none
  | .woken => lockStep s
  | .outer => loopStep .mark s
  | .inner => loopStep .mark s
  | .find _ => loopStep .mark s
  | _ => joinStep s

def step (s : Client nfiles) : Event nfiles → Option (Client nfiles)
  | .main => mainStep s
  | .thread i => threadStep true s i
  | .server i n => serverStep s i n
  | .wakeup => if s.loc = .waiting then some { s with loc := .woken } else none

/-- What `main` has found out on the way to where it is. -/
def Placed (s : Client nfiles) : Prop :=
  match s.loc with
  | .inner => 0 < s.nlefttoread
  | .find rest =>
      0 < s.nlefttoread ∧ s.nconn < s.maxnconn ∧ ∃ i ∈ rest, (s.file i).thread = .absent
  | .mark _ => 0 < s.nlefttoread ∧ s.nconn < s.maxnconn
  | .create _ => 0 < s.nlefttoread ∧ s.nconn < s.maxnconn
  | .lock => 0 < s.nconn
  | .test => 0 < s.nconn
  | .wait => 0 < s.nconn ∧ s.ndone = 0
  | .waiting =>
      0 < s.nconn ∧ ∀ i, (s.file i).thread ≠ .unlocking ∧ (s.file i).thread ≠ .returned
  | .woken => 0 < s.nconn
  | .exit => s.nlefttoread = 0
  | .quit => False
  | _ => True

/-- The counters of `main`. A thread that has been joined counts until it is taken off. -/
structure Counts (s : Client nfiles) : Prop where
  nlefttoconn : s.nlefttoconn = tally File.absent s.file
  nconn : s.nconn = tally File.out s.file + s.loc.pending
  nlefttoread : s.nlefttoread = s.nconn + s.nlefttoconn
  bound : s.nconn ≤ s.maxnconn
  positive : 1 ≤ s.maxnconn

structure Inv (s : Client nfiles) : Prop extends WebThreads.Inv false s where
  counts : Counts s
  placed : Placed s

variable {s s' : Client nfiles} {event : Event nfiles} {i : Fin nfiles} {f : File}

/-- The invariant holds at the start. -/
theorem start_inv (nfiles : Nat) {maxnconn : Int} (positive : 1 ≤ maxnconn)
    : Inv (start nfiles maxnconn) := by
  refine ⟨WebThreads.start_inv false nfiles maxnconn, ?_, trivial⟩
  constructor
  · simp [start, tally, File.absent]
  · simp [start, tally, File.out, Loc.pending]
  · simp [start]
  · show 0 ≤ maxnconn
    omega
  · exact positive

/-- The loop may mark a file. -/
theorem mark_expects : Expects false (Loc.mark : Fin nfiles → Loc nfiles) :=
  ⟨fun _ => ⟨rfl, rfl, nofun⟩, fun _ => rfl, fun absent => ⟨by simp [absent], by simp [absent]⟩⟩

-----------------------------------------------------------------------------------------
-- The shared invariant along a run
-----------------------------------------------------------------------------------------

/-- `main` marks a file that has no thread yet. -/
theorem mark_inv (inv : WebThreads.Inv false s) (here : s.loc = .mark i)
    : WebThreads.Inv false
        { s.setFile i { s.file i with fFlags := .connecting } with loc := .create i } := by
  have ok := inv.loc
  rw [here] at ok
  have absent : (s.file i).thread = .absent := ok.1.mpr rfl
  refine ⟨?_, forall_setFile (P := FlagsOk (.create i)) ?_ ?_,
    forall_setFile (P := fun _ => StartsOk) (inv.starts i) fun j _ => inv.starts j, ?_⟩
  · exact inv.guarded.quiet rfl rfl rfl (fun _ => id) (by rw [here]; rfl) (by rw [here]; rfl) nofun
  · simp [FlagsOk, absent]
  · exact fun j other => (inv.flags j).elsewhere other (.inr (.inl here)) rfl
  · simp [LocOk, Client.setFile, absent]

/-- `main` creates the thread of the file that it has marked. -/
theorem create_inv (inv : WebThreads.Inv false s) (here : s.loc = .create i)
    : WebThreads.Inv false
        { s.setFile i { s.file i with
            thread := .connecting, starts := (s.file i).starts + 1 } with
          nconn := s.nconn + 1, nlefttoconn := s.nlefttoconn - 1, loc := .inner } := by
  have ok := inv.loc
  rw [here] at ok
  have absent : (s.file i).thread = .absent := ok.1
  have marked : (s.file i).fFlags = .connecting := ok.2.resolve_left fun same => by cases same
  have starts := inv.starts i
  simp only [StartsOk, absent, if_pos] at starts
  have guarded : Guarded { s.setFile i { s.file i with
      thread := .connecting, starts := (s.file i).starts + 1 } with loc := .inner } :=
    inv.guarded.quiet absent rfl rfl (by simp) (by rw [here]; rfl) (by rw [here]; rfl) (by simp)
  refine ⟨⟨guarded.threads, guarded.main, guarded.threadLoaded, guarded.mainLoaded,
      guarded.ndone⟩,
    forall_setFile (P := FlagsOk .inner) ?_ ?_,
    forall_setFile (P := fun _ => StartsOk) ?_ fun j _ => inv.starts j, trivial⟩
  · simp [FlagsOk, marked]
  · exact fun j other => (inv.flags j).elsewhere other (.inl here) rfl
  · simp [StartsOk, starts]

/-- Every step keeps the invariant that the programs share, by the kind of event. -/
theorem step_base (h : step s event = some s') (inv : WebThreads.Inv false s)
    : WebThreads.Inv false s' := by
  cases event with
  | thread i => exact inv.threadStep h
  | server i n => exact inv.serverStep h
  | wakeup =>
      simp only [step] at h
      split at h <;> cases h
      next here =>
        refine inv.move ?_ rfl (by rw [here]; rfl) rfl trivial
        exact inv.guarded.move here rfl rfl nofun
  | main =>
      simp only [step, mainStep] at h
      split at h
      · next i here =>
          cases h
          exact mark_inv inv here
      · next i here =>
          cases h
          exact create_inv inv here
      · next here => exact inv.lockStep (by rw [here]; rfl) (by rw [here]; rfl) h
      · next here =>
          cases h
          split
          · exact inv.move (inv.guarded.move here rfl rfl nofun) rfl (by rw [here]; rfl) rfl trivial
          · exact inv.move (inv.guarded.move here rfl rfl nofun) rfl (by rw [here]; rfl) rfl trivial
      · next here =>
          cases h
          refine inv.move ?_ rfl (by rw [here]; rfl) rfl trivial
          exact inv.guarded.release (by rw [here]; rfl) (by rw [here]; rfl) rfl rfl nofun
      · cases h
      · next here => exact inv.lockStep (by rw [here]; rfl) (by rw [here]; rfl) h
      · exact inv.loopStep mark_expects h
      · exact inv.loopStep mark_expects h
      · exact inv.loopStep mark_expects h
      · exact inv.joinStep h

-----------------------------------------------------------------------------------------
-- The counters along a run
-----------------------------------------------------------------------------------------

/-- As many files have no thread, and as many threads are out. -/
theorem Counts.keep (counts : Counts s)
    (absent : tally File.absent s'.file = tally File.absent s.file)
    (out : tally File.out s'.file = tally File.out s.file) (counters : SameCounters s s')
    (pending : s'.loc.pending = s.loc.pending)
    : Counts s' := by
  obtain ⟨nlefttoconn, nconn, nlefttoread, bound, positive⟩ := counts
  constructor
  · rw [absent, counters.nlefttoconn, nlefttoconn]
  · rw [out, counters.nconn, pending, nconn]
  · rw [counters.nlefttoread, counters.nconn, counters.nlefttoconn, nlefttoread]
  · rwa [counters.nconn, counters.maxnconn]
  · rwa [counters.maxnconn]

/-- A file changes, and its thread is as much there as before. -/
theorem Counts.change (counts : Counts s) (file : s'.file = Function.update s.file i f)
    (absent : f.absent = (s.file i).absent) (out : f.out = (s.file i).out)
    (counters : SameCounters s s') (pending : s'.loc.pending = s.loc.pending)
    : Counts s' := by
  refine counts.keep ?_ ?_ counters pending
  · rw [file, tally_update_same absent]
  · rw [file, tally_update_same out]

/-- `main` goes on, and no file changes. -/
theorem Counts.move (counts : Counts s) (file : s'.file = s.file) (counters : SameCounters s s')
    (pending : s'.loc.pending = s.loc.pending)
    : Counts s' :=
  counts.keep (by rw [file]) (by rw [file]) counters pending

/-- A step of a thread keeps the counts. -/
theorem Counts.threadStep (counts : Counts s) (h : threadStep true s i = some s')
    : Counts s' := by
  obtain ⟨f, moves⟩ := threadStep_moves h
  obtain ⟨before, after⟩ := moves.out
  refine counts.change moves.file ?_ ?_ moves.counters ?_
  · simp [File.absent, before, after]
  · simp [File.out, before, after]
  · rcases moves.loc with same | ⟨waiting, woken⟩
    · rw [same]
    · rw [waiting, woken]
      rfl

/-- A step of a server keeps the counts. -/
theorem Counts.serverStep {n : Nat} (counts : Counts s) (h : serverStep s i n = some s')
    : Counts s' := by
  rcases serverStep_moves h with rfl | ⟨thread, rfl, ⟨at_, rfl⟩ | ⟨at_, rfl⟩⟩
  · exact counts
  · exact counts.change rfl (by simp [File.absent, at_]) (by simp [File.out, at_])
      ⟨rfl, rfl, rfl, rfl⟩ rfl
  · exact counts.change rfl (by simp [File.absent, at_]) (by simp [File.out, at_])
      ⟨rfl, rfl, rfl, rfl⟩ rfl

/-- A step of the loop keeps the counts. -/
theorem Counts.loopStep (counts : Counts s) (h : loopStep .mark s = some s') : Counts s' := by
  simp only [WebThreads.loopStep] at h
  split at h
  · next here =>
      cases h
      refine counts.move rfl ⟨rfl, rfl, rfl, rfl⟩ ?_
      rw [here]
      exact (apply_ite Loc.pending _ _ _).trans (ite_self _)
  · next here =>
      cases h
      refine counts.move rfl ⟨rfl, rfl, rfl, rfl⟩ ?_
      rw [here]
      exact (apply_ite Loc.pending _ _ _).trans (ite_self _)
  · next here =>
      cases h
      exact counts.move rfl ⟨rfl, rfl, rfl, rfl⟩ (by rw [here]; rfl)
  · next i rest here =>
      cases h
      refine counts.move rfl ⟨rfl, rfl, rfl, rfl⟩ ?_
      rw [here]
      exact (apply_ite Loc.pending _ _ _).trans (ite_self _)
  · cases h

/-- A joined thread is no longer out, and is taken off two steps later. -/
theorem Counts.joinStep (counts : Counts s) (h : joinStep s = some s') : Counts s' := by
  simp only [WebThreads.joinStep] at h
  split at h
  · next here =>
      cases h
      exact counts.move rfl ⟨rfl, rfl, rfl, rfl⟩ (by rw [here]; rfl)
  · next i rest here =>
      cases h
      refine counts.move rfl ⟨rfl, rfl, rfl, rfl⟩ ?_
      rw [here]
      exact (apply_ite Loc.pending _ _ _).trans (ite_self _)
  · next i rest here =>
      split at h <;> cases h
      next at_ =>
        obtain ⟨nlefttoconn, nconn, nlefttoread, bound, positive⟩ := counts
        refine ⟨?_, ?_, nlefttoread, bound, positive⟩
        · show s.nlefttoconn = (tally _ (Function.update s.file i _) : Nat)
          rw [tally_update_same (by simp [File.absent, at_]), nlefttoconn]
        · show s.nconn = (tally _ (Function.update s.file i _) : Int) + 1
          rw [tally_update_int, nconn]
          simp [File.out, at_, here, Loc.pending]
  · next i rest here =>
      cases h
      exact counts.change rfl rfl rfl ⟨rfl, rfl, rfl, rfl⟩ (by rw [here]; rfl)
  · next rest here =>
      cases h
      exact counts.move rfl ⟨rfl, rfl, rfl, rfl⟩ (by rw [here]; rfl)
  · next v rest here =>
      cases h
      obtain ⟨nlefttoconn, nconn, nlefttoread, bound, positive⟩ := counts
      refine ⟨nlefttoconn, ?_, ?_, ?_, positive⟩
      · show s.nconn - 1 = _ + 0
        rw [nconn, here]
        simp [Loc.pending]
      · show s.nlefttoread - 1 = s.nconn - 1 + s.nlefttoconn
        omega
      · show s.nconn - 1 ≤ s.maxnconn
        omega
  · next here =>
      cases h
      exact counts.move rfl ⟨rfl, rfl, rfl, rfl⟩ (by rw [here]; rfl)
  · cases h

/-- A step on the mutex keeps the counts. -/
theorem Counts.lockStep (counts : Counts s) (outside : s.loc.pending = 0)
    (h : lockStep s = some s')
    : Counts s' := by
  unfold WebThreads.lockStep at h
  split at h <;> cases h
  exact counts.move rfl ⟨rfl, rfl, rfl, rfl⟩ outside.symm

/-- A thread is created where one more may be out. -/
theorem Counts.create (counts : Counts s) (here : s.loc = .create i)
    (absent : (s.file i).thread = .absent) (few : s.nconn < s.maxnconn) {starts : Nat}
    : Counts { s.setFile i { s.file i with thread := .connecting, starts } with
        nconn := s.nconn + 1, nlefttoconn := s.nlefttoconn - 1, loc := .inner } := by
  obtain ⟨nlefttoconn, nconn, nlefttoread, bound, positive⟩ := counts
  refine ⟨?_, ?_, ?_, ?_, positive⟩
  · show s.nlefttoconn - 1 = (tally _ (Function.update s.file i _) : Int)
    rw [tally_update_int, nlefttoconn]
    simp [File.absent, absent]
  · show s.nconn + 1 = (tally _ (Function.update s.file i _) : Int) + 0
    rw [tally_update_int, nconn]
    simp [File.out, absent, here, Loc.pending]
  · show s.nlefttoread = s.nconn + 1 + (s.nlefttoconn - 1)
    omega
  · show s.nconn + 1 ≤ s.maxnconn
    omega

/-- Every step keeps the counters, by the kind of event. -/
theorem step_counts (h : step s event = some s') (inv : Inv s) : Counts s' := by
  have counts := inv.counts
  cases event with
  | thread i => exact counts.threadStep h
  | server i n => exact counts.serverStep h
  | wakeup =>
      simp only [step] at h
      split at h <;> cases h
      next here => exact counts.move rfl ⟨rfl, rfl, rfl, rfl⟩ (by rw [here]; rfl)
  | main =>
      simp only [step, mainStep] at h
      split at h
      · next i here =>
          cases h
          exact counts.change rfl rfl rfl ⟨rfl, rfl, rfl, rfl⟩ (by rw [here]; rfl)
      · next i here =>
          cases h
          have ok := inv.loc
          have placed := inv.placed
          rw [here] at ok
          simp only [Placed, here] at placed
          exact counts.create here ok.1 placed.2
      · next here => exact counts.lockStep (by rw [here]; rfl) h
      · next here =>
          cases h
          refine counts.move rfl ⟨rfl, rfl, rfl, rfl⟩ ?_
          rw [here]
          exact (apply_ite Loc.pending _ _ _).trans (ite_self _)
      · next here =>
          cases h
          exact counts.move rfl ⟨rfl, rfl, rfl, rfl⟩ (by rw [here]; rfl)
      · cases h
      · next here => exact counts.lockStep (by rw [here]; rfl) h
      · exact counts.loopStep h
      · exact counts.loopStep h
      · exact counts.loopStep h
      · exact counts.joinStep h

-----------------------------------------------------------------------------------------
-- Where `main` is along a run
-----------------------------------------------------------------------------------------

/-- A thread that has signalled finds `main` no longer waiting. -/
theorem waiting_threadStep (h : threadStep true s i = some s') (waits : s'.loc = .waiting)
    (early : ∀ j, (s.file j).thread ≠ .unlocking ∧ (s.file j).thread ≠ .returned)
    : ∀ j, (s'.file j).thread ≠ .unlocking ∧ (s'.file j).thread ≠ .returned := by
  have change : ∀ f : File, f.thread ≠ .unlocking ∧ f.thread ≠ .returned
      → ∀ j, ((s.setFile i f).file j).thread ≠ .unlocking
        ∧ ((s.setFile i f).file j).thread ≠ .returned :=
    fun f new => forall_setFile (P := fun _ f => f.thread ≠ .unlocking ∧ f.thread ≠ .returned) new
      fun j _ => early j
  simp only [threadStep] at h
  split at h
  · cases h
    exact change _ (by simp)
  · cases h
    exact change _ (by simp)
  · split at h <;> cases h
    exact change _ (by simp)
  · cases h
    exact change _ (by simp)
  · cases h
    exact change _ (by simp)
  · cases h
    -- The signal wakes `main`.
    have waits : (if s.loc = .waiting then .woken else s.loc) = Loc.waiting := waits
    split at waits
    · cases waits
    · next here => exact absurd waits here
  · next at_ => exact absurd at_ (early i).1
  · cases h

/-- A thread leaves alone what `main` has found out. -/
theorem placed_threadStep (inv : Inv s) (h : threadStep true s i = some s') : Placed s' := by
  obtain ⟨f, moves⟩ := threadStep_moves h
  have placed := inv.placed
  have counters := moves.counters
  rcases moves.loc with same | ⟨waiting, woken⟩
  · cases here : s.loc with
    | find rest =>
        simp only [Placed, here] at placed
        obtain ⟨unread, few, j, member, absent⟩ := placed
        have other : j ≠ i := by
          rintro rfl
          exact moves.out.1.1 absent
        simp only [Placed, same, here]
        refine ⟨by rwa [counters.nlefttoread], by rwa [counters.nconn, counters.maxnconn], j,
          member, ?_⟩
        rwa [moves.file, Function.update_of_ne other]
    | wait =>
        simp only [Placed, here] at placed
        have outside := inv.guarded.excluded (by rw [here]; rfl) i
        have ndone : s'.ndone = s.ndone := moves.ndone.resolve_right (by simp [outside])
        simpa only [Placed, same, here, counters.nconn, ndone] using placed
    | waiting =>
        simp only [Placed, here] at placed
        simp only [Placed, same, here, counters.nconn]
        exact ⟨placed.1, waiting_threadStep h (same.trans here) placed.2⟩
    | _ =>
        simp only [Placed, here, same, counters.nconn, counters.maxnconn, counters.nlefttoread]
          at placed ⊢ <;> exact placed
  · simp only [Placed, waiting] at placed
    simpa only [Placed, woken, counters.nconn] using placed.1

/-- A step of a server keeps every file in its place. -/
theorem placed_serverStep {n : Nat} (inv : Inv s) (h : serverStep s i n = some s')
    : Placed s' := by
  have placed := inv.placed
  rcases serverStep_moves h with rfl | ⟨thread, rfl, moves⟩
  · exact placed
  · have absent : (s.file i).thread ≠ .absent := by
      rcases moves with ⟨at_, -⟩ | ⟨at_, -⟩ <;> simp [at_]
    have early : thread ≠ .unlocking ∧ thread ≠ .returned := by
      rcases moves with ⟨-, rfl⟩ | ⟨-, rfl⟩ <;> simp
    cases here : s.loc with
    | find rest =>
        simp only [Placed, here] at placed
        obtain ⟨unread, few, j, member, without⟩ := placed
        have other : j ≠ i := by
          rintro rfl
          exact absent without
        simp only [Placed, Client.setFile, here]
        refine ⟨unread, few, j, member, ?_⟩
        rwa [Function.update_of_ne other]
    | waiting =>
        simp only [Placed, here] at placed
        simp only [Placed, Client.setFile, here]
        exact ⟨placed.1,
          forall_setFile (P := fun _ f => f.thread ≠ .unlocking ∧ f.thread ≠ .returned) early
            fun j _ => placed.2 j⟩
    | _ => simp only [Placed, here, Client.setFile] at placed ⊢ <;> exact placed

/-- The conditions of the loops, and the search: a file without a thread is still to come. -/
theorem placed_loopStep (inv : Inv s) (h : loopStep .mark s = some s') : Placed s' := by
  have placed := inv.placed
  have counts := inv.counts
  simp only [loopStep] at h
  split at h
  · next here =>
      cases h
      by_cases unread : s.nlefttoread > 0
      · simpa only [Placed, if_pos unread] using unread
      · simp only [Placed, if_neg unread]
        have connecting := counts.nlefttoconn
        have out := counts.nconn
        have total := counts.nlefttoread
        simp only [here, Loc.pending] at out
        omega
  · next here =>
      cases h
      simp only [Placed, here] at placed
      by_cases more : s.nconn < s.maxnconn ∧ s.nlefttoconn > 0
      · have some_ : 0 < tally File.absent s.file := by
          have connecting := counts.nlefttoconn
          omega
        obtain ⟨j, absent⟩ := tally_pos_iff.mp some_
        simp only [Placed, if_pos more]
        exact ⟨placed, more.1, j, List.mem_finRange j, by simpa [File.absent] using absent⟩
      · simp only [Placed, if_neg more]
        have total := counts.nlefttoread
        have positive := counts.positive
        omega
  · next here =>
      simp only [Placed, here] at placed
      obtain ⟨-, -, j, member, -⟩ := placed
      cases member
  · next i rest here =>
      cases h
      simp only [Placed, here] at placed
      obtain ⟨unread, few, j, member, absent⟩ := placed
      by_cases zero : (s.file i).fFlags = .zero
      · simp only [Placed, if_pos zero]
        exact ⟨unread, few⟩
      · simp only [Placed, if_neg zero]
        refine ⟨unread, few, j, (List.mem_cons.mp member).resolve_left ?_, absent⟩
        rintro rfl
        have flags := inv.flags j
        simp [FlagsOk, absent, here, zero] at flags
  · cases h

/-- A join keeps every file in its place. -/
theorem placed_joinStep (h : joinStep s = some s') : Placed s' := by
  simp only [joinStep] at h
  split at h
  · cases h
    trivial
  · next i _ _ =>
      cases h
      by_cases done : (s.file i).fFlags = .done
      · simp only [Placed, if_pos done]
      · simp only [Placed, if_neg done]
  · split at h <;> cases h
    trivial
  · cases h
    trivial
  · cases h
    trivial
  · cases h
    trivial
  · cases h
    trivial
  · cases h

/-- A step on the mutex keeps every file in its place. -/
theorem placed_lockStep (running : 0 < s.nconn) (h : lockStep s = some s') : Placed s' := by
  unfold lockStep at h
  split at h <;> cases h
  exact running

/-- Every step keeps what `main` has found out, by the kind of event. -/
theorem step_placed (h : step s event = some s') (inv : Inv s) : Placed s' := by
  have placed := inv.placed
  cases event with
  | thread i => exact placed_threadStep inv h
  | server i n => exact placed_serverStep inv h
  | wakeup =>
      simp only [step] at h
      split at h <;> cases h
      next here =>
        simp only [Placed, here] at placed
        exact placed.1
  | main =>
      simp only [step, mainStep] at h
      split at h
      · next i here =>
          cases h
          simp only [Placed, here] at placed
          exact placed
      · next i here =>
          cases h
          simp only [Placed, here] at placed
          exact placed.1
      · next here =>
          simp only [Placed, here] at placed
          exact placed_lockStep placed h
      · next here =>
          cases h
          simp only [Placed, here] at placed
          by_cases none_ : s.ndone = 0
          · simp only [Placed, if_pos none_]
            exact ⟨placed, none_⟩
          · simp only [Placed, if_neg none_]
      · next here =>
          cases h
          simp only [Placed, here] at placed
          refine ⟨placed.1, fun j => ?_⟩
          have count := inv.guarded.ndone
          simp only [placed.2, here, Loc.pending] at count
          have uncounted : ¬ (s.file j).counted := by
            intro counted
            have some_ := tally_pos_iff.mpr ⟨j, counted⟩
            omega
          constructor
          · intro at_
            have there : (s.file j).thread = .unlocking := at_
            exact uncounted (by simp [File.counted, there, ThreadLoc.counted])
          · intro at_
            have there : (s.file j).thread = .returned := at_
            exact uncounted (by simp [File.counted, there, ThreadLoc.counted])
      · cases h
      · next here =>
          simp only [Placed, here] at placed
          exact placed_lockStep placed h
      · exact placed_loopStep inv h
      · exact placed_loopStep inv h
      · exact placed_loopStep inv h
      · exact placed_joinStep h

/-- Every event keeps the invariant. -/
theorem step_inv (h : step s event = some s') (inv : Inv s) : Inv s' :=
  ⟨step_base h inv.toInv, step_counts h inv, step_placed h inv⟩

end Minions.Unp.Web03
