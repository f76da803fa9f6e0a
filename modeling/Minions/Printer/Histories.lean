import Minions.Printer.Rebuilding
import Minions.Printer.Spoolers

/-! The histories of the print daemon: runs that are stopped anywhere and started again on the
spool that they have left.
A job number is used again when the job file is behind the spool, and when the counter wraps
around. In every other history a new job leaves the files of the jobs in the spool alone.
-/

namespace Minions.Printer

open Minions.Data Minions.Logic

variable {launch : Launch} {st : Printd} {p : Thread} {l : Loc}

/-- The signal thread leaves the spool alone. -/
theorem spools_signalThread : spools launch p signalThread (fun _ _ _ => True) l st := by
  apply spool_hidden (K := fun _ => True) trivial (fun _ _ => trivial) rfl
  exact fun _ _ _ _ _ => spool_done

/-- All threads of a run keep the discipline of the spool. -/
def spoolers (launch : Launch) : Verified (counting launch) threadCode mayRun (spooling launch) where
  mayAbort _ := True
  idle _ _ _ _ := True
  post _ _ _ _ _ := True
  onInvoke _ _ _ _ := True
  onRespond _ _ _ _ _ := True
  idle_stable _ _ _ := trivial
  invoke := by
    intro p op mem l s may _ kept
    refine ⟨(), kept, fun q _ => .refl _, trivial, ?_⟩
    cases op with
    | start => cases p <;> exact absurd may id
    | print hlen =>
        exact wp_bind kept (wp_mono (fun _ _ _ _ _ => spool_done) (spools_printerThread hlen))
    | hangup => exact wp_bind kept (wp_mono (fun _ _ _ _ _ => spool_done) spools_signalThread)
    | serve conn =>
        exact wp_bind kept (wp_mono (fun _ _ _ _ _ => spool_done) (spools_clientThread conn kept))
  respond := fun _ kept => ⟨(), kept, fun _ _ => .refl _, trivial, trivial⟩

/-- Nothing is lost when the daemon starts. -/
theorem kept_boot (launch : Launch) : Kept launch launch.system.st := by
  have unwrapped : ¬ Wrapped launch.system.st := by
    rintro ⟨p, member⟩
    exact absurd member List.not_mem_nil
  constructor
  case numbers =>
    constructor
    case nextjob => exact initRequest_range launch.stale launch.spool.jobno
    case ahead => exact .inl (Int.le_refl _)
    case issued => exact fun _ _ member => absurd member List.not_mem_nil
    case counted => exact fun _ _ => (Int.add_zero _).symm
    case wrapped => exact fun _ wrapped => absurd wrapped unwrapped
    case distinct => exact List.nodup_nil
    case opened => exact fun some_ => absurd rfl some_
  case stored =>
    constructor
    case found => exact fun _ _ => .inl rfl
    case small => exact fun _ _ _ member => absurd member List.not_mem_nil
    case recovered => exact fun _ _ _ _ => .inl fun _ => rfl
  case queued => exact fun _ member => absurd member List.not_mem_nil
  case confirmed => exact fun _ member => absurd member List.not_mem_nil
  case acked => exact fun _ member => absurd member List.not_mem_nil
  case once => exact List.nodup_nil

/-- A started process keeps the discipline when the request files have the names of jobs. -/
theorem good_boot (numbered : launch.spool.Numbered) : (spoolers launch).good launch.system () := by
  have kept := kept_boot launch
  refine ⟨kept, ?_⟩
  intro p
  cases p with
  | main =>
      have building : Building launch [] launch.system.st := ⟨List.not_mem_nil, fun _ => rfl⟩
      exact wp_bind kept
        (wp_mono (fun _ _ _ _ _ => spool_done) (spools_mainThread numbered building))
  | printer => exact trivial
  | signal => exact trivial
  | client n => exact trivial

/-- The request files that a run leaves have the names of jobs. -/
theorem Kept.numbered (kept : Kept launch st) (numbered : launch.spool.Numbered)
    : st.spool.Numbered := by
  intro n exists_
  have exists_ : st.files .reqs n ≠ none := exists_
  rcases kept.stored.found .reqs n with same | gone | ⟨q, id, issued, name⟩
  · rw [same] at exists_
    exact numbered n exists_
  · exact absurd gone exists_
  · exact ⟨id, kept.numbers.range issued, name⟩

/-- An empty spool is numbered. -/
theorem empty_numbered : Spool.empty.Numbered := fun _ exists_ => absurd rfl exists_

/-- A run of one process, in which the calls that `gate` admits are made. A thread that ends the
process is the last to move.
-/
def Reaches (gate : Call → Printd → Prop) (c c' : System) : Prop :=
  ∃ labels, Run (daemonWith gate) threadCode mayRun c labels c' ∧ NonAborting labels

/-- The states of the process in histories that begin with an empty spool. A run may be stopped
at any point and started again on the spool it has left. `may` says which calls are made in a run.
-/
inductive History (may : Launch → Call → Printd → Prop) : Launch → System → Prop
  | first (stale : List Byte) (env : Thread → Loc) {c : System}
    (run : Reaches (may ⟨stale, env, .empty⟩) (Launch.system ⟨stale, env, .empty⟩) c)
    : History may ⟨stale, env, .empty⟩ c
  | restart {launch c} (before : History may launch c) (stale : List Byte) (env : Thread → Loc)
    {c' : System}
    (run : Reaches (may ⟨stale, env, c.st.spool⟩) (Launch.system ⟨stale, env, c.st.spool⟩) c')
    : History may ⟨stale, env, c.st.spool⟩ c'

/-- Every state is reached from itself. -/
theorem Reaches.refl (gate : Call → Printd → Prop) (c : System) : Reaches gate c c :=
  ⟨[], .nil, nofun⟩

/-- One more step. -/
theorem Reaches.step {gate : Call → Printd → Prop} {c₀ c c' : System}
    {label : Label Sys Thread Op Unit} (run : Reaches gate c₀ c)
    (step : Step (daemonWith gate) threadCode mayRun c label c')
    (alive : ∀ p reason, label ≠ .stop p reason)
    : Reaches gate c₀ c' := by
  obtain ⟨labels, before, alive'⟩ := run
  refine ⟨labels ++ [label], before.snoc step, ?_⟩
  intro p reason member
  rcases List.mem_append.mp member with earlier | last
  · exact alive' p reason earlier
  · exact alive p reason (List.mem_singleton.mp last).symm

/-- What every step of a run keeps holds in all states of the run. -/
theorem Reaches.invariant {gate : Call → Printd → Prop} {c c' : System} (run : Reaches gate c c')
    {I : System → Prop} (start : I c)
    (kept : ∀ {mid last label}, I mid → Step (daemonWith gate) threadCode mayRun mid label last →
      (∀ p reason, label ≠ .stop p reason) → I last)
    : I c' := by
  obtain ⟨labels, run, alive⟩ := run
  induction run with
  | nil => exact start
  | snoc before step ih =>
      exact kept (ih alive.init) step fun p reason same => alive p reason (by simp [same])

-----------------------------------------------------------------------------------------
-- A schedule that can be run
-----------------------------------------------------------------------------------------

/-- Whether a call is made when its thread has its turn; job numbers are handed out if `numbers`
says so.
-/
def proceeds (numbers : Bool) : Call → Printd → Bool
  | .accept _, st => .initialized ∈ st.log
  | .takeJob, st => st.queue ≠ []
  | .getNewjobno, _ => numbers
  | _, _ => true

/-- A call that proceeds can be made. -/
theorem proceeds_enabled {numbers : Bool} (c : Call) (st : Printd) (h : proceeds numbers c st)
    : enabled c st := by
  cases c <;> simp_all [proceeds, enabled]

/-- One step of a thread, if it does not wait and does not end the process. -/
def turn (numbers : Bool) (p : Thread) (c : System) : System :=
  match c.procs p with
  | .busy op (.call call next) loc =>
      if proceeds numbers call c.st then
        { procs :=
            Function.update c.procs p
              (.busy op (next (execCall p call loc c.st).1) (execCall p call loc c.st).2.1)
          st := (execCall p call loc c.st).2.2 }
      else c
  | .busy op (.loop state body next) loc =>
      c.setProc p (.busy op (Prog.unroll state body next) loc)
  | .busy _ (.ret (_, mem)) loc => c.setProc p (.idle mem loc)
  | _ => c

def turns (numbers : Bool) (p : Thread) : Nat → System → System
  | 0, c => c
  | n + 1, c => turns numbers p n (turn numbers p c)

/-- A client connects. -/
def connect (n : Nat) (conn : Conn) (c : System) : System :=
  match c.procs (.client n) with
  | .idle mem loc => c.setProc (.client n) (.busy (.serve conn) (threadCode (.serve conn) mem) loc)
  | _ => c

variable {gate : Call → Printd → Prop} {numbers : Bool}

/-- A turn of one thread. -/
theorem Reaches.turn {c₀ c : System} (run : Reaches gate c₀ c)
    (allowed : ∀ call, proceeds numbers call c.st → gate call c.st)
    : Reaches gate c₀ (turn numbers p c) := by
  unfold Printer.turn
  split
  · next op call next loc at_ =>
      split
      · next go => exact run.step (.act at_ (allowed call go)) nofun
      · exact run
  · next op _ _ state body next loc at_ => exact run.step (.silent at_) nofun
  · next op res mem loc at_ => exact run.step (.respond at_) nofun
  · exact run

/-- Several turns of one thread. -/
theorem Reaches.turns {c₀ c : System} (run : Reaches gate c₀ c)
    (allowed : ∀ call st, proceeds numbers call st → gate call st) (n : Nat)
    : Reaches gate c₀ (turns numbers p n c) := by
  induction n generalizing c with
  | zero => exact run
  | succ n ih => exact ih (run.turn fun call => allowed call _)

/-- A new connection. -/
theorem Reaches.connect {c₀ c : System} (run : Reaches gate c₀ c) (n : Nat) (conn : Conn)
    : Reaches gate c₀ (connect n conn c) := by
  unfold Printer.connect
  split
  · next mem loc at_ => exact run.step (.invoke at_ trivial) nofun
  · exact run

/-- The printer thread looks for a job to print. -/
def look (hlen : Nat) (c : System) : System :=
  match c.procs .printer with
  | .idle mem loc =>
      c.setProc .printer (.busy (.print hlen) (threadCode (.print hlen) mem) loc)
  | _ => c

/-- The printer thread looks at the queue. -/
theorem Reaches.look {c₀ c : System} (run : Reaches gate c₀ c) (hlen : Nat)
    : Reaches gate c₀ (look hlen c) := by
  unfold Printer.look
  split
  · next mem loc at_ => exact run.step (.invoke at_ trivial) nofun
  · exact run

/-- The thread is about to call `get_newjobno`. -/
def asksNumber : Proc Sys Op Unit Unit Loc → Bool
  | .busy _ (.call Call.getNewjobno _) _ => true
  | _ => false

/-- A thread that is about to ask for a job number. -/
theorem asksNumber_spec {x : Proc Sys Op Unit Unit Loc} (h : asksNumber x)
    : ∃ op next loc, x = .busy op (.call (S := Sys) Call.getNewjobno next) loc := by
  unfold asksNumber at h
  split at h
  · next op next loc => exact ⟨op, next, loc, rfl⟩
  · exact absurd h nofun

-----------------------------------------------------------------------------------------
-- Job numbers
-----------------------------------------------------------------------------------------

/-- The waiting of `enabled`, where a job number is handed out only by a run that has started
above all the request files, and only as long as the counter has not wrapped around.
-/
def ahead (launch : Launch) : Call → Printd → Prop
  | .getNewjobno, st => launch.Ahead ∧ ¬ Wrapped st
  | c, st => enabled c st

/-- Numbers that are ahead have not wrapped around. -/
theorem ahead_unwrapped {c : Call} (h : ahead launch c st) : unwrapped launch c st := by
  cases c
  case getNewjobno => exact fun _ => h
  all_goals exact h

/-- A step that is made when other calls wait. -/
theorem step_regate {gate gate' : Call → Printd → Prop} {c c' : System}
    {label : Label Sys Thread Op Unit} (step : Step (daemonWith gate) threadCode mayRun c label c')
    (allowed : ∀ p call, label = .act p call → gate call c.st → gate' call c.st)
    : Step (daemonWith gate') threadCode mayRun c label c' := by
  cases step with
  | invoke at_ ok => exact .invoke at_ ok
  | act at_ ready => exact .act (M := daemonWith gate') at_ (allowed _ _ rfl ready)
  | silent at_ => exact .silent at_
  | respond at_ => exact .respond at_
  | stop at_ => exact .stop (M := daemonWith gate') at_

/-- What every state of such a run satisfies. -/
theorem Reaches.good {c : System} (numbered : launch.spool.Numbered)
    (run : Reaches (ahead launch) launch.system c)
    : (spoolers launch).good c () := by
  apply run.invariant (good_boot numbered)
  intro mid last label known step alive
  have step := step_regate step fun _ _ _ => ahead_unwrapped
  obtain ⟨g, known', -⟩ := (spoolers launch).good_step known step alive
  exact known'

/-- The discipline holds through all runs of a history. -/
theorem History.good {c : System} (history : History ahead launch c)
    : launch.spool.Numbered ∧ (spoolers launch).good c () := by
  induction history with
  | first stale env run => exact ⟨empty_numbered, run.good empty_numbered⟩
  | restart before stale env run ih =>
      obtain ⟨numbered, known⟩ := ih
      have left := known.1.numbered numbered
      exact ⟨left, run.good left⟩

/-- In every history in which a number is handed out only by a run that has started above all the
request files, and only as long as the counter has not wrapped around, `get_newjobno` returns no
ID for which there is a request file, and no file is created or written under one, but for the
request file that a thread has just created for its own new job.
-/
theorem history_preserves {c : System} {op : Op} {call : Call}
    {next : call.Resp → Prog Sys (Unit × Unit)} (history : History ahead launch c)
    (at_ : c.procs p = .busy op (.call call next) l) (ready : ahead launch call c.st)
    : Preserves call c.st :=
  ((spoolers launch).good_permit history.good.2 at_ (ahead_unwrapped ready)).1

/-- The first start of the daemon. -/
def firstLaunch : Launch := ⟨[], fun _ => freshLoc, .empty⟩

/-- On an empty spool, a client has sent its request and the thread asks for a job number. -/
def submitting : System :=
  turns false (.client 0) 20 (connect 0 wholeConn (turns false .main 10 firstLaunch.system))

/-- A call that proceeds has a number ahead. -/
theorem proceeds_ahead (c : Call) (st : Printd) (h : proceeds false c st) : ahead launch c st := by
  cases c <;> simp_all [proceeds, ahead, enabled]

/-- The first run comes to the submission. -/
theorem submitting_reached : Reaches (ahead firstLaunch) firstLaunch.system submitting :=
  (((Reaches.refl _ _).turns proceeds_ahead 10).connect 0 wholeConn).turns proceeds_ahead 20

/-- The thread gets the number 1, the job is accepted, and the printer thread picks it up: the
counter is in the job file, and the request is still in the spool.
-/
def pickedUp : System :=
  turns false .printer 5 (look 0 (turns false (.client 0) 20 (turn true (.client 0) submitting)))

/-- Nothing has wrapped around before the first number. -/
theorem not_wrapped_of_issued {st : Printd} (none_ : st.issued = []) : ¬ Wrapped st := by
  rintro ⟨q, member⟩
  rw [none_] at member
  exact absurd member List.not_mem_nil

/-- The history in which the job has been picked up. -/
theorem pickedUp_history : History ahead firstLaunch pickedUp := by
  have above : firstLaunch.Ahead := fun _ _ exists_ => absurd rfl exists_
  have unwrapped : ¬ Wrapped submitting.st := not_wrapped_of_issued (by decide +kernel)
  have number : Reaches (ahead firstLaunch) firstLaunch.system
      (turn true (.client 0) submitting) := by
    refine submitting_reached.turn fun call go => ?_
    cases call
    case getNewjobno => exact ⟨above, unwrapped⟩
    all_goals exact proceeds_ahead _ _ go
  exact .first [] _ (((number.turns proceeds_ahead 20).look 0).turns proceeds_ahead 5)

/-- The daemon is started again. -/
def nextLaunch : Launch :=
  ⟨[], fun _ => { freshLoc with names := [text ".", text "..", text "1"] }, pickedUp.st.spool⟩

/-- The first job is queued again, and the thread of a second client asks for a job number. -/
def submittingNext : System :=
  turns false (.client 0) 20 (connect 0 wholeConn (turns false .main 20 nextLaunch.system))

/-- The next run starts above the request files, if there were none before this run and the job
file is above the numbers of this run.
-/
theorem Kept.ahead (kept : Kept launch st) (none_ : ∀ n, launch.spool.files .reqs n = none)
    {stale : List Byte} {env : Thread → Loc}
    (passed : ∀ q id, (q, id) ∈ st.issued → id < Launch.start ⟨stale, env, st.spool⟩)
    : Launch.Ahead ⟨stale, env, st.spool⟩ := by
  intro id range exists_
  have exists_ : st.files .reqs (decimalInt id) ≠ none := exists_
  rcases kept.stored.found .reqs (decimalInt id) with same | gone | ⟨q, id', issued, name⟩
  · exact absurd (same.trans (none_ _)) exists_
  · exact absurd gone exists_
  · obtain rfl := range.name_inj (kept.numbers.range issued) name
    exact passed q id issued

/-- Nothing is lost in a history. -/
theorem History.kept {c : System} (history : History ahead launch c) : Kept launch c.st :=
  history.good.2.1

/-- The counter has passed the number of the first job. -/
theorem nextLaunch_ahead : nextLaunch.Ahead := by
  have kept := pickedUp_history.kept
  have issued : pickedUp.st.issued = [(.client 0, 1)] := by decide +kernel
  have start : (1 : Int) < nextLaunch.start := by decide +kernel
  unfold nextLaunch at start ⊢
  generalize pickedUp.st = st at kept issued start
  refine kept.ahead (fun _ => rfl) fun q id member => ?_
  rw [issued, List.mem_singleton] at member
  obtain ⟨-, rfl⟩ := Prod.mk.inj member
  exact start

/-- A second run in which a job is pending and the counter has been read back. -/
theorem history_preserves_submitting
    : asksNumber (submittingNext.procs (.client 0)) = true
        ∧ (submittingNext.st.files .reqs (decimalInt 1)).isSome = true
        ∧ submittingNext.st.nextjob = 2 ∧ Preserves .getNewjobno submittingNext.st := by
  have asks : asksNumber (submittingNext.procs (.client 0)) = true := by decide +kernel
  obtain ⟨op, next, loc, at_⟩ := asksNumber_spec asks
  have history : History ahead nextLaunch submittingNext :=
    .restart pickedUp_history [] _
      ((((Reaches.refl _ _).turns proceeds_ahead 20).connect 0 wholeConn).turns proceeds_ahead 20)
  have unwrapped : ¬ Wrapped submittingNext.st := not_wrapped_of_issued (by decide +kernel)
  exact ⟨asks, by decide +kernel, by decide +kernel,
    history_preserves history at_ ⟨nextLaunch_ahead, unwrapped⟩⟩

/-- The thread has got the job number 1, and the client is told that the job is accepted. -/
def submitted : System := turns true (.client 0) 20 submitting

/-- The first run comes to the answer. -/
theorem submitted_reached : Reaches enabled firstLaunch.system submitted :=
  ((((Reaches.refl _ _).turns proceeds_enabled 10).connect 0 wholeConn).turns
    proceeds_enabled 20).turns proceeds_enabled 20

/-- The start on the spool with the first job. -/
def secondLaunch : Launch :=
  ⟨[], fun _ => { freshLoc with names := [text ".", text "..", text "1"] }, submitted.st.spool⟩

/-- The first job is queued again, and the thread of a second client asks for a job number. -/
def resubmitting : System :=
  turns false (.client 0) 20 (connect 0 wholeConn (turns false .main 20 secondLaunch.system))

/-- The daemon was stopped before the printer thread has written the job file: the second client
gets the number of the first job, whose request is still in the spool.
-/
theorem number_of_pending_job_reused
    : ∃ launch c p op next loc, History (fun _ => enabled) launch c
        ∧ c.procs p = .busy op (.call Call.getNewjobno next) loc
        ∧ c.st.files .reqs (decimalInt c.st.nextjob) ≠ none := by
  have asks : asksNumber (resubmitting.procs (.client 0)) = true := by decide +kernel
  obtain ⟨op, next, loc, at_⟩ := asksNumber_spec asks
  have pending :
      (resubmitting.st.files .reqs (decimalInt resubmitting.st.nextjob)).isSome = true := by
    decide +kernel
  have again : Reaches enabled secondLaunch.system resubmitting :=
    (((Reaches.refl _ _).turns proceeds_enabled 20).connect 0 wholeConn).turns proceeds_enabled 20
  have history : History (fun _ => enabled) secondLaunch resubmitting :=
    .restart (.first [] _ submitted_reached) [] _ again
  refine ⟨secondLaunch, resubmitting, .client 0, op, next, loc, history, at_, ?_⟩
  exact Option.isSome_iff_ne_none.mp pending

end Minions.Printer
