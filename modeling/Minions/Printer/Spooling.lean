import Mathlib.Data.List.Nodup
import Minions.Logic.Soundness
import Minions.Printer.Receive

/-! What the threads of the print daemon do to the spool.
A client thread works on the files of its own job number until it has told its client that the
job is accepted; from then on the files belong to the printer thread, which removes them when the
printer has confirmed the job. The main thread works on the files that an earlier run has left,
before there are clients.
-/

namespace Minions.Printer

open Minions.Data Minions.Logic

/-- A value of an `int32_t`. -/
def InRange (id : Int) : Prop := -(2 ^ 31) ≤ id ∧ id < 2 ^ 31

/-- How a run starts: what the buffer of `init_request` holds behind the file's name, what is to
happen to each thread, and the spool that earlier runs have left.
-/
structure Launch where
  stale : List Byte
  env : Thread → Loc
  spool : Spool

/-- The first job number of the run. -/
def Launch.start (launch : Launch) : Int := initRequest launch.stale launch.spool.jobno

/-- The process when it is started. -/
def Launch.system (launch : Launch) : System := boot launch.stale launch.env launch.spool

/-- The job that `build_qonstart` finds under a name. -/
def entry (spool : Spool) (n : Name) : Option Job :=
  if n = text "." ∨ n = text ".." then none
  else
    (spool.files .reqs n).bind fun content =>
      if whole : (pread content 0 PRINTREQ_SZ).length = PRINTREQ_SZ then
        some ⟨int32 (atol n), PrintReq.ofBytes (pread content 0 PRINTREQ_SZ) whole⟩
      else none

/-- The jobs that `build_qonstart` finds under some names. -/
def entries (spool : Spool) (names : List Name) : List Job := names.filterMap (entry spool)

/-- The directory of requests is read without an error, and each request file is listed once. -/
structure Launch.Readable (launch : Launch) : Prop where
  listed : ∀ n, launch.spool.files .reqs n ≠ none → n ∈ (launch.env .main).names
  once : (launch.env .main).names.Nodup
  passes : ∀ fault ∈ (launch.env .main).faults, fault.passes

/-- Every request file is named by a job number. -/
def Spool.Numbered (spool : Spool) : Prop :=
  ∀ n, spool.files .reqs n ≠ none → ∃ id, InRange id ∧ n = decimalInt id

/-- The first number of the run is above that of every request file. -/
def Launch.Ahead (launch : Launch) : Prop :=
  ∀ id, InRange id → launch.spool.files .reqs (decimalInt id) ≠ none → id < launch.start

/-- The responses of success. -/
def Printd.acks (st : Printd) : List (Conn × PrintResp) :=
  st.replies.filter fun reply => reply.2.retcode = 0

/-- Some client was told that the job with this ID is accepted. -/
def Acked (st : Printd) (id : Int) : Prop := ∃ reply ∈ st.acks, reply.2.id = id

/-- The largest job number has been handed out in this run. -/
def Wrapped (st : Printd) : Prop := ∃ p, (p, 2 ^ 31 - 1) ∈ st.issued

/-- The thread works on the files of a job that is not accepted yet. -/
def Working (st : Printd) (p : Thread) (id : Int) : Prop := (p, id) ∈ st.issued ∧ ¬ Acked st id

/-- The job has been queued. -/
def Added (st : Printd) (id : Int) : Prop := ∃ job ∈ st.added, job.jobid = id

/-- The job was left by an earlier run, or is accepted. -/
def Settled (launch : Launch) (st : Printd) (id : Int) : Prop :=
  InRange id ∧ (launch.spool.files .reqs (decimalInt id) ≠ none ∨ Acked st id)

/-- The files of an accepted job are what its client sent. -/
def Intact (st : Printd) (conn : Conn) (id : Int) : Prop :=
  st.files .data (decimalInt id) = some conn.body
  ∧ ∃ req, conn.request = some req ∧ st.files .reqs (decimalInt id) = some req.bytes

/-- The waiting of `enabled`, where a job number is handed out, once clients are accepted, only
if the run has started above all the request files and the counter has not wrapped around.
-/
def unwrapped (launch : Launch) : Call → Printd → Prop
  | .getNewjobno, st => .initialized ∈ st.log → launch.Ahead ∧ ¬ Wrapped st
  | c, st => enabled c st

/-- A call that hands out a job number, or creates or writes a file, does so to no job that has a
request file; but a request file is written when it is new.
-/
def Preserves : Call → Printd → Prop
  | .getNewjobno, st => st.files .reqs (decimalInt st.nextjob) = none
  | .creat _ n, st => st.files .reqs n = none
  | .write .data n _, st => st.files .reqs n = none
  | .write .reqs n _, st => st.files .reqs n = some []
  | _, _ => True

/-- When the daemon says that it is initialized, all jobs of the spool are queued. -/
def Rebuilt (launch : Launch) : Call → Printd → Prop
  | .logMsg .initialized, st =>
      launch.Readable → st.added = entries launch.spool (launch.env .main).names
  | _, _ => True

section

variable (launch : Launch)

/-- The job counter and the numbers it has handed out. -/
structure Numbers (st : Printd) : Prop where
  nextjob : InRange st.nextjob
  ahead : launch.start ≤ st.nextjob ∨ Wrapped st
  issued : ∀ q id, (q, id) ∈ st.issued →
    launch.start ≤ id ∧ InRange id ∧ (id < st.nextjob ∨ Wrapped st)
  counted : 0 ≤ launch.start → ¬ Wrapped st → st.nextjob = launch.start + st.issued.length
  wrapped : 0 ≤ launch.start → Wrapped st → 2 ^ 31 ≤ launch.start + st.issued.length
  distinct : (st.issued.map Prod.snd).Nodup
  opened : st.issued ≠ [] → .initialized ∈ st.log ∧ launch.Ahead

/-- The files of the spool: those that the run has found, and those of the numbers that it has
handed out.
-/
structure Stored (st : Printd) : Prop where
  found : ∀ d n, st.files d n = launch.spool.files d n ∨ st.files d n = none
    ∨ ∃ q id, (q, id) ∈ st.issued ∧ n = decimalInt id
  small : ∀ q id content, (q, id) ∈ st.issued → st.files .reqs (decimalInt id) = some content →
    content.length ≤ PRINTREQ_SZ
  recovered : launch.Readable → ∀ n job, entry launch.spool n = some job →
    (∀ d, st.files d n = launch.spool.files d n) ∨ ∃ id ∈ st.confirmed, InRange id ∧ n = decimalInt id

/-- What every step of a run keeps. -/
structure Kept (st : Printd) : Prop where
  numbers : Numbers launch st
  stored : Stored launch st
  queued : ∀ job ∈ st.queue, Settled launch st job.jobid ∧ Added st job.jobid
  confirmed : ∀ id ∈ st.confirmed, Added st id
  acked : ∀ reply ∈ st.acks, (∃ q, (q, reply.2.id) ∈ st.issued)
    ∧ (reply.2.id ∈ st.confirmed ∨ Intact st reply.1 reply.2.id)
  once : (st.acks.map fun reply => reply.2.id).Nodup

/-- What a step of another thread leaves to thread `q`. -/
structure Leaves (q : Thread) (s t : Printd) : Prop where
  acked : ∀ id, Acked s id → Acked t id
  added : ∀ id, Added s id → Added t id
  confirmed : ∀ id ∈ s.confirmed, id ∈ t.confirmed
  opened : .initialized ∈ s.log → .initialized ∈ t.log
  building : q = .main → .initialized ∉ s.log → .initialized ∉ t.log ∧ t.added = s.added
  working : ∀ id, Working s q id → Working t q id
    ∧ ∀ d, t.files d (decimalInt id) = s.files d (decimalInt id)
  settled : ∀ id, Settled launch s id →
    t.files .data (decimalInt id) = s.files .data (decimalInt id)
    ∨ t.files .data (decimalInt id) = none

end

variable {launch : Launch} {st st' : Printd} {p q : Thread} {id : Int} {n : Name}

/-- A number that is settled stays so. -/
theorem Settled.mono (h : Settled launch st id) (acked : ∀ id, Acked st id → Acked st' id)
    : Settled launch st' id := by
  obtain ⟨range, left | told⟩ := h
  · exact ⟨range, .inl left⟩
  · exact ⟨range, .inr (acked id told)⟩

/-- Nothing has happened. -/
theorem Leaves.refl (st : Printd) : Leaves launch q st st where
  acked _ h := h
  added _ h := h
  confirmed _ h := h
  opened h := h
  building _ h := ⟨h, rfl⟩
  working _ h := ⟨h, fun _ => rfl⟩
  settled _ _ := .inl rfl

/-- Two steps that leave the spool to a thread. -/
theorem Leaves.trans {s t u : Printd} (h : Leaves launch q s t) (h' : Leaves launch q t u)
    : Leaves launch q s u := by
  constructor
  case acked =>
    intro id told
    exact h'.acked id (h.acked id told)
  case added =>
    intro id queued
    exact h'.added id (h.added id queued)
  case confirmed =>
    intro id done
    exact h'.confirmed id (h.confirmed id done)
  case opened =>
    intro open_
    exact h'.opened (h.opened open_)
  case building =>
    intro main unopened
    obtain ⟨unopened', same⟩ := h.building main unopened
    obtain ⟨unopened'', same'⟩ := h'.building main unopened'
    exact ⟨unopened'', same'.trans same⟩
  case working =>
    intro id works
    obtain ⟨works', same⟩ := h.working id works
    obtain ⟨works'', same'⟩ := h'.working id works'
    exact ⟨works'', fun d => (same' d).trans (same d)⟩
  case settled =>
    intro id settled
    rcases h'.settled id (settled.mono h.acked) with same | gone
    · rw [same]
      exact h.settled id settled
    · exact .inr gone

/-- The discipline of the spool. -/
def spooling (launch : Launch) : Discipline Sys Thread Loc Printd Unit where
  inv s := Kept launch s.1
  rely q s t := Leaves launch q s.1 t.1
  permit _ c _ s := Preserves c s.1 ∧ Rebuilt launch c s.1
  onCall _ _ _ _ := True
  rely_refl _ s := .refl s.1
  rely_trans := .trans

/-- Reads from a connection leave the spool alone. -/
theorem spooling_freeReads (launch : Launch) (p : Thread) : FreeReads (spooling launch) p :=
  ⟨fun _ _ _ => ⟨trivial, trivial⟩, fun _ _ _ => ⟨trivial, trivial⟩, fun _ _ => trivial,
    fun _ _ => trivial⟩

/-- Different numbers have different names. -/
theorem InRange.name_inj {id id' : Int} (h : InRange id) (h' : InRange id')
    (same : decimalInt id = decimalInt id')
    : id = id' := by
  obtain ⟨low, high⟩ := h
  obtain ⟨low', high'⟩ := h'
  exact decimalInt_inj ⟨by omega, by omega⟩ ⟨by omega, by omega⟩ same

/-- The number of a name is the one that it was made of. -/
theorem InRange.number (h : InRange id) : int32 (atol (decimalInt id)) = id := by
  obtain ⟨low, high⟩ := h
  rw [atol_decimalInt (by omega) (by omega), int32_eq_self low high]

/-- The same acknowledgements. -/
theorem acked_congr (same : st'.acks = st.acks) (id : Int)
    : Acked st' id ↔ Acked st id := by
  unfold Acked
  rw [same]

/-- The same jobs have been added. -/
theorem added_congr (same : st'.added = st.added) (id : Int)
    : Added st' id ↔ Added st id := by
  unfold Added
  rw [same]

/-- The same numbers have been given. -/
theorem wrapped_congr (same : st'.issued = st.issued)
    : Wrapped st' ↔ Wrapped st := by
  unfold Wrapped
  rw [same]

/-- A step that gives no number keeps the numbers right. -/
theorem Numbers.congr (numbers : Numbers launch st) (nextjob : st'.nextjob = st.nextjob)
    (issued : st'.issued = st.issued) (log : .initialized ∈ st.log → .initialized ∈ st'.log)
    : Numbers launch st' := by
  constructor
  all_goals try simp only [nextjob, issued, wrapped_congr issued]
  case nextjob => exact numbers.nextjob
  case ahead => exact numbers.ahead
  case issued => exact numbers.issued
  case counted => exact numbers.counted
  case wrapped => exact numbers.wrapped
  case distinct => exact numbers.distinct
  case opened =>
    intro some_
    obtain ⟨open_, ahead⟩ := numbers.opened some_
    exact ⟨log open_, ahead⟩

/-- A number that has been given is in its range. -/
theorem Numbers.range (numbers : Numbers launch st) (issued : (p, id) ∈ st.issued)
    : InRange id :=
  (numbers.issued p id issued).2.1

/-- A number is handed out to one thread. -/
theorem Numbers.holder_unique (numbers : Numbers launch st) (first : (p, id) ∈ st.issued)
    (second : (q, id) ∈ st.issued)
    : p = q :=
  congrArg Prod.fst (List.inj_on_of_nodup_map numbers.distinct first second rfl)

/-- As long as the counter has not wrapped around, all numbers so far are below it. -/
theorem Numbers.below (numbers : Numbers launch st) (fresh : ¬ Wrapped st)
    (issued : (q, id) ∈ st.issued)
    : id < st.nextjob :=
  (numbers.issued q id issued).2.2.resolve_right fresh

/-- Nothing was left under a number that is handed out. -/
theorem Numbers.unused (numbers : Numbers launch st) (issued : (p, id) ∈ st.issued)
    : launch.spool.files .reqs (decimalInt id) = none := by
  apply Classical.byContradiction
  intro exists_
  have ahead := (numbers.opened (List.ne_nil_of_mem issued)).2
  obtain ⟨above, range, -⟩ := numbers.issued p id issued
  have := ahead id range exists_
  omega

/-- A number that was acknowledged has been given. -/
theorem Kept.issued_of_acked (kept : Kept launch st) (told : Acked st id)
    : ∃ q, (q, id) ∈ st.issued := by
  obtain ⟨reply, member, rfl⟩ := told
  exact (kept.acked reply member).1

/-- A number that was acknowledged is in its range. -/
theorem Kept.range_of_acked (kept : Kept launch st) (told : Acked st id) : InRange id := by
  obtain ⟨q, issued⟩ := kept.issued_of_acked told
  exact kept.numbers.range issued

/-- A thread works on no job that is settled. -/
theorem Kept.working_ne (kept : Kept launch st) (works : Working st p id) {id' : Int}
    (settled : Settled launch st id')
    : id' ≠ id := by
  rintro rfl
  obtain ⟨-, left | told⟩ := settled
  · exact left (kept.numbers.unused works.1)
  · exact works.2 told

-----------------------------------------------------------------------------------------
-- Steps that change no file
-----------------------------------------------------------------------------------------

/-- A change of what neither the spool nor the accepted jobs depend on. -/
structure Quiet (launch : Launch) (st st' : Printd) : Prop where
  files : st'.files = st.files
  nextjob : st'.nextjob = st.nextjob
  issued : st'.issued = st.issued
  acks : st'.acks = st.acks
  added : ∀ id, Added st id → Added st' id
  confirmed : ∀ id ∈ st.confirmed, id ∈ st'.confirmed
  done : ∀ id ∈ st'.confirmed, id ∈ st.confirmed ∨ Added st id
  queue : ∀ job ∈ st'.queue, job ∈ st.queue ∨ Settled launch st job.jobid ∧ Added st' job.jobid
  log : .initialized ∈ st.log → .initialized ∈ st'.log

/-- A quiet step keeps the spool. -/
theorem Quiet.kept (quiet : Quiet launch st st') (kept : Kept launch st)
    : Kept launch st' := by
  obtain ⟨files, nextjob, issued, acks, added, confirmed, done, queue, log⟩ := quiet
  have acked : ∀ id, Acked st id → Acked st' id := fun id => (acked_congr acks id).mpr
  constructor
  case numbers => exact kept.numbers.congr nextjob issued log
  case stored =>
    obtain ⟨found, small, recovered⟩ := kept.stored
    constructor
    all_goals simp only [files, issued]
    case found => exact found
    case small => exact small
    case recovered =>
      intro readable n job whole
      rcases recovered readable n job whole with same | ⟨id, printed, name⟩
      · exact .inl same
      · exact .inr ⟨id, confirmed id printed, name⟩
  case queued =>
    intro job member
    rcases queue job member with old | ⟨settled, new⟩
    · obtain ⟨settled, old⟩ := kept.queued job old
      exact ⟨settled.mono acked, added _ old⟩
    · exact ⟨settled.mono acked, new⟩
  case confirmed =>
    intro id member
    rcases done id member with old | new
    · exact added id (kept.confirmed id old)
    · exact added id new
  case acked =>
    intro reply member
    rw [acks] at member
    obtain ⟨⟨q, holder⟩, fate⟩ := kept.acked reply member
    refine ⟨⟨q, by rw [issued]; exact holder⟩, ?_⟩
    rcases fate with printed | intact
    · exact .inl (confirmed _ printed)
    · apply Or.inr
      unfold Intact
      rw [files]
      exact intact
  case once =>
    rw [acks]
    exact kept.once

/-- A quiet step leaves the spool to the others. -/
theorem Quiet.leaves (quiet : Quiet launch st st')
    (building : q = .main → .initialized ∉ st.log →
      .initialized ∉ st'.log ∧ st'.added = st.added)
    : Leaves launch q st st' := by
  obtain ⟨files, nextjob, issued, acks, added, confirmed, done, queue, log⟩ := quiet
  have acked := acked_congr acks
  constructor
  case acked =>
    intro id
    exact (acked id).mpr
  case added => exact added
  case confirmed => exact confirmed
  case opened => exact log
  case building => exact building
  case working =>
    intro id works
    refine ⟨⟨by rw [issued]; exact works.1, ?_⟩, fun d => by rw [files]⟩
    rw [acked]
    exact works.2
  case settled =>
    intro id _
    exact .inl (by rw [files])

-----------------------------------------------------------------------------------------
-- Steps that change the files of one name
-----------------------------------------------------------------------------------------

/-- Only the files of one name change. -/
structure Touches (st st' : Printd) (n : Name) : Prop where
  files : ∀ d n', n' ≠ n → st'.files d n' = st.files d n'
  nextjob : st'.nextjob = st.nextjob
  issued : st'.issued = st.issued
  acks : st'.acks = st.acks
  added : st'.added = st.added
  confirmed : st'.confirmed = st.confirmed
  queue : st'.queue = st.queue
  log : st'.log = st.log

/-- A change of the files of one name is kept apart from the jobs of all others. -/
theorem Touches.kept (touch : Touches st st' n) (kept : Kept launch st)
    (stored : Stored launch st')
    (acked : ∀ id, Acked st id → decimalInt id = n → id ∈ st.confirmed)
    : Kept launch st' := by
  obtain ⟨files, nextjob, issued, acks, added, confirmed, queue, log⟩ := touch
  constructor
  case numbers => exact kept.numbers.congr nextjob issued fun open_ => by rw [log]; exact open_
  case stored => exact stored
  case queued =>
    intro job member
    rw [queue] at member
    obtain ⟨settled, old⟩ := kept.queued job member
    exact ⟨settled.mono fun id => (acked_congr acks id).mpr, (added_congr added _).mpr old⟩
  case confirmed =>
    intro id member
    rw [confirmed] at member
    exact (added_congr added id).mpr (kept.confirmed id member)
  case acked =>
    intro reply member
    rw [acks] at member
    obtain ⟨⟨q, holder⟩, fate⟩ := kept.acked reply member
    refine ⟨⟨q, by rw [issued]; exact holder⟩, ?_⟩
    rw [confirmed]
    by_cases this : decimalInt reply.2.id = n
    · exact .inl (acked _ ⟨reply, member, rfl⟩ this)
    · rcases fate with printed | intact
      · exact .inl printed
      · apply Or.inr
        unfold Intact
        rw [files _ _ this, files _ _ this]
        exact intact
  case once =>
    rw [acks]
    exact kept.once

/-- Touching the files of one number leaves the others alone. -/
theorem Touches.leaves (touch : Touches st st' n)
    (working : ∀ id, Working st q id → decimalInt id ≠ n)
    (settled : ∀ id, Settled launch st id → decimalInt id = n →
      st'.files .data n = st.files .data n ∨ st'.files .data n = none)
    : Leaves launch q st st' := by
  obtain ⟨files, nextjob, issued, acks, added, confirmed, queue, log⟩ := touch
  have told := acked_congr acks
  constructor
  case acked =>
    intro id
    exact (told id).mpr
  case added =>
    intro id
    exact (added_congr added id).mpr
  case confirmed =>
    intro id member
    rw [confirmed]
    exact member
  case opened =>
    rw [log]
    exact fun open_ => open_
  case building =>
    rw [log]
    exact fun _ unopened => ⟨unopened, added⟩
  case working =>
    intro id works
    refine ⟨⟨by rw [issued]; exact works.1, ?_⟩, fun d => files d _ (working id works)⟩
    rw [told]
    exact works.2
  case settled =>
    intro id done
    by_cases this : decimalInt id = n
    · rw [this]
      exact settled id done this
    · exact .inl (files _ _ this)

/-- A thread changes the files of the job that it works on. -/
theorem Touches.kept_own (touch : Touches st st' (decimalInt id)) (kept : Kept launch st)
    (works : Working st p id)
    (small : ∀ content, st'.files .reqs (decimalInt id) = some content →
      content.length ≤ PRINTREQ_SZ)
    : Kept launch st' := by
  have range := kept.numbers.range works.1
  apply touch.kept kept
  · obtain ⟨found, small', recovered⟩ := kept.stored
    constructor
    case found =>
      intro d n
      rw [touch.issued]
      by_cases this : n = decimalInt id
      · exact .inr (.inr ⟨p, id, works.1, this⟩)
      · rw [touch.files d n this]
        exact found d n
    case small =>
      intro q id' content issued file
      rw [touch.issued] at issued
      by_cases this : id' = id
      · rw [this] at file
        exact small content file
      · have other : decimalInt id' ≠ decimalInt id :=
          fun same => this ((kept.numbers.range issued).name_inj range same)
        rw [touch.files _ _ other] at file
        exact small' q id' content issued file
    case recovered =>
      intro readable n job whole
      have other : n ≠ decimalInt id := by
        rintro rfl
        have none_ := kept.numbers.unused works.1
        simp [entry, none_] at whole
      simp only [touch.confirmed, touch.files _ _ other]
      exact recovered readable n job whole
  · intro id' told same
    rw [(kept.range_of_acked told).name_inj range same] at told
    exact absurd told works.2

/-- Touching one's own files leaves the others alone. -/
theorem Touches.leaves_own (touch : Touches st st' (decimalInt id)) (kept : Kept launch st)
    (works : Working st p id) (other : q ≠ p)
    : Leaves launch q st st' := by
  have range := kept.numbers.range works.1
  apply touch.leaves
  · intro id' theirs same
    rw [(kept.numbers.range theirs.1).name_inj range same] at theirs
    exact other (kept.numbers.holder_unique theirs.1 works.1)
  · intro id' settled same
    exact absurd (settled.1.name_inj range same) (kept.working_ne works settled)

/-- The files of a job are removed when it was printed, and those of a name without a whole
request while the queue is built.
-/
theorem Touches.kept_removed (touch : Touches st st' n) (kept : Kept launch st)
    (removed : ∀ d, st'.files d n = st.files d n ∨ st'.files d n = none)
    (acked : ∀ id, Acked st id → decimalInt id = n → id ∈ st.confirmed)
    (whole : launch.Readable → ∀ job, entry launch.spool n = some job →
      ∃ id ∈ st.confirmed, InRange id ∧ n = decimalInt id)
    : Kept launch st' := by
  apply touch.kept kept _ acked
  obtain ⟨found, small, recovered⟩ := kept.stored
  have less : ∀ d n', st'.files d n' = st.files d n' ∨ st'.files d n' = none := by
    intro d n'
    by_cases this : n' = n
    · rw [this]
      exact removed d
    · exact .inl (touch.files d n' this)
  constructor
  case found =>
    intro d n'
    rw [touch.issued]
    rcases less d n' with same | gone
    · rw [same]
      exact found d n'
    · exact .inr (.inl gone)
  case small =>
    intro q id content issued file
    rw [touch.issued] at issued
    rcases less .reqs (decimalInt id) with same | gone
    · rw [same] at file
      exact small q id content issued file
    · rw [gone] at file
      exact absurd file nofun
  case recovered =>
    intro readable n' job found'
    rw [touch.confirmed]
    by_cases this : n' = n
    · subst this
      exact .inr (whole readable job found')
    · simp only [touch.files _ _ this]
      exact recovered readable n' job found'

-----------------------------------------------------------------------------------------
-- A new job number
-----------------------------------------------------------------------------------------

/-- The state after `get_newjobno`. -/
def Printd.issue (st : Printd) (p : Thread) : Printd :=
  { st with nextjob := advance st.nextjob, issued := st.issued ++ [(p, st.nextjob)] }

/-- The numbers given after one more. -/
theorem mem_issue {q : Thread} : (q, id) ∈ (st.issue p).issued ↔
    (q, id) ∈ st.issued ∨ q = p ∧ id = st.nextjob := by
  simp [Printd.issue]

/-- The next number has no request file. -/
theorem Kept.next_unused (kept : Kept launch st) (ahead : launch.Ahead) (fresh : ¬ Wrapped st)
    : st.files .reqs (decimalInt st.nextjob) = none := by
  have range := kept.numbers.nextjob
  rcases kept.stored.found .reqs (decimalInt st.nextjob) with same | gone | ⟨q, id, issued, name⟩
  · rw [same]
    apply Classical.byContradiction
    intro exists_
    have below := ahead _ range exists_
    have := kept.numbers.ahead.resolve_right fresh
    omega
  · exact gone
  · have below := kept.numbers.below fresh issued
    rw [range.name_inj (kept.numbers.range issued) name] at below
    omega

/-- A number that is given keeps the numbers right. -/
theorem Numbers.issue (numbers : Numbers launch st) (ahead : launch.Ahead) (fresh : ¬ Wrapped st)
    (opened : .initialized ∈ st.log) (p : Thread)
    : Numbers launch (st.issue p) := by
  obtain ⟨low, high⟩ := numbers.nextjob
  have range := advance_range st.nextjob
  have first := numbers.ahead.resolve_right fresh
  have length : (st.issue p).issued.length = st.issued.length + 1 := by simp [Printd.issue]
  have last : Wrapped (st.issue p) ↔ st.nextjob = 2 ^ 31 - 1 := by
    constructor
    · rintro ⟨q, member⟩
      rcases mem_issue.mp member with earlier | ⟨-, same⟩
      · exact absurd ⟨q, earlier⟩ fresh
      · exact same.symm
    · intro same
      exact ⟨p, mem_issue.mpr (.inr ⟨rfl, same.symm⟩)⟩
  have grows : st.nextjob < advance st.nextjob ∨ Wrapped (st.issue p) := by
    rw [last]
    by_cases same : st.nextjob = 2 ^ 31 - 1
    · exact .inr same
    · exact .inl (lt_advance low (by omega))
  constructor
  case nextjob => exact ⟨by have := range.1; show -(2 ^ 31) ≤ advance _; omega, range.2⟩
  case ahead =>
    rcases grows with more | wrapped
    · apply Or.inl
      show launch.start ≤ advance st.nextjob
      omega
    · exact .inr wrapped
  case issued =>
    intro q id member
    rcases mem_issue.mp member with earlier | ⟨rfl, rfl⟩
    · obtain ⟨above, inside, -⟩ := numbers.issued q id earlier
      have below := numbers.below fresh earlier
      refine ⟨above, inside, ?_⟩
      rcases grows with more | wrapped
      · apply Or.inl
        show id < advance st.nextjob
        omega
      · exact .inr wrapped
    · exact ⟨first, ⟨low, high⟩, grows⟩
  case counted =>
    intro positive unwrapped
    rw [last] at unwrapped
    show advance st.nextjob = _
    rw [advance_eq_succ (by omega) (by omega), length, numbers.counted positive fresh]
    omega
  case wrapped =>
    intro positive wrapped
    have count := numbers.counted positive fresh
    rw [last.mp wrapped] at count
    omega
  case distinct =>
    have new : st.nextjob ∉ st.issued.map Prod.snd := by
      intro member
      obtain ⟨⟨q, id⟩, issued, same⟩ := List.mem_map.mp member
      have := numbers.below fresh issued
      simp only at same
      omega
    simp only [Printd.issue, List.map_append, List.map_cons, List.map_nil]
    exact List.nodup_append_comm.mp (List.nodup_cons.mpr ⟨new, numbers.distinct⟩)
  case opened => exact fun _ => ⟨opened, ahead⟩

/-- A number that is given keeps the spool. -/
theorem Kept.issue (kept : Kept launch st) (ahead : launch.Ahead) (fresh : ¬ Wrapped st)
    (opened : .initialized ∈ st.log) (p : Thread)
    : Kept launch (st.issue p) := by
  have unused := kept.next_unused ahead fresh
  constructor
  case numbers => exact kept.numbers.issue ahead fresh opened p
  case stored =>
    obtain ⟨found, small, recovered⟩ := kept.stored
    constructor
    case found =>
      intro d n
      rcases found d n with same | gone | ⟨q, id, issued, name⟩
      · exact .inl same
      · exact .inr (.inl gone)
      · exact .inr (.inr ⟨q, id, mem_issue.mpr (.inl issued), name⟩)
    case small =>
      intro q id content member file
      rcases mem_issue.mp member with earlier | ⟨-, rfl⟩
      · exact small q id content earlier file
      · exact absurd (unused.symm.trans file) nofun
    case recovered => exact recovered
  case queued => exact kept.queued
  case confirmed => exact kept.confirmed
  case acked =>
    intro reply member
    obtain ⟨⟨q, issued⟩, fate⟩ := kept.acked reply member
    exact ⟨⟨q, mem_issue.mpr (.inl issued)⟩, fate⟩
  case once => exact kept.once

/-- A number that is given leaves the spool to the others. -/
theorem issue_leaves (st : Printd) (p q : Thread)
    : Leaves launch q st (st.issue p) := by
  constructor
  case acked => exact fun _ told => told
  case added => exact fun _ queued => queued
  case confirmed => exact fun _ member => member
  case opened => exact fun open_ => open_
  case building => exact fun _ unopened => ⟨unopened, rfl⟩
  case working =>
    intro id works
    exact ⟨⟨mem_issue.mpr (.inl works.1), works.2⟩, fun _ => rfl⟩
  case settled => exact fun _ _ => .inl rfl

/-- The thread works on the number that it was given. -/
theorem Kept.working_issue (kept : Kept launch st) (fresh : ¬ Wrapped st) (p : Thread)
    : Working (st.issue p) p st.nextjob := by
  refine ⟨mem_issue.mpr (.inr ⟨rfl, rfl⟩), ?_⟩
  intro told
  have told : Acked st st.nextjob := told
  obtain ⟨q, issued⟩ := kept.issued_of_acked told
  have := kept.numbers.below fresh issued
  omega

-----------------------------------------------------------------------------------------
-- Responses
-----------------------------------------------------------------------------------------

/-- The state after a response. -/
def Printd.respond (st : Printd) (conn : Conn) (res : PrintResp) : Printd :=
  { st with replies := st.replies ++ [(conn, res)] }

/-- An error is no acknowledgement. -/
theorem acks_respond_error (st : Printd) (conn : Conn) {res : PrintResp} (failed : res.retcode ≠ 0)
    : (st.respond conn res).acks = st.acks := by
  simp [Printd.acks, Printd.respond, failed]

/-- An acceptance is an acknowledgement. -/
theorem acks_respond_accept (st : Printd) (conn : Conn) (id : Int)
    : (st.respond conn (acceptResp id)).acks = st.acks ++ [(conn, acceptResp id)] := by
  simp [Printd.acks, Printd.respond, acceptResp]

/-- An acknowledged number after an answer. -/
theorem acked_respond {conn : Conn} {id' : Int} (range : InRange id)
    (told : Acked (st.respond conn (acceptResp id)) id')
    : Acked st id' ∨ id' = id := by
  obtain ⟨reply, member, rfl⟩ := told
  rw [acks_respond_accept] at member
  rcases List.mem_append.mp member with earlier | new
  · exact .inl ⟨reply, earlier, rfl⟩
  · rw [List.mem_singleton.mp new]
    exact .inr (acceptResp_id range.1 range.2)

/-- What was acknowledged stays so. -/
theorem acked_mono_respond {conn : Conn} {id' : Int} (told : Acked st id')
    : Acked (st.respond conn (acceptResp id)) id' := by
  obtain ⟨reply, member, same⟩ := told
  exact ⟨reply, by rw [acks_respond_accept]; exact List.mem_append_left _ member, same⟩

/-- A thread accepts the job that it works on, when both files are complete. -/
theorem Kept.accept (kept : Kept launch st) (works : Working st p id) {conn : Conn}
    (intact : Intact st conn id)
    : Kept launch (st.respond conn (acceptResp id)) := by
  have range := kept.numbers.range works.1
  have name : (acceptResp id).id = id := acceptResp_id range.1 range.2
  constructor
  case numbers => exact kept.numbers.congr rfl rfl fun open_ => open_
  case stored => exact ⟨kept.stored.found, kept.stored.small, kept.stored.recovered⟩
  case queued =>
    intro job member
    obtain ⟨settled, queued⟩ := kept.queued job member
    exact ⟨settled.mono fun _ => acked_mono_respond, queued⟩
  case confirmed => exact kept.confirmed
  case acked =>
    intro reply member
    rw [acks_respond_accept] at member
    rcases List.mem_append.mp member with earlier | new
    · exact kept.acked reply earlier
    · rw [List.mem_singleton.mp new, name]
      exact ⟨⟨p, works.1⟩, .inr intact⟩
  case once =>
    have new : id ∉ st.acks.map fun reply => reply.2.id := by
      intro member
      obtain ⟨reply, earlier, same⟩ := List.mem_map.mp member
      exact works.2 ⟨reply, earlier, same⟩
    rw [acks_respond_accept, List.map_append, List.map_singleton, name]
    exact List.nodup_append_comm.mp (List.nodup_cons.mpr ⟨new, kept.once⟩)

/-- An acceptance leaves the spool to the others. -/
theorem Kept.accept_leaves (kept : Kept launch st) (works : Working st p id) (other : q ≠ p)
    (conn : Conn)
    : Leaves launch q st (st.respond conn (acceptResp id)) := by
  constructor
  case acked => exact fun _ => acked_mono_respond
  case added => exact fun _ queued => queued
  case confirmed => exact fun _ member => member
  case opened => exact fun open_ => open_
  case building => exact fun _ unopened => ⟨unopened, rfl⟩
  case working =>
    intro id' theirs
    refine ⟨⟨theirs.1, ?_⟩, fun _ => rfl⟩
    intro told
    rcases acked_respond (kept.numbers.range works.1) told with earlier | same
    · exact theirs.2 earlier
    · rw [same] at theirs
      exact other (kept.numbers.holder_unique theirs.1 works.1)
  case settled => exact fun _ _ => .inl rfl

end Minions.Printer
