import Minions.Printer.Spooling

/-! Rules for the calls of the threads of the print daemon under the discipline of the spool. -/

namespace Minions.Printer

open Minions.Data Minions.Logic

variable {launch : Launch} {st st' : Printd} {p q : Thread} {id : Int} {n : Name} {l : Loc} {α : Type}
  {Q : α → Loc → Printd × Unit → Prop} {K : Printd → Prop}

/-- The machine on which the counter stays ahead. -/
abbrev counting (launch : Launch) : Machine Sys Thread Loc Printd := daemonWith (unwrapped launch)

/-- A thread under the discipline of the spool. It may end the process. -/
abbrev spools (launch : Launch) (p : Thread) (prog : Prog Sys α)
    (Q : α → Loc → Printd × Unit → Prop) (l : Loc) (st : Printd)
    : Prop :=
  wp (counting launch) (spooling launch) p True prog Q l (st, ())

-----------------------------------------------------------------------------------------
-- Rules for calls
-----------------------------------------------------------------------------------------

/-- The rule for a call. -/
theorem spool_call {c : Call} {next : c.Resp → Prog Sys α}
    (h : ∀ st', Leaves launch p st st' → Kept launch st' → unwrapped launch c st' →
      Preserves c st' ∧ Rebuilt launch c st' ∧ Kept launch (execCall p c l st').2.2
      ∧ (∀ q, q ≠ p → Leaves launch q st' (execCall p c l st').2.2)
      ∧ spools launch p (next (execCall p c l st').1) Q (execCall p c l st').2.1
          (execCall p c l st').2.2)
    : spools launch p (.call c next) Q l st := by
  intro s' rely inv ready
  obtain ⟨st', ⟨⟩⟩ := s'
  obtain ⟨may, rebuilt, kept, others, rest⟩ := h st' rely inv ready
  exact ⟨⟨may, rebuilt⟩, (), kept, others, trivial, rest⟩

/-- The last step of a thread of which nothing more is asked. -/
theorem spool_done {a : α} : spools launch p (.ret a) (fun _ _ _ => True) l st :=
  fun _ _ _ => trivial

/-- The calls that the discipline does not restrict. -/
def Harmless (c : Call) : Prop := ∀ launch st, Preserves c st ∧ Rebuilt launch c st

/-- A call that changes no file; what the thread knows stays true. -/
theorem spool_quiet {c : Call} {next : c.Resp → Prog Sys α} (known : K st)
    (stable : ∀ {s t}, K s → Leaves launch p s t → K t) (harmless : Harmless c)
    (quiet : ∀ st, K st → Kept launch st → unwrapped launch c st →
      Quiet launch st (execCall p c l st).2.2)
    (building : ∀ st, K st → Kept launch st → .initialized ∉ st.log →
      .initialized ∉ (execCall p c l st).2.2.log
      ∧ (p ≠ .main → (execCall p c l st).2.2.added = st.added))
    (h : ∀ st, K st → Kept launch st → unwrapped launch c st →
      Kept launch (execCall p c l st).2.2 →
      spools launch p (next (execCall p c l st).1) Q (execCall p c l st).2.1
        (execCall p c l st).2.2)
    : spools launch p (.call c next) Q l st := by
  apply spool_call
  intro st₁ leaves kept ready
  have known₁ := stable known leaves
  have change := quiet st₁ known₁ kept ready
  obtain ⟨may, rebuilt⟩ := harmless launch st₁
  have kept' := change.kept kept
  refine ⟨may, rebuilt, kept', ?_, h st₁ known₁ kept ready kept'⟩
  intro q other
  apply change.leaves
  rintro rfl unopened
  obtain ⟨unopened', same⟩ := building st₁ known₁ kept unopened
  exact ⟨unopened', same (Ne.symm other)⟩

/-- The shared state is the same, but for what `Quiet` says nothing about. -/
structure Unseen (st st' : Printd) : Prop where
  files : st'.files = st.files
  nextjob : st'.nextjob = st.nextjob
  issued : st'.issued = st.issued
  acks : st'.acks = st.acks
  added : st'.added = st.added
  confirmed : st'.confirmed = st.confirmed
  queue : st'.queue = st.queue
  log : .initialized ∈ st'.log ↔ .initialized ∈ st.log

/-- Nothing has happened. -/
theorem Unseen.refl (st : Printd) : Unseen st st := ⟨rfl, rfl, rfl, rfl, rfl, rfl, rfl, Iff.rfl⟩

/-- A step that is not seen is quiet. -/
theorem Unseen.quiet (unseen : Unseen st st') : Quiet launch st st' where
  files := unseen.files
  nextjob := unseen.nextjob
  issued := unseen.issued
  acks := unseen.acks
  added id := (added_congr unseen.added id).mpr
  confirmed id member := by rw [unseen.confirmed]; exact member
  done id member := by rw [unseen.confirmed] at member; exact .inl member
  queue job member := by rw [unseen.queue] at member; exact .inl member
  log := unseen.log.mpr

/-- A step that is not seen leaves the spool to the others. -/
theorem Unseen.leaves (unseen : Unseen st st') : Leaves launch q st st' := by
  apply unseen.quiet.leaves
  intro _ unopened
  exact ⟨fun open_ => unopened (unseen.log.mp open_), unseen.added⟩

/-- A call of which the other threads see nothing. -/
theorem spool_unseen {c : Call} {next : c.Resp → Prog Sys α} (known : K st)
    (stable : ∀ {s t}, K s → Leaves launch p s t → K t) (harmless : Harmless c)
    (unseen : ∀ st, Unseen st (execCall p c l st).2.2)
    (h : ∀ st st', K st → Kept launch st → K st' → Kept launch st' →
      st' = (execCall p c l st).2.2 →
      spools launch p (next (execCall p c l st).1) Q (execCall p c l st).2.1 st')
    : spools launch p (.call c next) Q l st := by
  apply spool_quiet known stable harmless
  case quiet =>
    intro st _ _ _
    exact (unseen st).quiet
  case building =>
    intro st _ _ unopened
    exact ⟨fun open_ => unopened ((unseen st).log.mp open_), fun _ => (unseen st).added⟩
  case h =>
    intro st known kept _ kept'
    exact h st _ known kept (stable known (unseen st).leaves) kept' rfl

/-- The calls that change only what belongs to the thread. -/
def Call.looks : Call → Bool
  | .opendir | .readdir | .open _ _ | .read _ _ _ | .fstat _ _ => true
  | .loadNextjob | .getPrintaddr | .connect | .send _ => true
  | _ => false

/-- The calls that change at most the number in the job file and the flag of `SIGHUP`. -/
def Call.hidden : Call → Bool
  | .lseekJobno | .writeJobno _ | .setReread | .takeReread => true
  | c => c.looks

/-- A call that only looks changes nothing. -/
theorem execCall_looks {c : Call} (h : c.looks) (p : Thread) (l : Loc) (st : Printd)
    : (execCall p c l st).2.2 = st := by
  cases c <;> simp only [Call.looks, Bool.false_eq_true] at h <;> simp only [execCall] <;>
    try (split <;> rfl)

/-- A hidden call does no harm. -/
theorem harmless_of_hidden {c : Call} (h : c.hidden) : Harmless c := by
  intro launch st
  cases c <;>
    simp only [Call.hidden, Call.looks, Bool.false_eq_true, Preserves, Rebuilt, and_self] at h ⊢

/-- A hidden call is not seen. -/
theorem execCall_hidden {c : Call} (h : c.hidden) (p : Thread) (l : Loc) (st : Printd)
    : Unseen st (execCall p c l st).2.2 := by
  by_cases looks : c.looks
  · rw [execCall_looks looks]
    exact .refl st
  · cases c <;> simp_all only [Call.hidden, Call.looks, Bool.false_eq_true, not_true] <;>
      simp only [execCall] <;> (try split) <;> exact ⟨rfl, rfl, rfl, rfl, rfl, rfl, rfl, Iff.rfl⟩

/-- A call that changes only what belongs to the thread. -/
theorem spool_read {c : Call} {next : c.Resp → Prog Sys α} (known : K st)
    (stable : ∀ {s t}, K s → Leaves launch p s t → K t) (looks : c.looks)
    (h : ∀ st, K st → Kept launch st →
      spools launch p (next (execCall p c l st).1) Q (execCall p c l st).2.1 st)
    : spools launch p (.call c next) Q l st := by
  have hidden : c.hidden := by
    cases c <;> first | exact looks | exact absurd looks nofun
  apply spool_unseen known stable (harmless_of_hidden hidden) (execCall_hidden hidden p l)
  intro st st' known kept _ _ eq
  rw [eq, execCall_looks looks]
  exact h st known kept

/-- `open` finds the file or fails with `ENOENT`. -/
theorem execCall_open_passes {d : Dir} {n : Name} (h : l.fault.passes)
    : execCall p (.open d n) l st
      = (if (st.files d n).isSome then .ok () else .error ENOENT, { l.next with offset := 0 },
          st) := by
  rcases fault : l.fault with _ | e | k <;> simp_all [execCall, Fault.passes]

/-- `open` fails and leaves the files alone. -/
theorem execCall_open_fails {d : Dir} {n : Name} (h : l.fault.passes = false)
    : ∃ e, execCall p (.open d n) l st = (.error e, l.next, st) := by
  rcases fault : l.fault with _ | e | k <;> simp_all [execCall, Fault.passes]

/-- `read` gets the bytes at the offset. -/
theorem execCall_read_passes {d : Dir} {n : Name} {len : Nat} (h : l.fault.passes)
    : execCall p (.read d n len) l st
      = (.ok (pread ((st.files d n).getD []) l.offset len),
          { l.next with
            offset := l.offset + (pread ((st.files d n).getD []) l.offset len).length },
          st) := by
  rcases fault : l.fault with _ | e | k <;> simp_all [execCall, Fault.passes]

/-- `read` fails and leaves the files alone. -/
theorem execCall_read_fails {d : Dir} {n : Name} {len : Nat} (h : l.fault.passes = false)
    : ∃ e, execCall p (.read d n len) l st = (.error e, l.next, st) := by
  rcases fault : l.fault with _ | e | k <;> simp_all [execCall, Fault.passes]

/-- A call after which the thread only knows what it knew before. -/
theorem spool_hidden {c : Call} {next : c.Resp → Prog Sys α} (known : K st)
    (stable : ∀ {s t}, K s → Leaves launch p s t → K t) (hidden : c.hidden)
    (h : ∀ r l st, K st → Kept launch st → spools launch p (next r) Q l st)
    : spools launch p (.call c next) Q l st := by
  apply spool_unseen known stable (harmless_of_hidden hidden) (execCall_hidden hidden p l)
  intro st st' _ _ known' kept' _
  exact h _ _ st' known' kept'

/-- A message of the log other than the one that the queue is built. -/
theorem spool_log {msg : LogMsg} {next : Unit → Prog Sys α} (known : K st)
    (stable : ∀ {s t}, K s → Leaves launch p s t → K t) (ordinary : msg ≠ .initialized)
    (h : ∀ st, K st → Kept launch st → spools launch p (next ()) Q l st)
    : spools launch p (.call (.logMsg msg) next) Q l st := by
  apply spool_unseen known stable
  case harmless =>
    intro launch st
    refine ⟨trivial, ?_⟩
    cases msg <;> trivial
  case unseen =>
    intro st
    refine ⟨rfl, rfl, rfl, rfl, rfl, rfl, rfl, ?_⟩
    simp [execCall, Ne.symm ordinary]
  case h =>
    intro st st' _ _ known' kept' _
    exact h st' known' kept'

/-- A response of failure. -/
theorem spool_refuse {e : Errno} {next : Unit → Prog Sys α} (known : K st)
    (stable : ∀ {s t}, K s → Leaves launch p s t → K t)
    (h : ∀ st, K st → Kept launch st → spools launch p (next ()) Q l st)
    : spools launch p (.call (.reply (errorResp e)) next) Q l st := by
  apply spool_unseen known stable
  case harmless => exact fun _ _ => ⟨trivial, trivial⟩
  case unseen =>
    intro st
    exact ⟨rfl, rfl, rfl, acks_respond_error st l.conn (errorResp_retcode e), rfl, rfl, rfl, Iff.rfl⟩
  case h =>
    intro st st' _ _ known' kept' _
    exact h st' known' kept'

/-- A job that is added has been added. -/
theorem added_append (st : Printd) (job : Job) (queue : List Job) (id : Int)
    : Added { st with queue := queue, added := st.added ++ [job] } id
      ↔ Added st id ∨ id = job.jobid := by
  simp [Added, or_and_right, exists_or, eq_comm]

/-- A settled job is put in the queue. -/
theorem spool_add {job : Job} {next : Bool → Prog Sys α} (known : K st)
    (stable : ∀ {s t}, K s → Leaves launch p s t → K t)
    (settled : ∀ st, K st → Kept launch st → Settled launch st job.jobid)
    (opened : ∀ st, K st → Kept launch st → p ≠ .main → .initialized ∈ st.log)
    (added : ∀ st, K st → Kept launch st →
      spools launch p (next true) Q l.next
        { st with queue := st.queue ++ [job], added := st.added ++ [job] })
    (failed : l.fault.passes = false → ∀ st, K st → Kept launch st →
      spools launch p (next false) Q l.next st)
    : spools launch p (.call (.addJob job) next) Q l st := by
  have cases_ : ∀ st, execCall p (.addJob job) l st
        = (true, l.next, { st with queue := st.queue ++ [job], added := st.added ++ [job] })
      ∨ l.fault.passes = false ∧ execCall p (.addJob job) l st = (false, l.next, st) := by
    intro st
    rcases fault : l.fault with _ | e | k <;> simp [execCall, fault, Fault.passes]
  apply spool_quiet known stable
  case harmless => exact fun _ _ => ⟨trivial, trivial⟩
  case quiet =>
    intro st known kept _
    rcases cases_ st with result | ⟨-, result⟩ <;> rw [result]
    · have more := added_append st job (st.queue ++ [job])
      refine ⟨rfl, rfl, rfl, rfl, fun id old => (more id).mpr (.inl old), fun _ member => member,
        fun _ member => .inl member, ?_, fun open_ => open_⟩
      intro job' member
      rcases List.mem_append.mp member with old | new
      · exact .inl old
      · rw [List.mem_singleton.mp new]
        exact .inr ⟨settled st known kept, (more _).mpr (.inr rfl)⟩
    · exact (Unseen.refl st).quiet
  case building =>
    intro st known kept unopened
    rcases cases_ st with result | ⟨-, result⟩ <;> rw [result]
    · refine ⟨unopened, ?_⟩
      intro other
      exact absurd (opened st known kept other) unopened
    · exact ⟨unopened, fun _ => rfl⟩
  case h =>
    intro st known kept _ _
    rcases cases_ st with result | ⟨fails, result⟩ <;> rw [result]
    · exact added st known kept
    · exact failed fails st known kept

-----------------------------------------------------------------------------------------
-- A client's own files
-----------------------------------------------------------------------------------------

/-- The thread works on a job whose files are these. -/
def Own (p : Thread) (id : Int) (files : Dir → Option (List Byte)) (st : Printd) : Prop :=
  Working st p id ∧ ∀ d, st.files d (decimalInt id) = files d

variable {files : Dir → Option (List Byte)}

/-- A thread goes on working on its number while others step. -/
theorem Working.stable {s t : Printd} (works : Working s p id) (leaves : Leaves launch p s t)
    : Working t p id :=
  (leaves.working id works).1

/-- A thread's own files stay while others step. -/
theorem Own.stable {s t : Printd} (own : Own p id files s) (leaves : Leaves launch p s t)
    : Own p id files t := by
  obtain ⟨works, content⟩ := own
  obtain ⟨works', same⟩ := leaves.working id works
  exact ⟨works', fun d => (same d).trans (content d)⟩

/-- Nothing is touched. -/
theorem touches_refl (st : Printd) (n : Name) : Touches st st n :=
  ⟨fun _ _ _ => rfl, rfl, rfl, rfl, rfl, rfl, rfl, rfl⟩

/-- A file that is set is touched. -/
theorem touches_setFile (st : Printd) (d : Dir) (n : Name) (content : Option (List Byte))
    : Touches st (st.setFile d n content) n := by
  refine ⟨?_, rfl, rfl, rfl, rfl, rfl, rfl, rfl⟩
  intro d' n' other
  exact files_setFile_other fun same => other same.2

/-- A file that is written is touched. -/
theorem touches_writeFile (st : Printd) (d : Dir) (n : Name) (offset : Nat) (bytes : List Byte)
    : Touches st (st.writeFile d n offset bytes) n := by
  unfold Printd.writeFile
  split
  · exact touches_refl st n
  · exact touches_setFile st d n _

/-- A file that is removed is touched. -/
theorem touches_unlink (p : Thread) (d : Dir) (n : Name) (l : Loc) (st : Printd)
    : Touches st (execCall p (.unlink d n) l st).2.2 n := by
  rcases fault : l.fault with _ | e | k <;> simp only [execCall, fault]
  · exact touches_setFile ..
  · exact touches_refl ..
  · exact touches_setFile ..

/-- A file is still there after `unlink`, or it is not. -/
theorem files_unlink (p : Thread) (d d' : Dir) (n : Name) (l : Loc) (st : Printd)
    : (execCall p (.unlink d n) l st).2.2.files d' n = st.files d' n
      ∨ (execCall p (.unlink d n) l st).2.2.files d' n = none := by
  have set : (st.setFile d n none).files d' n = st.files d' n
      ∨ (st.setFile d n none).files d' n = none := by
    by_cases this : d' = d
    · rw [this]
      exact .inr (files_setFile_self ..)
    · exact .inl (files_setFile_other fun same => this same.1)
  rcases fault : l.fault with _ | e | k <;> simp only [execCall, fault]
  · exact set
  · exact .inl trivial
  · exact set

/-- Touching files leaves the numbers alone. -/
theorem Touches.working (touch : Touches st st' n) (works : Working st p id)
    : Working st' p id := by
  unfold Working
  rw [touch.issued, acked_congr touch.acks]
  exact works

/-- A call on the files of the thread's own job. -/
theorem own_call (id : Int) {c : Call} {next : c.Resp → Prog Sys α} (known : K st)
    (stable : ∀ {s t}, K s → Leaves launch p s t → K t) (works : ∀ st, K st → Working st p id)
    (may : ∀ st, K st → Preserves c st) (rebuilt : ∀ st, Rebuilt launch c st)
    (touch : ∀ st, Touches st (execCall p c l st).2.2 (decimalInt id))
    (small : ∀ st, K st → Kept launch st → ∀ content,
      (execCall p c l st).2.2.files .reqs (decimalInt id) = some content →
      content.length ≤ PRINTREQ_SZ)
    (h : ∀ st, K st → Working (execCall p c l st).2.2 p id →
      Kept launch (execCall p c l st).2.2 →
      spools launch p (next (execCall p c l st).1) Q (execCall p c l st).2.1
        (execCall p c l st).2.2)
    : spools launch p (.call c next) Q l st := by
  apply spool_call
  intro st₁ leaves kept _
  have known₁ := stable known leaves
  have works₁ := works st₁ known₁
  have kept' := (touch st₁).kept_own kept works₁ (small st₁ known₁ kept)
  exact ⟨may st₁ known₁, rebuilt st₁, kept',
    fun q other => (touch st₁).leaves_own kept works₁ other,
    h st₁ known₁ ((touch st₁).working works₁) kept'⟩

/-- A thread removes a file of its own job. -/
theorem own_unlink {d : Dir} {next : Unit → Prog Sys α} (works : Working st p id)
    (h : ∀ l st, Working st p id → Kept launch st → spools launch p (next ()) Q l st)
    : spools launch p (.call (.unlink d (decimalInt id)) next) Q l st := by
  apply own_call id works Working.stable
  case works => exact fun _ works => works
  case may => exact fun _ _ => trivial
  case rebuilt => exact fun _ => trivial
  case touch => exact fun st => touches_unlink p d _ l st
  case small =>
    intro st works kept content file
    rcases files_unlink p d .reqs (decimalInt id) l st with same | gone
    · rw [same] at file
      exact kept.stored.small p id content works.1 file
    · rw [gone] at file
      exact absurd file nofun
  case h =>
    intro st _ works' kept'
    exact h _ _ works' kept'

/-- A thread sets one of its own files. -/
theorem Own.setFile (own : Own p id files st) (d : Dir) (content : Option (List Byte))
    : Own p id (Function.update files d content) (st.setFile d (decimalInt id) content) := by
  obtain ⟨works, same⟩ := own
  refine ⟨(touches_setFile ..).working works, ?_⟩
  intro d'
  by_cases this : d' = d
  · rw [this, files_setFile_self, Function.update_self]
  · rw [files_setFile_other fun both => this both.1, Function.update_of_ne this]
    exact same d'

/-- A file that is created is touched. -/
theorem touches_creat (p : Thread) (d : Dir) (n : Name) (l : Loc) (st : Printd)
    : Touches st (execCall p (.creat d n) l st).2.2 n := by
  rcases fault : l.fault with _ | e | k <;> simp only [execCall, fault]
  · exact touches_setFile ..
  · exact touches_refl ..
  · exact touches_setFile ..

/-- A thread creates a file of its own job. -/
theorem own_creat {d : Dir} {next : Except Errno Unit → Prog Sys α} (own : Own p id files st)
    (new : files .reqs = none)
    (created : ∀ st, Own p id (Function.update files d (some [])) st → Kept launch st →
      spools launch p (next (.ok ())) Q { l.next with offset := 0 } st)
    (failed : ∀ e st, Own p id files st → Kept launch st →
      spools launch p (next (.error e)) Q l.next st)
    : spools launch p (.call (.creat d (decimalInt id)) next) Q l st := by
  have cases_ : ∀ st,
      execCall p (.creat d (decimalInt id)) l st
        = (.ok (), { l.next with offset := 0 }, st.setFile d (decimalInt id) (some []))
      ∨ ∃ e, execCall p (.creat d (decimalInt id)) l st = (.error e, l.next, st) := by
    intro st
    cases passes : l.fault.passes with
    | true => exact .inl (execCall_creat_passes passes)
    | false => exact .inr (execCall_creat_fails passes)
  apply own_call id own Own.stable
  case works => exact fun _ own => own.1
  case may => exact fun _ own => (own.2 .reqs).trans new
  case rebuilt => exact fun _ => trivial
  case touch => exact fun st => touches_creat p d _ l st
  case small =>
    intro st own kept content file
    rcases cases_ st with result | ⟨e, result⟩ <;> rw [result] at file
    · rw [(own.setFile d (some [])).2 .reqs] at file
      cases d with
      | data => exact absurd (new.symm.trans file) nofun
      | reqs => exact Option.some.inj file ▸ Nat.zero_le _
    · exact kept.stored.small p id content own.1.1 file
  case h =>
    intro st own _ kept'
    rcases cases_ st with result | ⟨e, result⟩ <;> rw [result] at kept' ⊢
    · exact created _ (own.setFile d (some [])) kept'
    · exact failed e st own kept'

/-- A file that is written is touched. -/
theorem touches_write (p : Thread) (d : Dir) (n : Name) (bytes : List Byte) (l : Loc) (st : Printd)
    : Touches st (execCall p (.write d n bytes) l st).2.2 n := by
  rcases fault : l.fault with _ | e | k <;> simp only [execCall, fault]
  · exact touches_writeFile ..
  · exact touches_refl ..
  · exact touches_writeFile ..

/-- A write of the thread at the end of a file of its own job. -/
theorem Own.writeFile (own : Own p id files st) {d : Dir} {content : List Byte}
    (stored : files d = some content) (bytes : List Byte)
    : Own p id (Function.update files d (some (content ++ bytes)))
        (st.writeFile d (decimalInt id) content.length bytes) := by
  have file : st.files d (decimalInt id) = some content := (own.2 d).trans stored
  simp only [Printd.writeFile, file, pwrite_end]
  exact own.setFile d _

/-- A write changes nothing, or appends some of the bytes. -/
theorem Own.write (own : Own p id files st) {d : Dir} {content : List Byte} (bytes : List Byte)
    (stored : files d = some content) (offset : l.offset = content.length)
    : Own p id files (execCall p (.write d (decimalInt id) bytes) l st).2.2
      ∨ ∃ count, Own p id (Function.update files d (some (content ++ bytes.take count)))
          (execCall p (.write d (decimalInt id) bytes) l st).2.2 := by
  have writes := fun count => own.writeFile stored (bytes.take count)
  rcases fault : l.fault with _ | e | k <;> simp only [execCall, fault, offset]
  · exact .inr ⟨_, writes _⟩
  · exact .inl own
  · exact .inr ⟨_, writes _⟩

/-- A thread appends to a file of its own job. -/
theorem own_writeAll {d : Dir} {bytes content : List Byte} {next : Option Errno → Prog Sys α}
    (own : Own p id files st) (stored : files d = some content) (offset : l.offset = content.length)
    (may : ∀ st, Own p id files st → Preserves (.write d (decimalInt id) bytes) st)
    (room : d = .reqs → content.length + bytes.length ≤ PRINTREQ_SZ)
    (whole : ∀ st, Own p id (Function.update files d (some (content ++ bytes))) st →
      Kept launch st →
      spools launch p (next none) Q { l.next with offset := l.offset + bytes.length } st)
    (broken : ∀ e l st, Working st p id → Kept launch st → spools launch p (next (some e)) Q l st)
    : spools launch p ((writeAll d (decimalInt id) bytes).bind next) Q l st := by
  apply own_call id own Own.stable
  case works => exact fun _ own => own.1
  case may => exact may
  case rebuilt => exact fun _ => by cases d <;> trivial
  case touch => exact fun st => touches_write p d _ bytes l st
  case small =>
    intro st own kept content' file
    have old : files .reqs = some content' → content'.length ≤ PRINTREQ_SZ := by
      intro file
      exact kept.stored.small p id content' own.1.1 ((own.2 .reqs).trans file)
    rcases own.write bytes stored offset with same | ⟨count, more⟩
    · exact old ((same.2 .reqs).symm.trans file)
    · have file := (more.2 .reqs).symm.trans file
      cases d with
      | data => exact old file
      | reqs =>
          have size := room rfl
          rw [← Option.some.inj file, List.length_append]
          have := List.length_take_le' count bytes
          omega
  case h =>
    intro st own works kept'
    cases complete : l.fault.whole bytes.length with
    | true =>
        rw [execCall_write_whole complete] at kept' ⊢
        rw [offset] at kept' ⊢
        simpa [offset] using whole _ (own.writeFile stored bytes) kept'
    | false =>
        rcases execCall_write_broken (p := p) (d := d) (n := decimalInt id) complete
          with ⟨e, result⟩ | ⟨nw, result, short⟩
        · rw [result]
          exact broken e _ _ works kept'
        · rw [result]
          simp only [Prog.ret_bind, Prog.pure_eq, if_neg short]
          exact broken EIO _ _ works kept'

end Minions.Printer
