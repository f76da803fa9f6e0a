import Minions.Printer.SpoolRules

/-! The main thread of the print daemon keeps the discipline of the spool.
It runs `build_qonstart` while the printer thread already prints, and removes the files of a
request that it cannot read. When the directory is read without an error, it queues exactly the
jobs whose request files were whole when the run started.
-/

namespace Minions.Printer

open Minions.Data Minions.Logic

variable {launch : Launch} {st : Printd} {n : Name} {l : Loc} {α : Type}
  {Q : α → Loc → Printd × Unit → Prop}

/-- No call of the thread fails. -/
def Passing (l : Loc) : Prop := ∀ fault ∈ l.faults, fault.passes

/-- The next call passes. -/
theorem Passing.fault (h : Passing l) : l.fault.passes := by
  rcases faults : l.faults with _ | ⟨fault, rest⟩ <;> simp only [Loc.fault, faults, List.headD]
  · rfl
  · exact h fault (by rw [faults]; exact List.mem_cons_self)

/-- The calls after it pass. -/
theorem Passing.next (h : Passing l) : Passing l.next :=
  fun fault member => h fault (List.mem_of_mem_tail member)

/-- A directory is not read without an error when a call fails. -/
theorem not_readable (passes : launch.Readable → Passing l) (failed : l.fault.passes = false)
    : ¬ launch.Readable := by
  intro readable
  rw [(passes readable).fault] at failed
  exact absurd failed nofun

/-- The main thread has looked at some names. -/
def Building (launch : Launch) (done : List Name) (st : Printd) : Prop :=
  .initialized ∉ st.log ∧ (launch.Readable → st.added = entries launch.spool done)

variable {done : List Name}

/-- What has been rebuilt survives the steps of others. -/
theorem Building.stable {s t : Printd} (building : Building launch done s)
    (leaves : Leaves launch .main s t)
    : Building launch done t := by
  obtain ⟨unopened, added⟩ := building
  obtain ⟨unopened', same⟩ := leaves.building rfl unopened
  exact ⟨unopened', fun readable => same.trans (added readable)⟩

/-- A name under which there is no job. -/
theorem Building.skip (building : Building launch done st)
    (nothing : launch.Readable → entry launch.spool n = none)
    : Building launch (done ++ [n]) st := by
  refine ⟨building.1, ?_⟩
  intro readable
  rw [building.2 readable, entries, entries, List.filterMap_append]
  simp [nothing readable]

/-- An entry has a request file. -/
theorem entry_file {spool : Spool} {job : Job} (h : entry spool n = some job)
    : spool.files .reqs n ≠ none := by
  intro none_
  simp [entry, none_] at h

/-- The number of an entry is that of its file's name. -/
theorem entry_jobid {spool : Spool} {job : Job} (h : entry spool n = some job)
    : job.jobid = int32 (atol n) := by
  simp only [entry] at h
  split at h
  · cases h
  · obtain ⟨content, -, found⟩ := Option.bind_eq_some_iff.mp h
    split at found
    · rw [← Option.some.inj found]
    · cases found

/-- The number of a job of the spool is its name. -/
theorem Spool.Numbered.entry_name {spool : Spool} (numbered : spool.Numbered) {job : Job}
    (h : entry spool n = some job)
    : InRange job.jobid ∧ n = decimalInt job.jobid := by
  obtain ⟨id, range, rfl⟩ := numbered n (entry_file h)
  rw [entry_jobid h, range.number]
  exact ⟨range, rfl⟩

/-- While the queue is built, the spool has the files that the run has found. -/
theorem Kept.issued_nil (kept : Kept launch st) (unopened : .initialized ∉ st.log)
    : st.issued = [] := by
  apply Classical.byContradiction
  intro some_
  exact unopened (kept.numbers.opened some_).1

/-- While the queue is rebuilt a file is as it was found or gone. -/
theorem Kept.found_building (kept : Kept launch st) (unopened : .initialized ∉ st.log) (d : Dir)
    (n : Name)
    : st.files d n = launch.spool.files d n ∨ st.files d n = none := by
  rcases kept.stored.found d n with same | gone | ⟨q, id, issued, -⟩
  · exact .inl same
  · exact .inr gone
  · rw [kept.issued_nil unopened] at issued
    exact absurd issued List.not_mem_nil

/-- The files of a job are there until the main thread has come to its name. -/
theorem Building.untouched (building : Building launch done st) (kept : Kept launch st)
    (numbered : launch.spool.Numbered) (readable : launch.Readable) (fresh : n ∉ done) {job : Job}
    (found : entry launch.spool n = some job) (d : Dir)
    : st.files d n = launch.spool.files d n := by
  rcases kept.stored.recovered readable n job found with same | ⟨id, printed, range, rfl⟩
  · exact same d
  · -- a job that was printed was queued
    obtain ⟨job', member, rfl⟩ := kept.confirmed id printed
    rw [building.2 readable] at member
    obtain ⟨n', earlier, found'⟩ := List.mem_filterMap.mp member
    rw [(numbered.entry_name found').2] at earlier
    exact absurd earlier fresh

/-- The main thread removes the files of a name under which there is no job. -/
theorem main_unlink {d : Dir} {next : Unit → Prog Sys α} (building : Building launch done st)
    (nothing : launch.Readable → entry launch.spool n = none)
    (h : ∀ st, Building launch done st → spools launch .main (next ()) Q l.next st)
    : spools launch .main (.call (.unlink d n) next) Q l st := by
  apply spool_call
  intro st₁ leaves kept _
  have building₁ := building.stable leaves
  have nobody := kept.issued_nil building₁.1
  have touch := touches_unlink .main d n l st₁
  have less := fun d' => files_unlink .main d d' n l st₁
  have kept' : Kept launch (execCall .main (.unlink d n) l st₁).2.2 := by
    apply touch.kept_removed kept less
    · intro id told _
      obtain ⟨q, issued⟩ := kept.issued_of_acked told
      rw [nobody] at issued
      exact absurd issued List.not_mem_nil
    · intro readable job found
      rw [nothing readable] at found
      exact absurd found nofun
  have all : ∀ q, Leaves launch q st₁ (execCall .main (.unlink d n) l st₁).2.2 := by
    intro q
    apply touch.leaves
    · intro id works
      have issued := works.1
      rw [nobody] at issued
      exact absurd issued List.not_mem_nil
    · intro id _ _
      exact less .data
  have loc : (execCall .main (.unlink d n) l st₁).2.1 = l.next := by
    rcases fault : l.fault with _ | e | k <;> simp [execCall, fault]
  refine ⟨trivial, trivial, kept', fun q _ => all q, ?_⟩
  rw [loc]
  exact h _ (building₁.stable (all .main))

/-- What is read whole from a file of the spool is a job. -/
theorem entry_of_whole {spool : Spool} {file : Option (List Byte)}
    (dots : ¬ (n = text "." ∨ n = text "..")) (same : file = spool.files .reqs n ∨ file = none)
    (whole : (pread (file.getD []) 0 PRINTREQ_SZ).length = PRINTREQ_SZ)
    : entry spool n
      = some ⟨int32 (atol n), PrintReq.ofBytes (pread (file.getD []) 0 PRINTREQ_SZ) whole⟩ := by
  cases file with
  | none => exact absurd whole (by decide)
  | some content =>
      have found : spool.files .reqs n = some content := by
        rcases same with same | gone
        · exact same.symm
        · exact absurd gone nofun
      have whole : (pread content 0 PRINTREQ_SZ).length = PRINTREQ_SZ := whole
      simp [entry, dots, found, whole]

/-- The request of an entry is whole. -/
theorem entry_whole {spool : Spool} {job : Job} (h : entry spool n = some job)
    : (pread ((spool.files .reqs n).getD []) 0 PRINTREQ_SZ).length = PRINTREQ_SZ := by
  apply Classical.byContradiction
  intro short
  rcases file : spool.files .reqs n with _ | content
  · exact entry_file h file
  · rw [file, Option.getD_some] at short
    simp [entry, file, short] at h

/-- A request that cannot be read is logged and removed. -/
theorem main_discard {e : Errno} {next : Unit → Prog Sys α} (building : Building launch done st)
    (nothing : launch.Readable → entry launch.spool n = none)
    (h : ∀ st, Building launch (done ++ [n]) st → spools launch .main (next ()) Q l.next.next st)
    : spools launch .main
        ((do
          sys (.logMsg (.cantRead n e))
          sys (.unlink .reqs n)
          sys (.unlink .data n) : Prog Sys Unit).bind next)
        Q l st := by
  apply spool_log building Building.stable (by nofun)
  intro st₁ building₁ _
  apply main_unlink building₁ nothing
  intro st₂ building₂
  apply main_unlink building₂ nothing
  intro st₃ building₃
  exact h st₃ (building₃.skip nothing)

/-- A request that was read is logged and queued. -/
theorem main_add {req : PrintReq} {next : Bool → Prog Sys α} (building : Building launch done st)
    (settled : ∀ st, Settled launch st (int32 (atol n)))
    (found : launch.Readable → entry launch.spool n = some ⟨int32 (atol n), req⟩)
    (added : ∀ st, Building launch (done ++ [n]) st → spools launch .main (next true) Q l.next st)
    (failed : ∀ st, spools launch .main (next false) Q l.next st)
    : spools launch .main
        (.call (.logMsg (.addingJob (int32 (atol n)))) fun _ =>
          .call (.addJob ⟨int32 (atol n), req⟩) next)
        Q l st := by
  apply spool_log building Building.stable (by nofun)
  intro st₁ building₁ _
  apply spool_add building₁ Building.stable
  case settled => exact fun st _ _ => settled st
  case opened => exact fun _ _ _ other => absurd rfl other
  case added =>
    intro st₂ building₂ _
    apply added
    refine ⟨building₂.1, ?_⟩
    intro readable
    simp [building₂.2 readable, entries, found readable]
  case failed => exact fun _ st _ _ => failed st

/-- A request file that was opened is read; then it is queued or removed. -/
theorem spools_readEntry {next : Unit → Prog Sys α} (numbered : launch.spool.Numbered)
    (building : Building launch done st) (dots : ¬ (n = text "." ∨ n = text ".."))
    (fresh : launch.Readable → n ∉ done) (exists_ : launch.spool.files .reqs n ≠ none)
    (passes : launch.Readable → Passing l) (start : l.offset = 0)
    (h : ∀ l' st', l'.names = l.names → (launch.Readable → Passing l') →
      Building launch (done ++ [n]) st' → spools launch .main (next ()) Q l' st')
    : spools launch .main
        ((do
          let nr ← sys (.read .reqs n PRINTREQ_SZ)
          match nr with
          | .error e =>
              sys (.logMsg (.cantRead n e))
              sys (.unlink .reqs n)
              sys (.unlink .data n)
          | .ok bytes =>
              if whole : bytes.length = PRINTREQ_SZ then
                let jobid := int32 (atol n)
                sys (.logMsg (.addingJob jobid))
                match ← sys (.addJob ⟨jobid, PrintReq.ofBytes bytes whole⟩) with
                | true => pure ()
                | false => .abort .mallocFailed
              else
                sys (.logMsg (.cantRead n EIO))
                sys (.unlink .reqs n)
                sys (.unlink .data n) : Prog Sys Unit).bind next)
        Q l st := by
  have settled : ∀ st, Settled launch st (int32 (atol n)) := by
    obtain ⟨id, range, rfl⟩ := numbered n exists_
    intro st
    rw [range.number]
    exact ⟨range, .inl exists_⟩
  apply spool_read building Building.stable rfl
  intro st₁ building₁ kept₁
  cases passed : l.fault.passes with
  | false =>
      obtain ⟨e, result⟩ := execCall_read_fails (p := .main) (d := .reqs) (n := n) passed
      rw [result]
      have broken := not_readable passes passed
      apply main_discard building₁ fun readable => absurd readable broken
      intro st₂ building₂
      exact h _ _ rfl (fun readable => absurd readable broken) building₂
  | true =>
      rw [execCall_read_passes passed, start]
      by_cases whole : (pread ((st₁.files .reqs n).getD []) 0 PRINTREQ_SZ).length = PRINTREQ_SZ
      · simp only [Prog.ret_bind, whole, dite_true]
        refine main_add building₁ settled ?_ ?_ fun _ => trivial
        · intro readable
          exact entry_of_whole dots (kept₁.found_building building₁.1 .reqs n) whole
        · intro st₂ building₂
          exact h _ _ rfl (fun readable => (passes readable).next.next) building₂
      · simp only [Prog.ret_bind, whole, dite_false]
        apply main_discard building₁
        · intro readable
          rcases found : entry launch.spool n with _ | job
          · rfl
          · have same := building₁.untouched kept₁ numbered readable (fresh readable) found .reqs
            rw [same] at whole
            exact absurd (entry_whole found) whole
        · intro st₂ building₂
          exact h _ _ rfl (fun readable => (passes readable).next.next.next) building₂

/-- One entry of the directory: what is under the name is queued or removed. -/
theorem spools_queueEntry {next : Unit → Prog Sys α} (numbered : launch.spool.Numbered)
    (building : Building launch done st) (fresh : launch.Readable → n ∉ done)
    (passes : launch.Readable → Passing l)
    (h : ∀ l' st', l'.names = l.names → (launch.Readable → Passing l') →
      Building launch (done ++ [n]) st' → spools launch .main (next ()) Q l' st')
    : spools launch .main ((queueEntry n).bind next) Q l st := by
  simp only [queueEntry]
  by_cases dots : n = text "." ∨ n = text ".."
  · rw [if_pos dots]
    exact h l st rfl passes (building.skip fun _ => by simp [entry, dots])
  rw [if_neg dots]
  have there : ∀ st, Building launch done st → Kept launch st → launch.Readable → ∀ job,
      entry launch.spool n = some job → st.files .reqs n = launch.spool.files .reqs n :=
    fun st building kept readable job found =>
      building.untouched kept numbered readable (fresh readable) found .reqs
  apply spool_read building Building.stable rfl
  intro st₁ building₁ kept₁
  cases passed : l.fault.passes with
  | false =>
      obtain ⟨e, result⟩ := execCall_open_fails (p := .main) (d := .reqs) (n := n) passed
      rw [result]
      have broken := not_readable passes passed
      exact h _ _ rfl (fun readable => absurd readable broken)
        (building₁.skip fun readable => absurd readable broken)
  | true =>
      rw [execCall_open_passes passed]
      cases file : st₁.files .reqs n with
      | none =>
          refine h _ _ rfl (fun readable => (passes readable).next) (building₁.skip ?_)
          intro readable
          rcases found : entry launch.spool n with _ | job
          · rfl
          · rw [there st₁ building₁ kept₁ readable job found] at file
            exact absurd file (entry_file found)
      | some content =>
          have exists_ : launch.spool.files .reqs n ≠ none := by
            rcases kept₁.found_building building₁.1 .reqs n with same | gone
            · rw [← same, file]
              exact Option.some_ne_none content
            · rw [file] at gone
              cases gone
          exact spools_readEntry numbered building₁ dots fresh exists_
            (fun readable => (passes readable).next) rfl h

/-- The main thread keeps the discipline, and queues all that is in the spool. -/
theorem spools_mainThread (numbered : launch.spool.Numbered)
    (building : Building launch [] st)
    : spools launch .main mainThread (fun _ _ _ => True) (launch.env .main) st := by
  have finish : ∀ l st, Building launch (launch.env .main).names st →
      spools launch .main (sys (.logMsg .initialized)) (fun _ _ _ => True) l st := by
    intro l st building
    apply spool_call
    intro st₁ leaves kept₁ _
    have building₁ := building.stable leaves
    have quiet : Quiet launch st₁ { st₁ with log := st₁.log ++ [.initialized] } :=
      ⟨rfl, rfl, rfl, rfl, fun _ queued => queued, fun _ member => member,
        fun _ member => .inl member, fun _ member => .inl member,
        fun opened => List.mem_append_left _ opened⟩
    exact ⟨trivial, building₁.2, quiet.kept kept₁,
      fun q other => quiet.leaves fun same => absurd same other, spool_done⟩
  -- the names that are still to come
  let I : Nat → Unit → Loc → Printd × Unit → Prop := fun left _ l s =>
    ∃ done, Building launch done s.1
      ∧ (launch.Readable → (launch.env .main).names = done ++ l.names ∧ Passing l)
      ∧ left = l.names.length
  apply spool_read building Building.stable rfl
  intro st₁ building₁ kept₁
  cases passed : (launch.env .main).fault.passes with
  | false =>
      have result : execCall .main .opendir (launch.env .main) st₁
          = (false, (launch.env .main).next, st₁) := by
        rcases fault : (launch.env .main).fault with _ | e | k <;>
          simp_all [execCall, Fault.passes]
      rw [result]
      apply finish
      refine ⟨building₁.1, ?_⟩
      intro readable
      rw [Passing.fault readable.passes] at passed
      cases passed
  | true =>
      have result : execCall .main .opendir (launch.env .main) st₁
          = (true, (launch.env .main).next, st₁) := by
        rcases fault : (launch.env .main).fault with _ | e | k <;>
          simp_all [execCall, Fault.passes]
      rw [result]
      apply wp_loop I
      · intro s leaves _
        exact ⟨_, [], building₁.stable leaves,
          fun readable => ⟨rfl, Passing.next readable.passes⟩, rfl⟩
      rintro left ⟨⟩ l ⟨st₂, ⟨⟩⟩ ⟨done, building₂, listed, rfl⟩ _
      apply spool_read building₂ Building.stable rfl
      intro st₃ building₃ _
      have result : execCall .main .readdir l st₃
          = (l.names.head?, { l with names := l.names.tail }, st₃) := rfl
      rcases names : l.names with _ | ⟨n, rest⟩ <;> rw [names] at listed result <;> rw [result]
      · apply wp_ret
        intro s leaves _
        apply finish
        obtain ⟨unopened, added⟩ := building₃.stable leaves
        refine ⟨unopened, ?_⟩
        intro readable
        rw [(listed readable).1, List.append_nil]
        exact added readable
      · apply spools_queueEntry numbered building₃
        case fresh =>
          intro readable member
          have once := readable.once
          rw [(listed readable).1] at once
          exact List.disjoint_of_nodup_append once member List.mem_cons_self
        case passes => exact fun readable => (listed readable).2
        case h =>
          intro l' st' names' passes' building'
          apply wp_ret
          intro s leaves _
          have names' : l'.names = rest := names'
          refine ⟨l'.names.length, ?_, done ++ [n], building'.stable leaves, ?_, rfl⟩
          · simp [names']
          · intro readable
            rw [(listed readable).1, names', List.append_assoc]
            exact ⟨rfl, passes' readable⟩

end Minions.Printer
