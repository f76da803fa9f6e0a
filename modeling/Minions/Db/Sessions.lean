import Minions.Db.Clients
import Minions.Db.Representation
import Minions.Logic.Alone

/-! One process alone.
A session is a sequence of library calls by one process, with the handle closed and opened
again in between. It always ends, and it answers as the map would.
-/

namespace Minions.Db

open Minions.Data Minions.Logic

/-- The calls of a process in turn, each on the handle that the one before left. -/
def session : List Op → Option DB → M (List Res × Option DB)
  | [], mem => return ([], mem)
  | op :: ops, mem => do
      let (res, mem) ← opCode op mem
      let (rest, mem) ← session ops mem
      return (res :: rest, mem)

/-- The sequences of calls to be considered, by whether a handle is open: keys are free of the
separator, and a file is only truncated when it may be made anew.
-/
def Legal : Bool → List Op → Prop
  | _, [] => True
  | false, .open creat trunc :: ops => (trunc → creat) ∧ Legal true ops
  | true, .close :: ops => Legal false ops
  | true, .fetch key :: ops => SEP ∉ key.bytes ∧ Legal true ops
  | true, .store key _ _ :: ops => SEP ∉ key.bytes ∧ Legal true ops
  | true, .delete key :: ops => SEP ∉ key.bytes ∧ Legal true ops
  | _, _ => False

/-- The map of an empty database. -/
def Bindings.empty : Bindings := fun _ => none

/-- One call of a session on the map. -/
def Bindings.call (m : Bindings) : Op → Res × Bindings
  | .fetch key => (m.fetch key, m)
  | .store key data flag => m.store key data flag
  | .delete key => m.delete key
  | .open _ trunc => (.opened true, if trunc then .empty else m)
  | _ => (.unit, m)

/-- The answers of the map to a session. -/
def Bindings.replies (m : Bindings) : List Op → List Res
  | [] => []
  | op :: ops => (m.call op).1 :: (m.call op).2.replies ops

/-- The map after a session. -/
def Bindings.after (m : Bindings) (ops : List Op) : Bindings :=
  ops.foldl (fun m op => (m.call op).2) m

-----------------------------------------------------------------------------------------
-- A process that is alone
-----------------------------------------------------------------------------------------

variable {p : Pid} {l : Offsets} {d : Disk} {db : DB} {op : Op} {m : Bindings}

/-- No other process has locks, and both files exist. -/
structure Solo (p : Pid) (d : Disk) : Prop where
  others : ∀ q, q ≠ p → d.locks q = noLocks
  idx : d.idx.present = true
  dat : d.dat.present = true

/-- Every call of a process that is alone can be made. -/
theorem Solo.enabled (solo : Solo p d) (c : Call) : kernel.enabled p c l d := by
  cases c with
  | lock fd kind start len =>
      intro q b ne _
      rw [solo.others q ne]
      exact ⟨nofun, fun _ => rfl⟩
  | _ => trivial

/-- A process stays alone when it writes. -/
theorem Solo.setFile (solo : Solo p d) (fd : Fd) {f : File} (present : f.present = true)
    : Solo p (d.setFile fd f) := by
  cases fd with
  | idx => exact ⟨solo.others, present, solo.dat⟩
  | dat => exact ⟨solo.others, solo.idx, present⟩

/-- A process stays alone when it locks. -/
theorem Solo.setLocks (solo : Solo p d) (fd : Fd) (start len : Nat) (kind : Option LockKind)
    : Solo p (d.setLocks p fd start len kind) :=
  ⟨fun q ne => (setLocks_other d fd start len kind ne).trans (solo.others q ne), solo.idx, solo.dat⟩

/-- The files of a process that is alone exist. -/
theorem Solo.present (solo : Solo p d) (fd : Fd) : (d.file fd).present = true := by
  cases fd with
  | idx => exact solo.idx
  | dat => exact solo.dat

/-- No call of `p` gives locks to others or removes a file. -/
theorem Solo.exec (solo : Solo p d) (c : Call) : Solo p (kernel.exec p c l d).2.2 := by
  cases c with
  | «open» fd oflag =>
      simp only [kernel, execCall]
      split
      · exact solo.setFile fd rfl
      · exact solo
  | close fd => exact solo.setLocks fd 0 0 none
  | lseek fd offset whence =>
      simp only [kernel, execCall]
      split <;> exact solo
  | read fd count => exact solo
  | write fd bytes =>
      simp only [kernel, execCall]
      split
      · exact solo.setFile fd (solo.present fd)
      · exact solo
  | lock fd kind start len => exact solo.setLocks fd start len (some kind)
  | unlock fd start len => exact solo.setLocks fd start len none
  | fstat fd => exact solo

/-- The call of `p` on the map `m` has not taken effect, or has answered as the map would. -/
def Underway (p : Pid) (op : Op) (m : Bindings) (g : Ghost) : Prop :=
  g.stat p = .todo op ∧ g.map = m
  ∨ ∃ res, g.stat p = .done op res ∧ Answers op m res g.map

/-- A call of the library keeps the operation under way. -/
theorem Underway.step {g g' : Ghost} {c : Call} (h : Underway p op m g)
    (effect : Effect p c g g')
    : Underway p op m g' := by
  rcases effect with ⟨map, stat⟩ | ⟨op', res, todo, answers, stat, -⟩
  · simpa only [Underway, map, stat] using h
  · rcases h with ⟨before, map⟩ | ⟨res', before, -⟩
    · obtain rfl : op = op' := Progress.todo.inj (before.symm.trans todo)
      refine Or.inr ⟨res, ?_, by rw [← map]; exact answers⟩
      rw [stat, Function.update_self]
    · rw [todo] at before
      cases before

/-- The calls of the library keep the operation under way. -/
theorem Underway.steps {g g' : Ghost} (h : Underway p op m g)
    (steps : Relation.ReflTransGen (fun g g' => ∃ c, Effect p c g g') g g')
    : Underway p op m g' := by
  induction steps with
  | refl => exact h
  | tail _ step ih =>
      obtain ⟨c, effect⟩ := step
      exact ih.step effect

/-- An operation that is done has answered as the map does. -/
theorem Underway.answers {g : Ghost} {res : Res} (h : Underway p op m g)
    (done : g.stat p = .done op res)
    : Answers op m res g.map := by
  rcases h with ⟨before, -⟩ | ⟨res', after, answers⟩
  · rw [done] at before
    cases before
  · obtain ⟨-, rfl⟩ := Progress.done.inj (done.symm.trans after)
    exact answers

/-- The files between the calls of a session. -/
structure Between (p : Pid) (d : Disk) (m : Bindings) : Prop where
  solo : Solo p d
  unlocked : d.locks p = noLocks
  represents : Represents d m

/-- A call of a process that is alone ends, and answers as the map would. -/
theorem call_alone (h : Between p d m) (good : Good db) (ok : MayInvoke (fun _ => False) p op)
    : ∃ out l' d', (opCode op (some db)).Ends (kernel.alone p) (l, d) out (l', d')
        ∧ EndsWith (S := Sys) True
            (fun r => ∃ db' m', r.2 = some db' ∧ Good db' ∧ Between p d' m' ∧ Answers op m r.1 m')
            out := by
  have free : ∀ q, d.locks q = noLocks := by
    intro q
    by_cases same : q = p
    · rw [same, h.unlocked]
    · exact h.solo.others q same
  obtain ⟨g, inv, idle, rfl, quiet⟩ := h.represents.start free
  have known : (clients fun _ => False).idle p (some db) l (d, g) :=
    ⟨⟨⟨db, rfl, good⟩, idle p, False.elim⟩, by rw [quiet]⟩
  obtain ⟨g', inv', others, track, code⟩ := (clients fun _ => False).invoke ok known inv
  obtain ⟨out, l', t, ends, reach, post⟩ :=
    wp_alone (Solo p) (fun c l st solo => solo.enabled c) (fun c l st solo => solo.exec c)
      inv' h.solo code
  have underway : Underway p op g.map g' := by
    obtain ⟨-, eq | ⟨res, ⟨answers, stat⟩, -⟩⟩ := track
    · refine Or.inl ⟨?_, congrArg Prod.fst eq⟩
      have stat : g'.stat = Function.update g.stat p (.todo op) := congrArg Prod.snd eq
      rw [stat, Function.update_self]
    · refine Or.inr ⟨res, ?_, answers⟩
      have stat : g'.stat = Function.update g.stat p (.done op res) := stat
      rw [stat, Function.update_self]
  refine ⟨out, l', t.1, ends, ?_⟩
  match out, post with
  | .stopped _, _ => trivial
  | .done (res, mem), ⟨rest, done⟩ =>
      obtain ⟨db', rfl, good'⟩ := rest.handle
      have idleT : ∀ q, Idle q t := by
        intro q
        by_cases same : q = p
        · rw [same]
          exact rest.idle
        · exact (idle q).stable ((others q same).trans (reach.others q same))
      exact ⟨db', t.2.map, rfl, good', ⟨reach.alone, rest.idle.locks, reach.inv.represents idleT⟩,
        (underway.steps reach.ghost).answers done⟩

-----------------------------------------------------------------------------------------
-- Opening and closing
-----------------------------------------------------------------------------------------

/-- A pointer field that ends a list. -/
def nullPtr : Ptr := ⟨0, by decide⟩

/-- The image of a new database. -/
def emptyImage : Image := ⟨List.replicate (NHASH_DEF + 1) nullPtr, [], [], by simp⟩

/-- The header that `db_open` writes is that of the empty image. -/
theorem emptyHash_eq : emptyHash = emptyImage.idx := by
  have field : nullPtr.enc = padLeft PTR_SZ (decimalInt 0) := rfl
  simp [emptyHash, emptyImage, Image.idx, Image.header, render, List.flatMap_replicate, field]

/-- The header fills the space before the records. -/
theorem emptyHash_length : emptyHash.length = RECS_OFF := by
  rw [emptyHash_eq, Image.idx]
  simp [emptyImage]

/-- The header is written at once. -/
theorem emptyHash_small : emptyHash.length ≤ INT_MAX := by
  rw [emptyHash_length]
  decide

/-- The handle that `db_open` makes. -/
def openedDb : DB := { dbAlloc with idxfd := 0, datfd := 0, idxoff := RECS_OFF }

/-- `db_open` with both flags makes the files anew. -/
theorem open_create (mem : Option DB)
    : (opCode (.open true true) mem).Ends (kernel.alone p) (l, d)
        (.done (.opened true, some openedDb))
        (⟨RECS_OFF, 0⟩,
          (({ d with idx := ⟨true, emptyHash⟩, dat := ⟨true, []⟩ } : Disk).setLocks p .idx 0 0
            (some .wr)).setLocks p .idx 0 0 none) := by
  refine ⟨0, fun fuel _ => ?_⟩
  have room : emptyHash.length ≤ OFF_MAX := by
    rw [emptyHash_length]
    decide
  simp [opCode, dbOpen, dbRewind, dbAlloc, sysOpen, writewLock, fstat,
    write_small emptyHash_small, unLock, lseek, errDump, Prog.run, kernel, Machine.alone, execCall,
    File.opens, Prog.perform, room, Disk.file, Disk.setFile, Offsets.move, Offsets.at, seekTarget,
    pwrite, Disk.setLocks, openedDb, NHASH_DEF, PTR_SZ, RECS_OFF]

/-- `db_open` without truncation leaves the files alone. -/
theorem open_existing (solo : Solo p d) (creat : Bool) (mem : Option DB)
    : (opCode (.open creat false) mem).Ends (kernel.alone p) (l, d)
        (.done (.opened true, some openedDb)) (⟨RECS_OFF, 0⟩, d) := by
  refine ⟨0, fun fuel _ => ?_⟩
  obtain ⟨⟨idx, idat⟩, ⟨dat, ddat⟩, locks⟩ := d
  obtain rfl : idx = true := solo.idx
  obtain rfl : dat = true := solo.dat
  simp [opCode, dbOpen, dbRewind, dbAlloc, sysOpen, lseek, Prog.run, kernel, Machine.alone,
    execCall, File.opens, Prog.perform, Disk.file, Disk.setFile, Offsets.move, seekTarget, openedDb,
    NHASH_DEF, PTR_SZ, RECS_OFF]

/-- The handle that `db_open` makes may be used. -/
theorem openedDb_good : Good openedDb := ⟨rfl, rfl⟩

/-- A new database that every process has opened. -/
def freshSystem : System where
  procs _ := .idle (some openedDb) ⟨RECS_OFF, 0⟩
  st := ⟨⟨true, emptyHash⟩, ⟨true, []⟩, fun _ => noLocks⟩

/-- A process without locks has none to give up. -/
theorem setLocks_none (unlocked : d.locks p = noLocks) (fd : Fd) (start len : Nat)
    : d.setLocks p fd start len none = d := by
  have same : (d.setLocks p fd start len none).locks = d.locks := by
    funext q f b
    by_cases eq : q = p
    · simp [Disk.setLocks, eq, unlocked, noLocks]
    · simp [Disk.setLocks, eq]
  exact congrArg (fun locks => { d with locks }) same

/-- `db_close` leaves the files alone. -/
theorem close_alone (unlocked : d.locks p = noLocks)
    : (opCode .close (some db)).Ends (kernel.alone p) (l, d) (.done (.unit, none)) (l, d) := by
  refine ⟨0, fun fuel _ => ?_⟩
  by_cases idx : db.idxfd ≥ 0 <;> by_cases dat : db.datfd ≥ 0 <;>
    simp [opCode, dbClose, dbFree, sysClose, Prog.run, kernel, Machine.alone, execCall,
      Prog.perform, idx, dat, setLocks_none unlocked]

/-- All pointers of the empty image are null. -/
theorem emptyImage_next {i : Nat} (lt : i < NHASH_DEF + 1)
    : emptyImage.next (i * PTR_SZ) = some 0 := by
  have slot : emptyImage.slotAt (i * PTR_SZ) = some nullPtr := by
    rw [Image.slotAt_index]
    simp [emptyImage, lt]
  rw [Image.next, Image.cell_slot slot]
  rfl

/-- A new database represents the empty map. -/
theorem represents_empty (h : d.idx.data = emptyHash) (h' : d.dat.data = [])
    : Represents d .empty := by
  have noRec : ∀ {o r}, emptyImage.recAt o ≠ some r := nofun
  refine ⟨emptyImage, fun _ => [], [], ⟨h.trans emptyHash_eq, h', ?_, ?_, ?_, ?_⟩, ?_⟩
  · rw [h, emptyHash_length]
    decide
  · refine ⟨fun {h} lt => ?_, ?_, fun _ => .nil, .nil, nofun, nofun, ?_⟩
    · show emptyImage.next (chainSlot h) = some 0
      rw [chainSlot_eq]
      exact emptyImage_next (by omega)
    · exact emptyImage_next (i := 0) (by decide)
    · refine ⟨fun ⟨r, found⟩ => absurd found noRec, ?_⟩
      rintro (member | ⟨_, _, member⟩) <;> simp at member
  · exact ⟨nofun, nofun, nofun⟩
  · refine ⟨fun found => absurd found noRec, fun found => absurd found noRec,
      fun found => absurd found noRec, fun {b} => ⟨fun lt => ?_, ?_⟩⟩
    · rw [h'] at lt
      simp at lt
    · rintro ⟨o, r, found, -⟩
      exact absurd found noRec
  · refine fun _ => ⟨nofun, fun _ d' => ⟨nofun, ?_⟩⟩
    rintro ⟨o, r, member, -⟩
    simp at member

/-- What `db_open` leaves after it has made a new database. -/
theorem between_create (unlocked : d.locks p = noLocks)
    (others : ∀ q, q ≠ p → d.locks q = noLocks)
    : Between p
        ((({ d with idx := ⟨true, emptyHash⟩, dat := ⟨true, []⟩ } : Disk).setLocks p .idx 0 0
          (some .wr)).setLocks p .idx 0 0 none)
        .empty := by
  refine ⟨⟨fun q ne => ?_, rfl, rfl⟩, ?_, represents_empty rfl rfl⟩
  · rw [setLocks_other _ _ _ _ _ ne, setLocks_other _ _ _ _ _ ne]
    exact others q ne
  · rw [setLocks_self, setLocks_self, unlocked]
    exact relock_undo fun _ _ => rfl

-----------------------------------------------------------------------------------------
-- Whole sessions
-----------------------------------------------------------------------------------------

/-- The handle of a process, by whether it is open. -/
def Handle : Bool → Option DB → Prop
  | true, mem => ∃ db, mem = some db ∧ Good db
  | false, mem => mem = none

/-- The map determines the answer of every call that a session makes on an open handle. -/
theorem answers_call {res : Res} {m' : Bindings} (ok : MayInvoke (fun _ => False) p op)
    (answers : Answers op m res m')
    : (res, m') = m.call op := by
  cases op with
  | fetch key => exact Prod.ext answers.1 answers.2
  | store key data flag => exact answers
  | delete key => exact answers
  | rewind => exact ok.elim
  | nextrec => exact ok.elim
  | «open» creat trunc => exact ok.elim
  | close => exact ok.elim

/-- One call of a session. -/
theorem step_alone {isOpen : Bool} {mem : Option DB} {ops : List Op}
    (legal : Legal isOpen (op :: ops)) (h : Between p d m) (handle : Handle isOpen mem)
    : ∃ out l' d', (opCode op mem).Ends (kernel.alone p) (l, d) out (l', d')
        ∧ EndsWith (S := Sys) True
            (fun r => r.1 = (m.call op).1 ∧ Between p d' (m.call op).2
              ∧ ∃ isOpen', Handle isOpen' r.2 ∧ Legal isOpen' ops)
            out := by
  have call : isOpen = true → MayInvoke (fun _ => False) p op → Legal true ops
      → ∃ out l' d', (opCode op mem).Ends (kernel.alone p) (l, d) out (l', d')
          ∧ EndsWith (S := Sys) True
              (fun r => r.1 = (m.call op).1 ∧ Between p d' (m.call op).2
                ∧ ∃ isOpen', Handle isOpen' r.2 ∧ Legal isOpen' ops)
              out := by
    rintro rfl ok legal
    obtain ⟨db, rfl, good⟩ := handle
    obtain ⟨out, l', d', ends, post⟩ := call_alone (l := l) h good ok
    refine ⟨out, l', d', ends, ?_⟩
    match out, post with
    | .stopped _, _ => trivial
    | .done (res, mem'), ⟨db', m', same, good', between, answers⟩ =>
        rw [← answers_call ok answers]
        exact ⟨rfl, between, true, ⟨db', same, good'⟩, legal⟩
  cases isOpen with
  | true =>
      cases op with
      | fetch key => exact call rfl ⟨not_false, legal.1⟩ legal.2
      | store key data flag => exact call rfl ⟨not_false, legal.1⟩ legal.2
      | delete key => exact call rfl ⟨not_false, legal.1⟩ legal.2
      | close =>
          obtain ⟨db, rfl, good⟩ := handle
          exact ⟨_, _, _, close_alone h.unlocked, rfl, h, false, rfl, legal⟩
      | rewind => exact legal.elim
      | nextrec => exact legal.elim
      | «open» creat trunc => exact legal.elim
  | false =>
      cases op with
      | «open» creat trunc =>
          cases trunc with
          | false =>
              exact ⟨_, _, _, open_existing h.solo creat mem, rfl, h, true,
                ⟨_, rfl, openedDb_good⟩, legal.2⟩
          | true =>
              obtain rfl : creat = true := legal.1 rfl
              exact ⟨_, _, _, open_create mem, rfl, between_create h.unlocked h.solo.others, true,
                ⟨_, rfl, openedDb_good⟩, legal.2⟩
      | fetch key => exact legal.elim
      | store key data flag => exact legal.elim
      | delete key => exact legal.elim
      | close => exact legal.elim
      | rewind => exact legal.elim
      | nextrec => exact legal.elim

/-- A session ends, with the answers of the map and files that represent it. Witness: induction
on the calls.
-/
theorem session_alone {ops : List Op} {isOpen : Bool} {mem : Option DB}
    (legal : Legal isOpen ops) (h : Between p d m) (handle : Handle isOpen mem)
    : ∃ out l' d', (session ops mem).Ends (kernel.alone p) (l, d) out (l', d')
        ∧ EndsWith (S := Sys) True
            (fun r => r.1 = m.replies ops ∧ Between p d' (m.after ops)) out := by
  induction ops generalizing isOpen mem l d m with
  | nil => exact ⟨_, l, d, ⟨0, fun _ _ => rfl⟩, rfl, h⟩
  | cons op ops ih =>
      obtain ⟨out, l', d', ends, post⟩ := step_alone (l := l) legal h handle
      match out, post with
      | .stopped e, _ => exact ⟨.stopped e, l', d', ends.bind_stopped, trivial⟩
      | .done (res, mem'), ⟨first, between, isOpen', handle', legal'⟩ =>
          obtain ⟨out', l'', d'', ends', post'⟩ := ih (l := l') legal' between handle'
          match out', post' with
          | .stopped e, _ =>
              exact ⟨.stopped e, l'', d'', ends.bind ends'.bind_stopped, trivial⟩
          | .done (rest, mem''), ⟨replies, between'⟩ =>
              refine ⟨.done (res :: rest, mem''), l'', d'',
                ends.bind (ends'.bind ⟨0, fun _ _ => rfl⟩), ?_, between'⟩
              exact congrArg₂ List.cons first replies

/-- A session that starts by making a new database. -/
theorem session_create {ops : List Op} (legal : Legal true ops)
    (unlocked : ∀ q, d.locks q = noLocks)
    : ∃ out l' d', (session (.open true true :: ops) none).Ends (kernel.alone p) (l, d) out (l', d')
        ∧ EndsWith (S := Sys) True
            (fun r => r.1 = .opened true :: Bindings.empty.replies ops
              ∧ Between p d' (Bindings.empty.after ops))
            out := by
  have fresh := between_create (unlocked p) fun q _ => unlocked q
  obtain ⟨out, l', d', ends, post⟩ :=
    session_alone (l := ⟨RECS_OFF, 0⟩) legal fresh ⟨_, rfl, openedDb_good⟩
  match out, post with
  | .stopped e, _ =>
      exact ⟨.stopped e, l', d', (open_create none).bind ends.bind_stopped, trivial⟩
  | .done (rest, mem), ⟨replies, between⟩ =>
      refine ⟨.done (.opened true :: rest, mem), l', d',
        (open_create none).bind (ends.bind ⟨0, fun _ _ => rfl⟩), ?_, between⟩
      exact congrArg _ replies

/-- A process that makes a new database, whatever the two files held before, and then calls
`db_store`, `db_fetch` and `db_delete` and closes and opens the database in any order, gets the
answers of the map, unless a call ends the process. Every call ends. Witness: the files
represent the map between calls.
-/
theorem session_answers_as_map (p : Pid) (l : Offsets) (d : Disk) (ops : List Op)
    (legal : Legal true ops) (unlocked : ∀ q, d.locks q = noLocks)
    : ∃ out w, (session (.open true true :: ops) none).Ends (kernel.alone p) (l, d) out w
        ∧ ((∃ reason, out = .stopped reason)
          ∨ ∃ mem, out = .done (.opened true :: Bindings.empty.replies ops, mem)) := by
  obtain ⟨out, l', d', ends, post⟩ := session_create (p := p) (l := l) legal unlocked
  refine ⟨out, (l', d'), ends, ?_⟩
  match out, post with
  | .stopped e, _ => exact Or.inl ⟨e, rfl⟩
  | .done (replies, mem), ⟨same, _⟩ =>
      obtain rfl : replies = _ := same
      exact Or.inr ⟨mem, rfl⟩

/-- No files and no locks. -/
def noDisk : Disk := ⟨⟨false, []⟩, ⟨false, []⟩, fun _ => noLocks⟩

/-- Keys of one letter, and data. -/
def keyA : CString := ⟨[97], by decide⟩
def keyB : CString := ⟨[98], by decide⟩
def keyC : CString := ⟨[99], by decide⟩
def dataOne : CString := ⟨[49], by decide⟩
def dataTwo : CString := ⟨[50, 50], by decide⟩

/-- A session that inserts, replaces with longer data, closes, opens again and deletes. -/
def sampleSession : List Op :=
  [.store keyA dataOne DB_INSERT, .store keyA dataTwo DB_STORE, .close, .open false false,
    .fetch keyA, .delete keyA, .store keyA dataOne DB_REPLACE]

/-- The sample session uses its handle as it should. -/
theorem sampleSession_legal : Legal true sampleSession := by
  simp [sampleSession, Legal, keyA, SEP]

/-- A session that makes a database and uses it. -/
theorem session_answers_as_map_sample
    : ∃ out w,
        (session (.open true true :: sampleSession) none).Ends (kernel.alone 1) (⟨0, 0⟩, noDisk) out w
        ∧ ((∃ reason, out = .stopped reason)
          ∨ ∃ mem, out = .done (.opened true :: Bindings.empty.replies sampleSession, mem)) :=
  session_answers_as_map 1 ⟨0, 0⟩ noDisk sampleSession sampleSession_legal fun _ => rfl

/-- After every session that no call has ended the two files are well formed, down to the last
byte.
-/
theorem session_files_wellFormed (p : Pid) (l l' : Offsets) (d d' : Disk) (ops : List Op)
    (r : List Res × Option DB) (legal : Legal true ops) (unlocked : ∀ q, d.locks q = noLocks)
    (ends : (session (.open true true :: ops) none).Ends (kernel.alone p) (l, d) (.done r) (l', d'))
    : ∃ im chain free, WellFormed d'.idx.data d'.dat.data im chain free := by
  obtain ⟨out, l'', d'', ends', post⟩ := session_create (p := p) (l := l) legal unlocked
  obtain ⟨rfl, eq⟩ := ends.unique ends'
  obtain ⟨-, rfl⟩ := Prod.mk.inj eq
  obtain ⟨-, between⟩ := post
  obtain ⟨im, chain, free, wf, -⟩ := between.represents
  exact ⟨im, chain, free, wf⟩

/-- The same session leaves well-formed files. -/
theorem session_files_wellFormed_sample
    : ∃ r l' d',
        (session (.open true true :: sampleSession) none).Ends (kernel.alone 1) (⟨0, 0⟩, noDisk)
          (.done r) (l', d')
        ∧ ∃ im chain free, WellFormed d'.idx.data d'.dat.data im chain free := by
  have finished : ∃ r w,
      (session (.open true true :: sampleSession) none).Ends (kernel.alone 1) (⟨0, 0⟩, noDisk)
        (.done r) w :=
    Prog.Ends.of_value 2 (by decide +kernel)
  obtain ⟨r, ⟨l', d'⟩, ends⟩ := finished
  exact ⟨r, l', d', ends,
    session_files_wellFormed 1 _ _ _ _ _ r sampleSession_legal (fun _ => rfl) ends⟩

end Minions.Db
