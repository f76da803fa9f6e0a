import Minions.Db.Deadlock
import Minions.Logic.Completion

/-! Linearizability of the library and of its scans.
From a database at rest, in every interleaving of any number of processes, every call takes
effect at one step between its invocation and its response.
-/

namespace Minions.Db

open Minions.Data Minions.Logic

variable {scanner : Pid → Prop} {start last : System} {labels : History} {m : Bindings}

/-- Every process has a handle on one database at rest, which represents `m`. The scanners have
just opened or rewound it.
-/
structure Started (scanner : Pid → Prop) (start : System) (m : Bindings) : Prop where
  represents : Represents start.st m
  unlocked : ∀ p, start.st.locks p = noLocks
  idle : ∀ p, ∃ db l, start.procs p = .idle (some db) l ∧ Good db
    ∧ (scanner p → l.idx = RECS_OFF)

/-- No process is inside a call. -/
def AtRest (c : System) : Prop := ∀ p, ∃ mem l, c.procs p = .idle mem l

/-- A state in which the clients start is good. -/
theorem Started.good (h : Started scanner start m)
    : ∃ g, (clients scanner).good start g ∧ g.view = (m, fun _ => .quiet) := by
  obtain ⟨g, inv, idle, map, stat⟩ := h.represents.start h.unlocked
  refine ⟨g, ⟨inv, fun p => ?_⟩, Prod.ext map stat⟩
  obtain ⟨db, l, at_, good, first⟩ := h.idle p
  rw [at_]
  exact ⟨⟨⟨db, rfl, good⟩, idle p, fun scans => Or.inl (first scans)⟩, congrFun stat p⟩

/-- What a process that has taken effect is permitted. -/
theorem Permitted.onlyPointers {p : Pid} {c : Call} {l : Offsets} {s : State} {op : Op}
    {res : Res} (h : Permitted p c l s) (done : s.2.stat p = .done op res)
    : OnlyPointers op c := by
  cases op with
  | store key data flag =>
      cases c with
      | write fd bytes =>
          obtain ⟨-, unsettled | pointer⟩ := h
          · rw [done] at unsettled
            exact unsettled.elim
          · exact pointer
      | _ => trivial
  | _ => trivial

/-- The map and the progress of the processes are tracked along every run. -/
theorem GhostRun.tracked {g₀ g : Ghost}
    (run : GhostRun (clients scanner) start g₀ labels last g)
    : Tracked behavior g₀.view labels g.view := by
  induction run with
  | nil => exact .nil
  | @snoc labels label mid last g g' before step known ghost kept ih =>
      refine .snoc ih ?_
      cases step with
      | invoke at_ ok => exact ghost
      | act at_ ready =>
          have permitted : Permitted _ _ _ (mid.st, g) :=
            (clients scanner).good_permit known at_ ready
          rcases ghost with ⟨map, stat⟩ | ⟨op, res, todo, answers, stat, mark⟩
          · exact Or.inl ⟨Prod.ext map stat, fun done => permitted.onlyPointers done⟩
          · exact Or.inr ⟨op, res, todo, ⟨answers, stat⟩, mark⟩
      | silent at_ => exact congrArg Ghost.view ghost
      | respond at_ => exact ghost
      | stop at_ => exact ghost.elim

/-- Every run has a chronicle, and ends with all that is known of the processes. -/
theorem Started.chronicle (h : Started scanner start m)
    (run : Run kernel opCode (MayInvoke scanner) start labels last)
    (alive : NonAborting labels)
    : ∃ g states effects, (clients scanner).good last g
        ∧ Chronicle behavior m labels states effects g.view := by
  obtain ⟨g₀, good, view⟩ := h.good
  obtain ⟨g, ghosts, known⟩ := (clients scanner).ghostRun good run alive
  have tracked := GhostRun.tracked ghosts
  rw [view] at tracked
  obtain ⟨states, effects, chronicle⟩ := tracked.chronicle
  exact ⟨g, states, effects, known, chronicle⟩

/-- When every process is idle, the files represent the map. -/
theorem good_represents {g : Ghost} (h : (clients scanner).good last g) (rest : AtRest last)
    : Represents last.st g.map := by
  refine h.1.represents fun p => ?_
  obtain ⟨mem, l, at_⟩ := rest p
  have known := h.2 p
  rw [at_] at known
  exact known.1.idle

-----------------------------------------------------------------------------------------
-- Processes never write to the same place
-----------------------------------------------------------------------------------------

section Writes

variable {s : State} {p q : Pid} {fd : Fd} {a b n k : Nat}

/-- Two ranges of a file do not meet. -/
def Apart (a n b k : Nat) : Prop := a + n ≤ b ∨ b + k ≤ a

/-- Two processes do not hold write locks on one byte. -/
theorem Inv.no_two_writers (inv : Inv s) (ne : p ≠ q) (held : HoldsW s p b)
    (held' : HoldsW s q b)
    : False := by
  have free := inv.exclusive ne held
  rw [show s.1.locks q .idx b = some .wr from held'] at free
  cases free

/-- Two processes do not own one record. -/
theorem Inv.no_two_owners (inv : Inv s) (ne : p ≠ q) {o : Nat} (mine : Owns s p o)
    (mine' : Owns s q o)
    : False := by
  cases owner : s.2.own o with
  | chain h =>
      simp only [Owns, owner] at mine mine'
      exact inv.no_two_writers ne mine mine'
  | free =>
      simp only [Owns, owner] at mine mine'
      exact inv.no_two_writers ne mine mine'
  | proc r =>
      simp only [Owns, owner] at mine mine'
      exact ne (mine.symm.trans mine')

/-- The pointer table ends before the records. -/
theorem chainSlot_end {h : Nat} (lt : h < NHASH_DEF) : chainSlot h + PTR_SZ ≤ RECS_OFF := by
  simp only [chainSlot, HASH_OFF, PTR_SZ, RECS_OFF, NHASH_DEF] at lt ⊢
  omega

/-- The pointers of two chains do not overlap. -/
theorem chainSlot_apart {h h' : Nat} (ne : h ≠ h')
    : Apart (chainSlot h) PTR_SZ (chainSlot h') PTR_SZ := by
  simp only [Apart, chainSlot, PTR_SZ]
  omega

/-- The pointer of the free list lies before those of the chains. -/
theorem free_end (h : Nat) : FREE_OFF + PTR_SZ ≤ chainSlot h := by
  simp only [FREE_OFF, chainSlot, HASH_OFF]
  omega

/-- The records of two owners do not overlap. -/
theorem Inv.records_apart (inv : Inv s) (ne : p ≠ q) {o o' : Nat} {r r' : Rec}
    (found : s.2.im.recAt o = some r) (mine : Owns s p o) (fits : n ≤ r.enc.length)
    (found' : s.2.im.recAt o' = some r') (mine' : Owns s q o') (fits' : k ≤ r'.enc.length)
    : Apart o n o' k := by
  rcases Nat.lt_trichotomy o o' with before | rfl | after
  · exact Or.inl (Nat.le_trans (Nat.add_le_add_left fits _) (tileAt_disjoint found found' before))
  · exact (inv.no_two_owners ne mine mine').elim
  · exact Or.inr (Nat.le_trans (Nat.add_le_add_left fits' _) (tileAt_disjoint found' found after))

/-- The regions of two owners do not overlap. -/
theorem Inv.regions_apart (inv : Inv s) (ne : p ≠ q) {o o' : Nat} {r r' : Rec}
    (found : s.2.im.recAt o = some r) (mine : Owns s p o)
    (found' : s.2.im.recAt o' = some r') (mine' : Owns s q o')
    : Apart r.datoff r.datlen r'.datoff r'.datlen := by
  obtain ⟨d, chunk, size⟩ := inv.regions.exists_ found
  obtain ⟨d', chunk', size'⟩ := inv.regions.exists_ found'
  rw [← size, ← size', ← encChunk_length, ← encChunk_length]
  rcases Nat.lt_trichotomy r.datoff r'.datoff with before | same | after
  · exact Or.inl (tileAt_disjoint chunk chunk' before)
  · obtain rfl := inv.regions.unique found found' same
    exact (inv.no_two_owners ne mine mine').elim
  · exact Or.inr (tileAt_disjoint chunk' chunk after)

/-- Two different processes may not write to overlapping parts of a file. Witness: each part
is under a write lock or has one owner.
-/
theorem MayWrite.apart (inv : Inv s) (ne : p ≠ q) (h : MayWrite p s fd a n)
    (h' : MayWrite q s fd b k)
    : Apart a n b k := by
  have size := recs_le_idx s.2.im
  cases h with
  | @slot c lt held =>
      have low := chainSlot_end lt
      have first := free_end c
      cases h' with
      | @slot c' lt' held' =>
          by_cases same : c = c'
          · subst same
            exact (inv.no_two_writers ne held held').elim
          · exact chainSlot_apart same
      | free held' => exact Or.inr first
      | record found' mine' fits' =>
          exact Or.inl (Nat.le_trans low (s.2.im.recAt_range found').1)
      | newRecord held' => exact Or.inl (Nat.le_trans low size)
  | free held =>
      have low : FREE_OFF + PTR_SZ ≤ RECS_OFF := by decide
      cases h' with
      | slot lt' held' => exact Or.inl (free_end _)
      | free held' => exact (inv.no_two_writers ne held held').elim
      | record found' mine' fits' =>
          exact Or.inl (Nat.le_trans low (s.2.im.recAt_range found').1)
      | newRecord held' => exact Or.inl (Nat.le_trans low size)
  | record found mine fits =>
      have range := s.2.im.recAt_range found
      cases h' with
      | slot lt' held' => exact Or.inr (Nat.le_trans (chainSlot_end lt') range.1)
      | free held' => exact Or.inr (Nat.le_trans (by decide) range.1)
      | record found' mine' fits' => exact inv.records_apart ne found mine fits found' mine' fits'
      | newRecord held' => exact Or.inl (by omega)
  | newRecord held =>
      cases h' with
      | slot lt' held' => exact Or.inr (Nat.le_trans (chainSlot_end lt') size)
      | free held' => exact Or.inr (Nat.le_trans (by decide) size)
      | record found' mine' fits' =>
          have range := s.2.im.recAt_range found'
          exact Or.inr (by omega)
      | newRecord held' => exact (inv.no_two_writers ne held held').elim
  | @chunk o r found mine =>
      obtain ⟨d, chunk, size⟩ := inv.regions.exists_ found
      have range := s.2.im.chunkAt_range chunk
      cases h' with
      | chunk found' mine' => exact inv.regions_apart ne found mine found' mine'
      | newChunk held' => exact Or.inl (by omega)
  | newChunk held =>
      cases h' with
      | @chunk o r found' mine' =>
          obtain ⟨d, chunk, size⟩ := inv.regions.exists_ found'
          have range := s.2.im.chunkAt_range chunk
          exact Or.inr (by omega)
      | newChunk held' =>
          rw [inv.exclusive ne held] at held'
          cases held'

end Writes

-----------------------------------------------------------------------------------------
-- The library is linearizable
-----------------------------------------------------------------------------------------

/-- Any number of processes that call `db_fetch`, `db_store` and `db_delete` on one database,
interleaved at every system call, see a finite map: the results of the completed calls are
those of a sequential order that respects real time. Whenever all calls have returned, the
files represent the map after that order, so no update is lost; and two processes never
stand before writes to the same bytes, so no record and no region is claimed twice.
-/
theorem calls_linearizable (start last : System) (labels : History) (m : Bindings)
    (init : Started (fun _ => False) start m)
    (run : Run kernel opCode (MayInvoke fun _ => False) start labels last)
    (alive : NonAborting labels)
    : (∃ order m', Linearizes Answers m labels order m'
        ∧ (AtRest last → Represents last.st m'))
      ∧ ∀ p q op op' fd bytes bytes' next next' l l', p ≠ q
        → last.procs p = .busy op (.call (.write fd bytes) next) l
        → last.procs q = .busy op' (.call (.write fd bytes') next') l'
        → Apart (l.at fd) bytes.length (l'.at fd) bytes'.length := by
  obtain ⟨g, states, effects, good, chronicle⟩ := init.chronicle run alive
  refine ⟨⟨_, g.map, chronicle.linearizes, good_represents good⟩, ?_⟩
  intro p q op op' fd bytes bytes' next next' l l' ne at_ at'
  have permitted : Permitted p _ l (last.st, g) :=
    (clients fun _ => False).good_permit good at_ trivial
  have permitted' : Permitted q _ l' (last.st, g) :=
    (clients fun _ => False).good_permit good at' trivial
  exact permitted.1.apart good.1 ne permitted'.1

/-- Fresh files in which the clients start. -/
theorem freshSystem_started (scanner : Pid → Prop) : Started scanner freshSystem .empty :=
  ⟨represents_empty rfl rfl, fun _ => rfl, fun _ => ⟨_, _, rfl, openedDb_good, fun _ => rfl⟩⟩

/-- A process completes its call while the other processes, which hold no locks, rest. -/
theorem exists_solo_completion {allowed : Pid → Op → Prop} {c : System} {p : Pid} {op : Op}
    {mem mem' : Option DB} {l l' : Offsets} {d' : Disk} {res : Res} (handle : Opened mem)
    (solo : Solo p c.st) (unlocked : c.st.locks p = noLocks)
    (at_ : c.procs p = .busy op (opCode op mem) l)
    (ends : (opCode op mem).Ends (kernel.alone p) (l, c.st) (.done (res, mem')) (l', d'))
    : ∃ labels, (∀ label ∈ labels, label.Inside p)
        ∧ Run kernel opCode allowed c (labels ++ [.respond p op res]) (c.put p (.idle mem' l') d')
        ∧ Opened mem' ∧ Solo p d' ∧ d'.locks p = noLocks := by
  have follows := orderly_opCode op mem handle
  have ready : ∀ {call : Call} {T l d}, (lockProtocol True).may call T
      → Solo p d ∧ d.locks p = T
      → kernel.enabled p call l d ∧ Solo p (kernel.exec p call l d).2.2
        ∧ (kernel.exec p call l d).2.2.locks p = (lockProtocol True).next call T := by
    rintro call T l d - ⟨solo, rfl⟩
    exact ⟨solo.enabled call, solo.exec call, by rw [exec_locks, if_pos rfl]⟩
  obtain ⟨labels, T, inside, run, ⟨handle', rfl⟩, solo', locks⟩ :
      ∃ labels T, _ ∧ Run kernel opCode allowed _ _ _ ∧ _ ∧ _ :=
    follows.exists_completion ready at_ ⟨solo, unlocked⟩ ends
  exact ⟨labels, inside, run, handle', solo', locks⟩

/-- The steps inside an operation show no response. -/
theorem no_response {p : Pid} {labels : History} (inside : ∀ label ∈ labels, label.Inside p)
    {q : Pid} {op : Op} {res : Res}
    : .respond q op res ∉ labels :=
  fun member => inside _ member

/-- The calls of the sample runs. -/
def insertA : Op := .store keyA dataOne DB_INSERT
def replaceA : Op := .store keyA dataTwo DB_REPLACE

/-- Process 1 inserts on a new database, before the others do anything. -/
def insertedAlone : Prog.Outcome Fatal (Res × Option DB) × Offsets × Disk :=
  (opCode insertA (some openedDb)).run (kernel.alone 1) 2 (⟨RECS_OFF, 0⟩, freshSystem.st)

/-- The insertion returns 0. -/
theorem ends_insertedAlone
    : ∃ mem, (opCode insertA (some openedDb)).Ends (kernel.alone 1)
        (⟨RECS_OFF, 0⟩, freshSystem.st) (.done (.code 0, mem)) insertedAlone.2 := by
  have value : insertedAlone.1.value.map Prod.fst = some (.code 0) := by decide +kernel
  unfold insertedAlone at value ⊢
  obtain ⟨⟨res, mem⟩, ends, rfl⟩ := Prog.Ends.of_value_run 2 value
  exact ⟨mem, ends⟩

/-- No process holds a lock of the fresh files. -/
theorem freshSystem_solo (p : Pid) : Solo p freshSystem.st := ⟨fun _ _ => rfl, rfl, rfl⟩

/-- Where one process is alone and holds no locks, every process is alone. -/
theorem Solo.everyone {p : Pid} {d : Disk} (solo : Solo p d) (unlocked : d.locks p = noLocks)
    (q : Pid)
    : Solo q d ∧ d.locks q = noLocks := by
  have free : ∀ r, d.locks r = noLocks := by
    intro r
    by_cases same : r = p
    · rw [same, unlocked]
    · exact solo.others r same
  exact ⟨⟨fun r _ => free r, solo.idx, solo.dat⟩, free q⟩

/-- Process 1 inserts and process 2 fetches. Both have started before the first has taken a step,
and both return.
-/
theorem calls_linearizable_sample
    : ∃ (last : System) (labels : History) (j k : Nat),
        Completes labels 0 j 1 insertA (.code 0)
        ∧ Completes labels 1 k 2 (.fetch keyA) (.data (some dataOne.bytes))
        ∧ ∃ order m', Linearizes Answers .empty labels order m' ∧ Represents last.st m' := by
  have sep : SEP ∉ keyA.bytes := by decide
  obtain ⟨mem₁, inserted⟩ := ends_insertedAlone
  have value : ((opCode (.fetch keyA) (some openedDb)).run (kernel.alone 2) 2
      (⟨RECS_OFF, 0⟩, insertedAlone.2.2)).1.value.map Prod.fst
        = some (.data (some dataOne.bytes)) := by
    decide +kernel
  obtain ⟨⟨res, mem₂⟩, ⟨l₂, d₂⟩, fetched, rfl⟩ := Prog.Ends.of_value_map 2 value
  clear value
  generalize insertedAlone.2 = w at inserted fetched
  obtain ⟨l₁, d₁⟩ := w
  -- Both calls start, the first one ends, and then the second one.
  let c : System := (freshSystem.setProc 1 (.busy insertA (opCode insertA (some openedDb))
    ⟨RECS_OFF, 0⟩)).setProc 2 (.busy (.fetch keyA) (opCode (.fetch keyA) (some openedDb))
    ⟨RECS_OFF, 0⟩)
  have started : Run kernel opCode (MayInvoke fun _ => False) freshSystem
      [.invoke 1 insertA, .invoke 2 (.fetch keyA)] c :=
    .snoc (.one (.invoke rfl ⟨not_false, sep⟩)) (.invoke rfl ⟨not_false, sep⟩)
  obtain ⟨labels₁, inside₁, run₁, -, solo₁, unlocked₁⟩ := exists_solo_completion (c := c)
    (opened_some openedDb_good) (freshSystem_solo 1) rfl rfl inserted
  obtain ⟨solo, unlocked⟩ := solo₁.everyone unlocked₁ 2
  obtain ⟨labels₂, inside₂, run₂, -, -⟩ := exists_solo_completion (c := c.put 1 _ _)
    (opened_some openedDb_good) solo unlocked rfl fetched
  have run := started.trans (run₁.trans run₂)
  generalize trace : [_, _] ++ ((labels₁ ++ _) ++ _) = labels at run
  have first : labels = [] ++ .invoke 1 insertA :: ((.invoke 2 (.fetch keyA) :: labels₁)
      ++ .respond 1 insertA (.code 0)
        :: (labels₂ ++ [.respond 2 (.fetch keyA) (.data (some dataOne.bytes))])) := by
    simp [← trace]
  have second : labels = [.invoke 1 insertA] ++ .invoke 2 (.fetch keyA)
      :: ((labels₁ ++ .respond 1 insertA (.code 0) :: labels₂)
        ++ .respond 2 (.fetch keyA) (.data (some dataOne.bytes)) :: []) := by
    simp [← trace]
  have alive : NonAborting labels := by
    intro p reason member
    simp only [first, List.nil_append, List.mem_append, List.mem_cons, List.not_mem_nil,
      reduceCtorEq, or_false, false_or] at member
    exact member.elim (inside₁ _) (inside₂ _)
  obtain ⟨⟨order, m', linear, rests⟩, -⟩ :=
    calls_linearizable freshSystem _ labels .empty (freshSystem_started _) run alive
  refine ⟨_, labels, _, _, .of_append first ?_, .of_append second ?_, order, m', linear,
    rests fun p => ?_⟩
  · intro op res member
    simp only [List.mem_cons, reduceCtorEq, false_or] at member
    exact no_response inside₁ member
  · intro op res member
    simp only [List.mem_append, List.mem_cons, Label.respond.injEq, OfNat.ofNat_ne_one, false_and,
      false_or] at member
    exact member.elim (no_response inside₁) (no_response inside₂)
  · by_cases second : p = 2
    · exact ⟨mem₂, l₂, by simp [second]⟩
    · by_cases first : p = 1
      · exact ⟨mem₁, l₁, by simp [first]⟩
      · exact ⟨some openedDb, ⟨RECS_OFF, 0⟩, by simp [second, first, c, freshSystem, Config.setProc]⟩

/-- A scan never sees a half-made record. In every interleaving of scans with any calls of other
processes a scan does not abort, and a record that it returns was bound at a step of the scan:
there is a history `states` of the map, one state for every step, that changes only where a
call takes effect, a store when it writes the last of its data and its index record, and in
which the returned key had the returned data at some step between the start and the end of
the call.
-/
theorem scan_returns_binding (scanner : Pid → Prop) (start last : System) (labels : History)
    (m : Bindings) (init : Started scanner start m)
    (run : Run kernel opCode (MayInvoke scanner) start labels last)
    (alive : NonAborting labels)
    : (∀ p reason l, last.procs p ≠ .busy .nextrec (.abort reason) l)
      ∧ ∃ states effects, states 0 = m ∧ Timeline behavior labels states effects
        ∧ ∀ i j p key data, Completes labels i j p .nextrec (.record (some (key, data)))
          → ∃ t, i ≤ t ∧ t < j ∧ (states t key).map CString.bytes = some data := by
  obtain ⟨g, states, effects, good, chronicle⟩ := init.chronicle run alive
  refine ⟨fun p reason l => (clients scanner).good_noAbort good not_false, states, effects,
    chronicle.first, chronicle.timeline, ?_⟩
  intro i j p key data completes
  obtain ⟨t, member, before⟩ := chronicle.timeline.complete completes
  obtain ⟨-, found, same, bound⟩ := chronicle.timeline.changes _ member
  refine ⟨t, (chronicle.timeline.within _ member).1, before, ?_⟩
  exact bound key data (Res.record.inj same).symm

/-- Process 1 has inserted and is about to replace when process 3 scans, and returns the record. -/
theorem scan_returns_binding_sample
    : ∃ (labels : History) (n i j : Nat) (states : Nat → Bindings)
        (effects : List (Happening Pid Op Res)),
        labels[n]? = some (.invoke 1 replaceA) ∧ Pending labels 1 n ∧ n < i
        ∧ Completes labels i j 3 .nextrec (.record (some (keyA.bytes, dataOne.bytes)))
        ∧ Timeline behavior labels states effects
        ∧ ∃ t, i ≤ t ∧ t < j
          ∧ (states t keyA.bytes).map CString.bytes = some dataOne.bytes := by
  have sep : SEP ∉ keyA.bytes := by decide
  obtain ⟨mem₁, inserted⟩ := ends_insertedAlone
  have value : ((opCode .nextrec (some openedDb)).run (kernel.alone 3) 2
      (⟨RECS_OFF, 0⟩, insertedAlone.2.2)).1.value.map Prod.fst
        = some (.record (some (keyA.bytes, dataOne.bytes))) := by
    decide +kernel
  obtain ⟨⟨res, mem₃⟩, ⟨l₃, d₃⟩, scanned, rfl⟩ := Prog.Ends.of_value_map 2 value
  clear value
  generalize insertedAlone.2 = w at inserted scanned
  obtain ⟨l₁, d₁⟩ := w
  let c₀ : System := freshSystem.setProc 1
    (.busy insertA (opCode insertA (some openedDb)) ⟨RECS_OFF, 0⟩)
  let c₁ : System := (c₀.put 1 (.idle mem₁ l₁) d₁).setProc 1
    (.busy replaceA (opCode replaceA mem₁) l₁)
  let c₃ : System := c₁.setProc 3
    (.busy .nextrec (opCode .nextrec (some openedDb)) ⟨RECS_OFF, 0⟩)
  obtain ⟨labels₁, inside₁, run₁, -, solo₁, unlocked₁⟩ := exists_solo_completion (c := c₀)
    (opened_some openedDb_good) (freshSystem_solo 1) rfl rfl inserted
  have begun : Run kernel opCode (MayInvoke (· = 3)) freshSystem [.invoke 1 insertA] c₀ :=
    .one (.invoke rfl ⟨by decide, sep⟩)
  have again : Run kernel opCode (MayInvoke (· = 3)) (c₀.put 1 (.idle mem₁ l₁) d₁)
      [.invoke 1 replaceA, .invoke 3 .nextrec] c₃ :=
    .snoc (.one (.invoke rfl ⟨by decide, sep⟩)) (.invoke rfl rfl)
  obtain ⟨solo, unlocked⟩ := solo₁.everyone unlocked₁ 3
  obtain ⟨labels₃, inside₃, run₃, -, -⟩ := exists_solo_completion (c := c₃)
    (opened_some openedDb_good) solo unlocked rfl scanned
  have run := (begun.trans run₁).trans (again.trans run₃)
  generalize trace : [_] ++ (labels₁ ++ _) ++ _ = labels at run
  let before : History := .invoke 1 insertA :: (labels₁ ++ [.respond 1 insertA (.code 0)])
  have store : labels = before ++ .invoke 1 replaceA :: .invoke 3 .nextrec
      :: (labels₃ ++ [.respond 3 .nextrec (.record (some (keyA.bytes, dataOne.bytes)))]) := by
    simp [← trace, before]
  have scan : labels = (before ++ [.invoke 1 replaceA]) ++ .invoke 3 .nextrec
      :: (labels₃ ++ .respond 3 .nextrec (.record (some (keyA.bytes, dataOne.bytes))) :: []) := by
    simp [store]
  have alive : NonAborting labels := by
    intro p reason member
    simp only [store, before, List.mem_append, List.mem_cons, List.not_mem_nil, reduceCtorEq,
      or_false, false_or] at member
    exact member.elim (inside₁ _) (inside₃ _)
  have completes : Completes labels _ _ 3 .nextrec _ :=
    .of_append scan fun op res => no_response inside₃
  obtain ⟨-, states, effects, -, timeline, bound⟩ :=
    scan_returns_binding (· = 3) freshSystem _ labels .empty (freshSystem_started _) run alive
  refine ⟨labels, before.length, _, _, states, effects, by simp [store],
    ⟨⟨replaceA, by simp [store]⟩, ?_⟩, ?_,
    completes, timeline, bound _ _ 3 _ _ completes⟩
  · intro k op res later at_
    obtain ⟨n, rfl⟩ : ∃ n, k = before.length + (n + 1) := ⟨k - before.length - 1, by omega⟩
    rw [store, List.getElem?_append_right (Nat.le_add_right ..), Nat.add_sub_cancel_left,
      List.getElem?_cons_succ] at at_
    have member : .respond 1 op res ∈ labels₃ := by simpa using List.mem_of_getElem? at_
    exact no_response inside₃ member
  · simp

end Minions.Db
