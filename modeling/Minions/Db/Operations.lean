import Minions.Db.Insert

/-! `db_fetch`, `db_delete` and `db_store` as operations on the map.
An operation that changes nothing takes effect when it locks its hash chain; the others take
effect at a write. Each ends without locks and without records of its own.
-/

namespace Minions.Db

open Minions.Data Minions.Logic

variable {p : Pid} {ab : Prop} {l : Offsets} {s t : State} {db : DB}

/-- A process outside every operation: it has no locks, no records and no orphan. -/
structure Idle (p : Pid) (s : State) : Prop where
  locks : s.1.locks p = noLocks
  only : ∀ {o r}, s.2.im.recAt o = some r → s.2.own o ≠ .proc p
  orphan : s.2.orphan p = none

/-- An idle process stays so while others step. -/
theorem Idle.stable (idle : Idle p s) (hr : Rely p s t) : Idle p t := by
  refine ⟨hr.locks.trans idle.locks, fun found own => ?_, hr.orphan.trans idle.orphan⟩
  obtain ⟨⟨r', found'⟩, own'⟩ := hr.mine found own
  exact idle.only found' own'

/-- Unlocking the chain leaves no lock. -/
theorem chainLock_undo (h : Nat) (kind : LockKind)
    : relock (chainLock h kind) .idx (chainSlot h) 1 none = noLocks :=
  relock_undo fun _ _ => rfl

/-- What `p` knows when `_db_find_and_lock` has locked the chain for writing. -/
theorem Idle.knows {h : Nat} (idle : Idle p s) (stat' : Pid → Status) (lt : h < NHASH_DEF)
    (ok : ChainOk s.2 h)
    : Knows p (chainLock h .wr) h (s.2.chain h) s.2.map s.2.map [] none (stat' p)
        (lockChain p h .wr stat' s) := by
  refine ⟨lt, by simp, ?_, rfl, ok.content, fun _ => rfl, ?_, idle.orphan, rfl⟩
  · simp only [lockChain, setLocks_self, idle.locks]
    rfl
  · exact fun found own => absurd own (idle.only found)

/-- Unlocking a chain that is well formed. -/
theorem Knows.release {h : Nat} {list : List Nat} {m : Bindings} {stat : Status}
    (k : Knows p (chainLock h .wr) h list m m [] none stat s) (inv : Inv s)
    (linked : Linked s.2.im.next (chainSlot h) list)
    : Inv (s.1.setLocks p .idx (chainSlot h) 1 none, s.2)
      ∧ Idle p (s.1.setLocks p .idx (chainSlot h) 1 none, s.2) := by
  refine ⟨inv_release s.2.stat inv ?_ ?_ ?_, ?_, ?_, k.orphan_⟩
  · intro c _ _ _ range
    obtain rfl : c = h := chainSlot_inj (inRange_one.mp range)
    refine ⟨by rw [k.list_]; exact linked, ?_⟩
    rw [k.list_]
    exact k.content.congr (fun o member => k.alive inv member) k.map fun _ found =>
      ⟨found, rfl⟩
  · intro _ _ range
    exact absurd (inRange_one.mp range).symm (chainSlot_ne_free h)
  · exact fun o r found own => absurd (k.only found own) List.not_mem_nil
  · simp only [setLocks_self, k.locks]
    exact chainLock_undo h .wr
  · exact fun found own => absurd (k.only found own) List.not_mem_nil

-----------------------------------------------------------------------------------------
-- Fetching
-----------------------------------------------------------------------------------------

/-- A key without a record on its chain is not bound. -/
theorem ChainOk.unbound {g : Ghost} {key : List Byte} (ok : ChainOk g (hash key))
    (other : ∀ {o r}, o ∈ g.chain (hash key) → g.im.recAt o = some r → r.key ≠ key)
    : g.map key = none := by
  cases bound : g.map key with
  | none => rfl
  | some d =>
      obtain ⟨o, r, member, found, same, -⟩ := (ok.content.bound rfl d).mp bound
      exact absurd same (other member found)

/-- `db_fetch`. -/
theorem wp_fetch {key : CString} {Q : Option (List Byte) × DB → Offsets → State → Prop}
    (good : Good db) (idle : Idle p s) (todo : s.2.stat p = .todo (.fetch key))
    (next : ∀ ptr db' l' t, Good db' → Idle p t → Inv t
      → t.2.stat p = .done (.fetch key) (.data ptr) → Q (ptr, db') l' t)
    (inv : Inv s)
    : Wp p ab (dbFetch db key.bytes) Q l s := by
  simp only [dbFetch, Prog.bind_eq, Prog.pure_eq, errDump_bind]
  refine wp_bind inv (wp_findAndLock good idle.locks fun s₁ hr₁ hi₁ ok => ?_)
  refine ⟨Function.update s₁.2.stat p (.done (.fetch key) (s₁.2.map.fetch key)),
    fun q ne => Function.update_of_ne ne _ _, fun c => ?_, fun hi₂ rc db' l' t hrt hit found => ?_⟩
  · exact Or.inr ⟨.fetch key, s₁.2.map.fetch key, hr₁.stat.trans todo, ⟨rfl, rfl⟩, rfl, trivial⟩
  have idle₁ := idle.stable hr₁
  have locks : t.1.locks p = chainLock (hash key.bytes) .rd := by
    rw [hrt.locks]
    simp only [lockChain, setLocks_self, idle₁.locks]
    rfl
  have held : Holds (lockChain p (hash key.bytes) (findKind false)
      (Function.update s₁.2.stat p (.done (.fetch key) (s₁.2.map.fetch key))) s₁) p
      (chainSlot (hash key.bytes)) := by
    simp [lockChain, Holds, Disk.setLocks, inRange_one]
  -- The chain is unlocked last, whatever was found.
  have unlock : ∀ ptr db₂ l₂ u, Rely p t u → Inv u → Good db₂
      → db₂.chainoff = chainSlot (hash key.bytes) → s₁.2.map.fetch key = .data ptr
      → Wp p ab
          ((unLock .idx db₂.chainoff.toNat 1).bind fun rc =>
            if rc < 0 then errDump "db_fetch: un_lock error" else .ret (ptr, db₂)) Q l₂ u := by
    intro ptr db₂ l₂ u hru hiu goodU chainoff answer
    rw [chainoff, Int.toNat_natCast]
    refine wp_unlock fun v hrv hiv => ?_
    have all := (hrt.trans hru).trans hrv
    have locksV : v.1.locks p = chainLock (hash key.bytes) .rd := by
      rw [(hru.trans hrv).locks, locks]
    have onlyV : ∀ {o r}, v.2.im.recAt o = some r → v.2.own o ≠ .proc p := by
      intro o r at_ own
      obtain ⟨⟨r', at'⟩, own'⟩ := all.mine at_ own
      exact idle₁.only at' own'
    have hi₃ : Inv (v.1.setLocks p .idx (chainSlot (hash key.bytes)) 1 none, v.2) := by
      refine inv_release v.2.stat hiv ?_ ?_ ?_
      · intro c _ heldW _ range
        rw [HoldsW, inRange_one.mp range, locksV, chainLock_self] at heldW
        cases heldW
      · intro _ _ range
        exact absurd (inRange_one.mp range).symm (chainSlot_ne_free _)
      · exact fun o r at_ own => absurd own (onlyV at_)
    refine ⟨hi₃, ?_⟩
    rw [if_neg (by decide)]
    have idleV : Idle p (v.1.setLocks p .idx (chainSlot (hash key.bytes)) 1 none, v.2) := by
      refine ⟨?_, onlyV, all.orphan.trans idle₁.orphan⟩
      simp only [setLocks_self, locksV]
      exact chainLock_undo _ _
    intro w hrw hiw
    refine next ptr db₂ _ w goodU (idleV.stable hrw) hiw ?_
    rw [hrw.stat, all.stat]
    simp [lockChain, answer]
  cases found with
  | absent goodDb chainoff other =>
      dsimp only
      rw [if_pos (by decide)]
      refine unlock none _ _ t (Rely.refl p t) hit ⟨goodDb.nhash, goodDb.hashoff⟩ chainoff ?_
      simp [Bindings.fetch, ok.unbound other]
  | @present l₁ l₂ o r _ split found same at_ buffer =>
      dsimp only
      rw [if_neg (by decide)]
      obtain ⟨d, chunk, size⟩ := hi₁.regions.exists_ found
      have member : o ∈ s₁.2.chain (hash key.bytes) := by simp [split]
      have seen := hi₂.sees_chain (o := o) held member
      have bound : s₁.2.map key.bytes = some d :=
        (ok.content.bound rfl d).mpr ⟨o, r, member, found, same, chunk⟩
      refine wp_bind hit (wp_readdat at_.datoff fun u hru hiu => ?_)
      refine ⟨d, u.2.stat, ((hrt.trans hru).recs seen).2.2 found |>.trans chunk,
        by rw [at_.datlen]; exact size.symm, fun _ _ => rfl, Effect.none p _ _,
        fun v hrv hiv => ?_⟩
      refine unlock (some d.bytes) _ _ v (hru.trans hrv) hiv
        ⟨at_.good.nhash, at_.good.hashoff⟩ at_.chainoff ?_
      simp [Bindings.fetch, bound]

-----------------------------------------------------------------------------------------
-- Deleting
-----------------------------------------------------------------------------------------

/-- The end of `db_delete` and `db_store`: unlock the chain and return. -/
theorem wp_unlock_chain {α : Type} {x : α} {message : String} {h : Nat} {list : List Nat}
    {m : Bindings} {stat : Status} {Q : α → Offsets → State → Prop}
    (k : Knows p (chainLock h .wr) h list m m [] none stat s) (inv : Inv s)
    (linked : Linked s.2.im.next (chainSlot h) list) (chainoff : db.chainoff = chainSlot h)
    (next : ∀ l' t, Idle p t → Inv t → t.2.stat p = stat → Q x l' t)
    : Wp p ab
        ((unLock .idx db.chainoff.toNat 1).bind fun rc =>
          if rc < 0 then errDump message else .ret x) Q l s := by
  rw [chainoff, Int.toNat_natCast]
  refine wp_unlock fun u hru hiu => ?_
  have kU := k.stable inv hru
  obtain ⟨hi, idle⟩ := kU.release hiu (k.linked_stable inv hru linked)
  refine ⟨hi, ?_⟩
  rw [if_neg (by decide)]
  intro v hrv hiv
  exact next _ v (idle.stable hrv) hiv (hrv.stat.trans kU.stat_)

/-- The progress of `p` when it has locked the chain of an operation that answers `res` and
changes nothing, if `early`.
-/
def early (p : Pid) (op : Op) (res : Res) (done : Bool) (g : Ghost) : Pid → Status :=
  if done then Function.update g.stat p (.done op res) else g.stat

/-- An early answer changes the status of its own process only. -/
theorem early_other {op : Op} {res : Res} {done : Bool} {g : Ghost} {q : Pid} (ne : q ≠ p)
    : early p op res done g q = g.stat q := by
  unfold early
  split
  · exact Function.update_of_ne ne _ _
  · rfl

/-- An early answer is an effect of the process. -/
theorem early_effect {op : Op} {res : Res} {done : Bool} {g : Ghost} {c : Call}
    (todo : g.stat p = .todo op) (answers : done = true → Answers op g.map res g.map)
    (at_ : done = true → EffectAt op res c)
    : Effect p c g { g with stat := early p op res done g } := by
  cases done with
  | true => exact Or.inr ⟨op, res, todo, answers rfl, rfl, at_ rfl⟩
  | false => exact Or.inl ⟨rfl, rfl⟩

/-- `db_delete`. -/
theorem wp_delete {key : CString} {Q : Int × DB → Offsets → State → Prop}
    (good : Good db) (idle : Idle p s) (todo : s.2.stat p = .todo (.delete key))
    (inv : Inv s)
    (next : ∀ rc db' l' t, Good db' → Idle p t → Inv t
      → t.2.stat p = .done (.delete key) (.code rc) → Q (rc, db') l' t)
    : Wp p True (dbDelete db key.bytes) Q l s := by
  simp only [dbDelete, Prog.bind_eq, Prog.pure_eq, errDump_bind]
  refine wp_bind inv (wp_findAndLock good idle.locks fun s₁ hr₁ hi₁ ok => ?_)
  have todo₁ := hr₁.stat.trans todo
  refine ⟨early p (.delete key) (.code (-1)) (s₁.2.map key.bytes).isNone s₁.2,
    fun q ne => early_other ne, fun c => early_effect todo₁ (fun unbound => ?_) fun _ => trivial,
    fun hi₂ rc db' l' t hrt hit found => ?_⟩
  · have none_ : s₁.2.map key.bytes = none := by simpa using unbound
    simp [Answers, Bindings.delete, none_]
  have k := (idle.stable hr₁).knows
    (early p (.delete key) (.code (-1)) (s₁.2.map key.bytes).isNone s₁.2) (hash_lt key.bytes) ok
  have link : Linked (lockChain p (hash key.bytes) .wr _ s₁).2.im.next
      (chainSlot (hash key.bytes)) (s₁.2.chain (hash key.bytes)) := ok.linked
  have kT := k.stable hi₂ hrt
  have linkT := k.linked_stable hi₂ hrt link
  cases found with
  | absent goodDb chainoff other =>
      dsimp only
      rw [if_neg (by decide)]
      have unbound := ok.unbound other
      simp only [unbound, Option.isNone_none, early, if_true, Function.update_self] at kT
      exact wp_unlock_chain kT hit linkT chainoff fun l'' u idleU hiu stat =>
        next (-1) _ l'' u ⟨goodDb.nhash, goodDb.hashoff⟩ idleU hiu stat
  | @present l₁ l₂ o r _ split found same at_ buffer =>
      dsimp only
      rw [if_pos rfl]
      obtain ⟨d, chunk, -⟩ := hi₁.regions.exists_ found
      have bound : s₁.2.map key.bytes = some d :=
        (ok.content.bound rfl d).mpr ⟨o, r, by simp [split], found, same, chunk⟩
      simp only [bound, Option.isNone_some, early, Bool.false_eq_true, if_false, todo₁] at kT
      have foundT := hrt.recAt (hi₂.sees_chain k.holdsW.holds (by simp [lockChain, split])) found
      rw [split] at kT linkT
      refine wp_bind hit (wp_dodelete (s₁.2.map.set key.bytes none)
        (.done (.delete key) (.code 0)) at_ (buffer.trans same.symm) (by rw [same]) kT
        hit trivial trivial linkT foundT (fun u kU hiu => ?_)
        fun db₂ l₂ u kU hiu linkU goodU chainoff => ?_)
      · refine ⟨u.2.map.set key.bytes none,
          Function.update u.2.stat p (.done (.delete key) (.code 0)), ⟨?_, ?_, ?_, ?_⟩,
          fun c g map stat => ?_⟩
        · intro x differs
          rw [same] at differs
          exact Bindings.set_other _ _ differs
        · intro x hashed
          by_cases eq : x = key.bytes
          · simp [eq]
          · rw [Bindings.set_other _ _ eq, Bindings.set_other _ _ eq]
            exact kU.map (by rw [hashed, same])
        · simp
        · exact fun q ne => Function.update_of_ne ne _ _
        · refine Or.inr ⟨.delete key, .code 0, kU.stat_, ?_, stat, trivial⟩
          have boundU : u.2.map key.bytes = some d := (kU.map rfl).trans bound
          simp [Answers, Bindings.delete, boundU, map]
      · rw [same] at kU
        exact wp_unlock_chain kU hiu linkU chainoff fun l'' v idleV hiv stat =>
          next 0 _ l'' v ⟨goodU.nhash, goodU.hashoff⟩ idleV hiv stat

-----------------------------------------------------------------------------------------
-- Storing
-----------------------------------------------------------------------------------------

section Store

variable {key data : CString} {flag : Int} {list : List Nat} {m : Bindings}

/-- What is known when a store has changed the map and the chain is well formed again. -/
def StoreDone (p : Pid) (key data : CString) (flag : Int) (m : Bindings) (db : DB)
    (s : State)
    : Prop :=
  Good db ∧ db.chainoff = chainSlot (hash key.bytes)
  ∧ Inv s
  ∧ ∃ list, Linked s.2.im.next (chainSlot (hash key.bytes)) list
      ∧ Knows p (chainLock (hash key.bytes) .wr) (hash key.bytes) list
          (m.set key.bytes (some data)) (m.set key.bytes (some data)) [] none
          (.done (.store key data flag) (.code 0)) s

/-- The insertion paths of `db_store`. -/
theorem wp_storeNew {Q : DB → Offsets → State → Prop} (good : Good db)
    (chainoff : db.chainoff = chainSlot (hash key.bytes))
    (k : Knows p (chainLock (hash key.bytes) .wr) (hash key.bytes) list m m [] none
      (.todo (.store key data flag)) s)
    (inv : Inv s) (linked : Linked s.2.im.next (chainSlot (hash key.bytes)) list)
    (unbound : m key.bytes = none) (storing : Storing key data flag m) {datlen : Int}
    (int : toInt (data.bytes.length + 1 : Nat) = datlen)
    (next : ∀ db' l' t, StoreDone p key data flag m db' t → Q db' l' t)
    : Wp p True (dbStoreNew db key.bytes data.bytes (toInt key.bytes.length) datlen) Q l s := by
  simp only [dbStoreNew, Prog.bind_eq, Prog.pure_eq]
  rw [chainoff]
  have entry : ∀ t, Rely p s t → t.2.im.next (chainSlot (hash key.bytes)) = some (list.headD 0) :=
    fun t hrt => (k.linked_stable inv hrt linked).next_entry
  refine wp_bind inv (wp_readptr (fun t hrt _ => entry t hrt) fun s₁ hr₁ hi₁ => ?_)
  refine wp_bind hi₁ (wp_findfree good (k.stable inv hr₁) hi₁ (k.linked_stable inv hr₁ linked)
    (fun db' l' t kT hit linkT goodT same => ?_)
    fun o r d db' l' t kT hit linkT mine blank keylen size at_ => ?_)
  · dsimp only
    rw [if_pos (by decide)]
    refine wp_append goodT (same.trans chainoff) kT hit linkT rfl unbound (fun _ _ => rfl)
      storing rfl fun o db₂ l₂ u kU hiu linkU goodU chainoffU => ?_
    exact next _ l₂ u ⟨⟨goodU.nhash, goodU.hashoff⟩, chainoffU, hiu, _, linkU, kU⟩
  · dsimp only
    rw [if_neg (by decide)]
    rw [chainoff] at at_
    refine wp_reuse at_ kT hit linkT mine blank keylen (int.symm ▸ size) rfl unbound storing rfl
      fun o db₂ l₂ u kU hiu linkU goodU chainoffU => ?_
    exact next _ l₂ u ⟨⟨goodU.nhash, goodU.hashoff⟩, chainoffU, hiu, _, linkU, kU⟩

/-- The replacement paths of `db_store`. -/
theorem wp_storeOld {Q : DB → Offsets → State → Prop} {l₁ l₂ : List Nat} {o : Nat} {r : Rec}
    (at_ : AtRecord db (hash key.bytes) (lastCell (chainSlot (hash key.bytes)) l₁) o r)
    (buffer : db.idxbuf = key.bytes) (same : r.key = key.bytes)
    (k : Knows p (chainLock (hash key.bytes) .wr) (hash key.bytes) (l₁ ++ o :: l₂) m m [] none
      (.todo (.store key data flag)) s)
    (inv : Inv s)
    (linked : Linked s.2.im.next (chainSlot (hash key.bytes)) (l₁ ++ o :: l₂))
    (found : s.2.im.recAt o = some r) (storing : Storing key data flag m) {datlen : Int}
    (int : toInt (data.bytes.length + 1 : Nat) = datlen)
    (next : ∀ db' l' t, StoreDone p key data flag m db' t → Q db' l' t)
    : Wp p True (dbStoreOld db key.bytes data.bytes datlen) Q l s := by
  simp only [dbStoreOld, Prog.bind_eq, Prog.pure_eq]
  by_cases fits : sizeT datlen ≠ db.datlen
  · rw [if_pos fits]
    -- The deletion does not take effect on the map: the key stays bound to the old data.
    refine wp_bind inv (wp_dodelete m (.todo (.store key data flag)) at_
      (buffer.trans same.symm) (by rw [same]) k inv trivial trivial linked found (fun u kU hiu => ?_)
      fun db₂ l₂ u kU hiu linkU goodU chainoffU => ?_)
    · exact ⟨u.2.map, u.2.stat,
        ⟨fun _ _ => rfl, fun hashed => kU.map (by rw [hashed, same]), kU.stat_, fun _ _ => rfl⟩,
        fun c g map stat => Or.inl ⟨map, stat⟩⟩
    rw [same] at kU
    rw [chainoffU]
    have entry : ∀ t, Rely p u t → t.2.im.next (chainSlot (hash key.bytes))
        = some ((l₁ ++ _).headD 0) :=
      fun t hrt => (kU.linked_stable hiu hrt linkU).next_entry
    refine wp_bind hiu (wp_readptr (fun t hrt _ => entry t hrt) fun s₁ hr₁ hi₁ => ?_)
    refine wp_append goodU chainoffU (kU.stable hiu hr₁) hi₁ (kU.linked_stable hiu hr₁ linkU)
      rfl (Bindings.set_self _ _ _) (fun x differs => (Bindings.set_other _ _ differs).symm)
      storing rfl fun o db₃ l₃ v kV hiv linkV goodV chainoffV => ?_
    refine next _ l₃ v ⟨⟨goodV.nhash, goodV.hashoff⟩, chainoffV, hiv, _, linkV, ?_⟩
    have twice : (m.set key.bytes none).set key.bytes (some data) = m.set key.bytes (some data) := by
      funext x
      by_cases eq : x = key.bytes <;> simp [Bindings.set, eq]
    rwa [twice] at kV
  · rw [if_neg fits]
    refine wp_overwrite at_ same k inv linked (by simp) found rfl
      (by rw [int, not_not.mp fits, at_.datlen]) storing
      fun db₂ l₂ u kU hiu linkU goodU chainoffU => ?_
    exact next _ l₂ u ⟨⟨goodU.nhash, goodU.hashoff⟩, chainoffU, hiu, _, linkU, kU⟩

/-- The answer of a store that changes nothing, given how its key is bound. -/
def refusal (flag : Int) (old : Option CString) : Option Int :=
  match old with
  | none => if flag = DB_REPLACE then some (-1) else none
  | some _ => if flag = DB_INSERT then some 1 else none

/-- A store that is refused leaves the map. -/
theorem answers_refusal {rc : Int} (valid : ValidFlag flag) {map : Bindings}
    (refused : refusal flag (map key.bytes) = some rc)
    : Answers (.store key data flag) map (.code rc) map := by
  simp only [refusal] at refused
  simp only [Answers, Bindings.store, valid, not_true_eq_false, if_false]
  cases bound : map key.bytes <;> simp only [bound] at refused ⊢ <;> split at refused <;>
    simp_all

/-- A store that is accepted binds the key. -/
theorem answers_store (valid : ValidFlag flag) {map : Bindings}
    (accepted : refusal flag (map key.bytes) = none)
    : Answers (.store key data flag) map (.code 0) (map.set key.bytes (some data)) := by
  simp only [refusal] at accepted
  simp only [Answers, Bindings.store, valid, not_true_eq_false, if_false]
  cases bound : map key.bytes <;> simp only [bound] at accepted ⊢ <;> split at accepted <;>
    simp_all

/-- A refusal is not answered with 0. -/
theorem refusal_ne_zero {old : Option CString} {rc : Int}
    (refused : refusal flag old = some rc)
    : rc ≠ 0 := by
  cases old <;> simp only [refusal] at refused <;> split at refused <;> simp_all <;> omega

/-- `db_store` with a valid flag. -/
theorem wp_store {Q : Int × DB → Offsets → State → Prop} (good : Good db) (idle : Idle p s)
    (todo : s.2.stat p = .todo (.store key data flag)) (valid : ValidFlag flag)
    (sep : SEP ∉ key.bytes) (inv : Inv s)
    (next : ∀ rc db' l' t, Good db' → Idle p t → Inv t
      → t.2.stat p = .done (.store key data flag) (.code rc) → Q (rc, db') l' t)
    : Wp p True (dbStore db key.bytes data.bytes flag) Q l s := by
  have flagOk : ¬ (flag ≠ DB_INSERT ∧ flag ≠ DB_REPLACE ∧ flag ≠ DB_STORE) := by
    rintro ⟨h₁, h₂, h₃⟩
    rcases valid with h | h | h
    · exact h₁ h
    · exact h₂ h
    · exact h₃ h
  simp only [dbStore, Prog.bind_eq, Prog.pure_eq, errDump_bind, if_neg flagOk]
  generalize int : toInt (data.bytes.length + 1 : Nat) = datlen
  by_cases length : datlen < DATLEN_MIN ∨ datlen > DATLEN_MAX
  · rw [if_pos length]
    exact wp_errDump trivial
  rw [if_neg length]
  refine wp_bind inv (wp_findAndLock good idle.locks fun s₁ hr₁ hi₁ ok => ?_)
  have todo₁ := hr₁.stat.trans todo
  refine ⟨early p (.store key data flag)
      (.code ((refusal flag (s₁.2.map key.bytes)).getD 0))
      (refusal flag (s₁.2.map key.bytes)).isSome s₁.2,
    fun q ne => early_other ne, fun c => early_effect todo₁ (fun refused => ?_) fun refused => ?_,
    fun hi₂ rc db' l' t hrt hit found => ?_⟩
  · obtain ⟨rc, eq⟩ := Option.isSome_iff_exists.mp refused
    simpa only [eq, Option.getD_some] using answers_refusal valid eq
  · obtain ⟨rc, eq⟩ := Option.isSome_iff_exists.mp refused
    intro zero
    rw [eq, Option.getD_some, Res.code.injEq] at zero
    exact absurd zero (refusal_ne_zero eq)
  have k := (idle.stable hr₁).knows
    (early p (.store key data flag) (.code ((refusal flag (s₁.2.map key.bytes)).getD 0))
      (refusal flag (s₁.2.map key.bytes)).isSome s₁.2) (hash_lt key.bytes) ok
  have link : Linked (lockChain p (hash key.bytes) .wr _ s₁).2.im.next
      (chainSlot (hash key.bytes)) (s₁.2.chain (hash key.bytes)) := ok.linked
  have kT := k.stable hi₂ hrt
  have linkT := k.linked_stable hi₂ hrt link
  have storing : refusal flag (s₁.2.map key.bytes) = none → Storing key data flag s₁.2.map :=
    fun accepted =>
      ⟨sep, by omega, fun map same => answers_store valid (by rw [same]; exact accepted)⟩
  have finish : ∀ db₂ l₂ u, StoreDone p key data flag s₁.2.map db₂ u
      → Wp p True
          ((unLock .idx db₂.chainoff.toNat 1).bind fun unlocked =>
            if unlocked < 0 then errDump "db_store: un_lock error" else .ret ((0 : Int), db₂))
          Q l₂ u := by
    rintro db₂ l₂ u ⟨goodU, chainoff, hiu, list, linkU, kU⟩
    exact wp_unlock_chain kU hiu linkU chainoff fun l'' v idleV hiv stat =>
      next 0 _ l'' v goodU idleV hiv stat
  cases found with
  | absent goodDb chainoff other =>
      dsimp only
      rw [if_pos (by decide)]
      have unbound := ok.unbound other
      rw [unbound] at kT storing
      by_cases replace : flag = DB_REPLACE
      · rw [if_pos replace]
        simp only [refusal, if_pos replace, early, Option.isSome_some, if_true,
          Option.getD_some, Function.update_self] at kT
        exact wp_unlock_chain kT hit linkT chainoff fun l'' u idleU hiu stat =>
          next (-1) _ l'' u ⟨goodDb.nhash, goodDb.hashoff⟩ idleU hiu stat
      · rw [if_neg replace]
        simp only [refusal, if_neg replace, early, Option.isSome_none, Bool.false_eq_true,
          if_false, todo₁] at kT
        exact wp_bind hit (wp_storeNew goodDb chainoff kT hit linkT unbound
          (storing (by simp [refusal, replace])) int finish)
  | @present l₁ l₂ o r _ split found same at_ buffer =>
      dsimp only
      rw [if_neg (by decide)]
      obtain ⟨d, chunk, -⟩ := hi₁.regions.exists_ found
      have bound : s₁.2.map key.bytes = some d :=
        (ok.content.bound rfl d).mpr ⟨o, r, by simp [split], found, same, chunk⟩
      have foundT := hrt.recAt (hi₂.sees_chain k.holdsW.holds (by simp [lockChain, split])) found
      rw [split] at kT linkT
      rw [bound] at kT storing
      by_cases insert : flag = DB_INSERT
      · rw [if_pos insert]
        simp only [refusal, if_pos insert, early, Option.isSome_some, if_true,
          Option.getD_some, Function.update_self] at kT
        exact wp_unlock_chain kT hit linkT at_.chainoff fun l'' u idleU hiu stat =>
          next 1 _ l'' u ⟨at_.good.nhash, at_.good.hashoff⟩ idleU hiu stat
      · rw [if_neg insert]
        simp only [refusal, if_neg insert, early, Option.isSome_none, Bool.false_eq_true,
          if_false, todo₁] at kT
        exact wp_bind hit (wp_storeOld at_ buffer same kT hit linkT foundT
          (storing (by simp [refusal, insert])) int finish)

end Store

end Minions.Db
