import Minions.Db.Scan
import Minions.Logic.Soundness

/-! Any number of processes on one database.
Each process has its own handle. The operations, verified one process at a time, make up a
verified family, so in every interleaving the invariant holds and every call takes effect on
the map at one of its steps.
-/

namespace Minions.Db

open Minions.Data Minions.Logic

/-- The processes of a database and the kernel's state. -/
abbrev System := Config Sys Pid Op Res (Option DB) Offsets Disk

/-- What is observed of a run. -/
abbrev History := List (Label Sys Pid Op Res)

variable {scanner : Pid → Prop} {p : Pid} {l : Offsets} {s t : State} {db : DB}
  {mem : Option DB} {op : Op} {res : Res}

/-- The calls that process `p` makes. Scanners run `db_rewind` and `db_nextrec`; the other
processes run `db_fetch`, `db_store` and `db_delete` with keys free of the separator.
-/
def MayInvoke (scanner : Pid → Prop) (p : Pid) : Op → Prop
  | .fetch key => ¬ scanner p ∧ SEP ∉ key.bytes
  | .store key _ _ => ¬ scanner p ∧ SEP ∉ key.bytes
  | .delete key => ¬ scanner p ∧ SEP ∉ key.bytes
  | .rewind => scanner p
  | .nextrec => scanner p
  | .open _ _ => False
  | .close => False

/-- The calls that may abort: a data or index record may be too long, the index file too
large.
-/
def MayAbort : Op → Prop
  | .store _ _ _ => True
  | .delete _ => True
  | _ => False

/-- A process between calls. Scanners stand at a record boundary. -/
structure Resting (scanner : Pid → Prop) (p : Pid) (mem : Option DB) (l : Offsets) (s : State)
    : Prop where
  handle : ∃ db, mem = some db ∧ Good db
  idle : Idle p s
  boundary : scanner p → Boundary s.2.im l.idx

/-- A process at rest stays so while others step. -/
theorem Resting.stable (h : Resting scanner p mem l s) (hr : Rely p s t)
    : Resting scanner p mem l t :=
  ⟨h.handle, h.idle.stable hr, fun scans => (h.boundary scans).stable hr⟩

/-- The status of the processes does not matter to an idle one. -/
theorem Idle.setStat {stat' : Pid → Status} (h : Idle p s)
    : Idle p (s.1, { s.2 with stat := stat' }) :=
  ⟨h.locks, h.only, h.orphan⟩

/-- The status of the processes does not matter to one at rest. -/
theorem Resting.setStat {stat' : Pid → Status} (h : Resting scanner p mem l s)
    : Resting scanner p mem l (s.1, { s.2 with stat := stat' }) :=
  ⟨h.handle, h.idle.setStat, h.boundary⟩

/-- The map and the progress of the processes. -/
def Ghost.view (g : Ghost) : Bindings × (Pid → Status) := (g.map, g.stat)

/-- What `p` knows when the program of `op` has returned. -/
def Returned (scanner : Pid → Prop) (p : Pid) (op : Op) (r : Res × Option DB) (l : Offsets)
    (s : State)
    : Prop :=
  Resting scanner p r.2 l s ∧ s.2.stat p = .done op r.1

-----------------------------------------------------------------------------------------
-- Invoking a call
-----------------------------------------------------------------------------------------

/-- The program of every call, from the moment its invocation has been recorded. -/
theorem wp_opCode (rest : Resting scanner p mem l s) (ok : MayInvoke scanner p op)
    (todo : s.2.stat p = .todo op) (inv : Inv s) (later : ∀ res, ¬ EffectAtInvoke op res)
    : Wp p (MayAbort op) (opCode op mem) (Returned scanner p op) l s := by
  obtain ⟨⟨db, rfl, good⟩, idle, boundary⟩ := rest
  cases op with
  | fetch key =>
      refine wp_bind inv (wp_fetch good idle todo (fun ptr db' l' t good' idle' hit stat => ?_)
        inv)
      exact fun u hru hiu => ⟨⟨⟨db', rfl, good'⟩, idle'.stable hru, fun scans => absurd scans ok.1⟩,
        hru.stat.trans stat⟩
  | store key data flag =>
      have valid : ValidFlag flag := by
        by_contra invalid
        exact later _ ⟨invalid, rfl⟩
      refine wp_bind inv (wp_store good idle todo valid ok.2 inv
        fun rc db' l' t good' idle' hit stat => ?_)
      exact fun u hru hiu => ⟨⟨⟨db', rfl, good'⟩, idle'.stable hru, fun scans => absurd scans ok.1⟩,
        hru.stat.trans stat⟩
  | delete key =>
      refine wp_bind inv (wp_delete good idle todo inv
        fun rc db' l' t good' idle' hit stat => ?_)
      exact fun u hru hiu => ⟨⟨⟨db', rfl, good'⟩, idle'.stable hru, fun scans => absurd scans ok.1⟩,
        hru.stat.trans stat⟩
  | nextrec =>
      refine wp_bind inv (wp_nextrec good idle todo (boundary ok)
        fun found db' l' t good' idle' hit at_ stat => ?_)
      exact fun u hru hiu => ⟨⟨⟨db', rfl, good'⟩, idle'.stable hru, fun _ => at_.stable hru⟩,
        hru.stat.trans stat⟩
  | rewind => exact absurd rfl (later .unit)
  | «open» creat trunc => exact ok.elim
  | close => exact ok.elim

/-- The calls that take effect when they are invoked leave the map alone. -/
theorem answers_early (early : EffectAtInvoke op res) (map : Bindings)
    : Answers op map res map := by
  cases op with
  | rewind => exact ⟨early, rfl⟩
  | store key data flag =>
      obtain ⟨invalid, rfl⟩ := early
      simp [Answers, Bindings.store, invalid]
  | fetch key => exact early.elim
  | delete key => exact early.elim
  | nextrec => exact early.elim
  | «open» creat trunc => exact early.elim
  | close => exact early.elim

/-- The calls that take effect when they are invoked. -/
theorem wp_opCode_early (rest : Resting scanner p mem l s) (ok : MayInvoke scanner p op)
    (done : s.2.stat p = .done op res) (inv : Inv s) (early : EffectAtInvoke op res)
    : Wp p (MayAbort op) (opCode op mem) (Returned scanner p op) l s := by
  obtain ⟨⟨db, rfl, good⟩, idle, boundary⟩ := rest
  cases op with
  | rewind =>
      obtain rfl : res = .unit := early
      refine wp_bind inv (wp_rewind good fun db' t good' hrt hit => ?_)
      exact fun u hru hiu => ⟨⟨⟨db', rfl, good'⟩, idle.stable (hrt.trans hru), fun _ => Or.inl rfl⟩,
        (hrt.trans hru).stat.trans done⟩
  | store key data flag =>
      obtain ⟨invalid, rfl⟩ := early
      have refused : flag ≠ DB_INSERT ∧ flag ≠ DB_REPLACE ∧ flag ≠ DB_STORE :=
        ⟨fun eq => invalid (Or.inl eq), fun eq => invalid (Or.inr (Or.inl eq)),
          fun eq => invalid (Or.inr (Or.inr eq))⟩
      have code : opCode (.store key data flag) (some db)
          = .ret (.code (-1), some { db with errno := EINVAL }) := by
        simp [opCode, dbStore, refused]
      rw [code]
      exact fun u hru hiu => ⟨⟨⟨_, rfl, good.nhash, good.hashoff⟩, idle.stable hru,
        fun scans => absurd scans ok.1⟩, hru.stat.trans done⟩
  | fetch key => exact early.elim
  | delete key => exact early.elim
  | nextrec => exact early.elim
  | «open» creat trunc => exact early.elim
  | close => exact early.elim

/-- The library as a verified family of operations. -/
def clients (scanner : Pid → Prop)
    : Verified kernel opCode (MayInvoke scanner) discipline where
  mayAbort := MayAbort
  idle p mem l s := Resting scanner p mem l s ∧ s.2.stat p = .quiet
  post := Returned scanner
  onInvoke p op g g' := Tracks behavior (.invoke p op) g.view g'.view
  onRespond p op res g g' := Tracks behavior (.respond p op res) g.view g'.view
  idle_stable := fun h hr _ => ⟨h.1.stable hr, hr.stat.trans h.2⟩
  invoke := by
    intro p op mem l s ok known inv
    obtain ⟨rest, quiet⟩ := known
    by_cases early : ∃ res, EffectAtInvoke op res
    · obtain ⟨res, early⟩ := early
      refine ⟨{ s.2 with stat := Function.update s.2.stat p (.done op res) }, inv.setStat _,
        fun q ne => rely_setStat (fun q ne => Function.update_of_ne ne _ _) ne,
        ⟨quiet, Or.inr ⟨res, ⟨answers_early early s.2.map, rfl⟩, early⟩⟩, ?_⟩
      exact wp_opCode_early rest.setStat ok (Function.update_self _ _ _) (inv.setStat _) early
    · refine ⟨{ s.2 with stat := Function.update s.2.stat p (.todo op) }, inv.setStat _,
        fun q ne => rely_setStat (fun q ne => Function.update_of_ne ne _ _) ne,
        ⟨quiet, Or.inl rfl⟩, ?_⟩
      exact wp_opCode rest.setStat ok (Function.update_self _ _ _) (inv.setStat _)
        (not_exists.mp early)
  respond := by
    intro p op res mem l s known inv
    obtain ⟨rest, done⟩ := known
    exact ⟨{ s.2 with stat := Function.update s.2.stat p .quiet }, inv.setStat _,
      fun q ne => rely_setStat (fun q ne => Function.update_of_ne ne _ _) ne,
      ⟨done, rfl⟩, rest.setStat, Function.update_self _ _ _⟩

end Minions.Db
