import Minions.Db.Library

/-! What the library is for: a finite map from keys to data.
`Answers op m res m'` says that a call answered with `res` on the map `m` and left `m'`.
-/

namespace Minions.Db

open Minions.Data

/-- The map a database represents. -/
abbrev Bindings := List Byte → Option CString

/-- Bind a key, or unbind it. -/
def Bindings.set (m : Bindings) (key : List Byte) (value : Option CString) : Bindings :=
  fun k => if k = key then value else m k

@[simp] theorem Bindings.set_self (m : Bindings) (key : List Byte) (v : Option CString)
    : m.set key v key = v := by
  simp [Bindings.set]

/-- Other keys keep their bindings. -/
theorem Bindings.set_other (m : Bindings) {key k : List Byte} (v : Option CString)
    (h : k ≠ key)
    : m.set key v k = m k := by
  simp [Bindings.set, h]

/-- The flags that `db_store` accepts. -/
def ValidFlag (flag : Int) : Prop := flag = DB_INSERT ∨ flag = DB_REPLACE ∨ flag = DB_STORE

instance (flag : Int) : Decidable (ValidFlag flag) := by
  unfold ValidFlag
  infer_instance

/-- The answer of `db_fetch`. -/
def Bindings.fetch (m : Bindings) (key : CString) : Res :=
  .data ((m key.bytes).map CString.bytes)

/-- `db_delete` on the map. -/
def Bindings.delete (m : Bindings) (key : CString) : Res × Bindings :=
  match m key.bytes with
  | some _ => (.code 0, m.set key.bytes none)
  | none => (.code (-1), m)

/-- `db_store` on the map. -/
def Bindings.store (m : Bindings) (key data : CString) (flag : Int) : Res × Bindings :=
  if ¬ ValidFlag flag then (.code (-1), m)
  else
    match m key.bytes with
    | some _ =>
        if flag = DB_INSERT then (.code 1, m) else (.code 0, m.set key.bytes (some data))
    | none =>
        if flag = DB_REPLACE then (.code (-1), m) else (.code 0, m.set key.bytes (some data))

/-- One call on the map. A scan may answer with any current binding, or with the end; opening
and closing are not calls on the map.
-/
def Answers (op : Op) (m : Bindings) (res : Res) (m' : Bindings) : Prop :=
  match op with
  | .fetch key => res = m.fetch key ∧ m' = m
  | .delete key => (res, m') = m.delete key
  | .store key data flag => (res, m') = m.store key data flag
  | .rewind => res = .unit ∧ m' = m
  | .nextrec =>
      m' = m
      ∧ ∃ found, res = .record found
          ∧ ∀ k d, found = some (k, d) → (m k).map CString.bytes = some d
  | .open _ _ => False
  | .close => False

end Minions.Db
