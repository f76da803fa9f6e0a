import Minions.Db.Appending
import Minions.Db.Storing

/-! What `db_open` with `O_CREAT` leaves, from files that are absent, empty, or hold a database.
The header of the index file is written where the file is truncated as well. Without `O_TRUNC`
the files are made, and stay empty. With `O_EXCL` no file is opened that exists, and with
`O_APPEND` the database takes no store that a fetch would find.
-/

namespace Minions.Db

open Minions.Data Minions.Logic

variable {p : Pid} {l l' : Offsets} {d d' : Disk} {db : DB} {m : Bindings}

-----------------------------------------------------------------------------------------
-- Before and after
-----------------------------------------------------------------------------------------

/-- The files before `db_open`, and the bindings in them: the index file is absent or empty, or
the two files hold a database.
-/
inductive Before (d : Disk) : Bindings → Prop
  | empty (file : d.idx.data = []) : Before d .empty
  | holding {m : Bindings} (represents : Represents d m) : Before d m

/-- A store within the limits of the library: the key is free of the separator, the lengths of
the data and of the index record pass their checks, a pointer to the end of the index file fits
its field, and the flag does not refuse the key.
-/
structure Valid (d : Disk) (m : Bindings) (key data : CString) (flag : Int) : Prop where
  clean : SEP ∉ key.bytes
  storable : Storable data
  fits : Fits key data d.dat.data.length
  room : (d.idx.data.length : Int) ≤ PTR_MAX
  accepted : (m.store key data flag).1 = .code 0

/-- The disk with the files that `db_open` makes anew. -/
def Disk.made (d : Disk) (p : Pid) : Disk :=
  (({ d with idx := ⟨true, emptyHash⟩, dat := ⟨true, []⟩ } : Disk).setLocks p .idx 0 0
    (some .wr)).setLocks p .idx 0 0 none

end Minions.Db
