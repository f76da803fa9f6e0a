import Minions.Db.Accounts

/-! Files that were opened with `O_APPEND`.
Every write goes to the end of its file, wherever the library has moved the offset, so what the
files held stays at their front. The pointer that a store writes is one of these writes: no chain
leads to the new record, and a fetch finds what it would have found before.
-/

namespace Minions.Db

open Minions.Data Minions.Logic

variable {p : Pid} {α : Type} {l l' l'' : Offsets} {d d' d'' : Disk} {db : DB} {m : Bindings}

/-- How a program ends on files that were opened with or without `O_APPEND`. -/
abbrev YieldsFor (append : Bool) (p : Pid) (prog : M α) (l : Offsets) (d : Disk)
    (out : Prog.Outcome Fatal α) (l' : Offsets) (d' : Disk)
    : Prop :=
  prog.Ends ((kernelFor append).alone p) (l, d) out (l', d')

-----------------------------------------------------------------------------------------
-- What writes leave
-----------------------------------------------------------------------------------------

/-- The second files begin with the first. -/
structure Grown (d d' : Disk) : Prop where
  idx : d.idx.data <+: d'.idx.data
  dat : d.dat.data <+: d'.dat.data

/-- Files that have not changed. -/
theorem Grown.refl (d : Disk) : Grown d d := ⟨List.prefix_rfl, List.prefix_rfl⟩

/-- What is written behind the last byte leaves the front. -/
theorem Grown.write (grown : Grown d d') (fd : Fd) (bytes : List Byte)
    : Grown d
        (d'.setFile fd
          { d'.file fd with
            data := pwrite 0 (d'.file fd).data (d'.file fd).data.length bytes }) := by
  rw [pwrite_end]
  cases fd with
  | idx => exact ⟨grown.idx.trans (List.prefix_append _ _), grown.dat⟩
  | dat => exact ⟨grown.idx, grown.dat.trans (List.prefix_append _ _)⟩

/-- No call but `open` changes what the files begin with. -/
theorem Grown.exec (grown : Grown d d') {c : Call} (may : (lockProtocol False).may c (d'.locks p))
    : Grown d (execAppend p c l d').2.2 := by
  cases c with
  | «open» fd oflag => exact may.elim
  | write fd bytes =>
      have here : (l.move fd (d'.file fd).data.length).at fd = (d'.file fd).data.length :=
        Offsets.move_at l fd _
      simp only [execAppend, execCall, here]
      split
      · exact grown.write fd bytes
      · exact grown
  | lseek fd offset whence =>
      simp only [execAppend, execCall]
      split <;> exact grown
  | _ => exact ⟨grown.idx, grown.dat⟩

/-- A program that only reads ends alike with and without `O_APPEND`. -/
theorem OnlyReads.append {prog : M α} {Q : α → Prop} {out : Prog.Outcome Fatal α}
    (reads : OnlyReads prog Q) (ends : Yields p prog l d out l' d')
    : YieldsFor true p prog l d out l' d' := by
  refine Follows.ends_congr ?_ reads ends
  intro c _ w may
  cases c with
  | write fd bytes => exact may.elim
  | _ => rfl

end Minions.Db
