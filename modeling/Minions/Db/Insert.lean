import Minions.Db.Delete

/-! The insertion paths of `db_store`: a record is given its data and its key while no list
refers to it, and is then linked at the front of its chain. The store takes effect when its
index record is written, or when its data overwrites data of the same length.
-/

namespace Minions.Db

open Minions.Data Minions.Logic

variable {p : Pid} {l : Offsets} {s t : State} {db : DB} {h o : Nat} {list : List Nat}
  {shown bound : Bindings} {stat : Status} {r : Rec} {d : CString}

-----------------------------------------------------------------------------------------
-- Linking a record
-----------------------------------------------------------------------------------------

/-- What the chain shows with one more record. -/
theorem Shows.insert {im : Image} (content : Shows im h list shown)
    (found : im.recAt o = some r) (chunk : im.chunkAt r.datoff = some d)
    (absent : ∀ {x y}, x ∈ list → im.recAt x = some y → y.key ≠ r.key)
    : Shows im h (o :: list) (shown.set r.key (some d)) := by
  refine ⟨?_, fun {key} hashed d' => ?_⟩
  · intro x x' y y' mem mem' at_ at' same
    rcases List.mem_cons.mp mem with rfl | later <;>
      rcases List.mem_cons.mp mem' with rfl | later'
    · rfl
    · obtain rfl : r = y := Option.some.inj (found.symm.trans at_)
      exact absurd same.symm (absent later' at')
    · obtain rfl : r = y' := Option.some.inj (found.symm.trans at')
      exact absurd same (absent later at_)
    · exact content.distinct later later' at_ at' same
  · by_cases same : key = r.key
    · subst same
      rw [Bindings.set_self]
      constructor
      · intro eq
        exact ⟨o, r, by simp, found, rfl, by rw [chunk, eq]⟩
      · rintro ⟨x, y, member, at_, eq, chunk'⟩
        rcases List.mem_cons.mp member with rfl | later
        · obtain rfl : r = y := Option.some.inj (found.symm.trans at_)
          rw [← chunk, chunk']
        · exact absurd eq (absent later at_)
    · rw [Bindings.set_other _ _ same, content.bound hashed]
      constructor
      · rintro ⟨x, y, member, rest⟩
        exact ⟨x, y, List.mem_cons_of_mem _ member, rest⟩
      · rintro ⟨x, y, member, at_, eq, chunk'⟩
        rcases List.mem_cons.mp member with rfl | later
        · obtain rfl : r = y := Option.some.inj (found.symm.trans at_)
          exact absurd eq.symm same
        · exact ⟨x, y, later, at_, eq, chunk'⟩

/-- Linking the record at `o` at the front of chain `h`. -/
theorem push_chain {T : Locks} {q old : Ptr}
    (k : Knows p T h list shown (shown.set r.key (some d)) [o] none stat s) (inv : Inv s)
    (linked : Linked s.2.im.next (chainSlot h) list) (mine : Mine p o r d s)
    (hashed : hash r.key = h) (unbound : shown r.key = none)
    (first : r.ptr.val = list.headD 0) (value : q.val = o)
    (cell : s.2.im.cell (chainSlot h) = some old)
    : ∃ g, g.im = s.2.im.setCell (chainSlot h) q ∧ g.map = s.2.map ∧ g.stat = s.2.stat
        ∧ Allowed p s g
        ∧ Knows p T h (o :: list) (shown.set r.key (some d)) (shown.set r.key (some d)) []
            none stat (s.1.put g.im, g)
        ∧ Linked g.im.next (chainSlot h) (o :: list) := by
  have noSlot : ∀ {x y}, s.2.im.recAt x = some y → x ≠ chainSlot h := by
    rintro x y found rfl
    simp [s.2.im.recAt_chainSlot k.lt] at found
  have offChain := mine.off_chain inv.members
  have offFree := mine.off_free inv.members
  have offList : o ∉ list := by
    rw [← k.list_]
    exact offChain h
  have allowed := allowed_setCell (p := p) (v := q) (.chain h)
    (Function.update s.2.chain h (o :: list)) s.2.free inv cell mine.found
    (fun y found => absurd rfl (noSlot found)) mine.owns
    (fun c lt => by
      by_cases same : c = h
      · exact Or.inl (same ▸ k.holdsW)
      · exact Or.inr ⟨Function.update_of_ne same _ _, fun eq => same (chainSlot_inj eq)⟩)
    (Or.inr ⟨rfl, (chainSlot_ne_free h).symm⟩) (fun _ eq => by cases eq)
    (fun c x => by
      by_cases same : c = h
      · subst same
        rw [Function.update_self, k.list_]
        by_cases eq : x = o <;> simp [eq]
      · rw [Function.update_of_ne same]
        exact mem_iff_ite (offChain c) (by simp [Ne.symm same]))
    (fun x => mem_iff_ite offFree nofun)
    ⟨hashed, fun _ => by rw [k.map hashed, Bindings.set_self, mine.chunk]⟩
  refine ⟨{ s.2 with
      im := s.2.im.setCell (chainSlot h) q
      own := Function.update s.2.own o (.chain h)
      chain := Function.update s.2.chain h (o :: list)
      free := s.2.free }, rfl, rfl, rfl, allowed, ?_, ?_⟩
  · refine ⟨k.lt, k.held, k.locks, Function.update_self _ _ _, ?_, k.map, ?_, k.orphan_,
      k.stat_⟩
    · refine Shows.setCell ?_ ?_ cell
      · refine k.content.insert mine.found mine.chunk fun {x y} member at_ same => ?_
        exact k.absent inv (by rw [same]; exact hashed) (by rw [same]; exact unbound) at_ member
      · intro x member
        rcases List.mem_cons.mp member with rfl | later
        · exact ⟨r, mine.found⟩
        · exact k.alive inv later
    · intro x y at_ own
      by_cases same : x = o
      · simp [same] at own
      · simp only [Function.update_of_ne same] at own
        obtain ⟨y', before⟩ := (Image.alive_setCell cell q x).mp ⟨y, at_⟩
        exact absurd (List.mem_singleton.mp (k.only before own)) same
  · refine linked.push ?_ ?_ ?_ ?_ ?_
    · simp [noSlot mine.found, offList]
    · have pos := Image.recAt_pos mine.found
      omega
    · rw [Image.next_setCell cell, if_pos rfl, value]
    · rw [Image.next_setCell cell, if_neg (noSlot mine.found), Image.next_rec mine.found,
        linked.next_entry, first]
    · intro b member
      obtain ⟨y, found⟩ := k.alive inv member
      rw [Image.next_setCell cell, if_neg (noSlot found)]

/-- The last write of an insertion. -/
theorem wp_link {Q : Unit → Offsets → State → Prop}
    (k : Knows p (chainLock h .wr) h list shown (shown.set r.key (some d)) [o] none stat s)
    (inv : Inv s) (linked : Linked s.2.im.next (chainSlot h) list) (mine : Mine p o r d s)
    (hashed : hash r.key = h) (unbound : shown r.key = none)
    (first : r.ptr.val = list.headD 0)
    (next : ∀ l' t,
      Knows p (chainLock h .wr) h (o :: list) (shown.set r.key (some d))
        (shown.set r.key (some d)) [] none stat t
      → Inv t → Linked t.2.im.next (chainSlot h) (o :: list) → Q () l' t)
    : Wp p True (dbWriteptr (chainSlot h) o) Q l s := by
  refine wp_writeptr (fun u hru hiu => ?_) fun u hru hiu q value => ?_
  · exact .slot k.lt (k.stable inv hru).holdsW
  · have link₁ := k.linked_stable inv hru linked
    obtain ⟨old, cell, -⟩ := Image.cell_of_next link₁.next_entry
    obtain ⟨g, im, map, stats, allowed, k₂, link₂⟩ :=
      push_chain (q := q) (k.stable inv hru) hiu link₁ (mine.stable hru) hashed unbound first
        (by omega) cell
    exact ⟨g, old, cell, im, allowed, map, stats, fun t hrt hit =>
      next _ t (k₂.stable allowed.1 hrt) hit (k₂.linked_stable allowed.1 hrt link₂)⟩

-----------------------------------------------------------------------------------------
-- Taking effect
-----------------------------------------------------------------------------------------

/-- What a call of `db_store` needs to be allowed to change the map: its arguments can be
written, and it answers 0 wherever `key` is bound as in `m`.
-/
structure Storing (key data : CString) (flag : Int) (m : Bindings) : Prop where
  sep : SEP ∉ key.bytes
  length : toInt (data.bytes.length + 1 : Nat) ≤ DATLEN_MAX
  answers : ∀ map : Bindings, map key.bytes = m key.bytes
    → Answers (.store key data flag) map (.code 0) (map.set key.bytes (some data))

section Store

variable {key data : CString} {flag : Int}

/-- The key of a store has neither null characters nor separators. -/
theorem Storing.keyOk (storing : Storing key data flag bound)
    : ∀ b ∈ key.bytes, b ≠ 0 ∧ b ≠ SEP := by
  refine fun b member => ⟨?_, ?_⟩
  · rintro rfl
    exact key.noNull member
  · rintro rfl
    exact storing.sep member

/-- Data that an `int` can count is within the bound. -/
theorem Storing.short (storing : Storing key data flag bound)
    (small : data.bytes.length + 1 ≤ INT_MAX)
    : data.bytes.length + 1 ≤ DATLEN_MAX := by
  have length := storing.length
  rw [toInt_natCast small] at length
  exact_mod_cast length

/-- The map and the progress of `p` once its store has taken effect. -/
def stored (p : Pid) (key data : CString) (flag : Int) (g : Ghost) : Pid → Status :=
  Function.update g.stat p (.done (.store key data flag) (.code 0))

/-- The store takes effect with the call that binds its key. -/
theorem Storing.effect {mine : List Nat} {orphan : Option Nat} {T : Locks} {c : Call}
    (storing : Storing key data flag bound) (hashed : hash key.bytes = h)
    (k : Knows p T h list shown bound mine orphan (.todo (.store key data flag)) s)
    (at_ : EffectAt (.store key data flag) (.code 0) c) {g : Ghost}
    (map : g.map = s.2.map.set key.bytes (some data))
    (progress : g.stat = stored p key data flag s.2)
    : Effect p c s.2 g := by
  refine Or.inr ⟨_, _, k.stat_, ?_, progress, at_⟩
  rw [map]
  exact storing.answers s.2.map (k.map hashed)

/-- The bindings of the chain once the store has taken effect. -/
theorem Knows.bound_set {mine : List Nat} {orphan : Option Nat} {T : Locks}
    (k : Knows p T h list shown bound mine orphan stat s)
    (agree : ∀ k, k ≠ key.bytes → bound k = shown k) {x : List Byte} (hashed : hash x = h)
    : (s.2.map.set key.bytes (some data)) x = (shown.set key.bytes (some data)) x := by
  by_cases same : x = key.bytes
  · simp [same]
  · rw [Bindings.set_other _ _ same, Bindings.set_other _ _ same, k.map hashed, agree x same]

/-- The store leaves the bindings of the other records alone, where no record of the chain has
the key.
-/
theorem Knows.others_set {mine : List Nat} {orphan : Option Nat} {T : Locks}
    (k : Knows p T h list shown bound mine orphan stat s) (inv : Inv s)
    (hashed : hash key.bytes = h) (unbound : shown key.bytes = none) {x : Nat} {y : Rec}
    (found : s.2.im.recAt x = some y) (nonblank : ¬ Blank y.key) (other : x ∉ mine)
    : (s.2.map.set key.bytes (some data)) y.key = s.2.map y.key := by
  refine Bindings.set_other _ _ fun same => ?_
  have hashedY : hash y.key = h := by rw [same]; exact hashed
  rcases k.sole inv hashedY found nonblank with onChain | own
  · exact k.absent inv hashedY (by rw [same]; exact unbound) found onChain
  · exact other own

/-- A binding that is set changes its own key only. -/
theorem Knows.maps_set {mine : List Nat} {orphan : Option Nat} {T : Locks}
    (k : Knows p T h list shown bound mine orphan stat s) (hashed : hash key.bytes = h)
    (x : List Byte)
    : (s.2.map.set key.bytes (some data)) x = s.2.map x ∨ HoldsW s p (chainSlot (hash x)) := by
  by_cases same : x = key.bytes
  · right
    rw [same, hashed]
    exact k.holdsW
  · exact Or.inl (Bindings.set_other _ _ same)

/-- The end of both insertions: the record is linked, and the caller's result is returned. -/
theorem wp_link_ret {f : DB → DB} {Q : DB → Offsets → State → Prop}
    (k : Knows p (chainLock h .wr) h list shown (shown.set key.bytes (some data)) [o] none
      (.done (.store key data flag) (.code 0)) s)
    (inv : Inv s) (linked : Linked s.2.im.next (chainSlot h) list) (mine : Mine p o r data s)
    (hkey : r.key = key.bytes) (hashed : hash key.bytes = h) (unbound : shown key.bytes = none)
    (first : r.ptr.val = list.headD 0) (good : Good db) (chainoff : db.chainoff = chainSlot h)
    (idxoff : db.idxoff = (o : Nat))
    (next : ∀ o db' l' t,
      Knows p (chainLock h .wr) h (o :: list) (shown.set key.bytes (some data))
        (shown.set key.bytes (some data)) [] none (.done (.store key data flag) (.code 0)) t
      → Inv t → Linked t.2.im.next (chainSlot h) (o :: list) → Good db'
      → db'.chainoff = chainSlot h → Q (f db') l' t)
    : Wp p True ((dbWriteptr db.chainoff db.idxoff).bind fun _ => .ret (f db)) Q l s := by
  rw [← hkey] at k hashed unbound next
  rw [chainoff, idxoff]
  refine wp_bind inv (wp_link k inv linked mine hashed unbound first
    fun l'' t k' hit linked' => ?_)
  intro u hru hiu
  exact next _ _ _ u (k'.stable hit hru) hiu (k'.linked_stable hit hru linked') good chainoff

-----------------------------------------------------------------------------------------
-- Appending
-----------------------------------------------------------------------------------------

/-- Appending the index record, by which the store takes effect. -/
theorem adopt_rec {T : Locks} {c : Nat} (inv : Inv s)
    (k : Knows p T h list shown bound [] (some c) (.todo (.store key data flag)) s)
    (agree : ∀ k, k ≠ key.bytes → bound k = shown k) (chunk : s.2.im.chunkAt c = some data)
    (datoff : r.datoff = c)
    : ∃ g, g = s.2.adopt p r (s.2.map.set key.bytes (some data)) (stored p key data flag s.2)
        ∧ Keeps h s.2 g
        ∧ Knows p T h list shown (shown.set key.bytes (some data)) [s.2.im.idx.length] none
            (.done (.store key data flag) (.code 0)) (s.1.put g.im, g)
        ∧ Mine p s.2.im.idx.length r data (s.1.put g.im, g) := by
  have keeps : Keeps h s.2
      (s.2.adopt p r (s.2.map.set key.bytes (some data)) (stored p key data flag s.2)) :=
    .addRec rfl rfl k.lt
  refine ⟨_, rfl, keeps, ?_, ?_⟩
  · refine k.step inv keeps k.locks k.held (k.bound_set agree) ?_ ?_ ?_
    · intro x y found own
      by_cases here : x = s.2.im.idx.length
      · simp [here]
      · simp only [Ghost.adopt, Function.update_of_ne here] at own
        simp only [Ghost.adopt, Image.recAt_addRec, if_neg here] at found
        exact absurd (k.only found own) List.not_mem_nil
    · simp [Ghost.adopt]
    · simp [Ghost.adopt, stored]
  · refine ⟨?_, by simp [Ghost.adopt], ?_⟩
    · simp [Ghost.adopt, Image.recAt_addRec]
    · rw [datoff]
      exact chunk

/-- The data and the index record are appended, and the record is linked. -/
theorem wp_append {f : DB → DB} {ptrval : Int} {Q : DB → Offsets → State → Prop}
    (good : Good db) (chainoff : db.chainoff = chainSlot h)
    (k : Knows p (chainLock h .wr) h list shown bound [] none (.todo (.store key data flag)) s)
    (inv : Inv s) (linked : Linked s.2.im.next (chainSlot h) list)
    (hashed : hash key.bytes = h) (unbound : shown key.bytes = none)
    (agree : ∀ k, k ≠ key.bytes → bound k = shown k) (storing : Storing key data flag bound)
    (first : ptrval = (list.headD 0 : Nat))
    (next : ∀ o db' l' t,
      Knows p (chainLock h .wr) h (o :: list) (shown.set key.bytes (some data))
        (shown.set key.bytes (some data)) [] none (.done (.store key data flag) (.code 0)) t
      → Inv t → Linked t.2.im.next (chainSlot h) (o :: list) → Good db'
      → db'.chainoff = chainSlot h → Q (f db') l' t)
    : Wp p True
        ((dbWritedat db data.bytes 0 .end).bind fun db =>
          (dbWriteidx db key.bytes 0 .end ptrval).bind fun db =>
            (dbWriteptr db.chainoff db.idxoff).bind fun _ => .ret (f db)) Q l s := by
  have freshDat : ∀ b, s.1.locks p .dat b = none := by
    intro b
    rw [k.locks]
    simp
  refine wp_bind inv
    (wp_writedat_end (by rw [k.stat_]; trivial) freshDat k.orphan_
      fun small u hru hiu room hi₁ l₁ t hrt hit => ?_)
  have kU := k.stable inv hru
  have keeps₁ : Keeps h u.2 (u.2.addOrphan p data) := .addChunk hiu.regions rfl rfl
  have k₁ : Knows p (chainLock h .wr) h list shown bound [] (some u.2.im.dat.length)
      (.todo (.store key data flag)) (u.1.put (u.2.im.addChunk data), u.2.addOrphan p data) :=
    kU.step hiu keeps₁ kU.locks kU.held kU.map kU.only (by simp [Ghost.addOrphan]) kU.stat_
  have link₁ := kU.linked_keeps hiu keeps₁ (k.linked_stable inv hru linked)
  have chunk₁ : (u.2.addOrphan p data).im.chunkAt u.2.im.dat.length = some data := by
    simp [Ghost.addOrphan, Image.chunkAt_addChunk]
  have writable : Writable
      { db with datoff := (u.2.im.dat.length : Int), datlen := data.bytes.length + 1 }
      key.bytes u.2.im.dat.length :=
    ⟨storing.keyOk, rfl, by omega, Nat.succ_pos _, storing.short small⟩
  have freshIdx : ∀ b, RECS_OFF ≤ b → t.1.locks p .idx b = none := by
    intro b high
    rw [hrt.locks, k₁.locks]
    exact chainLock_tail k.lt .wr high
  have stat₁ : t.2.stat p = .todo (.store key data flag) := hrt.stat.trans k₁.stat_
  refine wp_bind hit (wp_writeidx_end good.nhash writable (by rw [stat₁]; trivial) freshIdx ?_)
  intro r hkey hoff hlen hval u₂ hru₂ hiu₂
  have all := hrt.trans hru₂
  have k₂ := k₁.stable hi₁ all
  have link₂ := k₁.linked_stable hi₁ all link₁
  have chunk₂ : u₂.2.im.chunkAt u.2.im.dat.length = some data :=
    (all.orphanChunk k₁.orphan_).trans chunk₁
  refine ⟨data, u₂.2.map.set key.bytes (some data), stored p key data flag u₂.2, k₂.orphan_,
    chunk₂, rfl, k₂.maps_set hashed, ?_, fun q ne => Function.update_of_ne ne _ _, ?_, ?_, ?_⟩
  · intro x y found nonblank
    exact k₂.others_set hiu₂ hashed unbound found nonblank List.not_mem_nil
  · exact fun _ => ⟨by rw [hashed]; exact k₂.holdsW, Or.inl (Bindings.set_self _ _ _)⟩
  · intro g map progress
    exact storing.effect hashed k₂ (fun _ => Or.inl ⟨r, rfl, hkey⟩) map progress
  · intro hi₃ l' t₃ hr₃ hit₃
    obtain ⟨g, rfl, keeps₃, k₃, mine⟩ := adopt_rec hiu₂ k₂ agree chunk₂ hoff
    have link₃ := k₂.linked_keeps hiu₂ keeps₃ link₂
    exact wp_link_ret (k₃.stable hi₃ hr₃) hit₃ (k₃.linked_stable hi₃ hr₃ link₃) (mine.stable hr₃)
      hkey hashed unbound (by omega) ⟨good.nhash, good.hashoff⟩ chainoff rfl next

-----------------------------------------------------------------------------------------
-- Reusing a free record
-----------------------------------------------------------------------------------------

/-- Writing the data of a record that belongs to `p`. -/
theorem fill_data {T : Locks} {d' : CString} (inv : Inv s)
    (k : Knows p T h list shown bound [o] none stat s) (mine : Mine p o r d s)
    (blank : Blank r.key) (same : d'.bytes.length = d.bytes.length)
    : ∃ g, g.im = s.2.im.setChunk r.datoff d' ∧ g.map = s.2.map ∧ g.stat = s.2.stat
        ∧ Allowed p s g ∧ Keeps h s.2 g
        ∧ Knows p T h list shown bound [o] none stat (s.1.put g.im, g)
        ∧ Mine p o r d' (s.1.put g.im, g) := by
  have offChain := mine.off_chain inv.members
  have offFree := mine.off_free inv.members
  have allowed := allowed_setChunk (.proc p) s.2.chain s.2.map s.2.stat inv mine.found
    mine.chunk same mine.owns (fun q eq => (Owner.proc.inj eq).symm) (fun _ => Or.inr rfl)
    (fun c x => mem_iff_ite (offChain c) nofun) (fun x => mem_iff_ite offFree nofun)
    (fun _ => Or.inl rfl) (fun _ _ _ => rfl) (fun _ _ => rfl)
    (fun nonblank => absurd blank nonblank)
  have keeps : Keeps h s.2
      { s.2 with
        im := s.2.im.setChunk r.datoff d'
        own := Function.update s.2.own o (.proc p) } :=
    .setChunk inv.regions mine.found mine.chunk same rfl rfl (offChain h)
  refine ⟨{ s.2 with
      im := s.2.im.setChunk r.datoff d'
      own := Function.update s.2.own o (.proc p) }, rfl, rfl, rfl, allowed, keeps, ?_, ?_⟩
  · refine k.step inv keeps k.locks k.held k.map ?_ k.orphan_ k.stat_
    intro x y found own
    by_cases eq : x = o
    · simp [eq]
    · simp only [Function.update_of_ne eq] at own
      exact k.only found own
  · refine ⟨mine.found, by simp, ?_⟩
    simp only [Image.chunkAt_setChunk mine.chunk same, if_true]

/-- Writing the key and the sizes of a record that belongs to `p`, by which the store takes
effect.
-/
theorem fill_rec {T : Locks} {r' : Rec} (inv : Inv s)
    (k : Knows p T h list shown shown [o] none (.todo (.store key data flag)) s)
    (mine : Mine p o r data s) (blank : Blank r.key)
    (shape : r.SameShape r') (hkey : r'.key = key.bytes) (hashed : hash key.bytes = h)
    (unbound : shown key.bytes = none)
    : ∃ g, g.im = s.2.im.setRec o r' ∧ g.map = s.2.map.set key.bytes (some data)
        ∧ g.stat = stored p key data flag s.2 ∧ Allowed p s g ∧ Keeps h s.2 g
        ∧ Knows p T h list shown (shown.set key.bytes (some data)) [o] none
            (.done (.store key data flag) (.code 0)) (s.1.put g.im, g)
        ∧ Mine p o r' data (s.1.put g.im, g) := by
  have datoff : r'.datoff = r.datoff := shape.2.1
  have allowed := allowed_setRec (s.2.map.set key.bytes (some data))
    (stored p key data flag s.2) inv mine.found shape mine.own
    (fun nonblank => absurd blank nonblank) (k.maps_set hashed)
    (fun apart found nonblank =>
      k.others_set inv hashed unbound found nonblank (List.mem_singleton.not.mpr apart))
    (fun q ne => Function.update_of_ne ne _ _)
    (fun _ => by
      rw [hkey, hashed, datoff]
      exact ⟨k.holdsW, Or.inl (by rw [Bindings.set_self, mine.chunk])⟩)
  have keeps : Keeps h s.2
      { s.2 with
        im := s.2.im.setRec o r'
        map := s.2.map.set key.bytes (some data)
        stat := stored p key data flag s.2 } :=
    .setRec mine.found shape rfl rfl k.lt (mine.off_chain inv.members h)
  refine ⟨{ s.2 with
      im := s.2.im.setRec o r'
      map := s.2.map.set key.bytes (some data)
      stat := stored p key data flag s.2 }, rfl, rfl, rfl, allowed, keeps, ?_, ?_⟩
  · refine k.step inv keeps k.locks k.held (k.bound_set fun _ _ => rfl) ?_ k.orphan_ ?_
    · intro x y found own
      obtain ⟨y', before⟩ := (Image.alive_setRec mine.found shape x).mp ⟨y, found⟩
      exact k.only before own
    · simp [stored]
  · refine ⟨?_, mine.own, ?_⟩
    · simp only [Image.recAt_setRec mine.found shape, if_true]
    · simp only [Image.chunkAt_setRec, datoff, mine.chunk]

/-- The data and the index record are written over a free record of the same sizes, and the
record is linked. The sizes are those that an `int` makes of the lengths; a length that it cannot
count is refused by the write of the data, or by the check of the index record.
-/
theorem wp_reuse {f : DB → DB} {ptrval : Int} {Q : DB → Offsets → State → Prop}
    (at_ : AtFree db (chainSlot h) o r)
    (k : Knows p (chainLock h .wr) h list shown shown [o] none
      (.todo (.store key data flag)) s)
    (inv : Inv s) (linked : Linked s.2.im.next (chainSlot h) list) (mine : Mine p o r d s)
    (blank : Blank r.key) (keylen : r.key.length = sizeT (toInt key.bytes.length))
    (datlen : r.datlen = sizeT (toInt (data.bytes.length + 1 : Nat)))
    (hashed : hash key.bytes = h) (unbound : shown key.bytes = none)
    (storing : Storing key data flag shown) (first : ptrval = (list.headD 0 : Nat))
    (next : ∀ o db' l' t,
      Knows p (chainLock h .wr) h (o :: list) (shown.set key.bytes (some data))
        (shown.set key.bytes (some data)) [] none (.done (.store key data flag) (.code 0)) t
      → Inv t → Linked t.2.im.next (chainSlot h) (o :: list) → Good db'
      → db'.chainoff = chainSlot h → Q (f db') l' t)
    : Wp p True
        ((dbWritedat db data.bytes db.datoff .set).bind fun db =>
          (dbWriteidx db key.bytes db.idxoff .set ptrval).bind fun db =>
            (dbWriteptr db.chainoff db.idxoff).bind fun _ => .ret (f db)) Q l s := by
  have length : data.bytes.length + 1 ≤ INT_MAX → ∀ {u : State}, Inv u → ∀ {x}, Mine p o r x u
      → data.bytes.length = x.bytes.length := by
    intro small u hiu x mineU
    rw [sizeT_toInt small] at datlen
    obtain ⟨y, chunk, size⟩ := hiu.regions.exists_ mineU.found
    obtain rfl : x = y := Option.some.inj (mineU.chunk.symm.trans chunk)
    omega
  rw [at_.datoff]
  refine wp_bind inv (wp_writedat_set (by rw [k.stat_]; trivial) (fun small u hru hiu => ?_)
    fun small u hru hiu => ?_)
  · rw [← sizeT_toInt small, ← datlen]
    exact .chunk (mine.stable hru).found (mine.stable hru).owns
  have mineU := mine.stable hru
  obtain ⟨g₁, im₁, map₁, stat₁, allowed₁, keeps₁, k₁, mine₁⟩ :=
    fill_data hiu (k.stable inv hru) mineU blank (length small hiu mineU)
  refine ⟨g₁, d, mineU.chunk, length small hiu mineU, im₁, allowed₁, Or.inl ⟨map₁, stat₁⟩,
    fun t hrt hit => ?_⟩
  have link₁ := (k.stable inv hru).linked_keeps hiu keeps₁ (k.linked_stable inv hru linked)
  have writable : Writable
      { db with
        idxoff := (o : Int), datoff := (r.datoff : Int), datlen := data.bytes.length + 1 }
      key.bytes r.datoff :=
    ⟨storing.keyOk, rfl, r.datoffMax, Nat.succ_pos _, storing.short small⟩
  show Wp p True ((dbWriteidx _ key.bytes db.idxoff .set ptrval).bind _) _ _ _
  rw [at_.idxoff]
  have stat₂ : t.2.stat p = .todo (.store key data flag) := hrt.stat.trans k₁.stat_
  refine wp_bind hit (wp_writeidx_set writable (by rw [stat₂]; trivial) ?_)
  intro r' hkey hoff hlen hval u₂ hru₂ hiu₂
  have all := hrt.trans hru₂
  have k₂ := k₁.stable allowed₁.1 all
  have mine₂ := mine₁.stable all
  have short : key.bytes.length ≤ INT_MAX := by
    rw [← hkey]
    exact r'.key_small
  rw [sizeT_toInt short] at keylen
  rw [sizeT_toInt small] at datlen
  have shape : r.SameShape r' := ⟨by rw [hkey, keylen], hoff, by rw [datlen]; exact hlen⟩
  refine ⟨.record mine₂.found mine₂.owns (by rw [shape.enc_length]), ?_⟩
  obtain ⟨g₂, im₂, map₂, progress₂, allowed₂, keeps₂, k₃, mine₃⟩ :=
    fill_rec hiu₂ k₂ mine₂ blank shape hkey hashed unbound
  refine ⟨g₂, r, mine₂.found, shape, im₂, allowed₂,
    storing.effect hashed k₂ (fun _ => Or.inl ⟨r', rfl, hkey⟩) map₂ progress₂,
    fun t₃ hr₃ hit₃ => ?_⟩
  have link₃ := k₂.linked_keeps hiu₂ keeps₂ (k₁.linked_stable allowed₁.1 all link₁)
  exact wp_link_ret (k₃.stable allowed₂.1 hr₃) hit₃ (k₃.linked_stable allowed₂.1 hr₃ link₃)
    (mine₃.stable hr₃) hkey hashed unbound (by omega) ⟨at_.good.nhash, at_.good.hashoff⟩
    at_.chainoff rfl next

-----------------------------------------------------------------------------------------
-- Overwriting data of the same length
-----------------------------------------------------------------------------------------

/-- What the chain shows after the data of one of its records is overwritten. -/
theorem Shows.overwrite {g : Ghost} {d' : CString} (content : Shows g.im h list shown)
    (regions : Regions g) (member : o ∈ list) (found : g.im.recAt o = some r)
    (chunk : g.im.chunkAt r.datoff = some d) (same : d'.bytes.length = d.bytes.length)
    : Shows (g.im.setChunk r.datoff d') h list (shown.set r.key (some d')) := by
  have chunkOf : ∀ {x y}, g.im.recAt x = some y → x ≠ o
      → (g.im.setChunk r.datoff d').chunkAt y.datoff = g.im.chunkAt y.datoff := by
    intro x y at_ apart
    have differs : y.datoff ≠ r.datoff := fun eq => apart (regions.unique at_ found eq)
    rw [Image.chunkAt_setChunk chunk same, if_neg differs]
  have new : (g.im.setChunk r.datoff d').chunkAt r.datoff = some d' := by
    rw [Image.chunkAt_setChunk chunk same, if_pos rfl]
  refine ⟨content.distinct, fun {key} hashed e => ?_⟩
  by_cases here : key = r.key
  · subst here
    rw [Bindings.set_self]
    constructor
    · intro eq
      exact ⟨o, r, member, found, rfl, new.trans eq⟩
    · rintro ⟨x, y, mem, at_, key, chunk'⟩
      obtain rfl := content.distinct mem member at_ found key
      obtain rfl : r = y := Option.some.inj (found.symm.trans at_)
      exact new.symm.trans chunk'
  · rw [Bindings.set_other _ _ here, content.bound hashed]
    constructor
    · rintro ⟨x, y, mem, at_, key, chunk'⟩
      have apart : x ≠ o := by
        rintro rfl
        obtain rfl : r = y := Option.some.inj (found.symm.trans at_)
        exact here key.symm
      exact ⟨x, y, mem, at_, key, (chunkOf at_ apart).trans chunk'⟩
    · rintro ⟨x, y, mem, at_, key, chunk'⟩
      have apart : x ≠ o := by
        rintro rfl
        obtain rfl : r = y := Option.some.inj (found.symm.trans at_)
        exact here key.symm
      exact ⟨x, y, mem, at_, key, (chunkOf at_ apart).symm.trans chunk'⟩

/-- The data is written over the data of the record that was found. -/
theorem wp_overwrite {f : DB → DB} {Q : DB → Offsets → State → Prop} {prev : Nat}
    (at_ : AtRecord db h prev o r) (same : r.key = key.bytes)
    (k : Knows p (chainLock h .wr) h list shown shown [] none (.todo (.store key data flag)) s)
    (inv : Inv s) (linked : Linked s.2.im.next (chainSlot h) list) (member : o ∈ list)
    (found : s.2.im.recAt o = some r) (hashed : hash key.bytes = h)
    (length : sizeT (toInt (data.bytes.length + 1 : Nat)) = r.datlen)
    (storing : Storing key data flag shown)
    (next : ∀ db' l' t,
      Knows p (chainLock h .wr) h list (shown.set key.bytes (some data))
        (shown.set key.bytes (some data)) [] none (.done (.store key data flag) (.code 0)) t
      → Inv t → Linked t.2.im.next (chainSlot h) list → Good db'
      → db'.chainoff = chainSlot h → Q (f db') l' t)
    : Wp p True ((dbWritedat db data.bytes db.datoff .set).bind fun db => .ret (f db)) Q l s := by
  rw [at_.datoff]
  have foundU := fun {u : State} (hru : Rely p s u) => hru.recAt (k.sees inv member) found
  refine wp_bind inv (wp_writedat_set (by rw [k.stat_]; trivial) (fun small u hru hiu => ?_)
    fun small u hru hiu => ?_)
  · rw [← sizeT_toInt small, length]
    exact .chunk (foundU hru) ((k.stable inv hru).owns hiu member)
  have kU := k.stable inv hru
  obtain ⟨d, chunk, size⟩ := hiu.regions.exists_ (foundU hru)
  rw [sizeT_toInt small] at length
  have len : data.bytes.length = d.bytes.length := by omega
  have onChain : o ∈ u.2.chain h := by rw [kU.list_]; exact member
  have own : u.2.own o = .chain h := (hiu.members.chain.mp onChain).2
  have unchanged : Function.update u.2.own o (.chain h) = u.2.own := by
    rw [← own, Function.update_eq_self]
  have allowed := allowed_setChunk (.chain h) u.2.chain (u.2.map.set key.bytes (some data))
    (stored p key data flag u.2) hiu (foundU hru) chunk len (kU.owns hiu member)
    (fun _ eq => by cases eq) (fun _ => Or.inr rfl)
    (fun c x => by
      by_cases eq : x = o
      · subst eq
        rw [if_pos rfl, hiu.members.chain, own]
        exact ⟨fun both => both.2, fun eq => ⟨⟨r, foundU hru⟩, eq⟩⟩
      · simp [eq])
    (fun x => by
      by_cases eq : x = o
      · subst eq
        rw [if_pos rfl, hiu.members.free, own]
        simp
      · simp [eq])
    (kU.maps_set hashed)
    (fun {x y} apart at_x nonblank => by
      refine Bindings.set_other _ _ fun eq => ?_
      rcases kU.sole hiu (by rw [eq]; exact hashed) at_x nonblank with there | mine
      · exact apart (kU.content.distinct there member at_x (foundU hru) (eq.trans same.symm))
      · exact absurd mine List.not_mem_nil)
    (fun q ne => Function.update_of_ne ne _ _)
    ⟨by rw [same]; exact hashed, fun _ => by rw [same, Bindings.set_self]⟩
  rw [unchanged] at allowed
  refine ⟨{ u.2 with
      im := u.2.im.setChunk r.datoff data
      map := u.2.map.set key.bytes (some data)
      stat := stored p key data flag u.2 }, d, chunk, len, rfl, allowed,
    storing.effect hashed kU (fun _ => Or.inr rfl) rfl rfl, fun t hrt hit => ?_⟩
  have k₂ : Knows p (chainLock h .wr) h list (shown.set key.bytes (some data))
      (shown.set key.bytes (some data)) [] none (.done (.store key data flag) (.code 0))
      (u.1.put (u.2.im.setChunk r.datoff data),
        { u.2 with
          im := u.2.im.setChunk r.datoff data
          map := u.2.map.set key.bytes (some data)
          stat := stored p key data flag u.2 }) := by
    refine ⟨k.lt, kU.held, kU.locks, kU.list_, ?_, kU.bound_set fun _ _ => rfl, kU.only,
      kU.orphan_, by simp [stored]⟩
    rw [← same]
    exact kU.content.overwrite hiu.regions member (foundU hru) chunk len
  have link₂ : Linked (u.2.im.setChunk r.datoff data).next (chainSlot h) list :=
    k.linked_stable inv hru linked
  intro v hrv hiv
  have all := hrt.trans hrv
  exact next _ _ v (k₂.stable allowed.1 all) hiv (k₂.linked_stable allowed.1 all link₂)
    ⟨at_.good.nhash, at_.good.hashoff⟩ at_.chainoff

end Store

end Minions.Db
