import Minions.Unp.GaPort

/-! What `ga_aistruct` and `ga_port` do to the list of `aihead`: the first appends one entry,
the second replaces every entry by one or two.
-/

namespace Minions.Unp.Gai

open Minions.Data

variable {answers : Nat → Bool} {m m' : Memory} {a x : Nat} {l : List Nat}
  {e : Addrinfo} {es : List Addrinfo}

-----------------------------------------------------------------------------------------
-- Lists in memory
-----------------------------------------------------------------------------------------

def Memory.links (m : Memory) (x : Nat) : Option Nat := some (m.next x)

/-- The list behind cell `a` is at the addresses `l` and has the entries `es`. -/
structure Memory.Holds (m : Memory) (a : Nat) (l : List Nat) (es : List Addrinfo) : Prop where
  linked : Linked m.links a l
  content : l.map m.addrinfo = es
  below : ∀ x ∈ a :: l, x ≤ m.allocs

/-- The list of `aihead` has the entries `es`. -/
def Memory.Shows (m : Memory) (es : List Addrinfo) : Prop := ∃ l, m.Holds 0 l es

/-- Nothing that was in memory has changed outside the addresses `l`. -/
structure Memory.Keeps (m m' : Memory) (l : List Nat) : Prop where
  grows : m.allocs ≤ m'.allocs
  next : ∀ x ≤ m.allocs, x ∉ l → m'.next x = m.next x
  addrinfo : ∀ x ≤ m.allocs, x ∉ l → m'.addrinfo x = m.addrinfo x

/-- The part of a list behind its front. -/
theorem Memory.Holds.drop {l₁ l₂ : List Nat} (holds : m.Holds a (l₁ ++ l₂) es)
    : m.Holds (lastCell a l₁) l₂ (l₂.map m.addrinfo) where
  linked := holds.linked.drop
  content := rfl
  below := by
    intro x member
    rcases List.mem_cons.mp member with rfl | member
    · rcases lastCell_mem a l₁ with same | last
      · exact holds.below _ (by simp [same])
      · exact holds.below _ (by simp [last])
    · exact holds.below x (by simp [member])

/-- Changes behind the front of a list leave the front as it was. -/
theorem Memory.Holds.replace {l₁ l₂ l₂' : List Nat} {es' : List Addrinfo}
    (holds : m.Holds a (l₁ ++ l₂) es) (keeps : m.Keeps m' l₂)
    (back : m'.Holds (lastCell a l₁) l₂' es')
    : m'.Holds a (l₁ ++ l₂') (l₁.map m.addrinfo ++ es') := by
  have outside : ∀ x ∈ a :: l₁, x ∉ l₂ := by
    have nodup : ((a :: l₁) ++ l₂).Nodup := holds.linked.nodup
    exact fun x member both => (List.nodup_append.mp nodup).2.2 x member x both rfl
  have old : ∀ x ∈ a :: l₁, x ≤ m.allocs := by
    intro x member
    exact holds.below x (by simp at member ⊢; tauto)
  refine ⟨holds.linked.replace back.linked ?_, ?_, ?_⟩
  · intro b member _
    exact congrArg some (keeps.next b (old b member) (outside b member))
  · rw [List.map_append, back.content]
    congr 1
    refine List.map_congr_left fun x member => ?_
    exact keeps.addrinfo x (old x (by simp [member])) (outside x (by simp [member]))
  · intro x member
    rcases List.mem_append.mp (show x ∈ (a :: l₁) ++ l₂' from member) with front | behind
    · exact (old x front).trans keeps.grows
    · exact back.below x (by simp [behind])

/-- Writing an entry that is on the list. -/
theorem Memory.Holds.set (holds : m.Holds a (x :: l) (e :: es)) (e' : Addrinfo)
    : (m.set x e').Holds a (x :: l) (e' :: es) := by
  have outside : x ∉ l := (List.nodup_cons.mp (List.nodup_cons.mp holds.linked.nodup).2).1
  refine ⟨holds.linked, ?_, holds.below⟩
  have rest : l.map m.addrinfo = es := (List.cons.inj holds.content).2
  rw [List.map_cons]
  congr 1
  · exact Function.update_self ..
  · rw [← rest]
    refine List.map_congr_left fun y member => Function.update_of_ne ?_ ..
    rintro rfl
    exact outside member

/-- Writing a cell keeps the other lists. -/
theorem Memory.keeps_set (m : Memory) (x : Nat) (e' : Addrinfo) (l : List Nat)
    : m.Keeps (m.set x e') (x :: l) where
  grows := le_rfl
  next := fun _ _ _ => rfl
  addrinfo := fun y _ other => Function.update_of_ne (fun same => other (by simp [same])) ..

/-- One change after another; the second may reach structures that the first has made. -/
theorem Memory.Keeps.trans {m₁ : Memory} {l' : List Nat} (first : m.Keeps m₁ l)
    (second : m₁.Keeps m' l') (inside : ∀ x ∈ l', x ∈ l ∨ m.allocs < x)
    : m.Keeps m' l := by
  have outside : ∀ x ≤ m.allocs, x ∉ l → x ≤ m₁.allocs ∧ x ∉ l' := by
    refine fun x low other => ⟨low.trans first.grows, fun member => ?_⟩
    rcases inside x member with known | new
    · exact other known
    · omega
  refine ⟨first.grows.trans second.grows, fun x low other => ?_, fun x low other => ?_⟩
  · obtain ⟨low₁, other₁⟩ := outside x low other
    exact (second.next x low₁ other₁).trans (first.next x low other)
  · obtain ⟨low₁, other₁⟩ := outside x low other
    exact (second.addrinfo x low₁ other₁).trans (first.addrinfo x low other)

-----------------------------------------------------------------------------------------
-- Making the list
-----------------------------------------------------------------------------------------

/-- One call of `ga_aistruct`. -/
structure Request where
  hints : Hints
  addr : List Byte
  family : Family

/-- The entry that a call of `ga_aistruct` for an IPv4 or IPv6 address makes. -/
def Request.entry (r : Request) : Addrinfo where
  flags := if r.hints.socktype = 0 then AI_CLONE else 0
  family := r.family
  socktype := r.hints.socktype
  protocol := r.hints.protocol
  addrlen := if r.family = .inet then 16 else 28
  addr := some (if r.family = .inet then .sockaddr_in 0 (r.addr.take 4)
    else .sockaddr_in6 0 (r.addr.take 16))

/-- Successive calls of `ga_aistruct`, up to the first that fails. -/
def gaAistructs (answers : Nat → Bool) : Memory → Nat → List Request → Memory × Int
  | m, _, [] => (m, 0)
  | m, paipnext, r :: requests =>
      let (m, paipnext, rc) := gaAistruct answers m paipnext r.hints r.addr r.family
      if rc ≠ 0 then (m, rc) else gaAistructs answers m paipnext requests

/-- `ga_aistruct` puts the entry at the end of the list. -/
theorem gaAistruct_holds (ok : ∀ n, answers n = true) (r : Request) (ported : r.family.hasPort)
    (holds : m.Holds a l es)
    : ∃ m', gaAistruct answers m (lastCell a l) r.hints r.addr r.family
          = (m', m.allocs + 1, 0)
        ∧ m'.Holds a (l ++ [m.allocs + 1]) (es ++ [r.entry]) := by
  let ai := m.allocs + 1
  let made : Memory := { m with
    next := Function.update (Function.update m.next ai 0) (lastCell a l) ai
    addrinfo := Function.update m.addrinfo ai r.entry
    allocs := m.allocs + 2 }
  have run : gaAistruct answers m (lastCell a l) r.hints r.addr r.family = (made, ai, 0) := by
    obtain ⟨hints, addr, family⟩ := r
    cases family <;> simp [Family.hasPort] at ported <;>
      simp [gaAistruct, Memory.alloc, ok, Memory.setNext, Memory.set, Request.entry, made, ai]
  have new : ai ∉ a :: l := by
    intro member
    have := holds.below ai member
    simp only [ai] at this
    omega
  refine ⟨made, run, ?_, ?_, ?_⟩
  · refine holds.linked.snoc new (by simp) ?_ ?_ ?_
    · simp [Memory.links, made, ai]
    · have last : ai ≠ lastCell a l := by
        rcases lastCell_mem a l with same | member
        · exact fun eq => new (by simp [eq, same])
        · exact fun eq => new (by simp [eq, member])
      show some (Function.update (Function.update m.next ai 0) (lastCell a l) ai ai) = some 0
      rw [Function.update_of_ne last, Function.update_self]
    · intro b member notLast
      have differs : b ≠ ai := fun eq => new (eq ▸ member)
      simp [Memory.links, made, notLast, differs]
  · rw [List.map_append, ← holds.content]
    congr 1
    · refine List.map_congr_left fun y member => Function.update_of_ne ?_ ..
      rintro rfl
      exact new (by simp [member])
    · simp [made, ai]
  · intro y member
    have : y ≤ m.allocs ∨ y = m.allocs + 1 := by
      rcases List.mem_append.mp (show y ∈ (a :: l) ++ [m.allocs + 1] from member) with old | last
      · exact .inl (holds.below y old)
      · exact .inr (by simpa using last)
    simp only [made]
    omega

/-- Successive calls put their entries at the end of the list, in order. -/
theorem gaAistructs_shows (ok : ∀ n, answers n = true) {requests : List Request}
    (ported : ∀ r ∈ requests, r.family.hasPort) (holds : m.Holds 0 l es)
    : ∃ m', gaAistructs answers m (lastCell 0 l) requests = (m', 0)
        ∧ m'.Shows (es ++ requests.map Request.entry) := by
  induction requests generalizing m l es with
  | nil => exact ⟨m, rfl, l, by simpa using holds⟩
  | cons r requests ih =>
      obtain ⟨m₁, run, holds₁⟩ := gaAistruct_holds ok r (ported r (by simp)) holds
      have last : lastCell 0 (l ++ [m.allocs + 1]) = m.allocs + 1 := by
        rw [lastCell_append]
        rfl
      obtain ⟨m', rest, shows'⟩ := ih (fun q member => ported q (by simp [member])) holds₁
      rw [last] at rest
      refine ⟨m', by simp [gaAistructs, run, rest], ?_⟩
      simpa using shows'

/-- Before the first call the list is empty. -/
theorem shows_nil : ({} : Memory).Holds 0 [] [] := ⟨rfl, rfl, by simp⟩

-----------------------------------------------------------------------------------------
-- One pass over the list
-----------------------------------------------------------------------------------------

/-- The copy that `ga_clone` makes of an entry. -/
def Addrinfo.copy (ai : Addrinfo) : Addrinfo := { cloneOf ai with addr := ai.addr }

/-- What `ga_port` makes of one entry. -/
def Addrinfo.ported (port socktype : Int) (ai : Addrinfo) : List Addrinfo :=
  if ai.flags &&& AI_CLONE ≠ 0 then
    if ai.socktype ≠ 0 then [ai, ai.copy.fill port socktype]
    else [ai.fill port socktype]
  else if ai.socktype ≠ socktype then [ai]
  else [ai.fill port socktype]

/-- Whether `ga_port` counts an entry. -/
def Addrinfo.counts (socktype : Int) (ai : Addrinfo) : Bool :=
  (ai.flags &&& AI_CLONE ≠ 0 ∨ ai.socktype = socktype) ∧ ai.family.hasPort

/-- `ga_clone` runs out of memory, or it makes the copy. -/
theorem gaClone_cases (answers : Nat → Bool) (old : x ≤ m.allocs)
    : ((∃ n, answers n = false) ∧ (gaClone answers m x).2 = 0)
      ∨ gaClone answers m x
        = ({ m with
              next := Function.update (Function.update m.next (m.allocs + 1) (m.next x)) x
                (m.allocs + 1)
              addrinfo := Function.update m.addrinfo (m.allocs + 1) (m.addrinfo x).copy
              allocs := m.allocs + 2 }, m.allocs + 1) := by
  have differs : x ≠ m.allocs + 1 := by omega
  cases first : answers m.allocs with
  | false => exact .inl ⟨⟨_, first⟩, by simp [gaClone, Memory.alloc, first]⟩
  | true =>
      cases second : answers (m.allocs + 1) with
      | false =>
          refine .inl ⟨⟨_, second⟩, ?_⟩
          simp [gaClone, Memory.alloc, first, second, Memory.setNext, Memory.set]
      | true =>
          right
          simp [gaClone, Memory.alloc, first, second, Memory.setNext, Memory.set,
            Function.update_of_ne differs, Addrinfo.copy]

/-- `ga_clone` runs out of memory, or it puts the copy behind the entry. -/
theorem gaClone_holds (answers : Nat → Bool) (holds : m.Holds a (x :: l) (e :: es))
    : ((∃ n, answers n = false) ∧ (gaClone answers m x).2 = 0)
      ∨ ∃ m', gaClone answers m x = (m', m.allocs + 1)
        ∧ m'.Holds a (x :: (m.allocs + 1) :: l) (e :: e.copy :: es)
        ∧ m.Keeps m' (x :: l) := by
  have old : ∀ y ∈ a :: x :: l, y ≠ m.allocs + 1 := by
    intro y member
    have := holds.below y member
    omega
  have nodup := holds.linked.nodup
  have entry : m.addrinfo x = e := (List.cons.inj holds.content).1
  have rest : l.map m.addrinfo = es := (List.cons.inj holds.content).2
  refine (gaClone_cases answers (holds.below x (by simp))).imp_right fun made => ?_
  refine ⟨_, made, ⟨⟨?_, holds.linked.2.1, ?_⟩, ?_, ?_⟩, ?_⟩
  · have front : a ≠ x := fun eq => by simp [eq] at nodup
    simpa [Memory.links, front, old a (by simp)] using holds.linked.1
  · have fresh : m.allocs + 1 ∉ x :: l := fun member =>
      old _ (List.mem_cons_of_mem _ member) rfl
    refine holds.linked.2.2.push fresh (by simp) ?_ ?_ ?_
    · simp [Memory.links]
    · simp [Memory.links, (old x (by simp)).symm]
    · intro b member
      have notX : b ≠ x := by
        rintro rfl
        simp [member] at nodup
      simp [Memory.links, notX, old b (by simp [member])]
  · simp only [List.map_cons, Function.update_self, Function.update_of_ne (old x (by simp)), entry]
    rw [List.map_congr_left fun y member => Function.update_of_ne (old y (by simp [member])) ..,
      rest]
  · intro y member
    have : y ≤ m.allocs ∨ y = m.allocs + 1 := by
      simp only [List.mem_cons] at member
      rcases member with rfl | rfl | rfl | member
      · exact .inl (holds.below _ (by simp))
      · exact .inl (holds.below _ (by simp))
      · exact .inr rfl
      · exact .inl (holds.below _ (by simp [member]))
    show y ≤ m.allocs + 2
    omega
  · refine ⟨by simp, ?_, ?_⟩
    · intro y low other
      have notX : y ≠ x := fun eq => other (by simp [eq])
      have notNew : y ≠ m.allocs + 1 := by omega
      simp [notX, notNew]
    · intro y low _
      exact Function.update_of_ne (by omega) ..

/-- Filling in the first entry of a list. -/
theorem portFill_holds (port socktype : Int) (holds : m.Holds a (x :: l) (e :: es))
    : ∃ m', (∀ n, portFill port socktype m x n
          = (m', x, n + if e.family.hasPort then 1 else 0))
        ∧ m'.Holds a (x :: l) (e.fill port socktype :: es)
        ∧ m.Keeps m' (x :: l) := by
  have entry : m.addrinfo x = e := (List.cons.inj holds.content).1
  refine ⟨m.set x (e.fill port socktype), fun n => ?_, holds.set _, m.keeps_set x _ l⟩
  rw [portFill, entry]
  split <;> simp

/-- One pass of the loop runs out of memory, or it replaces the entry at `ai` and leaves `ai`
at the last of the entries that now stand for it.
-/
theorem portBody_holds (answers : Nat → Bool) (port socktype : Int)
    (holds : m.Holds a (x :: l) (e :: es))
    : ((∃ n, answers n = false) ∧ ∃ m', ∀ n, portBody answers port socktype m x n = (m', 0, n))
      ∨ ∃ m' extra, (∀ n, portBody answers port socktype m x n
          = (m', lastCell x extra, n + if e.counts socktype then 1 else 0))
        ∧ m'.Holds a ((x :: extra) ++ l) (e.ported port socktype ++ es)
        ∧ m.Keeps m' (x :: l) := by
  have entry : m.addrinfo x = e := (List.cons.inj holds.content).1
  obtain ⟨filled, fill, holdsFilled, keepsFilled⟩ := portFill_holds port socktype holds
  by_cases flagged : e.flags &&& AI_CLONE ≠ 0
  · by_cases used : e.socktype ≠ 0
    · rcases gaClone_holds answers holds with ⟨fails, none⟩ | ⟨m₁, clone, holds₁, keeps₁⟩
      · refine .inl ⟨fails, (gaClone answers m x).1, fun n => ?_⟩
        simp [portBody, entry, flagged, used, none]
      have behind : m₁.Holds x ((m.allocs + 1) :: l) (e.copy :: es) := by
        have drop : m₁.Holds (lastCell a [x]) ((m.allocs + 1) :: l) _ := Memory.Holds.drop holds₁
        exact (List.cons.inj holds₁.content).2 ▸ drop
      obtain ⟨m', fill, holds', keeps'⟩ := portFill_holds port socktype behind
      have family : e.copy.family = e.family := rfl
      have front : [x].map m₁.addrinfo = [e] := by
        simpa using (List.cons.inj holds₁.content).1
      refine .inr ⟨m', [m.allocs + 1], fun n => ?_, ?_, ?_⟩
      · rw [portBody, entry, if_pos flagged, if_pos used, clone]
        simp [fill, lastCell, Addrinfo.counts, flagged, family]
      · have whole
            : m'.Holds a ([x] ++ (m.allocs + 1) :: l) ([x].map m₁.addrinfo ++ _) :=
          Memory.Holds.replace holds₁ keeps' holds'
        rw [front] at whole
        simpa [Addrinfo.ported, flagged, used] using whole
      · refine keeps₁.trans keeps' fun y member => ?_
        rcases List.mem_cons.mp member with rfl | old
        · exact .inr (by omega)
        · exact .inl (by simp [old])
    · refine .inr ⟨filled, [], fun n => ?_, ?_, keepsFilled⟩
      · rw [portBody, entry, if_pos flagged, if_neg used, fill]
        simp [lastCell, Addrinfo.counts, flagged]
      · simpa [Addrinfo.ported, flagged, used] using holdsFilled
  · by_cases other : e.socktype ≠ socktype
    · refine .inr ⟨m, [], fun n => ?_, ?_, le_rfl, fun _ _ _ => rfl, fun _ _ _ => rfl⟩
      · rw [portBody, entry, if_neg flagged, if_pos other]
        simp [lastCell, Addrinfo.counts, flagged, other]
      · simpa [Addrinfo.ported, flagged, other] using holds
    · refine .inr ⟨filled, [], fun n => ?_, ?_, keepsFilled⟩
      · rw [portBody, entry, if_neg flagged, if_neg other, fill]
        simp [lastCell, Addrinfo.counts, not_not.mp other]
      · simpa [Addrinfo.ported, flagged, other] using holdsFilled

/-- The loop runs out of memory, or it replaces every entry behind cell `a`, in order, and
counts. It takes one pass for each entry that was there, however many it adds.
-/
theorem portLoop_holds (answers : Nat → Bool) (port socktype : Int) (holds : m.Holds a l es)
    : ((∃ n, answers n = false) ∧ ∃ m', ∀ fuel n, l.length < fuel
          → portLoop answers port socktype fuel m (m.next a) n = some (m', -1))
      ∨ ∃ m' l', (∀ fuel n, l.length < fuel
          → portLoop answers port socktype fuel m (m.next a) n
            = some (m', n + es.countP (Addrinfo.counts socktype)))
        ∧ m'.Holds a l' (es.flatMap (Addrinfo.ported port socktype))
        ∧ m.Keeps m' l := by
  induction l generalizing m a es with
  | nil =>
      obtain rfl : [] = es := holds.content
      have last : m.next a = 0 := Option.some.inj holds.linked
      refine .inr ⟨m, [], fun fuel n enough => ?_, holds, le_rfl, fun _ _ _ => rfl,
        fun _ _ _ => rfl⟩
      obtain ⟨fuel, rfl⟩ := Nat.exists_eq_add_of_lt enough
      simp [portLoop, last]
  | cons x l ih =>
      obtain ⟨e, es, rfl⟩ : ∃ e es', es = e :: es' := ⟨_, _, holds.content.symm⟩
      have first : m.next a = x := Option.some.inj holds.linked.1
      have nonzero : x ≠ 0 := holds.linked.2.1
      rcases portBody_holds answers port socktype holds
        with ⟨fails, m', stops⟩ | ⟨m₁, extra, body, holds₁, keeps₁⟩
      · refine .inl ⟨fails, m', fun fuel n enough => ?_⟩
        obtain ⟨fuel, rfl⟩ : ∃ k, fuel = k + 1 := ⟨fuel - 1, by omega⟩
        simp [portLoop, first, nonzero, stops]
      have length : (l.map m₁.addrinfo).length = es.length := by
        rw [← (List.cons.inj holds.content).2, List.length_map, List.length_map]
      obtain ⟨front, behind⟩ :=
        List.append_inj' ((List.map_append).symm.trans holds₁.content) length
      have rest : m₁.Holds (lastCell x extra) l es := behind ▸ holds₁.drop
      have goesOn : lastCell x extra ≠ 0 := by
        refine holds₁.linked.ne_zero (List.mem_append_left _ ?_)
        rcases lastCell_mem x extra with same | member
        · simp [same]
        · simp [member]
      have step : ∀ fuel n, portLoop answers port socktype (fuel + 1) m (m.next a) n
          = portLoop answers port socktype fuel m₁ (m₁.next (lastCell x extra))
            (n + if e.counts socktype then 1 else 0) := by
        intro fuel n
        simp only [portLoop, first, nonzero, if_false, body, goesOn]
      rcases ih rest with ⟨fails, m', run⟩ | ⟨m', l', run, holds', keeps'⟩
      · refine .inl ⟨fails, m', fun fuel n enough => ?_⟩
        obtain ⟨fuel, rfl⟩ : ∃ k, fuel = k + 1 := ⟨fuel - 1, by omega⟩
        exact (step fuel n).trans (run fuel _ (Nat.lt_of_succ_lt_succ enough))
      refine .inr ⟨m', (x :: extra) ++ l', fun fuel n enough => ?_, ?_, ?_⟩
      · obtain ⟨fuel, rfl⟩ : ∃ k, fuel = k + 1 := ⟨fuel - 1, by omega⟩
        rw [step, run fuel _ (Nat.lt_of_succ_lt_succ enough), List.countP_cons]
        congr 2
        split <;> push_cast <;> ring
      · have whole := Memory.Holds.replace holds₁ keeps' holds'
        rw [front] at whole
        simpa using whole
      · exact keeps₁.trans keeps' fun y member => .inl (List.mem_cons_of_mem _ member)

/-- `ga_port` on a list with the entries `es`: it runs out of memory, or it replaces every
entry and returns how many it has counted.
-/
theorem gaPort_shows (answers : Nat → Bool) (port socktype : Int) (shows : m.Shows es)
    : ((∃ n, answers n = false) ∧ ∃ m', ∀ fuel, es.length < fuel
          → gaPort answers fuel m port socktype = some (m', -1))
      ∨ ∃ m' : Memory, (∀ fuel, es.length < fuel → gaPort answers fuel m port socktype
          = some (m', (es.countP (Addrinfo.counts socktype) : Int)))
        ∧ m'.Shows (es.flatMap (Addrinfo.ported port socktype)) := by
  obtain ⟨l, holds⟩ := shows
  have length : l.length = es.length := by rw [← holds.content, List.length_map]
  rw [← length]
  rcases portLoop_holds answers port socktype holds with ⟨fails, m', run⟩ | ⟨m', l', run, holds', -⟩
  · exact .inl ⟨fails, m', fun fuel enough => run fuel 0 enough⟩
  · exact .inr ⟨m', fun fuel enough => by simpa [gaPort] using run fuel 0 enough, l', holds'⟩

end Minions.Unp.Gai
