import Minions.Unp.GaLists
import Minions.Unp.GetAddrInfo

/-! The memory that the lists of addresses take, however many allocations fail: at every
moment the list owns what was allocated.
-/

namespace Minions.Unp.Gai

open Minions.Data

variable {answers : Nat → Bool} {m m' : Memory} {a x : Nat} {l : List Nat}
  {e : Addrinfo} {es : List Addrinfo}

-----------------------------------------------------------------------------------------
-- Counting
-----------------------------------------------------------------------------------------

/-- The number of allocations that have succeeded. -/
def Memory.live (answers : Nat → Bool) (m : Memory) : Nat :=
  (List.range m.allocs).countP answers

/-- What `freeaddrinfo` frees for an entry. -/
def Addrinfo.blocks (ai : Addrinfo) : Nat :=
  1 + (if ai.addr.isSome then 1 else 0) + (if ai.canonname.isSome then 1 else 0)

def blocks : List Addrinfo → Nat
  | [] => 0
  | ai :: es => ai.blocks + blocks es

/-- No entries take no blocks. -/
@[simp]
theorem blocks_nil : blocks [] = 0 := rfl

/-- The blocks of a list that starts with an entry. -/
@[simp]
theorem blocks_cons (ai : Addrinfo) (es : List Addrinfo)
    : blocks (ai :: es) = ai.blocks + blocks es := rfl

/-- The blocks of two lists. -/
@[simp]
theorem blocks_append (es es' : List Addrinfo) : blocks (es ++ es') = blocks es + blocks es' := by
  induction es with
  | nil => simp
  | cons ai es ih => simp [ih, Nat.add_assoc]

/-- One more answer is counted. -/
theorem countP_range_succ (answers : Nat → Bool) (n : Nat)
    : (List.range (n + 1)).countP answers
      = (List.range n).countP answers + if answers n then 1 else 0 := by
  simp [List.range_succ, List.countP_append, List.countP_singleton]

/-- `freeaddrinfo` frees everything that the list owns. -/
theorem freeLoop_holds (holds : m.Holds a l es) {fuel : Nat} (enough : l.length < fuel)
    (frees : Nat)
    : freeLoop fuel m (m.next a) frees = some (frees + blocks es) := by
  induction l generalizing a es fuel frees with
  | nil =>
      obtain rfl : [] = es := holds.content
      have last : m.next a = 0 := Option.some.inj holds.linked
      obtain ⟨fuel, rfl⟩ : ∃ k, fuel = k + 1 := ⟨fuel - 1, by omega⟩
      simp [freeLoop, last]
  | cons x l ih =>
      obtain ⟨e, es, rfl⟩ : ∃ e es', es = e :: es' := ⟨_, _, holds.content.symm⟩
      have first : m.next a = x := Option.some.inj holds.linked.1
      have nonzero : x ≠ 0 := holds.linked.2.1
      have entry : m.addrinfo x = e := (List.cons.inj holds.content).1
      have rest : m.Holds x l es := by
        have drop : m.Holds (lastCell a [x]) l (l.map m.addrinfo) :=
          (show m.Holds a ([x] ++ l) (e :: es) from holds).drop
        exact (List.cons.inj holds.content).2 ▸ drop
      obtain ⟨fuel, rfl⟩ : ∃ k, fuel = k + 1 := ⟨fuel - 1, by omega⟩
      simp only [List.length_cons] at enough
      simp only [freeLoop, first, nonzero, if_false, entry]
      rw [ih rest (by omega)]
      simp only [blocks_cons, Addrinfo.blocks, Option.some.injEq]
      split <;> split <;> omega

-----------------------------------------------------------------------------------------
-- Changes to a list
-----------------------------------------------------------------------------------------

/-- A list does not depend on what else is in memory, or has been allocated since. -/
theorem Memory.Holds.congr (holds : m.Holds a l es) (next : ∀ y ∈ a :: l, m'.next y = m.next y)
    (addrinfo : ∀ y ∈ l, m'.addrinfo y = m.addrinfo y) (grows : m.allocs ≤ m'.allocs)
    : m'.Holds a l es where
  linked := holds.linked.congr fun b member => congrArg some (next b member)
  content := by
    rw [← holds.content]
    exact List.map_congr_left addrinfo
  below := fun y member => (holds.below y member).trans grows

/-- The part of a list behind its front, with its entries. -/
theorem Memory.Holds.behind {l₁ l₂ : List Nat} {es₁ es₂ : List Addrinfo}
    (holds : m.Holds a (l₁ ++ l₂) (es₁ ++ es₂)) (length : l₁.length = es₁.length)
    : l₁.map m.addrinfo = es₁ ∧ m.Holds (lastCell a l₁) l₂ es₂ := by
  have content : l₁.map m.addrinfo ++ l₂.map m.addrinfo = es₁ ++ es₂ := by
    rw [← List.map_append]
    exact holds.content
  obtain ⟨front, back⟩ := List.append_inj content (by simpa using length)
  exact ⟨front, back ▸ holds.drop⟩

/-- Writing any entry of a list. -/
theorem Memory.Holds.setAt {l₁ l₂ : List Nat} {es₁ es₂ : List Addrinfo}
    (holds : m.Holds a (l₁ ++ x :: l₂) (es₁ ++ e :: es₂)) (length : l₁.length = es₁.length)
    (e' : Addrinfo)
    : (m.set x e').Holds a (l₁ ++ x :: l₂) (es₁ ++ e' :: es₂) := by
  obtain ⟨front, back⟩ := holds.behind length
  have whole := holds.replace (m.keeps_set x e' l₂) (back.set e')
  rwa [front] at whole

/-- A new structure at the end of a list. -/
def Memory.link (m : Memory) (cell : Nat) (ai : Addrinfo) : Memory :=
  { m with
    next := Function.update (Function.update m.next (m.allocs + 1) 0) cell (m.allocs + 1)
    addrinfo := Function.update m.addrinfo (m.allocs + 1) ai
    allocs := m.allocs + 1 }

/-- A new cell is linked behind the last one. -/
theorem Memory.Holds.link (holds : m.Holds a l es) (ai : Addrinfo)
    : (m.link (lastCell a l) ai).Holds a (l ++ [m.allocs + 1]) (es ++ [ai]) := by
  have new : m.allocs + 1 ∉ a :: l := by
    intro member
    have := holds.below _ member
    omega
  refine ⟨?_, ?_, ?_⟩
  · refine holds.linked.snoc new (by simp) ?_ ?_ ?_
    · simp [Memory.links, Memory.link]
    · have last : m.allocs + 1 ≠ lastCell a l := by
        rcases lastCell_mem a l with same | member
        · exact fun eq => new (by simp [eq, same])
        · exact fun eq => new (by simp [eq, member])
      simp [Memory.links, Memory.link, Function.update_of_ne last]
    · intro b member notLast
      have differs : b ≠ m.allocs + 1 := fun eq => new (eq ▸ member)
      simp [Memory.links, Memory.link, notLast, differs]
  · rw [List.map_append, ← holds.content]
    congr 1
    · refine List.map_congr_left fun y member => Function.update_of_ne ?_ ..
      rintro rfl
      exact new (by simp [member])
    · simp [Memory.link]
  · intro y member
    have : y ≤ m.allocs ∨ y = m.allocs + 1 := by
      rcases List.mem_append.mp (show y ∈ (a :: l) ++ [m.allocs + 1] from member) with old | last
      · exact .inl (holds.below y old)
      · exact .inr (by simpa using last)
    simp only [Memory.link]
    omega

-----------------------------------------------------------------------------------------
-- Making an entry
-----------------------------------------------------------------------------------------

/-- A call that returns the error `rc` has to: it does so with any memory, or an allocation
has failed.
-/
def Justified {α : Type} (answers : Nat → Bool) (result : Except Int α) (rc : Int) : Prop :=
  rc ≠ 0 ∧ (result = .error rc ∨ rc = EAI_MEMORY ∧ ∃ n, answers n = false)

/-- An allocation that fails justifies `EAI_MEMORY`. -/
theorem justified_memory {α : Type} (result : Except Int α) {n : Nat} (fails : answers n = false)
    : Justified answers result EAI_MEMORY :=
  ⟨by decide, .inr ⟨rfl, n, fails⟩⟩

/-- The entry of a request before it has an address. -/
def Request.bare (r : Request) : Addrinfo where
  flags := if r.hints.socktype = 0 then AI_CLONE else 0
  family := r.family
  socktype := r.hints.socktype
  protocol := r.hints.protocol

/-- What `ga_aistruct` makes of a request when memory is available. -/
def Request.made (r : Request) : Except Int Addrinfo :=
  if r.family = .local then
    if sunPathSize ≤ r.addr.length then .error EAI_SERVICE
    else .ok { r.bare with addr := some (.sockaddr_un r.addr), addrlen := 2 + sunPathSize }
  else .ok r.entry

/-- An entry that `ga_aistruct` makes owns itself and its address. -/
theorem Request.blocks_made {r : Request} (made : r.made = .ok e) : e.blocks = 2 := by
  unfold Request.made at made
  split_ifs at made <;> cases made <;> rfl

/-- Where the address of a new entry is allocated and stored. -/
def Memory.complete (answers : Nat → Bool) (m : Memory) (ai : Nat) (full : Addrinfo)
    : Memory × Nat × Int :=
  let (m, ptr) := m.alloc answers
  if ptr = 0 then (m, ai, EAI_MEMORY) else (m.set ai full, ai, 0)

/-- The blocks that completing an entry takes. -/
theorem complete_ledger (answers : Nat → Bool) {ai : Nat} {bare full : Addrinfo}
    (holds : m.Holds a (l ++ [ai]) (es ++ [bare])) (one : bare.blocks = 1) (two : full.blocks = 2)
    : ∃ m' e rc, m.complete answers ai full = (m', ai, rc)
        ∧ m'.Holds a (l ++ [ai]) (es ++ [e])
        ∧ m'.live answers + 1 = m.live answers + e.blocks ∧ e.blocks ≤ 2
        ∧ (rc = 0 ∧ e = full ∨ rc = EAI_MEMORY ∧ answers m.allocs = false) := by
  have length : l.length = es.length := by
    have := congrArg List.length holds.content
    simpa using this
  have grown : Memory.Holds { m with allocs := m.allocs + 1 } a (l ++ [ai]) (es ++ [bare]) :=
    holds.congr (fun _ _ => rfl) (fun _ _ => rfl) (Nat.le_succ _)
  cases second : answers m.allocs with
  | false =>
      refine ⟨_, bare, EAI_MEMORY, by simp [Memory.complete, Memory.alloc, second], grown, ?_,
        by omega, .inr ⟨rfl, rfl⟩⟩
      simp [Memory.live, countP_range_succ, second, one]
  | true =>
      refine ⟨_, full, 0, by simp [Memory.complete, Memory.alloc, second], grown.setAt length full,
        ?_, two.le, .inl ⟨rfl, rfl⟩⟩
      simp [Memory.live, Memory.set, countP_range_succ, second, two]

/-- The address of an entry that is at the end of the list: its allocation, and `unlink`. -/
def Request.addressed (answers : Nat → Bool) (m : Memory) (ai : Nat) (r : Request)
    : Memory × Nat × Int :=
  match r.made with
  | .error e => (m, ai, e)
  | .ok full =>
      let (m, ai, rc) := m.complete answers ai full
      (if rc = 0 ∧ r.family = .local ∧ r.hints.flags &&& AI_PASSIVE ≠ 0 then
        { m with unlinked := m.unlinked ++ [r.addr] } else m, ai, rc)

/-- The two steps of `ga_aistruct`. -/
theorem gaAistruct_eq (m : Memory) (cell : Nat) {r : Request}
    (known : r.family.hasPort ∨ r.family = .local)
    : gaAistruct answers m cell r.hints r.addr r.family
      = if answers m.allocs then r.addressed answers (m.link cell r.bare) (m.allocs + 1)
        else ({ m with allocs := m.allocs + 1 }, cell, EAI_MEMORY) := by
  obtain ⟨hints, addr, family⟩ := r
  cases first : answers m.allocs with
  | false => simp [gaAistruct, Memory.alloc, first]
  | true =>
      by_cases long : sunPathSize ≤ addr.length <;> cases second : answers (m.allocs + 1) <;>
        cases family <;>
        simp [gaAistruct, Memory.alloc, Memory.complete, Memory.link, Memory.set, Memory.setNext,
          Request.addressed, Request.made, Request.bare, Request.entry, Family.hasPort, first,
          second, long, EAI_MEMORY] at known ⊢

/-- `ga_aistruct` puts what it makes at the end of the list, also when it fails. -/
theorem gaAistruct_ledger (answers : Nat → Bool) (r : Request)
    (known : r.family.hasPort ∨ r.family = .local) (holds : m.Holds a l es)
    : ∃ m' l' made rc,
        gaAistruct answers m (lastCell a l) r.hints r.addr r.family
          = (m', lastCell a (l ++ l'), rc)
        ∧ m'.Holds a (l ++ l') (es ++ made)
        ∧ m'.live answers = m.live answers + blocks made ∧ blocks made ≤ 2
        ∧ (rc = 0 ∧ (∃ e, r.made = .ok e ∧ made = [e]) ∨ Justified answers r.made rc) := by
  rw [gaAistruct_eq m _ known]
  cases first : answers m.allocs with
  | false =>
      refine ⟨{ m with allocs := m.allocs + 1 }, [], [], EAI_MEMORY, by simp, ?_, ?_, by simp,
        .inr (justified_memory _ first)⟩
      · rw [List.append_nil, List.append_nil]
        exact holds.congr (fun _ _ => rfl) (fun _ _ => rfl) (Nat.le_succ m.allocs)
      · simp [Memory.live, countP_range_succ, first]
  | true =>
      have last : lastCell a (l ++ [m.allocs + 1]) = m.allocs + 1 := by
        simp [lastCell_append, lastCell]
      have linked := holds.link r.bare
      have live : (m.link (lastCell a l) r.bare).live answers = m.live answers + 1 := by
        simp [Memory.live, Memory.link, countP_range_succ, first]
      have one : r.bare.blocks = 1 := rfl
      rw [if_pos rfl]
      cases made : r.made with
      | error e =>
          refine ⟨_, [m.allocs + 1], [r.bare], e, by rw [Request.addressed, made, last], linked,
            by simp [live, one], by simp [one], .inr ⟨?_, .inl rfl⟩⟩
          unfold Request.made at made
          split_ifs at made
          cases made
          decide
      | ok full =>
          obtain ⟨m', e, rc, run, holds', live', small, result⟩ :=
            complete_ledger answers linked one (Request.blocks_made made)
          have total : m'.live answers = m.live answers + blocks [e] := by
            simp only [blocks_cons, blocks_nil]
            omega
          let spec : Except Int Addrinfo := .ok full
          have verdict : rc = 0 ∧ (∃ e', spec = .ok e' ∧ [e] = [e'])
              ∨ Justified answers spec rc := by
            rcases result with ⟨rfl, rfl⟩ | ⟨rfl, fails⟩
            · exact .inl ⟨rfl, e, rfl, rfl⟩
            · exact .inr (justified_memory _ fails)
          by_cases unlinks : rc = 0 ∧ r.family = .local ∧ r.hints.flags &&& AI_PASSIVE ≠ 0
          · refine ⟨{ m' with unlinked := m'.unlinked ++ [r.addr] }, [m.allocs + 1], [e], rc, ?_,
              holds'.congr (fun _ _ => rfl) (fun _ _ => rfl) (Nat.le_refl m'.allocs), total,
              small, verdict⟩
            simp only [Request.addressed, made, run, last, if_pos unlinks]
          · refine ⟨m', [m.allocs + 1], [e], rc, ?_, holds', total, small, verdict⟩
            simp only [Request.addressed, made, run, last, if_neg unlinks]

-----------------------------------------------------------------------------------------
-- Copies
-----------------------------------------------------------------------------------------

/-- An allocation keeps the list. -/
theorem Memory.keeps_alloc (m : Memory) (l : List Nat)
    : m.Keeps { m with allocs := m.allocs + 1 } l :=
  ⟨Nat.le_succ m.allocs, fun _ _ _ => rfl, fun _ _ _ => rfl⟩

/-- A copy with an address takes two blocks. -/
theorem Addrinfo.blocks_copy (addressed : e.addr.isSome) : e.copy.blocks = 2 := by
  simp [Addrinfo.blocks, Addrinfo.copy, cloneOf, addressed]

/-- `ga_clone` puts what it makes behind the entry, also when it fails. -/
theorem gaClone_ledger (answers : Nat → Bool) (holds : m.Holds a (x :: l) (e :: es))
    (addressed : e.addr.isSome)
    : ∃ m' extra made ptr, gaClone answers m x = (m', ptr)
        ∧ m'.Holds a (x :: (extra ++ l)) (e :: (made ++ es))
        ∧ m.Keeps m' (x :: l)
        ∧ m'.live answers = m.live answers + blocks made
        ∧ (ptr = m.allocs + 1 ∧ extra = [m.allocs + 1] ∧ made = [e.copy]
          ∨ ptr = 0 ∧ ∃ n, answers n = false) := by
  cases first : answers m.allocs with
  | false =>
      refine ⟨{ m with allocs := m.allocs + 1 }, [], [], 0, by simp [gaClone, Memory.alloc, first],
        holds.congr (fun _ _ => rfl) (fun _ _ => rfl) (Nat.le_succ m.allocs), m.keeps_alloc _, ?_,
        .inr ⟨rfl, _, first⟩⟩
      simp [Memory.live, countP_range_succ, first]
  | true =>
      rcases gaClone_holds (fun _ => true) holds with ⟨⟨n, fails⟩, -⟩ | ⟨m₁, run, holds₁, keeps₁⟩
      · simp at fails
      have allocs : m₁.allocs = m.allocs + 2 := by
        have := congrArg (fun result => result.1.allocs) run
        simpa [gaClone, Memory.alloc, Memory.set, Memory.setNext] using this.symm
      have entry : m.addrinfo x = e := (List.cons.inj holds.content).1
      have differs : x ≠ m.allocs + 1 := by
        have := holds.below x (by simp)
        omega
      cases second : answers (m.allocs + 1) with
      | false =>
          -- the copy is on the list, without an address
          have stopped : gaClone answers m x = (m₁.set (m.allocs + 1) (cloneOf e), 0) := by
            rw [← show _ = m₁ from congrArg Prod.fst run]
            simp [gaClone, Memory.alloc, first, second, Memory.setNext, Memory.set, entry, differs]
          have holds₂ : (m₁.set (m.allocs + 1) (cloneOf e)).Holds a ([x] ++ (m.allocs + 1) :: l)
              ([e] ++ cloneOf e :: es) :=
            (show m₁.Holds a ([x] ++ (m.allocs + 1) :: l) ([e] ++ e.copy :: es) from holds₁).setAt
              rfl (cloneOf e)
          refine ⟨_, [m.allocs + 1], [cloneOf e], 0, stopped, holds₂, ?_, ?_,
            .inr ⟨rfl, _, second⟩⟩
          · refine keeps₁.trans (m₁.keeps_set (m.allocs + 1) (cloneOf e) []) fun y member => ?_
            obtain rfl : y = m.allocs + 1 := by simpa using member
            exact .inr (Nat.lt_succ_self _)
          · have one : (cloneOf e).blocks = 1 := rfl
            simp [Memory.live, Memory.set, allocs, countP_range_succ, first, second, one]
      | true =>
          have same : gaClone answers m x = (m₁, m.allocs + 1) := by
            rw [← run]
            simp [gaClone, Memory.alloc, Memory.set, Memory.setNext, first, second]
          refine ⟨m₁, [m.allocs + 1], [e.copy], _, same, holds₁, keeps₁, ?_, .inl ⟨rfl, rfl, rfl⟩⟩
          simp [Memory.live, allocs, countP_range_succ, first, second,
            Addrinfo.blocks_copy addressed]

-----------------------------------------------------------------------------------------
-- Ports
-----------------------------------------------------------------------------------------

/-- Ports take no blocks. -/
@[simp]
theorem Addrinfo.blocks_fill (port socktype : Int) (ai : Addrinfo)
    : (ai.fill port socktype).blocks = ai.blocks := by
  rw [Addrinfo.fill]
  split <;> simp [Addrinfo.blocks]

/-- A pass of the loop of `ga_port`: what it allocates is on the list. -/
theorem portBody_ledger (answers : Nat → Bool) (port socktype : Int)
    (holds : m.Holds a (x :: l) (e :: es)) (addressed : e.addr.isSome)
    : (∃ m' extra made, (∀ n, portBody answers port socktype m x n = (m', 0, n))
          ∧ m'.Holds a ((x :: extra) ++ l) (made ++ es)
          ∧ m.Keeps m' (x :: l)
          ∧ m'.live answers + e.blocks = m.live answers + blocks made
          ∧ ∃ n, answers n = false)
      ∨ ∃ m' extra, (∀ n, portBody answers port socktype m x n
          = (m', lastCell x extra, n + if e.counts socktype then 1 else 0))
        ∧ m'.Holds a ((x :: extra) ++ l) (e.ported port socktype ++ es)
        ∧ m.Keeps m' (x :: l)
        ∧ m'.live answers + e.blocks = m.live answers + blocks (e.ported port socktype) := by
  have entry : m.addrinfo x = e := (List.cons.inj holds.content).1
  have nonzero : x ≠ 0 := holds.linked.2.1
  by_cases clones : e.flags &&& AI_CLONE ≠ 0 ∧ e.socktype ≠ 0
  · obtain ⟨flagged, used⟩ := clones
    obtain ⟨m₁, extra, made, ptr, clone, holds₁, keeps₁, live₁, result⟩ :=
      gaClone_ledger answers holds addressed
    have body : ∀ n, portBody answers port socktype m x n
        = if ptr = 0 then (m₁, 0, n) else portFill port socktype m₁ ptr n := by
      intro n
      simp only [portBody, entry, if_pos flagged, if_pos used, clone]
    rcases result with ⟨rfl, rfl, rfl⟩ | ⟨rfl, fails⟩
    · -- the copy is filled in
      rcases portBody_holds answers port socktype holds
        with ⟨-, m', stops⟩ | ⟨m', extra, body', holds', keeps'⟩
      · have both := (body 0).symm.trans (stops 0)
        simp [portFill] at both
      refine .inr ⟨m', extra, body', holds', keeps', ?_⟩
      have filled := (body 0).symm.trans (body' 0)
      rw [if_neg (Nat.succ_ne_zero _), portFill, Prod.mk.injEq] at filled
      have live : m'.live answers = m₁.live answers := by
        rw [← filled.1]
        rfl
      rw [live, live₁]
      simp [Addrinfo.ported, flagged, used, Addrinfo.blocks_copy addressed]
      omega
    · refine .inl ⟨m₁, extra, e :: made, fun n => (body n).trans (if_pos rfl), holds₁, keeps₁, ?_,
        fails⟩
      rw [live₁, blocks_cons]
      omega
  · -- nothing is allocated
    have one : ∃ e', e.ported port socktype = [e'] ∧ e'.blocks = e.blocks := by
      rw [Addrinfo.ported]
      split_ifs with flagged used other
      · exact absurd ⟨flagged, used⟩ clones
      · exact ⟨_, rfl, Addrinfo.blocks_fill ..⟩
      · exact ⟨_, rfl, rfl⟩
      · exact ⟨_, rfl, Addrinfo.blocks_fill ..⟩
    have quiet : ∀ n, (portBody answers port socktype m x n).1.allocs = m.allocs
        ∧ (portBody answers port socktype m x n).2.1 = x := by
      intro n
      rw [portBody, entry]
      split_ifs with flagged used other
      · exact absurd ⟨flagged, used⟩ clones
      · exact ⟨rfl, rfl⟩
      · exact ⟨rfl, rfl⟩
      · exact ⟨rfl, rfl⟩
    rcases portBody_holds answers port socktype holds
      with ⟨-, m', stops⟩ | ⟨m', extra, body', holds', keeps'⟩
    · have same := (quiet 0).2
      rw [stops] at same
      exact absurd same.symm nonzero
    · refine .inr ⟨m', extra, body', holds', keeps', ?_⟩
      have allocs := (quiet 0).1
      rw [body'] at allocs
      obtain ⟨e', made, same⟩ := one
      rw [made, blocks_cons, blocks_nil, same, Memory.live, Memory.live, allocs]
      rfl

/-- The loop of `ga_port` keeps the list in order and everything allocated on it, also when it
runs out of memory.
-/
theorem portLoop_ledger (answers : Nat → Bool) (port socktype : Int) (holds : m.Holds a l es)
    (addressed : ∀ ai ∈ es, ai.addr.isSome)
    : ∃ m' l' es', m'.Holds a l' es' ∧ m.Keeps m' l
        ∧ m'.live answers + blocks es = m.live answers + blocks es'
        ∧ ((∀ fuel n, l.length < fuel → portLoop answers port socktype fuel m (m.next a) n
              = some (m', n + es.countP (Addrinfo.counts socktype)))
            ∧ es' = es.flatMap (Addrinfo.ported port socktype)
          ∨ (∀ fuel n, l.length < fuel
              → portLoop answers port socktype fuel m (m.next a) n = some (m', -1))
            ∧ ∃ n, answers n = false) := by
  induction l generalizing m a es with
  | nil =>
      obtain rfl : [] = es := holds.content
      have last : m.next a = 0 := Option.some.inj holds.linked
      refine ⟨m, [], [], holds, ⟨le_rfl, fun _ _ _ => rfl, fun _ _ _ => rfl⟩, rfl,
        .inl ⟨fun fuel n enough => ?_, rfl⟩⟩
      obtain ⟨fuel, rfl⟩ := Nat.exists_eq_add_of_lt enough
      simp [portLoop, last]
  | cons x l ih =>
      obtain ⟨e, es, rfl⟩ : ∃ e es', es = e :: es' := ⟨_, _, holds.content.symm⟩
      have first : m.next a = x := Option.some.inj holds.linked.1
      have nonzero : x ≠ 0 := holds.linked.2.1
      rcases portBody_ledger answers port socktype holds (addressed e (by simp))
        with ⟨m', extra, made, stops, holds', keeps', live', fails⟩
          | ⟨m₁, extra, body, holds₁, keeps₁, live₁⟩
      · refine ⟨m', (x :: extra) ++ l, made ++ es, holds', keeps', ?_,
          .inr ⟨fun fuel n enough => ?_, fails⟩⟩
        · simp only [blocks_append, blocks_cons]
          omega
        · obtain ⟨fuel, rfl⟩ : ∃ k, fuel = k + 1 := ⟨fuel - 1, by omega⟩
          simp [portLoop, first, nonzero, stops]
      -- what the pass has made, and the rest of the list
      have length : (l.map m₁.addrinfo).length = es.length := by
        rw [← (List.cons.inj holds.content).2, List.length_map, List.length_map]
      obtain ⟨front, behind⟩ :=
        List.append_inj' ((List.map_append).symm.trans holds₁.content) length
      have rest : m₁.Holds (lastCell x extra) l es := behind ▸ holds₁.drop
      have goesOn : lastCell x extra ≠ 0 := by
        refine holds₁.linked.ne_zero (List.mem_append_left _ ?_)
        rcases lastCell_mem x extra with same | member
        · simp [same]
        · simp [member]
      have step : ∀ fuel n, portLoop answers port socktype (fuel + 1) m (m.next a) n
          = portLoop answers port socktype fuel m₁ (m₁.next (lastCell x extra))
            (n + if e.counts socktype then 1 else 0) := by
        intro fuel n
        simp only [portLoop, first, nonzero, if_false, body, goesOn]
      obtain ⟨m', l', es', holds', keeps', live', result⟩ :=
        ih rest fun ai member => addressed ai (by simp [member])
      have whole := Memory.Holds.replace holds₁ keeps' holds'
      rw [front] at whole
      refine ⟨m', (x :: extra) ++ l', e.ported port socktype ++ es', whole,
        keeps₁.trans keeps' fun y member => .inl (List.mem_cons_of_mem _ member), ?_,
        result.imp ?_ ?_⟩
      · simp only [blocks_append, blocks_cons]
        omega
      · rintro ⟨run, rfl⟩
        refine ⟨fun fuel n enough => ?_, rfl⟩
        obtain ⟨fuel, rfl⟩ : ∃ k, fuel = k + 1 := ⟨fuel - 1, by omega⟩
        rw [step, run fuel _ (Nat.lt_of_succ_lt_succ enough), List.countP_cons]
        congr 2
        split <;> push_cast <;> ring
      · rintro ⟨run, fails⟩
        refine ⟨fun fuel n enough => ?_, fails⟩
        obtain ⟨fuel, rfl⟩ : ∃ k, fuel = k + 1 := ⟨fuel - 1, by omega⟩
        exact (step fuel n).trans (run fuel _ (Nat.lt_of_succ_lt_succ enough))

/-- The list owns everything that has been allocated. -/
structure Memory.Owns (answers : Nat → Bool) (m : Memory) (es : List Addrinfo) : Prop where
  shows : m.Shows es
  live : m.live answers = blocks es

/-- `ga_port` on a list that owns its memory. -/
theorem gaPort_owns (answers : Nat → Bool) (port socktype : Int) (owns : m.Owns answers es)
    (addressed : ∀ ai ∈ es, ai.addr.isSome)
    : ∃ m' es', m'.Owns answers es'
        ∧ ((∀ fuel, es.length < fuel → gaPort answers fuel m port socktype
              = some (m', (es.countP (Addrinfo.counts socktype) : Int)))
            ∧ es' = es.flatMap (Addrinfo.ported port socktype)
          ∨ (∀ fuel, es.length < fuel → gaPort answers fuel m port socktype = some (m', -1))
            ∧ ∃ n, answers n = false) := by
  obtain ⟨⟨l, holds⟩, live⟩ := owns
  have length : l.length = es.length := by rw [← holds.content, List.length_map]
  obtain ⟨m', l', es', holds', -, live', result⟩ :=
    portLoop_ledger answers port socktype holds addressed
  refine ⟨m', es', ⟨⟨l', holds'⟩, by omega⟩, result.imp ?_ ?_⟩
  · rintro ⟨run, made⟩
    refine ⟨fun fuel enough => ?_, made⟩
    simpa [gaPort] using run fuel 0 (length ▸ enough)
  · rintro ⟨run, fails⟩
    exact ⟨fun fuel enough => run fuel 0 (length ▸ enough), fails⟩

end Minions.Unp.Gai
