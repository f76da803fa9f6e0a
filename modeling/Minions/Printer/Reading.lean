import Minions.Logic.RelyGuarantee
import Minions.Printer.Threads

/-! What the reading loops of a client thread receive.
The reads touch only the thread's own socket, so these rules hold whatever the other threads
do: what the thread knows of the shared state need only be stable.
-/

namespace Minions.Printer

open Minions.Data Minions.Logic

/-- The result of `tread` on a socket. -/
def treadResult (n : Nat) : List Event → Except Errno (List Byte) × List Event
  | [] => (.ok [], [])
  | .data b bs :: rest => (.ok ((b :: bs).take n), ready ((b :: bs).drop n) rest)
  | .timeout :: rest => (.error ETIME, rest)
  | .selectError e :: rest => (.error e, rest)
  | .readError e :: rest => (.error e, rest)

/-- The bytes and other events that are still to come. -/
def weight : List Event → Nat
  | [] => 0
  | .data _ bs :: rest => bs.length + 1 + weight rest
  | _ :: rest => 1 + weight rest

/-- The weight of bytes that are ready. -/
theorem weight_ready (bytes : List Byte) (events : List Event)
    : weight (ready bytes events) = bytes.length + weight events := by
  cases bytes <;> simp [ready, weight]

/-- Bytes that are ready are delivered. -/
theorem delivered_ready (bytes : List Byte) (events : List Event)
    : delivered (ready bytes events) = bytes ++ delivered events := by
  cases bytes <;> simp [ready, delivered]

/-- A read of nothing. -/
theorem arrive_zero (events : List Event) : arrive 0 events = some ([], events) := by
  cases events with
  | nil => rfl
  | cons e rest => cases e <;> simp [arrive, ready]

/-- `n` bytes arrive or fewer do. -/
theorem arrive_length {n : Nat} {events rest : List Event} {bytes : List Byte}
    (h : arrive n events = some (bytes, rest))
    : bytes.length = n := by
  induction events generalizing n bytes with
  | nil =>
      cases n with
      | zero => simp_all [arrive]
      | succ n => simp [arrive] at h
  | cons e events ih =>
      cases e with
      | data b bs =>
          simp only [arrive] at h
          split at h
          · next small =>
              obtain ⟨rfl, rfl⟩ := Prod.mk.inj (Option.some.inj h)
              simp only [List.length_take, List.length_cons]
              omega
          · obtain ⟨⟨more, rest'⟩, found, eq⟩ := Option.map_eq_some_iff.mp h
            obtain ⟨rfl, rfl⟩ := Prod.mk.inj eq
            have length := ih found
            simp only [List.cons_append, List.length_cons, List.length_append, length]
            omega
      | timeout => cases n <;> simp_all [arrive]
      | selectError e => cases n <;> simp_all [arrive]
      | readError e => cases n <;> simp_all [arrive]

/-- What arrives first is a piece and then the rest. -/
theorem arrive_data {n : Nat} (b : Byte) (bs : List Byte) (rest : List Event)
    : arrive n (.data b bs :: rest)
      = (arrive (n - ((b :: bs).take n).length) (ready ((b :: bs).drop n) rest)).map
          fun r => ((b :: bs).take n ++ r.1, r.2) := by
  simp only [arrive]
  split
  · next small =>
      have full : n - ((b :: bs).take n).length = 0 := by
        simp only [List.length_take, List.length_cons]
        omega
      rw [full, arrive_zero]
      simp
  · next large =>
      have whole : (b :: bs).take n = b :: bs :=
        List.take_of_length_le (by simp only [List.length_cons]; omega)
      have nothing : (b :: bs).drop n = [] :=
        List.drop_eq_nil_of_le (by simp only [List.length_cons]; omega)
      simp [whole, nothing, ready]

/-- A read that does not find the bytes of the next event. -/
theorem arrive_other {n : Nat} {events : List Event} (pos : 0 < n)
    (other : ∀ b bs rest, events ≠ .data b bs :: rest)
    : arrive n events = none := by
  obtain ⟨n, rfl⟩ : ∃ k, n = k + 1 := ⟨n - 1, by omega⟩
  cases events with
  | nil => rfl
  | cons e rest =>
      cases e with
      | data b bs => exact absurd rfl (other b bs rest)
      | timeout => rfl
      | selectError e => rfl
      | readError e => rfl

-----------------------------------------------------------------------------------------
-- Rules
-----------------------------------------------------------------------------------------

variable {G α : Type} {gate : Call → Printd → Prop} {D : Discipline Sys Thread Loc Printd G}
  {p : Thread} {ab : Prop} {Q : α → Loc → Printd × G → Prop} {K : Printd × G → Prop} {l : Loc}
  {s : Printd × G}

/-- The discipline says nothing about reads from a socket. -/
structure FreeReads (D : Discipline Sys Thread Loc Printd G) (p : Thread) : Prop where
  maySelect : ∀ timout l s, D.permit p (.select timout) l s
  mayRecv : ∀ n l s, D.permit p (.recv n) l s
  onSelect : ∀ timout g, D.onCall p (.select timout) g g
  onRecv : ∀ n g, D.onCall p (.recv n) g g

/-- A read from the connection, which others leave alone. -/
theorem wp_recv (free : FreeReads D p) {n : Nat} {next : Except Errno (List Byte) → Prog Sys α}
    (stable : ∀ s t, K s → D.rely p s t → D.inv t → K t) (known : K s)
    (h : ∀ s', K s' → D.inv s'
      → wp (daemonWith gate) D p ab (next (recv n l.events).1) Q
          { l with events := (recv n l.events).2 } s')
    : wp (daemonWith gate) D p ab (.call (.recv n) next) Q l s :=
  wp_call_read (fun _ _ => rfl) (fun s' _ => free.mayRecv n l s') (fun g => free.onRecv n g)
    fun s' rely inv => h s' (stable s s' known rely inv) inv

/-- One read; the thread keeps what it knows. -/
theorem wp_tread (free : FreeReads D p) {n timout : Nat}
    {next : Except Errno (List Byte) → Prog Sys α}
    (stable : ∀ s t, K s → D.rely p s t → D.inv t → K t) (known : K s)
    (h : ∀ s', K s' → D.inv s'
      → wp (daemonWith gate) D p ab (next (treadResult n l.events).1) Q
          { l with events := (treadResult n l.events).2 } s')
    : wp (daemonWith gate) D p ab ((tread n timout).bind next) Q l s := by
  refine wp_call_read (fun _ _ => rfl) (fun s' _ => free.maySelect timout l s')
    (fun g => free.onSelect timout g) fun s' rely inv => ?_
  have known' := stable s s' known rely inv
  obtain ⟨conn, events, faults, offset, names, answers⟩ := l
  cases events with
  | nil => exact wp_recv free stable known' h
  | cons e rest =>
      cases e with
      | data b bs => exact wp_recv free stable known' h
      | timeout => exact h s' known' inv
      | selectError e => exact h s' known' inv
      | readError e => exact wp_recv free stable known' h

/-- Reading a block of a given size: it arrives whole, or the thread sees that it does not. -/
theorem wp_treadn (free : FreeReads D p) {nbytes timout : Nat}
    {next : Except Errno (List Byte) → Prog Sys α}
    (stable : ∀ s t, K s → D.rely p s t → D.inv t → K t) (known : K s)
    (whole : ∀ bytes rest s', arrive nbytes l.events = some (bytes, rest) → K s' → D.inv s'
      → wp (daemonWith gate) D p ab (next (.ok bytes)) Q { l with events := rest } s')
    (broken : ∀ result rest s', arrive nbytes l.events = none
      → (∀ bytes, result = .ok bytes → bytes.length ≠ nbytes) → K s' → D.inv s'
      → wp (daemonWith gate) D p ab (next result) Q { l with events := rest } s')
    : wp (daemonWith gate) D p ab ((treadn nbytes timout).bind next) Q l s := by
  -- the bytes read so far and those still to arrive make up the block
  let I : Nat → List Byte → Loc → Printd × G → Prop := fun n got l' s' =>
    K s' ∧ n = nbytes - got.length ∧ got.length ≤ nbytes ∧ ∃ events, l' = { l with events }
      ∧ arrive nbytes l.events = (arrive n events).map fun r => (got ++ r.1, r.2)
  refine wp_loop I (fun s' rely inv => ?_) ?_
  · exact ⟨nbytes, stable s s' known rely inv, rfl, by simp, l.events, rfl, by simp⟩
  rintro n got l' s' ⟨known', rfl, bound, events, rfl, split⟩ inv
  by_cases more : 0 < nbytes - got.length
  · rw [if_pos more]
    refine wp_tread free stable known' fun s₁ known₁ inv₁ => ?_
    have leave : ∀ (result : Except Errno (List Byte)) rest,
        (∀ b bs rest, events ≠ .data b bs :: rest)
        → (∀ bytes, result = .ok bytes → bytes.length ≠ nbytes)
        → ∀ s₂, D.rely p s₁ s₂ → D.inv s₂
        → wp (daemonWith gate) D p ab (next result) Q { l with events := rest } s₂ := by
      intro result rest other short s₂ rely₂ inv₂
      have none_ : arrive nbytes l.events = none := by
        rw [split, arrive_other more other, Option.map_none]
      exact broken result rest s₂ none_ short (stable s₁ s₂ known₁ rely₂ inv₂) inv₂
    have partial_ : ∀ bytes, (.ok got : Except Errno (List Byte)) = .ok bytes
        → bytes.length ≠ nbytes := by
      intro bytes same
      obtain rfl := Except.ok.inj same
      omega
    have failed : ∀ e, ∀ bytes,
        (if got.length = 0 then .error e else .ok got : Except Errno (List Byte)) = .ok bytes
        → bytes.length ≠ nbytes := by
      intro e bytes same
      split at same
      · exact absurd same nofun
      · exact partial_ bytes same
    cases events with
    | nil => exact wp_ret (leave _ [] nofun partial_)
    | cons e rest =>
        cases e with
        | data b bs =>
            have taken : ∃ c cs, (b :: bs).take (nbytes - got.length) = c :: cs := by
              obtain ⟨k, succ⟩ : ∃ k, nbytes - got.length = k + 1 :=
                ⟨nbytes - got.length - 1, by omega⟩
              exact ⟨b, bs.take k, by rw [succ, List.take_succ_cons]⟩
            obtain ⟨c, cs, piece⟩ := taken
            have size : (c :: cs).length ≤ nbytes - got.length := by
              rw [← piece]
              exact List.length_take_le _ _
            simp only [List.length_cons] at size
            rw [arrive_data, piece] at split
            simp only [treadResult, piece]
            refine wp_ret fun s₂ rely₂ inv₂ => ?_
            refine ⟨nbytes - (got ++ c :: cs).length, ?_, stable s₁ s₂ known₁ rely₂ inv₂, rfl, ?_,
              _, rfl, ?_⟩
            · simp only [List.length_append, List.length_cons]
              omega
            · simp only [List.length_append, List.length_cons]
              omega
            · rw [split, List.length_append, Nat.sub_add_eq, Option.map_map]
              refine congrFun (congrArg _ (funext fun r => ?_)) _
              simp
        | timeout => exact wp_ret (leave _ rest nofun (failed _))
        | selectError e => exact wp_ret (leave _ rest nofun (failed _))
        | readError e => exact wp_ret (leave _ rest nofun (failed _))
  · rw [if_neg more]
    refine wp_ret fun s₁ rely₁ inv₁ => ?_
    have done : nbytes - got.length = 0 := by omega
    rw [done, arrive_zero] at split
    exact whole got events s₁ (by simpa using split) (stable s' s₁ known' rely₁ inv₁) inv₁

end Minions.Printer
