import Minions.Printer.SpoolRules

/-! The client threads and the printer thread of the print daemon keep the discipline of the
spool.
-/

namespace Minions.Printer

open Minions.Data Minions.Logic

variable {launch : Launch} {st st' : Printd} {p q : Thread} {id : Int} {n : Name} {l : Loc} {α : Type}
  {Q : α → Loc → Printd × Unit → Prop} {K : Printd → Prop}

-----------------------------------------------------------------------------------------
-- Client threads
-----------------------------------------------------------------------------------------

/-- A request whose flags are still to be decided by the first piece of its file. -/
def PrintReq.marked (req : PrintReq) (stale : List Byte) : List Event → PrintReq
  | .data b bs :: _ => req.markText ((b :: bs).take IOBUFSZ) stale
  | _ => req

/-- The first piece of the contents decides about the text flag. -/
theorem PrintReq.marked_data {req : PrintReq} {stale bs : List Byte} {b : Byte}
    {events rest : List Event} (h : treadResult IOBUFSZ events = (.ok (b :: bs), rest))
    : req.marked stale events = req.markText (b :: bs) stale := by
  cases events with
  | nil => simp [treadResult] at h
  | cons e events =>
      cases e with
      | data c cs =>
          obtain ⟨piece, -⟩ := Prod.mk.inj h
          exact congrArg (req.markText · stale) (Except.ok.inj piece)
      | timeout => simp [treadResult] at h
      | selectError e => simp [treadResult] at h
      | readError e => simp [treadResult] at h

/-- Without contents the flags stay. -/
theorem PrintReq.marked_end {req : PrintReq} {stale : List Byte} {events : List Event}
    (h : ∀ b bs, (treadResult IOBUFSZ events).1 ≠ .ok (b :: bs))
    : req.marked stale events = req := by
  cases events with
  | nil => rfl
  | cons e events =>
      cases e with
      | data c cs => exact absurd rfl (h c (cs.take 8191))
      | timeout => rfl
      | selectError e => rfl
      | readError e => rfl

/-- The request of a connection with its text flag. -/
theorem Conn.request_eq {conn : Conn} {req : PrintReq} {rest : List Event}
    (h : conn.header = some (req, rest))
    : conn.request = some (req.marked conn.stale rest) := by
  rw [Conn.request, h, Option.map_some]
  cases rest with
  | nil => rfl
  | cons e rest => cases e <;> rfl

/-- The files of a job while its data is received. -/
def receiving (content : List Byte) : Dir → Option (List Byte)
  | .data => some content
  | .reqs => none

/-- The loop stores the file that the client sends, and finds out what kind of file it is. -/
theorem spools_receiveFile (conn : Conn) {req : PrintReq} {next : Option PrintReq → Prog Sys α}
    (own : Own p id (receiving []) st) (start : l.offset = 0) (mine : l.conn = conn)
    (stored : ∀ req' l' st', Own p id (receiving (delivered l.events)) st' → Kept launch st' →
      l'.conn = conn → req' = req.marked conn.stale l.events →
      spools launch p (next (some req')) Q l' st')
    (refused : ∀ l' st', Kept launch st' → spools launch p (next none) Q l' st')
    : spools launch p ((receiveFile (decimalInt id) req conn.stale).bind next) Q l st := by
  -- what is stored and what is still to come make up the file
  let I : Nat → Bool × PrintReq → Loc → Printd × Unit → Prop := fun n x l' s' =>
    ∃ content, Own p id (receiving content) s'.1 ∧ l'.offset = content.length ∧ l'.conn = conn
      ∧ content ++ delivered l'.events = delivered l.events
      ∧ (if x.1 then x.2.marked conn.stale l'.events else x.2) = req.marked conn.stale l.events
      ∧ n = weight l'.events
  apply wp_loop I
  · intro s' leaves _
    exact ⟨weight l.events, [], own.stable leaves, start, mine, rfl, rfl, rfl⟩
  rintro n ⟨first, req'⟩ l' ⟨st', ⟨⟩⟩ ⟨content, own', offset, mine', split, kind, rfl⟩ inv
  apply wp_tread (K := fun s => Own p id (receiving content) s.1) (spooling_freeReads launch p)
    (fun s t own leaves _ => own.stable leaves) own'
  rintro ⟨st₁, ⟨⟩⟩ own₁ kept₁
  have ends : (∀ b bs, (treadResult IOBUFSZ l'.events).1 ≠ .ok (b :: bs)) → ∀ rest st₂,
      Own p id (receiving content) st₂ → Kept launch st₂ →
      spools launch p (next (some req')) Q { l' with events := rest } st₂ := by
    intro no rest st₂ own₂ kept₂
    rw [treadResult_end (by decide) no, List.append_nil] at split
    rw [PrintReq.marked_end no, ite_self] at kind
    exact stored req' _ st₂ (split ▸ own₂) kept₂ mine' kind
  rcases result : treadResult IOBUFSZ l'.events with ⟨r, rest⟩
  rw [result] at ends
  match r with
  | .error e => exact wp_ret fun s₂ leaves kept₂ => ends nofun rest s₂.1 (own₁.stable leaves) kept₂
  | .ok [] => exact wp_ret fun s₂ leaves kept₂ => ends nofun rest s₂.1 (own₁.stable leaves) kept₂
  | .ok (b :: bs) =>
      obtain ⟨smaller, more⟩ := treadResult_data result
      refine own_writeAll (d := .data) (l := { l' with events := rest }) own₁ rfl offset ?may ?room
        ?whole ?broken
      case may => exact fun st own => own.2 .reqs
      case room => exact nofun
      case whole =>
        -- the piece is stored
        intro st₂ own₂ _
        apply wp_ret
        intro s₃ leaves _
        refine ⟨weight rest, by omega, content ++ (b :: bs), ?_, ?_, mine', ?_, ?_, rfl⟩
        · obtain ⟨works, same⟩ := own₂.stable leaves
          refine ⟨works, ?_⟩
          intro d
          rw [same d]
          cases d <;> rfl
        · simp [offset]
        · rw [more] at split
          rw [List.append_assoc]
          exact split
        · rw [PrintReq.marked_data result] at kind
          exact kind
      case broken =>
        -- the client is told
        intro e l₂ st₂ works _
        apply spool_log works Working.stable (by simp)
        intro st₃ works _
        apply spool_refuse works Working.stable
        intro st₄ works _
        apply own_unlink works
        intro l₅ st₅ _ _
        apply wp_ret
        intro s₆ _ kept₆
        exact refused _ s₆.1 kept₆

/-- The thread queues the job that it has accepted. -/
theorem spools_addJob {req : PrintReq} (told : Acked st id)
    : spools launch p
        (do
          sys (.logMsg (.addingJob id))
          match ← sys (.addJob ⟨id, req⟩) with
          | true => pure ()
          | false => .abort .mallocFailed)
        (fun _ _ _ => True) l st := by
  have stable : ∀ {s t : Printd}, Acked s id → Leaves launch p s t → Acked t id :=
    fun told leaves => leaves.acked id told
  apply spool_log told stable (by simp)
  intro st₁ told₁ _
  apply spool_add told₁ stable
  case settled => exact fun st told kept => ⟨kept.range_of_acked told, .inr told⟩
  case opened =>
    intro st told kept _
    obtain ⟨q, issued⟩ := kept.issued_of_acked told
    exact (kept.numbers.opened (List.ne_nil_of_mem issued)).1
  case added => exact fun _ _ _ => spool_done
  case failed => exact fun _ _ _ _ => trivial

/-- The thread that has stored a file writes the request, answers and queues the job. -/
theorem spools_submitJob {req : PrintReq} (own : Own p id (receiving l.conn.body) st)
    (request : l.conn.request = some req)
    : spools launch p (submitJob id (decimalInt id) req) (fun _ _ _ => True) l st := by
  apply own_creat own rfl
  case created =>
    intro st₁ own₁ _
    refine own_writeAll (d := .reqs) (l := { l.next with offset := 0 }) own₁ rfl rfl ?may ?room ?whole
      ?broken
    case may => exact fun st own => own.2 .reqs
    case room => simp
    case whole =>
      intro st₂ own₂ _
      apply spool_call
      intro st₃ leaves kept₃ _
      have own₃ := own₂.stable leaves
      have intact : Intact st₃ l.conn id := ⟨own₃.2 .data, req, request, own₃.2 .reqs⟩
      have range := kept₃.numbers.range own₃.1.1
      refine ⟨trivial, trivial, kept₃.accept own₃.1 intact,
        fun q other => kept₃.accept_leaves own₃.1 other _, ?_⟩
      have told : Acked (st₃.respond l.conn (acceptResp id)) id := by
        refine ⟨(l.conn, acceptResp id), ?_, acceptResp_id range.1 range.2⟩
        rw [acks_respond_accept]
        exact List.mem_append_right _ List.mem_cons_self
      exact spools_addJob told
    case broken =>
      intro e l₂ st₂ works _
      apply spool_log works Working.stable (by simp)
      intro st₃ works _
      apply spool_refuse works Working.stable
      intro st₄ works _
      apply own_unlink works
      intro l₅ st₅ works _
      apply own_unlink works
      intro l₆ st₆ _ _
      exact spool_done
  case failed =>
    intro e st₁ own₁ _
    apply spool_log own₁.1 Working.stable (by simp)
    intro st₂ works _
    apply spool_refuse works Working.stable
    intro st₃ works _
    apply own_unlink works
    intro l₄ st₄ _ _
    exact spool_done

/-- What a client thread knows when it has stored the file. -/
def Received (p : Thread) (conn : Conn) : Option (Int × PrintReq) → Loc → Printd × Unit → Prop
  | none, _, _ => True
  | some (id, req), l, s =>
      l.conn = conn ∧ conn.request = some req ∧ Own p id (receiving conn.body) s.1

/-- `client_thread` keeps the spool up to its answer. -/
theorem spools_acceptFile (conn : Conn)
    : spools launch p (acceptFile conn) (Received p conn) l st := by
  have nothing : ∀ {l st}, spools launch p (.ret none) (Received p conn) l st :=
    fun _ _ _ => trivial
  apply spool_call
  intro st₁ _ kept₁ opened
  refine ⟨trivial, trivial, kept₁, fun q _ => .refl _, ?_⟩
  have stable : ∀ {s t : Printd}, .initialized ∈ s.log → Leaves launch p s t →
      .initialized ∈ t.log :=
    fun opened leaves => leaves.opened opened
  apply wp_treadn (K := fun s => .initialized ∈ s.1.log) (spooling_freeReads launch p)
    (fun s t opened leaves _ => stable opened leaves) opened
  case whole =>
    rintro bytes rest ⟨st₂, ⟨⟩⟩ arrived opened₂ kept₂
    have arrived : arrive PRINTREQ_SZ conn.events = some (bytes, rest) := arrived
    have size := arrive_length arrived
    have header : conn.header = some ((PrintReq.ofBytes bytes size).toHost, rest) := by
      simp [Conn.header, arrived, size]
    have body : conn.body = delivered rest := by simp [Conn.body, header]
    simp only [size, dite_true]
    apply spool_call
    intro st₃ leaves kept₃ ready
    obtain ⟨ahead, fresh⟩ := ready (stable opened₂ leaves)
    have unused := kept₃.next_unused ahead fresh
    refine ⟨unused, trivial, kept₃.issue ahead fresh (stable opened₂ leaves) p,
      fun q _ => issue_leaves st₃ p q, ?_⟩
    have own : Own p st₃.nextjob (fun d => st₃.files d (decimalInt st₃.nextjob)) (st₃.issue p) :=
      ⟨kept₃.working_issue fresh p, fun _ => rfl⟩
    apply own_creat own unused
    case created =>
      intro st₄ own₄ _
      have own₄ : Own p st₃.nextjob (receiving []) st₄ := by
        obtain ⟨works, same⟩ := own₄
        refine ⟨works, ?_⟩
        intro d
        rw [same d]
        cases d with
        | data => rfl
        | reqs => exact unused
      refine spools_receiveFile conn own₄ rfl rfl ?stored ?refused
      case stored =>
        intro req' l' st' own' _ mine kind
        apply wp_ret
        intro s leaves _
        have own' : Own p st₃.nextjob (receiving conn.body) s.1 := by
          rw [body]
          exact own'.stable leaves
        rw [kind]
        exact ⟨mine, Conn.request_eq header, own'⟩
      case refused => exact fun _ _ _ => nothing
    case failed =>
      intro e st₄ own₄ _
      apply spool_log own₄ Own.stable (by simp)
      intro st₅ own₅ _
      apply spool_refuse own₅ Own.stable
      intro st₆ _ _
      exact nothing
  case broken =>
    rintro result rest ⟨st₂, ⟨⟩⟩ - short opened₂ -
    cases result with
    | error e =>
        apply spool_refuse opened₂ stable
        intro st₃ _ _
        exact nothing
    | ok bytes =>
        simp only [short bytes rfl, dite_false]
        apply spool_refuse opened₂ stable
        intro st₃ _ _
        exact nothing

/-- A client thread keeps the discipline. -/
theorem spools_clientThread (conn : Conn) (kept : Kept launch st)
    : spools launch p (clientThread conn) (fun _ _ _ => True) l st := by
  refine wp_bind kept (wp_mono ?_ (spools_acceptFile conn))
  intro r l' s' _ received
  match r, received with
  | none, _ => exact spool_done
  | some (id, req), ⟨mine, request, own⟩ =>
      subst mine
      exact spools_submitJob own request

-----------------------------------------------------------------------------------------
-- The printer thread
-----------------------------------------------------------------------------------------

/-- The job was taken from the queue. -/
def Held (launch : Launch) (id : Int) (st : Printd) : Prop := Settled launch st id ∧ Added st id

/-- A held job stays so while others step. -/
theorem Held.stable {s t : Printd} (held : Held launch id s) (leaves : Leaves launch p s t)
    : Held launch id t :=
  ⟨held.1.mono leaves.acked, leaves.added id held.2⟩

/-- A write to the printer. -/
theorem spools_sendAll {len : Nat} {short : Nat → LogMsg} {next : Bool → Prog Sys α}
    (ordinary : ∀ nw, short nw ≠ .initialized) (known : K st)
    (stable : ∀ {s t}, K s → Leaves launch p s t → K t)
    (h : ∀ sent l' st', l'.offset = l.offset → K st' → spools launch p (next sent) Q l' st')
    : spools launch p ((sendAll len short).bind next) Q l st := by
  apply spool_read known stable rfl
  intro st₁ known₁ _
  have same : (execCall p (.send len) l st₁).2.1.offset = l.offset := by
    rcases fault : l.fault with _ | e | k <;> simp [execCall, fault, Loc.next]
  rcases (execCall p (.send len) l st₁).1 with e | nw
  · apply spool_log known₁ stable (by simp)
    intro st₂ known₂ _
    exact h false _ st₂ same known₂
  · by_cases whole : nw = len
    · simp only [Prog.ret_bind, if_pos whole]
      exact h true _ st₁ same known₁
    · simp only [Prog.ret_bind, if_neg whole]
      apply spool_log known₁ stable (ordinary nw)
      intro st₂ known₂ _
      exact h false _ st₂ same known₂

/-- The job is held, and no more than so many bytes of its file are still to be sent. -/
def Sending (launch : Launch) (id : Int) (offset left : Nat) (st : Printd) : Prop :=
  Held launch id st ∧ ((st.files .data (decimalInt id)).getD []).length - offset ≤ left

/-- A job that is sent stays so while others step. -/
theorem Sending.stable {offset left : Nat} {s t : Printd} (sending : Sending launch id offset left s)
    (leaves : Leaves launch p s t)
    : Sending launch id offset left t := by
  obtain ⟨held, bound⟩ := sending
  refine ⟨held.stable leaves, ?_⟩
  rcases leaves.settled id held.1 with same | gone
  · rw [same]
    exact bound
  · simp [gone]

/-- The loop that sends the file ends: no thread makes the file longer. -/
theorem spools_sendFile (held : Held launch id st)
    : spools launch p (sendFile (decimalInt id)) (fun _ _ s => Held launch id s.1) l st := by
  have leave : ∀ {sent : Bool} {l st}, Held launch id st →
      spools launch p (.ret sent) (fun _ _ s => Held launch id s.1) l st :=
    fun held => wp_ret fun _ leaves _ => held.stable leaves
  apply wp_loop fun left _ l s => Sending launch id l.offset left s.1
  · intro s leaves _
    exact ⟨_, held.stable leaves, Nat.le_refl _⟩
  rintro left ⟨⟩ l' ⟨st', ⟨⟩⟩ sending _
  apply spool_read sending Sending.stable rfl
  intro st₁ sending₁ _
  cases passed : l'.fault.passes with
  | false =>
      obtain ⟨e, result⟩ : ∃ e,
          execCall p (.read .data (decimalInt id) IOBUFSZ) l' st₁ = (.error e, l'.next, st₁) := by
        rcases fault : l'.fault with _ | e | k <;> simp_all [execCall, Fault.passes]
      rw [result]
      apply spool_log sending₁.1 Held.stable (by simp)
      intro st₂ held₂ _
      exact wp_ret fun s leaves _ => leave (held₂.stable leaves)
  | true =>
      obtain ⟨bytes, isBytes⟩ : ∃ bytes,
          bytes = pread ((st₁.files .data (decimalInt id)).getD []) l'.offset IOBUFSZ := ⟨_, rfl⟩
      have result : execCall p (.read .data (decimalInt id) IOBUFSZ) l' st₁
          = (.ok bytes, { l'.next with offset := l'.offset + bytes.length }, st₁) := by
        rcases fault : l'.fault with _ | e | k <;> simp_all [execCall, Fault.passes]
      rw [result]
      cases bytes with
      | nil => exact wp_ret fun s leaves _ => leave (sending₁.1.stable leaves)
      | cons b bs =>
          have size : bs.length + 1
              ≤ ((st₁.files .data (decimalInt id)).getD []).length - l'.offset := by
            have lengths := congrArg List.length isBytes
            simp only [pread, List.length_cons, List.length_take, List.length_drop] at lengths
            omega
          have less : Sending launch id (l'.offset + (b :: bs).length) (left - 1) st₁ := by
            refine ⟨sending₁.1, ?_⟩
            have bound := sending₁.2
            simp only [List.length_cons]
            omega
          have some_ : 0 < left := by
            have bound := sending₁.2
            omega
          apply spools_sendAll (by simp) less Sending.stable
          intro sent l₂ st₂ offset sending₂
          cases sent with
          | false => exact wp_ret fun s leaves _ => leave (sending₂.1.stable leaves)
          | true =>
              apply wp_ret
              intro s leaves _
              refine ⟨left - 1, by omega, ?_⟩
              rw [offset]
              exact sending₂.stable leaves

/-- Sending a document keeps the spool. -/
theorem spools_sendDocument {job : Job} {hlen : Nat} (held : Held launch id st)
    : spools launch p (sendDocument job (decimalInt id) hlen) (fun _ _ s => Held launch id s.1) l
        st := by
  have leave : ∀ {sent : Bool} {l st}, Held launch id st →
      spools launch p (.ret sent) (fun _ _ s => Held launch id s.1) l st :=
    fun held => wp_ret fun _ leaves _ => held.stable leaves
  apply spools_sendAll (by simp) held Held.stable
  intro sent l₁ st₁ _ held₁
  cases sent with
  | false => exact leave held₁
  | true =>
      by_cases plain : job.req.flags &&& PR_TEXT ≠ 0
      · simp only [if_pos plain]
        apply spools_sendAll (by simp) held₁ Held.stable
        intro sent l₂ st₂ _ held₂
        cases sent with
        | false => exact leave held₂
        | true => exact spools_sendFile held₂
      · simp only [if_neg plain]
        exact spools_sendFile held₁

/-- The files of a job that was printed are removed. -/
theorem printed_unlink {d : Dir} {next : Unit → Prog Sys α} (held : Held launch id st)
    (printed : id ∈ st.confirmed)
    (h : ∀ l st, Held launch id st → id ∈ st.confirmed → spools launch p (next ()) Q l st)
    : spools launch p (.call (.unlink d (decimalInt id)) next) Q l st := by
  apply spool_call
  intro st₁ leaves kept _
  have held₁ := held.stable leaves
  have printed₁ := leaves.confirmed id printed
  have range := held₁.1.1
  have touch := touches_unlink p d (decimalInt id) l st₁
  have less := fun d' => files_unlink p d d' (decimalInt id) l st₁
  have kept' : Kept launch (execCall p (.unlink d (decimalInt id)) l st₁).2.2 := by
    apply touch.kept_removed kept less
    · intro id' told same
      rw [(kept.range_of_acked told).name_inj range same]
      exact printed₁
    · exact fun _ _ _ => ⟨id, printed₁, range, rfl⟩
  have all : ∀ q, Leaves launch q st₁ (execCall p (.unlink d (decimalInt id)) l st₁).2.2 := by
    intro q
    apply touch.leaves
    · intro id' works same
      have other := kept.working_ne works held₁.1
      exact other ((kept.numbers.range works.1).name_inj range same).symm
    · intro _ _ _
      exact less .data
  exact ⟨trivial, trivial, kept', fun q _ => all q,
    h _ _ (held₁.stable (all p)) ((all p).confirmed id printed₁)⟩

/-- The job is put back at the head of the queue. -/
theorem spools_replaceJob {job : Job} (held : Held launch job.jobid st)
    : spools launch p (sys (.replaceJob job)) (fun _ _ _ => True) l st := by
  apply spool_quiet held Held.stable
  case harmless => exact fun _ _ => ⟨trivial, trivial⟩
  case quiet =>
    intro st held _ _
    refine ⟨rfl, rfl, rfl, rfl, fun _ queued => queued, fun _ member => member,
      fun _ member => .inl member, ?_, fun opened => opened⟩
    intro job' member
    rcases List.mem_cons.mp member with rfl | old
    · exact .inr held
    · exact .inl old
  case building => exact fun _ _ _ unopened => ⟨unopened, fun _ => rfl⟩
  case h => exact fun _ _ _ _ _ => spool_done

/-- Updating the job file keeps the spool. -/
theorem spools_updateJobno (held : Held launch id st)
    : spools launch p updateJobno (fun _ _ s => Held launch id s.1) l st := by
  apply spool_hidden held Held.stable rfl
  intro r l₁ st₁ held₁ _
  rcases r with e | ⟨⟩
  · exact trivial
  apply spool_hidden held₁ Held.stable rfl
  intro nextjob l₂ st₂ held₂ _
  apply spool_hidden held₂ Held.stable rfl
  intro r l₃ st₃ held₃ _
  rcases r with e | nw
  · exact trivial
  · exact wp_ret fun _ leaves _ => held₃.stable leaves

/-- Reading the configuration keeps the spool. -/
theorem spools_checkConfig (held : Held launch id st)
    : spools launch p checkConfig (fun _ _ s => Held launch id s.1) l st := by
  apply spool_hidden held Held.stable rfl
  intro reread l₁ st₁ held₁ _
  cases reread with
  | false => exact wp_ret fun _ leaves _ => held₁.stable leaves
  | true =>
      apply spool_hidden held₁ Held.stable rfl
      intro found l₂ st₂ held₂ _
      cases found with
      | false => exact trivial
      | true => exact wp_ret fun _ leaves _ => held₂.stable leaves

/-- The last part of a round: the printer's answer decides what becomes of the job. -/
theorem spools_printerStatus {job : Job} {next : Bool → Prog Sys α} (held : Held launch job.jobid st)
    (printed : ∀ l st, Held launch job.jobid st → job.jobid ∈ st.confirmed →
      spools launch p (next true) Q l st)
    (deferred : ∀ l st, Held launch job.jobid st → spools launch p (next false) Q l st)
    : spools launch p (.call (.printerStatus job.jobid) next) Q l st := by
  have cases_ : ∀ st,
      execCall p (.printerStatus job.jobid) l st
        = (true, { l with answers := l.answers.tail },
            { st with confirmed := st.confirmed ++ [job.jobid] })
      ∨ execCall p (.printerStatus job.jobid) l st
        = (false, { l with answers := l.answers.tail }, st) := by
    intro st
    simp only [execCall]
    split
    · exact .inl rfl
    · exact .inr rfl
  apply spool_quiet held Held.stable
  case harmless => exact fun _ _ => ⟨trivial, trivial⟩
  case quiet =>
    intro st held _ _
    rcases cases_ st with result | result <;> rw [result]
    · refine ⟨rfl, rfl, rfl, rfl, fun _ queued => queued, fun _ old => List.mem_append_left _ old, ?_,
        fun _ member => .inl member, fun opened => opened⟩
      intro id member
      rcases List.mem_append.mp member with old | new
      · exact .inl old
      · rw [List.mem_singleton.mp new]
        exact .inr held.2
    · exact (Unseen.refl st).quiet
  case building =>
    intro st _ _ unopened
    rcases cases_ st with result | result <;> rw [result] <;> exact ⟨unopened, fun _ => rfl⟩
  case h =>
    intro st held _ _ _
    rcases cases_ st with result | result <;> rw [result]
    · exact printed _ _ held (List.mem_append_right _ List.mem_cons_self)
    · exact deferred _ _ held

/-- The printer thread keeps the discipline. -/
theorem spools_printerThread (hlen : Nat)
    : spools launch p (printerThread hlen) (fun _ _ _ => True) l st := by
  apply spool_quiet (K := fun _ => True) trivial (fun _ _ => trivial)
  case harmless => exact fun _ _ => ⟨trivial, trivial⟩
  case quiet =>
    intro st _ _ _
    exact ⟨rfl, rfl, rfl, rfl, fun _ queued => queued, fun _ member => member,
      fun _ member => .inl member, fun _ member => .inl (List.mem_of_mem_tail member),
      fun opened => opened⟩
  case building => exact fun _ _ _ unopened => ⟨unopened, fun _ => rfl⟩
  case h =>
    intro st₁ _ kept₁ waiting _
    obtain ⟨job, rest, queue⟩ := List.exists_cons_of_ne_nil waiting
    have taken : (execCall p .takeJob l st₁).1 = job := by simp [execCall, queue]
    rw [taken]
    have held : Held launch job.jobid { st₁ with queue := st₁.queue.tail } :=
      kept₁.queued job (by rw [queue]; exact List.mem_cons_self)
    apply spool_log held Held.stable (by simp)
    intro st₂ held₂ kept₂
    simp only [Prog.bind_eq, Prog.ret_bind]
    refine wp_bind kept₂ (wp_mono ?_ (spools_updateJobno held₂))
    intro _ l₃ s₃ kept₃ held₃
    refine wp_bind kept₃ (wp_mono ?_ (spools_checkConfig held₃))
    intro _ l₄ s₄ kept₄ held₄
    apply spool_hidden held₄ Held.stable rfl
    intro r l₅ st₅ held₅ _
    rcases r with e | ⟨⟩
    · apply spool_log held₅ Held.stable (by simp)
      exact fun _ _ _ => spool_done
    apply spool_hidden held₅ Held.stable rfl
    intro r l₆ st₆ held₆ _
    rcases r with e | size
    · apply spool_log held₆ Held.stable (by simp)
      exact fun _ _ _ => spool_done
    apply spool_hidden held₆ Held.stable rfl
    intro r l₇ st₇ held₇ kept₇
    rcases r with e | ⟨⟩
    · apply spool_log held₇ Held.stable (by simp)
      exact fun _ held₈ _ => spools_replaceJob held₈
    simp only [Prog.ret_bind]
    refine wp_bind kept₇ (wp_mono ?_ (spools_sendDocument held₇))
    intro sent l₈ s₈ _ held₈
    cases sent with
    | false => exact spools_replaceJob held₈
    | true =>
        apply spools_printerStatus held₈
        case deferred => exact fun _ _ held₉ => spools_replaceJob held₉
        case printed =>
          intro l₉ st₉ held₉ printed
          apply printed_unlink held₉ printed
          intro l₁₀ st₁₀ held₁₀ printed
          apply printed_unlink held₁₀ printed
          exact fun _ _ _ _ => spool_done

end Minions.Printer
