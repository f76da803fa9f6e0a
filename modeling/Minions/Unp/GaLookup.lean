import Minions.Unp.GaLedger
import Minions.Unp.GaServ

/-! What `getaddrinfo` answers, by lists and without memory. The code makes this list and owns
everything that it has allocated, or an allocation has failed.
-/

namespace Minions.Unp.Gai

open Minions.Data

variable {answers : Nat → Bool} {m m' : Memory} {a x : Nat} {l : List Nat}
  {e : Addrinfo} {es : List Addrinfo} {r : Resolver} {hostname servname : Option (List Byte)}
  {hints : SearchHints}

-----------------------------------------------------------------------------------------
-- The answer
-----------------------------------------------------------------------------------------

/-- What the search has found: the entries, and the canonical name of the first host. -/
structure Found where
  entries : List Addrinfo := []
  canon : Option (List Byte) := none

/-- The entries of the addresses of a host. -/
def addrEntries (hints : Hints) (family : Family) (aps : List (List Byte)) : List Addrinfo :=
  aps.map fun ap => Request.entry ⟨hints, ap, family⟩

/-- The canonical name that a pass with this host leaves. -/
def canonWith (hostname : Option (List Byte)) (hints : SearchHints)
    (canon : Option (List Byte)) (hptr : Hostent) : Option (List Byte) :=
  if wantsCanon hostname hints then canon.or (some hptr.name) else canon

/-- One search. -/
def Found.pass (r : Resolver) (hostname : Option (List Byte)) (hints : SearchHints)
    (nsearch : Nat) (f : Found) (s : Search) : Except Int Found :=
  match s.find r hints nsearch with
  | .error e => .error e
  | .ok .skip => .ok f
  | .ok (.numeric addr family) =>
      .ok { f with entries := f.entries ++ [Request.entry ⟨hints.toHints, addr, family⟩] }
  | .ok (.host hptr) =>
      .ok {
        entries := f.entries ++ addrEntries hints.toHints hptr.addrtype hptr.addrList
        canon := canonWith hostname hints f.canon hptr }

/-- The canonical name goes to the first entry. -/
def nameFirst (canonname : List Byte) : List Addrinfo → List Addrinfo
  | [] => []
  | ai :: es => { ai with canonname := some canonname } :: es

/-- The entries with the canonical name, where the caller wants it: that of the first host, or
what was searched for when there was no host.
-/
def Found.named (hostname : Option (List Byte)) (hints : SearchHints) (search : List Search)
    (f : Found) : List Addrinfo :=
  if wantsCanon hostname hints then
    nameFirst (f.canon.getD (search.headD ⟨[], AF_UNSPEC⟩).host) f.entries
  else f.entries

/-- An entry with every port and socket type of a service: the original has the first. -/
def Addrinfo.spread (ai : Addrinfo) : List (Int × Int) → List Addrinfo
  | [] => [ai]
  | first :: later => ai.fill first.1 first.2 :: later.map fun c => ai.copy.fill c.1 c.2

/-- All entries with every port and socket type of the service, if it has any. -/
def serve (host : Host) (hints : Hints) (serv : List Byte) (es : List Addrinfo)
    : Except Int (List Addrinfo) :=
  if servCalls host hints serv = [] then
    .error (if hints.socktype = 0 then EAI_NONAME else EAI_SERVICE)
  else .ok (es.flatMap fun ai => ai.spread (servCalls host hints serv))

/-- The answer for hosts and addresses of the internet. -/
def lookupInet (r : Resolver) (hostname servname : Option (List Byte)) (hints : SearchHints)
    (search : List Search) : Except Int (List Addrinfo) := do
  let found ← search.foldlM (Found.pass r hostname hints search.length) {}
  if found.entries = [] then .error EAI_NONAME
  else
    let entries := found.named hostname hints search
    if absent servname then .ok entries
    else serve r.toHost hints.toHints (servname.getD []) entries

/-- The socket types that the caller wants. -/
def wantedTypes (hints : Hints) : List Int :=
  if hints.socktype = 0 then [SOCK_STREAM, SOCK_DGRAM] else [hints.socktype]

/-- The structure of a path with a socket type. -/
def SearchHints.unixRequest (hints : SearchHints) (path : List Byte) (socktype : Int) : Request :=
  ⟨{ hints.toHints with socktype }, path, .local⟩

/-- The canonical name of a path is that of the host. -/
def unixNamed (r : Resolver) (hints : SearchHints) (es : List Addrinfo)
    : Except Int (List Addrinfo) :=
  if hints.flags &&& AI_CANONNAME ≠ 0 then
    match r.uname with
    | none => .error EAI_SYSTEM
    | some nodename => .ok (nameFirst nodename es)
  else .ok es

/-- The answer for a path. -/
def lookupUnix (r : Resolver) (path : List Byte) (hints : SearchHints)
    : Except Int (List Addrinfo) := do
  if hints.family ≠ AF_UNSPEC ∧ hints.family ≠ .local then .error EAI_ADDRFAMILY
  else
    let entries ← (wantedTypes hints.toHints).mapM fun socktype =>
      (hints.unixRequest path socktype).made
    unixNamed r hints entries

/-- The answer; `none` is `err_quit`. -/
def lookup (r : Resolver) (hostname servname : Option (List Byte)) (hintsp : Option SearchHints)
    : Option (Except Int (List Addrinfo)) :=
  let hints := hintsp.getD ⟨⟨0, 0, 0⟩, AF_UNSPEC⟩
  let rc := gaEcheck hostname servname hints.flags hints.family hints.socktype
  if rc ≠ 0 then some (.error rc)
  else if isUnix hostname servname then some (lookupUnix r (servname.getD []) hints)
  else (gaNsearch hostname hints).map (lookupInet r hostname servname hints)

/-- The library returns IPv4 and IPv6 addresses. -/
structure Resolver.Resolves (r : Resolver) : Prop where
  byname2 : ∀ name family hptr, r.gethostbyname2 name family = some hptr → hptr.addrtype.hasPort
  byname : ∀ inet6 name hptr, r.gethostbyname inet6 name = .ok hptr → hptr.addrtype.hasPort

-----------------------------------------------------------------------------------------
-- Service strings
-----------------------------------------------------------------------------------------

/-- `ga_serv` makes no call, one call for all entries, or one for each protocol. -/
theorem servCalls_cases (host : Host) (hints : Hints) (serv : List Byte)
    : servCalls host hints serv = []
      ∨ (∃ port socktype, servCalls host hints serv = [(port, socktype)]
        ∧ (hints.socktype ≠ 0 → socktype = hints.socktype) ∧ socktype ≠ 0)
      ∨ ∃ tcp udp, servCalls host hints serv = [(tcp, SOCK_STREAM), (udp, SOCK_DGRAM)]
        ∧ hints.socktype = 0 := by
  have stream : SOCK_STREAM ≠ 0 := by decide
  have dgram : SOCK_DGRAM ≠ 0 := by decide
  have differ : SOCK_STREAM ≠ SOCK_DGRAM := by decide
  unfold servCalls
  split
  · by_cases unspecified : hints.socktype = 0
    · exact .inr (.inr ⟨_, _, by rw [if_neg (by simpa using unspecified)], unspecified⟩)
    · exact .inr (.inl ⟨_, hints.socktype, by rw [if_pos unspecified], fun _ => rfl, unspecified⟩)
  · by_cases unspecified : hints.socktype = 0
    · cases tcp : host.getservbyname serv "tcp" <;> cases udp : host.getservbyname serv "udp" <;>
        simp [unspecified, stream, dgram]
    · by_cases isStream : hints.socktype = SOCK_STREAM
      · cases tcp : host.getservbyname serv "tcp" <;> simp [isStream, stream, differ]
      · by_cases isDgram : hints.socktype = SOCK_DGRAM
        · cases udp : host.getservbyname serv "udp" <;> simp [isDgram, dgram, differ.symm]
        · simp [unspecified, isStream, isDgram]

/-- Filling in a copy does not depend on what the original was filled in with. -/
theorem Addrinfo.fill_copy_fill (ai : Addrinfo) (first second : Int × Int)
    : (ai.fill first.1 first.2).copy.fill second.1 second.2 = ai.copy.fill second.1 second.2 := by
  have set : ∀ addr : Sockaddr,
      (addr.setPort first.1).setPort second.1 = addr.setPort second.1 := by
    intro addr
    cases addr <;> rfl
  by_cases ported : ai.family.hasPort
  · have family : ai.copy.family.hasPort = true := ported
    have filled : (ai.fill first.1 first.2).copy.family.hasPort = true := by
      rw [Addrinfo.fill, if_pos ported]
      exact ported
    rw [Addrinfo.fill, if_pos filled, Addrinfo.fill, if_pos ported, Addrinfo.fill, if_pos family]
    simp only [Addrinfo.copy, cloneOf, Option.map_map, Function.comp_def, set]
  · have family : ¬ ai.copy.family.hasPort = true := ported
    have filled : ¬ (ai.fill first.1 first.2).copy.family.hasPort = true := by
      rw [Addrinfo.fill, if_neg ported]
      exact ported
    rw [Addrinfo.fill, if_neg filled, Addrinfo.fill, if_neg ported, Addrinfo.fill, if_neg family]
    rfl

/-- An entry that fits has an address. -/
theorem Addrinfo.Fits.addressed {hints : Hints} (fits : e.Fits hints) : e.addr.isSome := by
  obtain ⟨addr, port, stored, -⟩ := fits.addr
  simp [stored]

/-- Ports leave the flags alone. -/
@[simp]
theorem Addrinfo.fill_flags (port socktype : Int) (ai : Addrinfo)
    : (ai.fill port socktype).flags = ai.flags := by
  rw [Addrinfo.fill]
  split <;> rfl

/-- An entry gets its socket type. -/
@[simp]
theorem Addrinfo.fill_socktype (port socktype : Int) (ai : Addrinfo)
    : (ai.fill port socktype).socktype = socktype := by
  rw [Addrinfo.fill]
  split <;> rfl

/-- Ports leave the address there. -/
theorem Addrinfo.fill_addressed (addressed : e.addr.isSome) (port socktype : Int)
    : (e.fill port socktype).addr.isSome := by
  rw [Addrinfo.fill]
  split <;> simp [addressed]

/-- The second pass over an entry without a socket type clones it. -/
theorem Addrinfo.Fits.spread_two {hints : Hints} (fits : e.Fits hints)
    (unspecified : hints.socktype = 0) (tcp udp : Int)
    : (e.fill tcp SOCK_STREAM).ported udp SOCK_DGRAM
      = e.spread [(tcp, SOCK_STREAM), (udp, SOCK_DGRAM)] := by
  have flagged : (e.fill tcp SOCK_STREAM).flags &&& AI_CLONE ≠ 0 := by
    rw [Addrinfo.fill_flags]
    exact fits.flags.mpr unspecified
  have used : (e.fill tcp SOCK_STREAM).socktype ≠ 0 := by
    rw [Addrinfo.fill_socktype]
    decide
  rw [Addrinfo.ported, if_pos flagged, if_pos used,
    Addrinfo.fill_copy_fill e (tcp, SOCK_STREAM) (udp, SOCK_DGRAM)]
  rfl

/-- `ga_serv` on entries that `ga_aistruct` has made. -/
theorem gaServ_owns (answers : Nat → Bool) (host : Host) {hints : Hints} (serv : List Byte)
    (owns : m.Owns answers es) (nonempty : es ≠ []) (fits : ∀ ai ∈ es, ai.Fits hints)
    : ∃ m' es' rc need, m'.Owns answers es'
        ∧ (∀ fuel, need < fuel → gaServ answers fuel host m hints serv = some (m', rc))
        ∧ (rc = 0 ∧ serve host hints serv es = .ok es'
          ∨ Justified answers (serve host hints serv es) rc) := by
  have some' : 0 < es.length := List.length_pos_iff.mpr nonempty
  have memory : EAI_MEMORY ≠ 0 := by decide
  rcases servCalls_cases host hints serv
    with none | ⟨port, socktype, one, mine, used⟩ | ⟨tcp, udp, two, unspecified⟩
  · -- no call
    have spec : serve host hints serv es
        = .error (if hints.socktype = 0 then EAI_NONAME else EAI_SERVICE) := if_pos none
    refine ⟨m, es, if hints.socktype = 0 then EAI_NONAME else EAI_SERVICE, 0, owns,
      fun fuel _ => ?_, .inr ⟨?_, .inl spec⟩⟩
    · rw [gaServ, none]
      simp only [portCalls, Option.bind_eq_bind, Option.bind_some, if_true]
      split <;> rfl
    · split <;> decide
  · -- every entry is filled in
    obtain ⟨count, filled⟩ := fits_pass fits mine port
    obtain ⟨m', es', owns', result⟩ :=
      gaPort_owns answers port socktype owns fun ai member => (fits ai member).addressed
    have spec : serve host hints serv es = .ok (es.map (Addrinfo.fill port socktype)) := by
      rw [serve, one, if_neg (by simp), List.map_eq_flatMap]
      rfl
    rw [filled, count] at result
    rcases result with ⟨run, rfl⟩ | ⟨run, n, fails⟩
    · refine ⟨m', _, 0, es.length, owns', fun fuel enough => ?_, .inl ⟨rfl, spec⟩⟩
      have sign : ¬ (es.length : Int) < 0 := by omega
      have counted : (0 : Int) + es.length ≠ 0 := by omega
      rw [gaServ, one, portCalls, run fuel enough]
      simp only [Option.bind_eq_bind, Option.bind_some, sign, if_false, portCalls, counted]
    · refine ⟨m', es', EAI_MEMORY, es.length, owns', fun fuel enough => ?_,
        .inr (justified_memory _ fails)⟩
      rw [gaServ, one, portCalls, run fuel enough]
      rfl
  · -- every entry is filled in and cloned
    have mine : hints.socktype ≠ 0 → SOCK_STREAM = hints.socktype :=
      fun specified => absurd unspecified specified
    obtain ⟨count, filled⟩ := fits_pass fits mine tcp
    obtain ⟨m₁, es₁, owns₁, first⟩ :=
      gaPort_owns answers tcp SOCK_STREAM owns fun ai member => (fits ai member).addressed
    rw [filled, count] at first
    rcases first with ⟨run₁, rfl⟩ | ⟨run, n, fails⟩
    · obtain ⟨m', es', owns', second⟩ :=
        gaPort_owns answers udp SOCK_DGRAM owns₁ fun ai member => by
          obtain ⟨before, old, rfl⟩ := List.mem_map.mp member
          exact Addrinfo.fill_addressed (fits before old).addressed tcp SOCK_STREAM
      have spread : (es.map (Addrinfo.fill tcp SOCK_STREAM)).flatMap
            (Addrinfo.ported udp SOCK_DGRAM)
          = es.flatMap fun ai => ai.spread [(tcp, SOCK_STREAM), (udp, SOCK_DGRAM)] := by
        rw [List.flatMap_map]
        exact List.flatMap_congr fun ai member => (fits ai member).spread_two unspecified tcp udp
      have spec : serve host hints serv es
          = .ok (es.flatMap fun ai => ai.spread [(tcp, SOCK_STREAM), (udp, SOCK_DGRAM)]) := by
        rw [serve, two, if_neg (by simp)]
      have sign : ¬ (es.length : Int) < 0 := by omega
      rw [List.length_map, spread] at second
      rcases second with ⟨run₂, rfl⟩ | ⟨run₂, n, fails⟩
      · refine ⟨m', _, 0, es.length, owns', fun fuel enough => ?_, .inl ⟨rfl, spec⟩⟩
        generalize List.countP (Addrinfo.counts SOCK_DGRAM)
          (es.map (Addrinfo.fill tcp SOCK_STREAM)) = more at run₂
        have sign₂ : ¬ (more : Int) < 0 := by omega
        have counted : (0 : Int) + es.length + more ≠ 0 := by omega
        rw [gaServ, two, portCalls, run₁ fuel enough]
        simp only [Option.bind_eq_bind, Option.bind_some, sign, if_false, portCalls,
          run₂ fuel enough, sign₂, counted]
      · refine ⟨m', es', EAI_MEMORY, es.length, owns', fun fuel enough => ?_,
          .inr (justified_memory _ fails)⟩
        rw [gaServ, two, portCalls, run₁ fuel enough]
        simp only [Option.bind_eq_bind, Option.bind_some, sign, if_false, portCalls,
          run₂ fuel enough]
        rfl
    · refine ⟨m₁, es₁, EAI_MEMORY, es.length, owns₁, fun fuel enough => ?_,
        .inr (justified_memory _ fails)⟩
      rw [gaServ, two, portCalls, run fuel enough]
      rfl

-----------------------------------------------------------------------------------------
-- Searches
-----------------------------------------------------------------------------------------

/-- No resolver error is reported as success. -/
theorem HErrno.eai_ne_zero (e : HErrno) : e.eai ≠ 0 := by
  cases e <;> simp only [HErrno.eai] <;> decide

/-- The check of a host's family refuses it or takes it. -/
theorem Hostent.check_eq (hptr : Hostent) (hints : SearchHints)
    : hptr.check hints = .error EAI_ADDRFAMILY ∨ hptr.check hints = .ok (.host hptr) := by
  unfold Hostent.check
  split
  · exact .inl rfl
  · exact .inr rfl

/-- How a numeric name ends a search. -/
theorem Search.numeric_eq (s : Search) (hints : SearchHints) (addr : List Byte) (family : Family)
    : s.numeric hints addr family = .error EAI_ADDRFAMILY
      ∨ s.numeric hints addr family = .ok .skip
      ∨ s.numeric hints addr family = .ok (.numeric addr family) := by
  unfold Search.numeric
  split_ifs
  · exact .inl rfl
  · exact .inr (.inl rfl)
  · exact .inr (.inr rfl)

/-- What a search may find. -/
inductive Find.Sound : Except Int Find → Prop where
  | error {e : Int} (nonzero : e ≠ 0) : Sound (.error e)
  | skip : Sound (.ok .skip)
  | numeric {addr : List Byte} {family : Family} (ported : family.hasPort)
    : Sound (.ok (.numeric addr family))
  | host {hptr : Hostent} (ported : hptr.addrtype.hasPort) : Sound (.ok (.host hptr))

/-- A numeric name gives entries with ports. -/
theorem Search.numeric_sound (s : Search) (hints : SearchHints) (addr : List Byte)
    {family : Family} (ported : family.hasPort)
    : Find.Sound (s.numeric hints addr family) := by
  rcases s.numeric_eq hints addr family with eq | eq | eq <;> rw [eq]
  · exact .error (by decide)
  · exact .skip
  · exact .numeric ported

/-- A host gives entries with ports. -/
theorem Hostent.check_sound {hptr : Hostent} (hints : SearchHints)
    (ported : hptr.addrtype.hasPort)
    : Find.Sound (hptr.check hints) := by
  rcases hptr.check_eq hints with eq | eq <;> rw [eq]
  · exact .error (by decide)
  · exact .host ported

/-- A search gives entries with ports. -/
theorem Search.find_sound (resolves : r.Resolves) (hints : SearchHints) (nsearch : Nat)
    (s : Search)
    : Find.Sound (s.find r hints nsearch) := by
  unfold Search.find
  split
  · exact s.numeric_sound hints _ rfl
  · split
    · exact s.numeric_sound hints _ rfl
    · split
      · split
        · next hptr found => exact Hostent.check_sound hints (resolves.byname2 _ _ _ found)
        · exact .skip
      · split
        · next hptr found => exact Hostent.check_sound hints (resolves.byname _ _ _ found)
        · exact .error (HErrno.eai_ne_zero _)

/-- The list owns what has been allocated, but for the copy of the canonical name. -/
structure Vars.Tracks (answers : Nat → Bool) (hostname : Option (List Byte))
    (hints : SearchHints) (v : Vars) (es : List Addrinfo) : Prop where
  shows : ∃ l, v.m.Holds 0 l es ∧ v.aipnext = lastCell 0 l
  live : v.m.live answers = blocks es + v.canon.toList.length
  asked : v.canon.isSome → wantsCanon hostname hints

variable {v : Vars}

/-- A request of a family with ports is made. -/
theorem Request.made_of_hasPort {q : Request} (ported : q.family.hasPort)
    : q.made = .ok q.entry := by
  refine if_neg fun isLocal => ?_
  rw [isLocal] at ported
  cases ported

/-- A call of `ga_aistruct` in the search. -/
theorem gaAistruct_tracks (q : Request) (ported : q.family.hasPort)
    (tracks : v.Tracks answers hostname hints es)
    : ∃ m' aipnext rc es', gaAistruct answers v.m v.aipnext q.hints q.addr q.family
          = (m', aipnext, rc)
        ∧ Vars.Tracks answers hostname hints { v with m := m', aipnext := aipnext } es'
        ∧ (rc = 0 ∧ es' = es ++ [q.entry] ∨ rc = EAI_MEMORY ∧ ∃ n, answers n = false) := by
  obtain ⟨l, holds, last⟩ := tracks.shows
  obtain ⟨m', l', made, rc, run, holds', live', -, result⟩ :=
    gaAistruct_ledger answers q (.inl ported) holds
  rw [← last] at run
  refine ⟨m', _, rc, es ++ made, run, ⟨⟨l ++ l', holds', rfl⟩, ?_, tracks.asked⟩, ?_⟩
  · have live := tracks.live
    simp only [blocks_append]
    omega
  · rw [Request.made_of_hasPort ported] at result
    rcases result with ⟨rfl, e, eq, rfl⟩ | ⟨-, eq | fails⟩
    · cases eq
      exact .inl ⟨rfl, rfl⟩
    · cases eq
    · exact .inr fails

/-- The loop over the addresses of a host. -/
theorem addrLoop_tracks (hints₁ : Hints) {family : Family} (ported : family.hasPort)
    (aps : List (List Byte)) (tracks : v.Tracks answers hostname hints es)
    : ∃ m' aipnext rc es', addrLoop answers hints₁ family v.m v.aipnext aps = (m', aipnext, rc)
        ∧ Vars.Tracks answers hostname hints { v with m := m', aipnext := aipnext } es'
        ∧ (rc = 0 ∧ es' = es ++ addrEntries hints₁ family aps
          ∨ rc = EAI_MEMORY ∧ ∃ n, answers n = false) := by
  induction aps generalizing v es with
  | nil => exact ⟨v.m, v.aipnext, 0, es, rfl, tracks, .inl ⟨rfl, by simp [addrEntries]⟩⟩
  | cons ap aps ih =>
      obtain ⟨m₁, aipnext₁, rc₁, es₁, run₁, tracks₁, result₁⟩ :=
        gaAistruct_tracks ⟨hints₁, ap, family⟩ ported tracks
      have run₁ : gaAistruct answers v.m v.aipnext hints₁ ap family = (m₁, aipnext₁, rc₁) := run₁
      rcases result₁ with ⟨rfl, rfl⟩ | ⟨rfl, fails⟩
      · obtain ⟨m', aipnext, rc, es', run, tracks', result⟩ := ih tracks₁
        refine ⟨m', aipnext, rc, es', ?_, tracks', result.imp_left ?_⟩
        · simp only [addrLoop, run₁, ne_eq, not_true_eq_false, if_false]
          exact run
        · rintro ⟨rfl, rfl⟩
          exact ⟨rfl, by simp [addrEntries]⟩
      · have error : EAI_MEMORY ≠ 0 := by decide
        refine ⟨m₁, aipnext₁, EAI_MEMORY, es₁, ?_, tracks₁, .inr ⟨rfl, fails⟩⟩
        simp only [addrLoop, run₁, if_pos error]

/-- `strdup` takes a block or fails. -/
theorem strdup_live (answers : Nat → Bool) (m : Memory) (text : List Byte)
    : (strdup answers m text).1.live answers
        = m.live answers + (strdup answers m text).2.toList.length
      ∧ ((strdup answers m text).2 = some text
        ∨ (strdup answers m text).2 = none ∧ ∃ n, answers n = false) := by
  cases first : answers m.allocs with
  | false => exact ⟨by simp [strdup, Memory.alloc, Memory.live, countP_range_succ, first],
      .inr ⟨by simp [strdup, Memory.alloc, first], _, first⟩⟩
  | true => exact ⟨by simp [strdup, Memory.alloc, Memory.live, countP_range_succ, first],
      .inl (by simp [strdup, Memory.alloc, first])⟩

/-- `strdup` keeps the list. -/
theorem strdup_holds (answers : Nat → Bool) (text : List Byte) (holds : m.Holds a l es)
    : (strdup answers m text).1.Holds a l es :=
  holds.congr (fun _ _ => rfl) (fun _ _ => rfl) (Nat.le_succ m.allocs)

/-- Saving the canonical name; without memory there is none. -/
theorem saveCanon_tracks (hptr : Hostent) (tracks : v.Tracks answers hostname hints es)
    : Vars.Tracks answers hostname hints (v.saveCanon answers hostname hints hptr) es
      ∧ ((v.saveCanon answers hostname hints hptr).canon = canonWith hostname hints v.canon hptr
        ∨ wantsCanon hostname hints ∧ (v.saveCanon answers hostname hints hptr).canon = none
          ∧ ∃ n, answers n = false) := by
  obtain ⟨l, holds, last⟩ := tracks.shows
  have live := tracks.live
  obtain ⟨copied, result⟩ := strdup_live answers v.m hptr.name
  unfold Vars.saveCanon canonWith
  by_cases saves : (wantsCanon hostname hints && v.canon.isNone) = true
  · rw [if_pos saves]
    obtain ⟨wants, none⟩ : wantsCanon hostname hints = true ∧ v.canon = none := by
      simpa using saves
    rw [none] at live
    refine ⟨⟨⟨l, strdup_holds answers hptr.name holds, last⟩, ?_, fun _ => wants⟩, ?_⟩
    · simp only [copied, live]
      simp
    · rw [if_pos wants, none]
      rcases result with copy | ⟨eq, fails⟩
      · exact .inl copy
      · exact .inr ⟨wants, eq, fails⟩
  · rw [if_neg saves]
    refine ⟨tracks, .inl ?_⟩
    split
    · next wants =>
        obtain ⟨canon, eq⟩ : ∃ canon, v.canon = some canon := by
          simpa [wants, Option.ne_none_iff_exists'] using saves
        rw [eq]
        rfl
    · rfl

/-- A pass that has found a host. -/
theorem addHost_tracks {hptr : Hostent} (ported : hptr.addrtype.hasPort)
    (tracks : v.Tracks answers hostname hints es)
    : ∃ v' rc es', v.addHost answers hostname hints hptr = (v', rc)
        ∧ v'.Tracks answers hostname hints es'
        ∧ (rc = 0 ∧ es' = es ++ addrEntries hints.toHints hptr.addrtype hptr.addrList
            ∧ v'.canon = canonWith hostname hints v.canon hptr
          ∨ rc = EAI_MEMORY ∧ ∃ n, answers n = false) := by
  obtain ⟨tracks₁, result⟩ := saveCanon_tracks hptr tracks
  by_cases stops : (wantsCanon hostname hints
      && (v.saveCanon answers hostname hints hptr).canon.isNone) = true
  · refine ⟨_, EAI_MEMORY, es, if_pos stops, tracks₁, .inr ⟨rfl, ?_⟩⟩
    obtain ⟨wants, none⟩ : wantsCanon hostname hints = true
        ∧ (v.saveCanon answers hostname hints hptr).canon = none := by simpa using stops
    rcases result with eq | ⟨-, -, fails⟩
    · rw [none, canonWith, if_pos wants] at eq
      cases canon : v.canon <;> simp [canon] at eq
    · exact fails
  · obtain ⟨m', aipnext, rc, es', run, tracks', result'⟩ :=
      addrLoop_tracks hints.toHints ported hptr.addrList tracks₁
    refine ⟨_, rc, es', (if_neg stops).trans (by rw [Vars.addAddrs, run]), tracks',
      result'.imp_left ?_⟩
    rintro ⟨rfl, rfl⟩
    refine ⟨rfl, rfl, ?_⟩
    rcases result with eq | ⟨wants, none, -⟩
    · exact eq
    · simp [wants, none] at stops

/-- A pass of the search loop does what the search by lists does. -/
theorem pass_tracks (resolves : r.Resolves) (nsearch : Nat) (s : Search) {f : Found}
    (tracks : v.Tracks answers hostname hints f.entries) (canon : v.canon = f.canon)
    : ∃ v' rc es', v.pass answers r hostname hints nsearch s = (v', rc)
        ∧ v'.Tracks answers hostname hints es'
        ∧ (rc = 0 ∧ (∃ f', f.pass r hostname hints nsearch s = .ok f' ∧ es' = f'.entries
            ∧ v'.canon = f'.canon)
          ∨ Justified answers (f.pass r hostname hints nsearch s) rc) := by
  have sound := s.find_sound resolves hints nsearch
  unfold Vars.pass Found.pass
  generalize s.find r hints nsearch = found at sound ⊢
  cases sound with
  | @error e nonzero => exact ⟨v, e, f.entries, rfl, tracks, .inr ⟨nonzero, .inl rfl⟩⟩
  | skip => exact ⟨v, 0, f.entries, rfl, tracks, .inl ⟨rfl, f, rfl, rfl, canon⟩⟩
  | @numeric addr family ported =>
      obtain ⟨m', aipnext, rc, es', run, tracks', result⟩ :=
        gaAistruct_tracks ⟨hints.toHints, addr, family⟩ ported tracks
      have run : gaAistruct answers v.m v.aipnext hints.toHints addr family = (m', aipnext, rc) :=
        run
      refine ⟨{ v with m := m', aipnext := aipnext }, rc, es', by simp only [run], tracks', ?_⟩
      rcases result with ⟨rfl, rfl⟩ | ⟨rfl, n, fails⟩
      · exact .inl ⟨rfl, _, rfl, rfl, canon⟩
      · exact .inr (justified_memory _ fails)
  | @host hptr ported =>
      obtain ⟨v', rc, es', run, tracks', result⟩ := addHost_tracks ported tracks
      refine ⟨v', rc, es', run, tracks', ?_⟩
      rcases result with ⟨rfl, rfl, named⟩ | ⟨rfl, n, fails⟩
      · exact .inl ⟨rfl, _, rfl, rfl, by rw [named, canon]⟩
      · exact .inr (justified_memory _ fails)

/-- The search loop does what the search by lists does. -/
theorem searchLoop_tracks (resolves : r.Resolves) (nsearch : Nat) (search : List Search)
    {f : Found} (tracks : v.Tracks answers hostname hints f.entries) (canon : v.canon = f.canon)
    : ∃ v' rc es', searchLoop answers r hostname hints nsearch v search = (v', rc)
        ∧ v'.Tracks answers hostname hints es'
        ∧ (rc = 0 ∧ (∃ f', search.foldlM (Found.pass r hostname hints nsearch) f = .ok f'
            ∧ es' = f'.entries ∧ v'.canon = f'.canon)
          ∨ Justified answers (search.foldlM (Found.pass r hostname hints nsearch) f) rc) := by
  induction search generalizing v f with
  | nil => exact ⟨v, 0, f.entries, rfl, tracks, .inl ⟨rfl, f, rfl, rfl, canon⟩⟩
  | cons s search ih =>
      obtain ⟨v₁, rc₁, es₁, run₁, tracks₁, result₁⟩ := pass_tracks resolves nsearch s tracks canon
      rcases result₁ with ⟨rfl, f₁, pass, rfl, canon₁⟩ | ⟨nonzero, justified⟩
      · obtain ⟨v', rc, es', run, tracks', result⟩ := ih tracks₁ canon₁
        refine ⟨v', rc, es', ?_, tracks', ?_⟩
        · simp only [searchLoop, run₁, ne_eq, not_true_eq_false, if_false]
          exact run
        · rw [List.foldlM_cons, pass]
          exact result
      · refine ⟨v₁, rc₁, es₁, ?_, tracks₁, .inr ⟨nonzero, justified.imp_left fun pass => ?_⟩⟩
        · simp only [searchLoop, run₁, if_pos nonzero]
        · rw [List.foldlM_cons, pass]
          rfl

/-- An entry of the search: it fits the hints and has no canonical name. -/
structure Addrinfo.Fresh (hints : Hints) (ai : Addrinfo) : Prop where
  fits : ai.Fits hints
  unnamed : ai.canonname = none

/-- An entry that has just been made is fresh. -/
theorem Request.entry_fresh (q : Request) (ported : q.family.hasPort)
    : q.entry.Fresh q.hints where
  fits.socktype := rfl
  fits.flags := by
    by_cases unspecified : q.hints.socktype = 0 <;> simp [Request.entry, unspecified, AI_CLONE]
  fits.ported := ported
  fits.addr := by
    by_cases inet : q.family = .inet <;> simp [Request.entry, inet, Sockaddr.port]
  unnamed := rfl

/-- A pass of the search keeps the entries fresh. -/
theorem pass_fresh (resolves : r.Resolves) {nsearch : Nat} {s : Search} {f f' : Found}
    (fresh : ∀ ai ∈ f.entries, ai.Fresh hints.toHints)
    (pass : f.pass r hostname hints nsearch s = .ok f')
    : ∀ ai ∈ f'.entries, ai.Fresh hints.toHints := by
  have sound := s.find_sound resolves hints nsearch
  unfold Found.pass at pass
  generalize s.find r hints nsearch = found at sound pass
  intro ai member
  cases sound with
  | error => cases pass
  | skip =>
      cases pass
      exact fresh ai member
  | numeric ported =>
      cases pass
      rcases List.mem_append.mp member with old | new
      · exact fresh ai old
      · rw [List.mem_singleton.mp new]
        exact Request.entry_fresh ⟨hints.toHints, _, _⟩ ported
  | host ported =>
      cases pass
      rcases List.mem_append.mp member with old | new
      · exact fresh ai old
      · obtain ⟨ap, -, rfl⟩ := List.mem_map.mp new
        exact Request.entry_fresh ⟨hints.toHints, ap, _⟩ ported

/-- All entries of the search are such. -/
theorem search_fresh (hints : SearchHints) (resolves : r.Resolves) {nsearch : Nat}
    {search : List Search} {f f' : Found} (fresh : ∀ ai ∈ f.entries, ai.Fresh hints.toHints)
    (run : search.foldlM (Found.pass r hostname hints nsearch) f = .ok f')
    : ∀ ai ∈ f'.entries, ai.Fresh hints.toHints := by
  induction search generalizing f with
  | nil =>
      cases run
      exact fresh
  | cons s search ih =>
      rw [List.foldlM_cons] at run
      cases pass : f.pass r hostname hints nsearch s with
      | error e =>
          rw [pass] at run
          cases run
      | ok f₁ =>
          rw [pass] at run
          exact ih (pass_fresh resolves fresh pass) run

-----------------------------------------------------------------------------------------
-- The whole call
-----------------------------------------------------------------------------------------

/-- How a call has to end. It returns 0 with the list of the answer, which owns everything
that the call has allocated, or it returns an error that is justified and has freed everything
but at most `lost` blocks.
-/
def Outcome.Meets (answers : Nat → Bool) (lost : Nat)
    (spec : Option (Except Int (List Addrinfo))) : Outcome → Prop
  | .quit => spec = none
  | .returned m rc frees => ∃ result, spec = some result
      ∧ (rc = 0 ∧ frees = 0 ∧ (∃ es, result = .ok es ∧ m.Owns answers es)
        ∨ Justified answers result rc ∧ frees ≤ m.live answers
          ∧ m.live answers ≤ frees + lost)

/-- `goto bad` frees the list. -/
theorem bad_meets {lost : Nat} {rc : Int} {result : Except Int (List Addrinfo)}
    (shows : m.Shows es) (justified : Justified answers result rc)
    (low : blocks es ≤ m.live answers) (high : m.live answers ≤ blocks es + lost)
    : ∃ outcome, (∀ fuel, es.length < fuel → bad fuel m rc = some outcome)
        ∧ outcome.Meets answers lost (some result) := by
  obtain ⟨l, holds⟩ := shows
  have length : l.length = es.length := by rw [← holds.content, List.length_map]
  refine ⟨.returned m rc (blocks es), fun fuel enough => ?_, result, rfl,
    .inr ⟨justified, low, high⟩⟩
  rw [bad, freeLoop_holds holds (length ▸ enough), Nat.zero_add]
  rfl

/-- The first structure of the list gets a canonical name, or none. -/
theorem holds_setFirst (holds : m.Holds 0 l es) (nonempty : es ≠ [])
    (canonname : Option (List Byte))
    : ∃ ai rest, es = ai :: rest
      ∧ (m.set (m.next 0) { m.addrinfo (m.next 0) with canonname }).Holds 0 l
        ({ ai with canonname } :: rest) := by
  cases l with
  | nil => exact absurd holds.content.symm nonempty
  | cons x l =>
      obtain ⟨ai, rest, rfl⟩ : ∃ ai rest, es = ai :: rest := ⟨_, _, holds.content.symm⟩
      have first : m.next 0 = x := Option.some.inj holds.linked.1
      have entry : m.addrinfo x = ai := (List.cons.inj holds.content).1
      exact ⟨ai, rest, rfl, by rw [first, entry]; exact holds.set _⟩

/-- A list whose head gets a canonical name owns it. -/
theorem storeCanon_owns (copied : Memory × Option (List Byte)) (holds : copied.1.Holds 0 l es)
    (live : copied.1.live answers = blocks es + copied.2.toList.length) (nonempty : es ≠ [])
    (unnamed : ∀ ai ∈ es, ai.canonname = none)
    : ∃ m' rc es', storeCanon copied = (m', rc) ∧ m'.Owns answers es'
        ∧ ((∃ canonname, copied.2 = some canonname ∧ rc = 0 ∧ es' = nameFirst canonname es)
          ∨ copied.2 = none ∧ rc = EAI_MEMORY ∧ es' = es) := by
  obtain ⟨ai, rest, rfl, holds'⟩ := holds_setFirst holds nonempty copied.2
  have none := unnamed ai (by simp)
  refine ⟨_, _, _, rfl, ⟨⟨l, holds'⟩, ?_⟩, ?_⟩
  · refine live.trans ?_
    cases copied.2 <;> simp [Addrinfo.blocks, none]
    omega
  · cases named : copied.2 with
    | some canonname => exact .inl ⟨canonname, rfl, rfl, rfl⟩
    | none => exact .inr ⟨rfl, rfl, by rw [← none]⟩

/-- The canonical name is stored, or there is no memory for it. -/
theorem setCanon_owns {f : Found} (search : List Search)
    (tracks : v.Tracks answers hostname hints f.entries) (canon : v.canon = f.canon)
    (nonempty : f.entries ≠ []) (unnamed : ∀ ai ∈ f.entries, ai.canonname = none)
    : ∃ m' rc es', setCanon answers hostname hints search v = (m', rc)
        ∧ m'.Owns answers es'
        ∧ (rc = 0 ∧ es' = f.named hostname hints search
          ∨ rc = EAI_MEMORY ∧ ∃ n, answers n = false) := by
  obtain ⟨l, holds, -⟩ := tracks.shows
  have live := tracks.live
  unfold setCanon Found.named
  by_cases wants : wantsCanon hostname hints
  · rw [if_pos wants, if_pos wants, ← canon]
    cases saved : v.canon with
    | some name =>
        obtain ⟨m', rc, es', run, owns, result⟩ :=
          storeCanon_owns (v.m, some name) holds (saved ▸ live) nonempty unnamed
        refine ⟨m', rc, es', run, owns, .inl ?_⟩
        rcases result with ⟨_, eq, rfl, rfl⟩ | ⟨eq, -⟩
        · cases eq
          exact ⟨rfl, rfl⟩
        · cases eq
    | none =>
        let host := (search.headD ⟨[], AF_UNSPEC⟩).host
        obtain ⟨copied, made⟩ := strdup_live answers v.m host
        have none : v.m.live answers = blocks f.entries := by simpa [saved] using live
        obtain ⟨m', rc, es', run, owns, result⟩ :=
          storeCanon_owns _ (strdup_holds answers host holds) (copied.trans (by rw [none])) nonempty
            unnamed
        refine ⟨m', rc, es', run, owns, ?_⟩
        rcases result with ⟨name, eq, rfl, rfl⟩ | ⟨eq, rfl, -⟩
        · rcases made with same | ⟨fails, -⟩
          · cases eq.symm.trans same
            exact .inl ⟨rfl, rfl⟩
          · cases eq.symm.trans fails
        · rcases made with same | ⟨-, fails⟩
          · cases eq.symm.trans same
          · exact .inr ⟨rfl, fails⟩
  · have none : v.canon = none := by
      cases saved : v.canon with
      | none => rfl
      | some name => exact absurd (tracks.asked (by simp [saved])) wants
    rw [none] at live
    rw [if_neg wants, if_neg wants]
    exact ⟨v.m, 0, f.entries, rfl, ⟨⟨l, holds⟩, live⟩, .inl ⟨rfl, rfl⟩⟩

/-- How many blocks an error may leave allocated: a copy of the canonical name that has not
reached the list, and whatever `ga_unix` has allocated.
-/
def lostBlocks (hostname servname : Option (List Byte)) (hints : SearchHints) : Nat :=
  if isUnix hostname servname then 4 else if wantsCanon hostname hints then 1 else 0

/-- The answer after the search by lists. -/
theorem lookupInet_eq (r : Resolver) (hostname : Option (List Byte)) (hints : SearchHints)
    (search : List Search)
    : (∀ e, search.foldlM (Found.pass r hostname hints search.length) {} = .error e
        → lookupInet r hostname servname hints search = .error e)
      ∧ ∀ f, search.foldlM (Found.pass r hostname hints search.length) {} = .ok f
        → lookupInet r hostname servname hints search
          = if f.entries = [] then .error EAI_NONAME
            else if absent servname then .ok (f.named hostname hints search)
            else serve r.toHost hints.toHints (servname.getD [])
              (f.named hostname hints search) := by
  constructor
  · intro e run
    rw [lookupInet, run]
    rfl
  · intro f run
    rw [lookupInet, run]
    rfl

/-- Naming the first entry removes none. -/
theorem nameFirst_ne_nil {canonname : List Byte} (nonempty : es ≠ [])
    : nameFirst canonname es ≠ [] := by
  cases es with
  | nil => exact absurd rfl nonempty
  | cons ai es => simp [nameFirst]

/-- Naming the entries removes none. -/
theorem Found.named_ne_nil {f : Found} (hostname : Option (List Byte)) (hints : SearchHints)
    (search : List Search) (nonempty : f.entries ≠ [])
    : f.named hostname hints search ≠ [] := by
  unfold Found.named
  split
  · exact nameFirst_ne_nil nonempty
  · exact nonempty

/-- Named entries fit the hints. -/
theorem Found.named_fits {f : Found} (hostname : Option (List Byte)) (search : List Search)
    (fits : ∀ ai ∈ f.entries, ai.Fits hints.toHints)
    : ∀ ai ∈ f.named hostname hints search, ai.Fits hints.toHints := by
  unfold Found.named
  split
  · cases entries : f.entries with
    | nil => simp [nameFirst]
    | cons ai es =>
        rw [entries] at fits
        intro ai' member
        rcases List.mem_cons.mp member with rfl | rest
        · have first := fits ai (by simp)
          exact ⟨first.socktype, first.flags, first.ported, first.addr⟩
        · exact fits ai' (by simp [rest])
  · exact fits

/-- What follows the search. -/
theorem finishAddrs_meets (answers : Nat → Bool) (servname : Option (List Byte)) {f : Found}
    {search : List Search} {lost : Nat}
    (room : wantsCanon hostname hints → 1 ≤ lost)
    (tracks : v.Tracks answers hostname hints f.entries) (canon : v.canon = f.canon)
    (fresh : ∀ ai ∈ f.entries, ai.Fresh hints.toHints)
    (run : search.foldlM (Found.pass r hostname hints search.length) {} = .ok f)
    : ∃ outcome need, (∀ fuel, need < fuel
          → finishAddrs answers fuel r hostname servname hints search v = some outcome)
        ∧ outcome.Meets answers lost (some (lookupInet r hostname servname hints search)) := by
  have spec : lookupInet r hostname servname hints search = _ :=
    (lookupInet_eq r hostname hints search).2 f run
  obtain ⟨l, holds, -⟩ := tracks.shows
  have live := tracks.live
  have canonRoom : v.canon.toList.length ≤ lost := by
    cases saved : v.canon with
    | none => simp
    | some name => simpa using room (tracks.asked (by simp [saved]))
  by_cases empty : f.entries = []
  · -- nothing found
    rw [empty] at holds live spec
    have head : v.m.next 0 = 0 := by
      have none : l = [] := by simpa using congrArg List.length holds.content
      subst none
      exact Option.some.inj holds.linked
    have low : blocks [] ≤ v.m.live answers := Nat.zero_le _
    have high : v.m.live answers ≤ blocks [] + lost := by
      rw [live]
      omega
    obtain ⟨outcome, freed, meets⟩ := bad_meets ⟨l, holds⟩
      (⟨by decide, .inl spec⟩ : Justified answers _ EAI_NONAME) low high
    refine ⟨outcome, 0, fun fuel enough => ?_, meets⟩
    rw [finishAddrs, if_pos head]
    exact freed fuel enough
  · have head : v.m.next 0 ≠ 0 := by
      cases l with
      | nil => exact absurd holds.content.symm empty
      | cons x l =>
          have first : v.m.next 0 = x := Option.some.inj holds.linked.1
          rw [first]
          exact holds.linked.2.1
    rw [if_neg empty] at spec
    obtain ⟨m₁, rc₁, es₁, named, owns₁, result₁⟩ :=
      setCanon_owns search tracks canon empty fun ai member => (fresh ai member).unnamed
    have memory : EAI_MEMORY ≠ 0 := by decide
    rcases result₁ with ⟨rfl, rfl⟩ | ⟨rfl, n, fails⟩
    · by_cases none : absent servname
      · rw [if_pos none] at spec
        refine ⟨.returned m₁ 0 0, 0, fun fuel _ => ?_, _, rfl, .inl ⟨rfl, rfl, _, spec, owns₁⟩⟩
        simp only [finishAddrs, if_neg head, named, ne_eq, not_true_eq_false, if_false, if_pos none]
      · rw [if_neg none] at spec
        obtain ⟨m', es', rc, need, owns', serves, result⟩ :=
          gaServ_owns answers r.toHost (servname.getD []) owns₁
            (f.named_ne_nil hostname hints search empty)
            (Found.named_fits hostname search fun ai member => (fresh ai member).fits)
        have goes : ∀ fuel, need < fuel
            → finishAddrs answers fuel r hostname servname hints search v
              = if rc ≠ 0 then bad fuel m' rc else some (.returned m' 0 0) := by
          intro fuel enough
          simp only [finishAddrs, if_neg head, named, ne_eq, not_true_eq_false, if_false,
            if_neg none, serves fuel enough, Option.bind_eq_bind, Option.bind_some]
        rcases result with ⟨rfl, ok⟩ | justified
        · exact ⟨.returned m' 0 0, need, fun fuel enough => (goes fuel enough).trans rfl, _, rfl,
            .inl ⟨rfl, rfl, es', spec.trans ok, owns'⟩⟩
        · obtain ⟨outcome, freed, meets⟩ := bad_meets owns'.shows (spec ▸ justified)
            owns'.live.ge (by rw [owns'.live]; omega)
          refine ⟨outcome, max need es'.length, fun fuel enough => ?_, meets⟩
          rw [goes fuel (by omega), if_pos justified.1]
          exact freed fuel (by omega)
    · obtain ⟨outcome, freed, meets⟩ := bad_meets owns₁.shows
        (justified_memory (lookupInet r hostname servname hints search) fails)
        owns₁.live.ge (by rw [owns₁.live]; omega)
      refine ⟨outcome, es₁.length, fun fuel enough => ?_, meets⟩
      simp only [finishAddrs, if_neg head, named, if_pos memory]
      exact freed fuel enough

/-- A call of `ga_aistruct` in `ga_unix`. -/
theorem gaAistruct_unix (answers : Nat → Bool) (hints : SearchHints) (path : List Byte)
    (socktype : Int) (holds : m.Holds 0 l es) (live : m.live answers = blocks es)
    : ∃ m' l' es' rc,
        gaAistruct answers m (lastCell 0 l) { hints.toHints with socktype } path .local
          = (m', lastCell 0 l', rc)
        ∧ m'.Holds 0 l' es' ∧ m'.live answers = blocks es' ∧ blocks es' ≤ blocks es + 2
        ∧ (rc = 0 ∧ (∃ e, (hints.unixRequest path socktype).made = .ok e ∧ es' = es ++ [e])
          ∨ Justified answers (hints.unixRequest path socktype).made rc) := by
  obtain ⟨m', l', made, rc, run, holds', live', small, result⟩ :=
    gaAistruct_ledger answers (hints.unixRequest path socktype) (.inr rfl) holds
  refine ⟨m', l ++ l', es ++ made, rc, run, holds', by rw [live', live, blocks_append],
    by rw [blocks_append]; omega, result.imp_left ?_⟩
  rintro ⟨rfl, e, eq, rfl⟩
  exact ⟨rfl, e, eq, rfl⟩

/-- A new entry has no name. -/
theorem Request.made_unnamed {q : Request} (made : q.made = .ok e) : e.canonname = none := by
  unfold Request.made at made
  split_ifs at made <;> cases made <;> rfl

/-- The tail of `ga_unix`. -/
theorem unixCanon_meets (answers : Nat → Bool) (r : Resolver) (hints : SearchHints)
    (holds : m.Holds 0 l es) (live : m.live answers = blocks es) (small : blocks es ≤ 4)
    (nonempty : es ≠ []) (unnamed : ∀ ai ∈ es, ai.canonname = none)
    : ∃ m' rc, unixCanon answers r hints m = (m', rc)
        ∧ (rc = 0 ∧ (∃ es', unixNamed r hints es = .ok es' ∧ m'.Owns answers es')
          ∨ Justified answers (unixNamed r hints es) rc ∧ m'.live answers ≤ 4) := by
  unfold unixCanon unixNamed
  by_cases wants : hints.flags &&& AI_CANONNAME ≠ 0
  · rw [if_pos wants, if_pos wants]
    cases r.uname with
    | none => exact ⟨m, EAI_SYSTEM, rfl, .inr ⟨⟨by decide, .inl rfl⟩, by omega⟩⟩
    | some nodename =>
        obtain ⟨copied, made⟩ := strdup_live answers m nodename
        obtain ⟨m', rc, es', run, owns, result⟩ :=
          storeCanon_owns _ (strdup_holds answers nodename holds) (copied.trans (by rw [live]))
            nonempty unnamed
        refine ⟨m', rc, run, ?_⟩
        rcases result with ⟨name, eq, rfl, rfl⟩ | ⟨eq, rfl, rfl⟩
        · rcases made with same | ⟨fails, -⟩
          · cases eq.symm.trans same
            exact .inl ⟨rfl, _, rfl, owns⟩
          · cases eq.symm.trans fails
        · rcases made with same | ⟨-, n, fails⟩
          · cases eq.symm.trans same
          · exact .inr ⟨justified_memory _ fails, by rw [owns.live]; exact small⟩
  · rw [if_neg wants, if_neg wants]
    exact ⟨m, 0, rfl, .inl ⟨rfl, es, rfl, ⟨l, holds⟩, live⟩⟩

/-- An error stays justified in what goes on with the result. -/
theorem Justified.bind {α β : Type} {result : Except Int α} {rc : Int}
    (justified : Justified answers result rc) (next : α → Except Int β)
    : Justified answers (result >>= next) rc :=
  ⟨justified.1, justified.2.imp_left fun eq => by rw [eq]; rfl⟩

/-- The last structure of a path, and what follows it. -/
theorem unixLast_meets (answers : Nat → Bool) (r : Resolver) (hints : SearchHints)
    (path : List Byte) (socktype : Int) (holds : m.Holds 0 l es)
    (live : m.live answers = blocks es) (small : blocks es ≤ 2)
    (unnamed : ∀ ai ∈ es, ai.canonname = none)
    : ∃ m' aipnext rc,
        gaAistruct answers m (lastCell 0 l) { hints.toHints with socktype } path .local
          = (m', aipnext, rc)
        ∧ ∃ m'' rc', (if rc ≠ 0 then (m', rc) else unixCanon answers r hints m') = (m'', rc')
          ∧ (rc' = 0 ∧ (∃ es', ((hints.unixRequest path socktype).made >>= fun e =>
                unixNamed r hints (es ++ [e])) = .ok es' ∧ m''.Owns answers es')
            ∨ Justified answers ((hints.unixRequest path socktype).made >>= fun e =>
                unixNamed r hints (es ++ [e])) rc' ∧ m''.live answers ≤ 4) := by
  obtain ⟨m', l', es', rc, run, holds', live', small', result⟩ :=
    gaAistruct_unix answers hints path socktype holds live
  refine ⟨m', _, rc, run, ?_⟩
  rcases result with ⟨rfl, e, made, rfl⟩ | justified
  · rw [made, if_neg (by simp)]
    refine unixCanon_meets answers r hints holds' live' (by omega) (by simp) fun ai member => ?_
    rcases List.mem_append.mp member with old | new
    · exact unnamed ai old
    · rw [List.mem_singleton.mp new]
      exact Request.made_unnamed made
  · refine ⟨m', rc, if_pos justified.1, .inr ⟨justified.bind _, by omega⟩⟩

/-- `ga_unix` makes the answer for the path, or leaves at most four blocks. -/
theorem gaUnix_meets (answers : Nat → Bool) (r : Resolver) (path : List Byte)
    (hints : SearchHints)
    : ∃ m' rc, gaUnix answers r path hints = (m', rc)
        ∧ (rc = 0 ∧ (∃ es, lookupUnix r path hints = .ok es ∧ m'.Owns answers es)
          ∨ Justified answers (lookupUnix r path hints) rc ∧ m'.live answers ≤ 4) := by
  unfold gaUnix lookupUnix
  by_cases mismatch : hints.family ≠ AF_UNSPEC ∧ hints.family ≠ .local
  · rw [if_pos mismatch, if_pos mismatch]
    exact ⟨{}, EAI_ADDRFAMILY, rfl, .inr ⟨⟨by decide, .inl rfl⟩, Nat.zero_le 4⟩⟩
  rw [if_neg mismatch, if_neg mismatch]
  have start : ({} : Memory).live answers = blocks [] := rfl
  by_cases unspecified : hints.socktype = 0
  · -- stream, then dgram
    have types : wantedTypes hints.toHints = [SOCK_STREAM, SOCK_DGRAM] := if_pos unspecified
    obtain ⟨m₁, l₁, es₁, rc₁, run₁, holds₁, live₁, small₁, result₁⟩ :=
      gaAistruct_unix answers hints path SOCK_STREAM shows_nil start
    have run₁ : gaAistruct answers {} 0 { hints.toHints with socktype := SOCK_STREAM } path .local
        = (m₁, lastCell 0 l₁, rc₁) := run₁
    rw [types]
    simp only [if_pos unspecified, run₁]
    rcases result₁ with ⟨rfl, e₁, made₁, rfl⟩ | justified
    · obtain ⟨m', aipnext, rc, run, m'', rc', last, meets⟩ :=
        unixLast_meets answers r hints path SOCK_DGRAM holds₁ live₁ (by simpa using small₁)
          fun ai member => by
            rw [List.mem_singleton.mp member]
            exact Request.made_unnamed made₁
      have spec : ([SOCK_STREAM, SOCK_DGRAM].mapM fun socktype =>
            (hints.unixRequest path socktype).made) >>= unixNamed r hints
          = (hints.unixRequest path SOCK_DGRAM).made >>= fun e =>
            unixNamed r hints ([] ++ [e₁] ++ [e]) := by
        simp only [List.mapM_cons, List.mapM_nil, made₁]
        cases (hints.unixRequest path SOCK_DGRAM).made <;> rfl
      simp only [ne_eq, not_true_eq_false, if_false, run, spec]
      exact ⟨m'', rc', last, meets⟩
    · refine ⟨m₁, rc₁, if_pos justified.1, .inr ⟨?_, ?_⟩⟩
      · rw [List.mapM_cons]
        exact (justified.bind _).bind _
      · simp only [blocks_nil] at small₁
        omega
  · -- the socket type of the caller
    have types : wantedTypes hints.toHints = [hints.socktype] := if_neg unspecified
    obtain ⟨m', aipnext, rc, run, m'', rc', last, meets⟩ :=
      unixLast_meets answers r hints path hints.socktype shows_nil start (by simp) (by simp)
    have run : gaAistruct answers {} 0 { hints.toHints with socktype := hints.socktype } path .local
        = (m', aipnext, rc) := run
    have spec : ([hints.socktype].mapM fun socktype =>
          (hints.unixRequest path socktype).made) >>= unixNamed r hints
        = (hints.unixRequest path hints.socktype).made >>= fun e =>
          unixNamed r hints ([] ++ [e]) := by
      rw [List.mapM_cons]
      cases (hints.unixRequest path hints.socktype).made <;> rfl
    rw [types]
    simp only [if_neg unspecified, ne_eq, not_true_eq_false, if_false, run, spec]
    exact ⟨m'', rc', last, meets⟩

/-- Every call of `getaddrinfo` ends, whatever the library answers and whichever allocations
fail. With 0 it returns the list that the answer by lists has, and that list owns all that the
call has allocated; an error is that of the answer, or `EAI_MEMORY` where an allocation has
failed. Then everything is freed, but for a copy of the canonical name that had not reached the
list, and for what `ga_unix` has allocated.
-/
theorem getaddrinfo_meets (answers : Nat → Bool) (resolves : r.Resolves)
    (hostname servname : Option (List Byte)) (hintsp : Option SearchHints)
    : ∃ outcome need, (∀ fuel, need < fuel
          → getaddrinfo answers fuel r hostname servname hintsp = some outcome)
        ∧ outcome.Meets answers
          (lostBlocks hostname servname (hintsp.getD ⟨⟨0, 0, 0⟩, AF_UNSPEC⟩))
          (lookup r hostname servname hintsp) := by
  unfold getaddrinfo lookup
  generalize hintsp.getD ⟨⟨0, 0, 0⟩, AF_UNSPEC⟩ = hints
  simp only
  have live : ({} : Memory).live answers = 0 := rfl
  by_cases refused : gaEcheck hostname servname hints.flags hints.family hints.socktype ≠ 0
  · -- `ga_echeck` has an error
    rw [if_pos refused]
    have spec : Justified answers (.error (gaEcheck hostname servname hints.flags hints.family
        hints.socktype) : Except Int (List Addrinfo)) _ := ⟨refused, .inl rfl⟩
    have high : ({} : Memory).live answers ≤ blocks [] + lostBlocks hostname servname hints := by
      rw [live]
      exact Nat.zero_le _
    obtain ⟨outcome, freed, meets⟩ := bad_meets ⟨[], shows_nil⟩ spec live.ge high
    refine ⟨outcome, 0, fun fuel enough => ?_, meets⟩
    rw [if_pos refused]
    exact freed fuel enough
  rw [if_neg refused]
  by_cases unixHost : isUnix hostname servname
  · obtain ⟨m', rc, run, result⟩ := gaUnix_meets answers r (servname.getD []) hints
    have lost : lostBlocks hostname servname hints = 4 := if_pos unixHost
    refine ⟨.returned m' rc 0, 0, fun fuel _ => ?_, ?_⟩
    · rw [if_neg refused, if_pos unixHost, run]
    · rw [if_pos unixHost, lost]
      refine ⟨_, rfl, ?_⟩
      rcases result with ⟨rfl, es, eq, owns⟩ | ⟨justified, few⟩
      · exact .inl ⟨rfl, rfl, es, eq, owns⟩
      · exact .inr ⟨justified, Nat.zero_le _, by omega⟩
  rw [if_neg unixHost]
  cases searches : gaNsearch hostname hints with
  | none =>
      refine ⟨.quit, 0, fun fuel _ => ?_, rfl⟩
      rw [if_neg refused, if_neg unixHost]
  | some search =>
      have room : wantsCanon hostname hints → 1 ≤ lostBlocks hostname servname hints := by
        intro wants
        rw [lostBlocks, if_neg unixHost, if_pos wants]
      have begins : Vars.Tracks answers hostname hints {} ({} : Found).entries :=
        ⟨⟨[], shows_nil, rfl⟩, rfl, by simp⟩
      obtain ⟨v, rc, es, run, tracks, result⟩ :=
        searchLoop_tracks resolves search.length search begins rfl
      rw [Option.map_some]
      rcases result with ⟨rfl, f, found, rfl, canon⟩ | justified
      · have fresh := search_fresh hints resolves (f := {}) (by simp) found
        obtain ⟨outcome, need, goes, meets⟩ :=
          finishAddrs_meets answers servname room tracks canon fresh found
        refine ⟨outcome, need, fun fuel enough => ?_, meets⟩
        rw [if_neg refused, if_neg unixHost]
        simp only [run, ne_eq, not_true_eq_false, if_false]
        exact goes fuel enough
      · have spec : Justified answers (lookupInet r hostname servname hints search) rc :=
          ⟨justified.1, justified.2.imp_left
            ((lookupInet_eq r hostname hints search).1 rc)⟩
        obtain ⟨l, holds, -⟩ := tracks.shows
        have owed := tracks.live
        have canonRoom : v.canon.toList.length ≤ lostBlocks hostname servname hints := by
          cases saved : v.canon with
          | none => simp
          | some name => simpa using room (tracks.asked (by simp [saved]))
        obtain ⟨outcome, freed, meets⟩ := bad_meets ⟨l, holds⟩ spec (by omega)
          (show v.m.live answers ≤ blocks es + lostBlocks hostname servname hints by omega)
        refine ⟨outcome, es.length, fun fuel enough => ?_, meets⟩
        rw [if_neg refused, if_neg unixHost]
        simp only [run, if_pos justified.1]
        exact freed fuel enough

/-- A library that knows two addresses of every host, and no service. -/
def twoHosts : Resolver where
  order := .little
  overflow _ := 0
  getservbyname _ _ := none
  gethostbyname2 name family :=
    if family = .inet then some ⟨name, .inet, [[10, 0, 0, 1], [10, 0, 0, 2]]⟩ else none
  gethostbyname _ _ := .error .HOST_NOT_FOUND
  uname := none

/-- The sample resolver resolves. -/
theorem twoHosts_resolves : twoHosts.Resolves where
  byname2 := by
    intro name family hptr found
    simp only [twoHosts, Option.ite_none_right_eq_some, Option.some.injEq] at found
    rw [← found.2]
    rfl
  byname := by
    intro inet6 name hptr found
    cases found

/-- Witness: the host `h` and the port 80, where the fourth allocation fails. -/
theorem getaddrinfo_meets_twoHosts
    : ∃ outcome need, (∀ fuel, need < fuel
          → getaddrinfo (fun n => n ≠ 3) fuel twoHosts (some [104]) (some [56, 48]) none
            = some outcome)
        ∧ outcome.Meets (fun n => n ≠ 3)
          (lostBlocks (some [104]) (some [56, 48]) ((none : Option SearchHints).getD
            ⟨⟨0, 0, 0⟩, AF_UNSPEC⟩))
          (lookup twoHosts (some [104]) (some [56, 48]) none) :=
  getaddrinfo_meets (fun n => n ≠ 3) twoHosts_resolves (some [104]) (some [56, 48]) none

example
    : lookup twoHosts (some [104]) (some [56, 48]) none
      = some (.ok [
        ⟨4, .inet, 1, 0, none, 16, some (.sockaddr_in 20480 [10, 0, 0, 1])⟩,
        ⟨0, .inet, 2, 0, none, 16, some (.sockaddr_in 20480 [10, 0, 0, 1])⟩,
        ⟨4, .inet, 1, 0, none, 16, some (.sockaddr_in 20480 [10, 0, 0, 2])⟩,
        ⟨0, .inet, 2, 0, none, 16, some (.sockaddr_in 20480 [10, 0, 0, 2])⟩]) := by
  rfl

end Minions.Unp.Gai
