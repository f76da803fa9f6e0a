import Mathlib.Data.List.Basic

/-! `udpping`: `udpping.py` and `get_config` of `ping/shell.py`. It sends datagrams to an echo
server and counts the answers.
-/

namespace Minions.Python.Udpping

-----------------------------------------------------------------------------------------
-- The arguments
-----------------------------------------------------------------------------------------

/-- The dictionary `config`. -/
structure Config where
  server : String
  port : Int
  size : Int := 64
  proxy : Option String := none
  count : Int := 10
  timeout : Int := 3000
  interval : Int := 1000
  verbose : Nat := 0

/-- One option of the list that `getopt` returns. Nothing comes back when the program exits with
a code; `int` is the conversion of Python, which may raise an exception.
-/
def getOption (int : String → Option Int) (config : Config) : String × String → Except Nat Config
  | ("-s", value) => (int value).elim (.error 1) fun size => .ok { config with size }
  | ("-x", value) => .ok { config with proxy := some value }
  | ("-c", value) => (int value).elim (.error 1) fun count => .ok { config with count }
  | ("-t", value) => (int value).elim (.error 1) fun timeout => .ok { config with timeout }
  | ("-i", value) => (int value).elim (.error 1) fun interval => .ok { config with interval }
  | ("-h", _) => .error 0
  | ("--help", _) => .error 0
  | ("-v", _) => .ok { config with verbose := config.verbose + 1 }
  | _ => .ok config

/-- `get_config`, from what `getopt` has made of the command line. -/
def getConfig (int : String → Option Int) (optlist : List (String × String)) (args : List String)
    : Except Nat Config :=
  match args with
  | [server, port] =>
      (int port).elim (.error 1) fun port => optlist.foldlM (getOption int) { server, port }
  | _ => .error 1

/-- A conversion that is accepted has a number. -/
theorem elim_eq_ok {number : Option Int} {use : Int → Except Nat Config} {config : Config}
    (accepted : number.elim (.error 1) use = .ok config)
    : ∃ n, use n = .ok config := by
  cases number with
  | none => cases accepted
  | some n => exact ⟨n, accepted⟩

/-- No option changes the server. -/
theorem getOption_server {int : String → Option Int} {config config' : Config}
    {option : String × String} (accepted : getOption int config option = .ok config')
    : config'.server = config.server := by
  obtain ⟨key, value⟩ := option
  unfold getOption at accepted
  split at accepted
  all_goals first
    | (cases accepted; done)
    | (cases accepted; rfl)
    | (obtain ⟨n, accepted⟩ := elim_eq_ok accepted; cases accepted; rfl)

/-- The options leave the server alone. -/
theorem getOptions_server {int : String → Option Int} {config config' : Config}
    {optlist : List (String × String)}
    (accepted : optlist.foldlM (getOption int) config = .ok config')
    : config'.server = config.server := by
  induction optlist generalizing config with
  | nil =>
      cases accepted
      rfl
  | cons option rest ih =>
      rw [List.foldlM_cons] at accepted
      cases first : getOption int config option with
      | error code =>
          rw [first] at accepted
          cases accepted
      | ok middle =>
          rw [first] at accepted
          exact (ih accepted).trans (getOption_server first)

/-- The server is the first argument as it stands. -/
theorem getConfig_server {int : String → Option Int} {optlist : List (String × String)}
    {args : List String} {config : Config} (accepted : getConfig int optlist args = .ok config)
    : ∃ port, args = [config.server, port] := by
  unfold getConfig at accepted
  split at accepted
  · next server port =>
      obtain ⟨n, options⟩ := elim_eq_ok accepted
      exact ⟨port, by rw [getOptions_server options]⟩
  · cases accepted

-----------------------------------------------------------------------------------------
-- The pings
-----------------------------------------------------------------------------------------

/-- What `recvfrom` answers to a ping: a datagram and the address text and port that it came
from, or `socket.timeout`.
-/
inductive Outcome where
  | datagram (recvData : List UInt8) (addr : String) (port : Int)
  | timeout
deriving DecidableEq

variable {τ : Type}

/-- A line of the output. The packet loss is given by the number that its rate is made from. -/
inductive Line (τ : Type) where
  | reply (server : String) (port : Int) (seq : Nat) (rtt : τ)
  | timeout (seq : Nat)
  | statistics (transmitted received loss : Int)
  | roundTrip (rttVals : List τ)

/-- `('z' * size).encode()`. -/
def payload (config : Config) : List UInt8 := List.replicate config.size.toNat 122

/-- The test on what was received. -/
def Matches (config : Config) (outcome : Outcome) : Prop :=
  outcome = .datagram (payload config) config.server config.port

instance (config : Config) (outcome : Outcome) : Decidable (Matches config outcome) :=
  inferInstanceAs (Decidable (_ = _))

/-- The variables of the loop, and what was printed. -/
structure Pings (τ : Type) where
  pingCnt : Nat := 0
  lossCnt : Nat := 0
  rttVals : List τ := []
  printed : List (Line τ) := []

/-- The body of the loop. -/
def ping (config : Config) (s : Pings τ) (outcome : Outcome) (rtt : τ) : Pings τ :=
  match outcome with
  | .datagram recvData addr port =>
      if recvData = payload config ∧ addr = config.server ∧ port = config.port then
        { s with
          pingCnt := s.pingCnt + 1
          rttVals := s.rttVals ++ [rtt]
          printed := s.printed ++ [.reply config.server config.port s.pingCnt rtt] }
      else { s with pingCnt := s.pingCnt + 1 }
  | .timeout =>
      { s with
        pingCnt := s.pingCnt + 1
        lossCnt := s.lossCnt + 1
        printed := s.printed ++ [.timeout s.pingCnt] }

/-- The loop; `outcome` and `rtt` have for each ping what was received and the time it took. -/
def pings (config : Config) (outcome : Nat → Outcome) (rtt : Nat → τ) : Nat → Pings τ
  | 0 => {}
  | n + 1 =>
      let s := pings config outcome rtt n
      ping config s (outcome s.pingCnt) (rtt s.pingCnt)

/-- The statistics that `main` prints at the end. -/
def summary (config : Config) (s : Pings τ) : List (Line τ) :=
  .statistics config.count (config.count - s.lossCnt) s.lossCnt
    :: if s.rttVals.length ≠ 0 then [.roundTrip s.rttVals] else []

/-- What `main` prints about the pings. -/
def main (config : Config) (outcome : Nat → Outcome) (rtt : Nat → τ) : List (Line τ) :=
  let s := pings config outcome rtt config.count.toNat
  s.printed ++ summary config s

-----------------------------------------------------------------------------------------
-- Honest statistics
-----------------------------------------------------------------------------------------

def Line.isReply : Line τ → Bool
  | .reply .. => true
  | _ => false

def Line.isRoundTrip : Line τ → Bool
  | .roundTrip _ => true
  | _ => false

/-- The packets received are those with a reply line, with the lost ones they make up the
packets transmitted, and the round trips are summed up if there are any.
-/
def Honest (lines : List (Line τ)) : Prop :=
  ∃ transmitted received loss, .statistics transmitted received loss ∈ lines
    ∧ received = (lines.countP Line.isReply : Int)
    ∧ received + loss = transmitted
    ∧ ((lines.any Line.isRoundTrip) ↔ received > 0)

variable (config : Config) (outcome : Nat → Outcome) (rtt : Nat → τ)

/-- The number of the first `n` pings whose outcome is of some kind. -/
def total (outcome : Nat → Outcome) (kind : Outcome → Bool) (n : Nat) : Nat :=
  (List.range n).countP fun i => kind (outcome i)

/-- No pings count nothing. -/
@[simp]
theorem total_zero (kind : Outcome → Bool) : total outcome kind 0 = 0 := rfl

/-- One more ping counts by its outcome. -/
@[simp]
theorem total_succ (kind : Outcome → Bool) (n : Nat)
    : total outcome kind (n + 1) = total outcome kind n + if kind (outcome n) then 1 else 0 := by
  simp [total, List.range_succ, List.countP_append, List.countP_singleton]

/-- What the loop has counted after `n` pings. -/
structure Counted (n : Nat) (s : Pings τ) : Prop where
  pingCnt : s.pingCnt = n
  lossCnt : s.lossCnt = total outcome (· = .timeout) n
  rttVals : s.rttVals.length = total outcome (Matches config ·) n
  replies : s.printed.countP Line.isReply = total outcome (Matches config ·) n
  others : ∀ line ∈ s.printed, line.isRoundTrip = false ∧ ∀ t r l, line ≠ .statistics t r l

/-- One ping adds to the losses, or to the replies, or to neither. -/
theorem Counted.ping {config : Config} {outcome : Nat → Outcome} {n : Nat} {s : Pings τ}
    (counted : Counted config outcome n s) (time : τ)
    : Counted config outcome (n + 1) (ping config s (outcome n) time) := by
  obtain ⟨pingCnt, lossCnt, rttVals, replies, others⟩ := counted
  cases answer : outcome n with
  | timeout =>
      have other : ¬ Matches config .timeout := by simp [Matches]
      refine ⟨?_, ?_, ?_, ?_, ?_⟩ <;> simp only [Udpping.ping, total_succ, answer, other]
      · rw [pingCnt]
      · simp [lossCnt]
      · simpa using rttVals
      · simpa [Line.isReply] using replies
      · exact List.forall_mem_append.mpr ⟨others, List.forall_mem_singleton.mpr ⟨rfl, by simp⟩⟩
  | datagram recvData addr port =>
      by_cases test : recvData = payload config ∧ addr = config.server ∧ port = config.port
      · have matched : Matches config (.datagram recvData addr port) := by
          obtain ⟨rfl, rfl, rfl⟩ := test
          rfl
        refine ⟨?_, ?_, ?_, ?_, ?_⟩ <;>
          simp only [Udpping.ping, if_pos test, total_succ, answer, matched]
        · rw [pingCnt]
        · simpa using lossCnt
        · simpa using rttVals
        · simpa [Line.isReply] using replies
        · exact List.forall_mem_append.mpr ⟨others, List.forall_mem_singleton.mpr ⟨rfl, by simp⟩⟩
      · have other : ¬ Matches config (.datagram recvData addr port) := by
          simpa [Matches] using test
        refine ⟨?_, ?_, ?_, ?_, ?_⟩ <;>
          simp only [Udpping.ping, if_neg test, total_succ, answer, other]
        · rw [pingCnt]
        · simpa using lossCnt
        · simpa using rttVals
        · simpa using replies
        · exact others

/-- The counters after a number of pings. -/
theorem counted_pings (n : Nat) : Counted config outcome n (pings config outcome rtt n) := by
  induction n with
  | zero => exact ⟨rfl, rfl, rfl, rfl, by simp [pings]⟩
  | succ n ih =>
      rw [pings]
      rw [ih.pingCnt]
      exact ih.ping (rtt n)

/-- All pings are counted exactly if each is of the kind. -/
theorem total_eq_iff (kind : Outcome → Bool) (n : Nat)
    : total outcome kind n = n ↔ ∀ i < n, kind (outcome i) = true := by
  have all := List.countP_eq_length (p := fun i => kind (outcome i)) (l := List.range n)
  rw [List.length_range] at all
  simpa [total] using all

/-- Kinds that exclude each other are counted together. -/
theorem total_or {kind kind' : Outcome → Bool} (disjoint : ∀ o, kind o = true → kind' o = false)
    (n : Nat)
    : total outcome (fun o => kind o || kind' o) n
      = total outcome kind n + total outcome kind' n := by
  induction n with
  | zero => rfl
  | succ n ih =>
      simp only [total_succ, ih]
      cases here : kind (outcome n) with
      | true =>
          simp only [disjoint _ here, Bool.or_false, if_true, Bool.false_eq_true, if_false]
          omega
      | false =>
          simp only [Bool.false_or, Bool.false_eq_true, if_false]
          omega

/-- Two kinds that no outcome is of both of make up all pings exactly when each outcome is of
one.
-/
theorem total_add_eq_iff {kind kind' : Outcome → Bool}
    (disjoint : ∀ o, kind o = true → kind' o = false) (n : Nat)
    : total outcome kind n + total outcome kind' n = n
        ↔ ∀ i < n, kind (outcome i) = true ∨ kind' (outcome i) = true := by
  rw [← total_or outcome disjoint, total_eq_iff]
  simp only [Bool.or_eq_true]

/-- The statistics line of the summary. -/
theorem mem_summary {s : Pings τ} {t r l : Int}
    : Line.statistics t r l ∈ summary config s
        ↔ t = config.count ∧ r = config.count - s.lossCnt ∧ l = s.lossCnt := by
  unfold summary
  split <;> simp

/-- The summary has no reply line. -/
theorem countP_summary (s : Pings τ) : (summary config s).countP Line.isReply = 0 := by
  unfold summary
  split <;> simp [Line.isReply]

/-- The summary has a round-trip line exactly if there was a reply. -/
theorem any_summary (s : Pings τ)
    : (summary config s).any Line.isRoundTrip ↔ 0 < s.rttVals.length := by
  unfold summary
  split <;> simp_all [Line.isRoundTrip, List.length_pos_iff]

/-- The figures in the output. -/
theorem honest_main_iff
    : Honest (main config outcome rtt)
        ↔ config.count - (total outcome (· = .timeout) config.count.toNat : Int)
          = total outcome (Matches config ·) config.count.toNat := by
  obtain ⟨-, lossCnt, rttVals, replies, others⟩ :=
    counted_pings config outcome rtt config.count.toNat
  unfold main
  generalize pings config outcome rtt config.count.toNat = s at *
  have shown : (s.printed ++ summary config s).countP Line.isReply
      = s.printed.countP Line.isReply := by
    rw [List.countP_append, countP_summary, Nat.add_zero]
  have summed : (s.printed ++ summary config s).any Line.isRoundTrip ↔ 0 < s.rttVals.length := by
    have before : s.printed.any Line.isRoundTrip = false := by
      simpa using fun line member => (others line member).1
    rw [List.any_append, before, Bool.false_or, any_summary]
  rw [← lossCnt, ← replies]
  constructor
  · rintro ⟨t, r, l, member, received, -⟩
    have last := (List.mem_append.mp member).resolve_left fun old => (others _ old).2 t r l rfl
    obtain ⟨-, rfl, -⟩ := (mem_summary config).mp last
    exact received.trans (congrArg Nat.cast shown)
  · intro same
    have member :=
      List.mem_append_right s.printed ((mem_summary config (s := s)).mpr ⟨rfl, rfl, rfl⟩)
    refine ⟨_, _, _, member, ?_, by omega, ?_⟩
    · rw [shown, same]
    · rw [summed, rttVals, ← replies, same]
      omega

/-- The statistics are honest if and only if every ping is answered by its echo or not at all:
any other datagram, and every answer when the server is given by name, counts as received.
-/
theorem honest_iff (positive : 1 ≤ config.count)
    : Honest (main config outcome rtt)
        ↔ ∀ i < config.count.toNat, outcome i = .timeout ∨ Matches config (outcome i) := by
  have disjoint : ∀ o, decide (o = .timeout) = true → decide (Matches config o) = false := by
    intro o silent
    obtain rfl := of_decide_eq_true silent
    simp [Matches]
  have all := total_add_eq_iff outcome disjoint config.count.toNat
  simp only [decide_eq_true_eq] at all
  rw [honest_main_iff, ← all]
  omega

/-- Two pings, one of which is answered. -/
theorem honest_iff_two
    : Honest (main { server := "10.0.0.1", port := 7, size := 1, count := 2 }
          (fun i => if i = 0 then .datagram [122] "10.0.0.1" 7 else .timeout) fun _ => ())
        ↔ ∀ i < 2, (if i = 0 then Outcome.datagram [122] "10.0.0.1" 7 else .timeout) = .timeout
          ∨ Matches { server := "10.0.0.1", port := 7, size := 1, count := 2 }
            (if i = 0 then .datagram [122] "10.0.0.1" 7 else .timeout) :=
  honest_iff _ _ _ (by decide)

/-- `localhost` answers the only ping from the address 127.0.0.1. -/
theorem honest_localhost
    : ¬ Honest (main { server := "localhost", port := 1195, size := 1, count := 1 }
        (fun _ => .datagram [122] "127.0.0.1" 1195) fun _ => ()) := by
  rw [honest_main_iff]
  decide

end Minions.Python.Udpping
