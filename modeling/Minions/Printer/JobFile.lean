import Minions.Logic.Alone
import Minions.Logic.Events
import Minions.Printer.Threads

/-! The job counter over many runs of the daemon.
`update_jobno` writes the number from the start of the job file and does not shorten the file,
so the digits of a longer number stay behind those of a shorter one. The numbers grow until the
counter wraps around, which the comment on `update_jobno` leaves out.
-/

namespace Minions.Printer

open Minions.Data Minions.Logic

/-- The counter in memory and the content of the job file; `updates` lists the numbers that
`update_jobno` has written, in this run of the daemon and in the earlier ones.
-/
structure JobCounter where
  nextjob : Int
  jobno : List Byte
  updates : List Int
deriving Repr, DecidableEq

/-- What happens to the counter. A start of the daemon brings `init_request` with it, and what
stands in the buffer behind the name of the file.
-/
inductive CounterEvent
  | start (stale : List Byte)
  | getNewjobno
  | updateJobno
deriving Repr, DecidableEq

/-- `update_jobno`: the text of the number over the start of the file. -/
def JobCounter.updateJobno (s : JobCounter) : JobCounter :=
  { s with
    jobno := pwrite 0 s.jobno 0 (decimalInt s.nextjob)
    updates := s.updates ++ [s.nextjob] }

def counterStep (s : JobCounter) : CounterEvent → Option JobCounter
  | .start stale => some { s with nextjob := initRequest stale s.jobno }
  | .getNewjobno => some { s with nextjob := advance s.nextjob }
  | .updateJobno => some s.updateJobno

/-- The counter of a state of the daemon. -/
def Printd.counter (st : Printd) (updates : List Int) : JobCounter :=
  ⟨st.nextjob, st.spool.jobno, updates⟩

/-- Where its two calls do not fail, `update_jobno` of the printer thread does that. -/
theorem run_updateJobno (p : Thread) (fuel : Nat) {l : Loc} (st : Printd) (updates : List Int)
    (noFaults : l.faults = [])
    : ∃ st', updateJobno.run (daemon.alone p) fuel (l, st) = (.done (), (l.next.next, st'))
        ∧ st'.counter (updates ++ [st.nextjob]) = (st.counter updates).updateJobno := by
  rcases l with ⟨conn, events, faults, offset, names, answers⟩
  obtain rfl : faults = [] := noFaults
  refine ⟨_, rfl, ?_⟩
  change JobCounter.mk st.nextjob (pwrite 0 st.spool.jobno 0
    ((decimalInt st.nextjob).take (decimalInt st.nextjob).length)) _ = _
  rw [List.take_length]
  rfl

/-- The first start of the daemon, with an empty file. -/
def firstStart : JobCounter where
  nextjob := 1
  jobno := []
  updates := []

/-- No number that was written has a longer text than the last one. -/
def LastLongest (updates : List Int) : Prop :=
  ∀ v ∈ updates.getLast?, ∀ w ∈ updates, (decimalInt w).length ≤ (decimalInt v).length

instance (updates : List Int) : Decidable (LastLongest updates) :=
  inferInstanceAs (Decidable (∀ v ∈ updates.getLast?, ∀ w ∈ updates, _))

/-- The file begins with the last number, and is no longer than the longest one. -/
structure OnFile (s : JobCounter) : Prop where
  range : -(2 ^ 31) ≤ s.nextjob ∧ s.nextjob < 2 ^ 31
  ranges : ∀ v ∈ s.updates, -(2 ^ 31) ≤ v ∧ v < 2 ^ 31
  last : ∀ v ∈ s.updates.getLast?, decimalInt v <+: s.jobno
  short : ∀ n, (∀ v ∈ s.updates, (decimalInt v).length ≤ n) → s.jobno.length ≤ n

/-- After an update the file holds the number. -/
theorem onFile_updateJobno {s : JobCounter} (file : OnFile s) : OnFile s.updateJobno := by
  constructor
  case range => exact file.range
  case ranges =>
    intro v member
    rcases List.mem_append.mp member with earlier | now
    · exact file.ranges v earlier
    · cases List.mem_singleton.mp now
      exact file.range
  case last =>
    intro v member
    have last : s.nextjob = v := by simpa [JobCounter.updateJobno] using member
    subst last
    exact ⟨s.jobno.drop (decimalInt s.nextjob).length, by simp [JobCounter.updateJobno, pwrite]⟩
  case short =>
    intro n bound
    have earlier := file.short n fun v member => bound v (List.mem_append_left _ member)
    have now := bound s.nextjob (List.mem_append_right _ (List.mem_singleton_self _))
    simp only [JobCounter.updateJobno, length_pwrite]
    omega

/-- Every event keeps the number in the file. -/
theorem onFile_counterStep {s s' : JobCounter} {event : CounterEvent}
    (step : counterStep s event = some s') (file : OnFile s)
    : OnFile s' := by
  cases event with
  | start stale =>
      cases step
      exact { file with range := initRequest_range stale s.jobno }
  | getNewjobno =>
      cases step
      have range := advance_range s.nextjob
      exact { file with range := ⟨by change -(2 ^ 31) ≤ advance s.nextjob; omega, range.2⟩ }
  | updateJobno =>
      cases step
      exact onFile_updateJobno file

/-- The file of the first start. -/
theorem onFile_firstStart : OnFile firstStart := by
  constructor <;> simp [firstStart]

/-- The text of an `int32_t` has at most eleven characters. -/
theorem length_decimalInt_int32 {v : Int} (low : -(2 ^ 31) ≤ v) (high : v < 2 ^ 31)
    : (decimalInt v).length ≤ 11 :=
  decimalInt_length_le 10 (by omega) (by omega) (by omega)

/-- None of the first characters of the name of the job file is a digit. -/
theorem jobFileName_stops {n : Nat} (stale : List Byte) (few : n ≤ 11)
    : ∀ b ∈ ((jobFileName ++ stale).drop n).head?, isDigit b = false := by
  intro b member
  have inside : n < jobFileName.length := lt_of_le_of_lt few (by decide)
  rw [List.head?_drop, List.getElem?_append_left inside] at member
  have digits : ∀ c ∈ jobFileName.take 12, isDigit c = false := by decide +kernel
  have early : (jobFileName.take 12)[n]? = some b := by
    rw [List.getElem?_take_of_lt (by omega)]
    exact member
  exact digits b (List.mem_of_getElem? early)

/-- The text of an `int32_t` is read back, although the buffer holds more behind it. -/
theorem initRequest_decimalInt (stale : List Byte) {v : Int} (low : -(2 ^ 31) ≤ v)
    (high : v < 2 ^ 31)
    : initRequest stale (decimalInt v) = v := by
  have short := length_decimalInt_int32 low high
  have whole : (decimalInt v).take FILENMSZ = decimalInt v :=
    List.take_of_length_le (by simp only [FILENMSZ]; omega)
  simp only [initRequest, whole, if_neg (decimalInt_ne_nil v)]
  rw [atol_decimalInt_append _ (by omega) (by omega) (jobFileName_stops stale short)]
  exact int32_eq_self low high

/-- A file that is no longer than the last text holds that text. -/
theorem OnFile.initRequest_eq {s : JobCounter} (file : OnFile s) (longest : LastLongest s.updates)
    (stale : List Byte) {v : Int} (last : s.updates.getLast? = some v)
    : initRequest stale s.jobno = v := by
  have short := file.short _ (longest v last)
  have text : decimalInt v = s.jobno := (file.last v last).eq_of_length_le short
  have range := file.ranges v (List.mem_of_getLast? last)
  rw [← text]
  exact initRequest_decimalInt stale range.1 range.2

/-- Nothing is read from an empty file. -/
theorem OnFile.initRequest_first {s : JobCounter} (file : OnFile s) (none_ : s.updates = [])
    (stale : List Byte)
    : initRequest stale s.jobno = 1 := by
  have empty : s.jobno.length ≤ 0 := file.short 0 (by simp [none_])
  have nil : s.jobno = [] := List.length_eq_zero_iff.mp (by omega)
  simp [initRequest, nil]

-----------------------------------------------------------------------------------------
-- Runs in which the counter does not wrap around
-----------------------------------------------------------------------------------------

/-- The counter is not about to wrap around. -/
def NoWrap (s : JobCounter) (event : CounterEvent) : Prop :=
  event = .getNewjobno → s.nextjob < 2 ^ 31 - 1

instance (s : JobCounter) (event : CounterEvent) : Decidable (NoWrap s event) :=
  inferInstanceAs (Decidable (_ → _))

/-- The numbers written grow, up to the counter. -/
structure Growing (s : JobCounter) : Prop where
  file : OnFile s
  positive : 0 < s.nextjob
  below : ∀ v ∈ s.updates, 0 < v ∧ v ≤ s.nextjob
  sorted : s.updates.Pairwise (· ≤ ·)

/-- Larger numbers have no fewer digits. -/
theorem decimalInt_length_mono {v w : Int} (low : 0 ≤ v) (le : v ≤ w)
    : (decimalInt v).length ≤ (decimalInt w).length := by
  obtain ⟨m, rfl⟩ := Int.eq_ofNat_of_zero_le low
  obtain ⟨n, rfl⟩ := Int.eq_ofNat_of_zero_le (low.trans le)
  exact decimal_length_mono (by omega)

/-- The last update is the largest. -/
theorem Growing.le_last {s : JobCounter} (growing : Growing s) {v w : Int}
    (last : v ∈ s.updates.getLast?) (member : w ∈ s.updates)
    : w ≤ v := by
  obtain ⟨front, split⟩ := List.getLast?_eq_some_iff.mp last
  have sorted := growing.sorted
  rw [split] at member sorted
  rcases List.mem_append.mp member with earlier | now
  · exact (List.pairwise_append.mp sorted).2.2 w earlier v (List.mem_singleton_self v)
  · rw [List.mem_singleton.mp now]

/-- The last update is the longest. -/
theorem Growing.lastLongest {s : JobCounter} (growing : Growing s) : LastLongest s.updates :=
  fun _ last w member =>
    decimalInt_length_mono (growing.below w member).1.le (growing.le_last last member)

/-- Without a wrap-around the updates grow. -/
theorem growing_counterStep {s s' : JobCounter} {event : CounterEvent} (noWrap : NoWrap s event)
    (step : counterStep s event = some s') (growing : Growing s)
    : Growing s' := by
  have file := onFile_counterStep step growing.file
  cases event with
  | start stale =>
      cases step
      rcases last : s.updates.getLast? with _ | v
      · have none_ : s.updates = [] := List.getLast?_eq_none_iff.mp last
        have first := growing.file.initRequest_first none_ stale
        exact {
          file
          positive := by simp [first]
          below := by simp [none_]
          sorted := growing.sorted
        }
      · have same := growing.file.initRequest_eq growing.lastLongest stale last
        have member := List.mem_of_getLast? last
        exact {
          file
          positive := by simpa [same] using (growing.below v member).1
          below := fun w hw => ⟨(growing.below w hw).1, by
            simpa [same] using growing.le_last last hw⟩
          sorted := growing.sorted
        }
  | getNewjobno =>
      cases step
      have range := advance_range s.nextjob
      have grows := lt_advance (growing.file.range.1) (noWrap rfl)
      exact {
        file
        positive := range.1
        below := fun v member => ⟨(growing.below v member).1,
          (growing.below v member).2.trans grows.le⟩
        sorted := growing.sorted
      }
  | updateJobno =>
      cases step
      refine { file, positive := growing.positive, below := ?_, sorted := ?_ }
      · intro v member
        rcases List.mem_append.mp member with earlier | now
        · exact growing.below v earlier
        · rw [List.mem_singleton.mp now]
          exact ⟨growing.positive, le_refl _⟩
      · refine List.pairwise_append.mpr ⟨growing.sorted, List.pairwise_singleton _ _, ?_⟩
        intro v earlier w now
        rw [List.mem_singleton.mp now]
        exact (growing.below v earlier).2

/-- The updates grow at the first start. -/
theorem growing_firstStart : Growing firstStart where
  file := onFile_firstStart
  positive := by decide
  below := by simp [firstStart]
  sorted := by simp [firstStart]

/-- After every sequence of calls, in any number of runs of the daemon, `init_request` restores
the number of the last `update_jobno` if no update has written a longer text than the last one.
No update has while the counter has not wrapped around.
-/
theorem initRequest_restores (events : List CounterEvent) (s : JobCounter) (stale : List Byte)
    (run : runEvents counterStep firstStart events = some s)
    : (∀ v, s.updates.getLast? = some v → LastLongest s.updates → initRequest stale s.jobno = v)
      ∧ (EveryStep counterStep NoWrap firstStart events → LastLongest s.updates) := by
  constructor
  · intro v last longest
    have file := runEvents_invariant (P := OnFile) onFile_counterStep run onFile_firstStart
    exact file.initRequest_eq longest stale last
  · intro every
    have growing := runEvents_invariant_of_everyStep (P := Growing) growing_counterStep every run
      growing_firstStart
    exact growing.lastLongest

/-- One run that hands out a number and writes the next one. -/
theorem initRequest_restores_two
    : initRequest [] (JobCounter.updateJobno { firstStart with nextjob := 2 }).jobno = 2 :=
  (initRequest_restores [.getNewjobno, .updateJobno]
    (JobCounter.updateJobno { firstStart with nextjob := 2 }) [] rfl).1 2 rfl (by decide)

/-- As many numbers are given as are asked for. -/
theorem runEvents_replicate_getNewjobno {s : JobCounter} (n : Nat) (low : 0 ≤ s.nextjob)
    (high : s.nextjob + n < 2 ^ 31)
    : runEvents counterStep s (List.replicate n .getNewjobno)
      = some { s with nextjob := s.nextjob + n } := by
  induction n generalizing s with
  | zero => simp [runEvents]
  | succ n ih =>
      have next := advance_eq_succ low (by omega)
      rw [List.replicate_succ, runEvents, counterStep, Option.bind_some, ih]
      · simp only [next, Nat.cast_add, Nat.cast_one, Option.some.injEq, JobCounter.mk.injEq,
          and_true]
        omega
      · simp only [next]
        omega
      · simp only [next]
        omega

/-- The largest number is written, and the number 1 over it: the file then reads 1147483647. -/
theorem initRequest_after_wrap
    : ¬ ∀ (events : List CounterEvent) (s : JobCounter) (stale : List Byte),
        runEvents counterStep firstStart events = some s
        → ∀ v, s.updates.getLast? = some v → initRequest stale s.jobno = v := by
  intro restores
  have largest := runEvents_replicate_getNewjobno (s := firstStart) (2 ^ 31 - 2)
    (by decide) (by decide)
  let written : JobCounter :=
    { firstStart with nextjob := 2 ^ 31 - 1, jobno := text "2147483647", updates := [2 ^ 31 - 1] }
  have wraps : runEvents counterStep { firstStart with nextjob := 2 ^ 31 - 1 }
      [.updateJobno, .getNewjobno, .updateJobno]
      = some (JobCounter.updateJobno { written with nextjob := 1 }) := by
    decide
  have run := runEvents_append largest wraps
  exact absurd (restores _ _ [] run 1 (by decide)) (by decide)

end Minions.Printer
