import Minions.Data.Bytes
import Minions.Data.Decimal

/-! The job counter of `printd.c`: the number in memory, and the job file that keeps it from
one run to the next.
-/

namespace Minions.Printer

open Minions.Data

/-- The bytes of a C string literal. -/
def text (s : String) : List Byte := s.toList.map ascii

def FILENMSZ : Nat := 64

/-- What `sprintf(name, "%s/%s", SPOOLDIR, JOBFILE)` writes, with its terminator. -/
def jobFileName : List Byte := text "/var/spool/printer/jobno" ++ [0]

/-- Conversion to `int32_t`. -/
def int32 (v : Int) : Int := (v + 2 ^ 31) % 2 ^ 32 - 2 ^ 31

/-- `init_request`: the number that a job file of content `jobno` stands for. The buffer that
the file is read into still holds the rest of the file's name, and `stale` behind it.
-/
def initRequest (stale jobno : List Byte) : Int :=
  let read := jobno.take FILENMSZ
  if read = [] then 1
  else int32 (atol (read ++ (jobFileName ++ stale).drop read.length))

/-- The counter after `get_newjobno` has handed out `nextjob`. The increment wraps around. -/
def advance (nextjob : Int) : Int :=
  if int32 (nextjob + 1) ≤ 0 then 1 else int32 (nextjob + 1)

/-- An `int32_t` is in its range. -/
theorem int32_range (v : Int) : -(2 ^ 31) ≤ int32 v ∧ int32 v < 2 ^ 31 := by
  simp only [int32]
  omega

/-- A number in the range is kept. -/
theorem int32_eq_self {v : Int} (low : -(2 ^ 31) ≤ v) (high : v < 2 ^ 31) : int32 v = v := by
  simp only [int32]
  omega

/-- The next job number is positive. -/
theorem advance_range (v : Int) : 0 < advance v ∧ advance v < 2 ^ 31 := by
  have range := int32_range (v + 1)
  simp only [advance]
  split <;> omega

/-- The counter grows as long as it does not wrap around. -/
theorem lt_advance {v : Int} (low : -(2 ^ 31) ≤ v) (high : v < 2 ^ 31 - 1) : v < advance v := by
  simp only [advance, int32_eq_self (v := v + 1) (by omega) (by omega)]
  split <;> omega

/-- Below the largest number the counter goes up by one. -/
theorem advance_eq_succ {v : Int} (low : 0 ≤ v) (high : v < 2 ^ 31 - 1) : advance v = v + 1 := by
  simp only [advance, int32_eq_self (v := v + 1) (by omega) (by omega)]
  split <;> omega

/-- The job number that is read is an `int32_t`. -/
theorem initRequest_range (stale jobno : List Byte)
    : -(2 ^ 31) ≤ initRequest stale jobno ∧ initRequest stale jobno < 2 ^ 31 := by
  simp only [initRequest]
  split
  · omega
  · exact int32_range _

end Minions.Printer
