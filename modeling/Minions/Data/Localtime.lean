import Minions.Data.CInt

/-! `localtime`: the calendar date and the time of day of a `time_t`.
The calendar is the Gregorian one in both directions. Its 400 years have 146097 days; a year of the
computation begins in March, so that the leap day is its last one.
-/

namespace Minions.Data

/-- `struct tm`, as far as the date format `%c` prints it. -/
structure Tm where
  tmSec : Nat
  tmMin : Nat
  tmHour : Nat
  tmMday : Nat
  /-- From January, which is 0. -/
  tmMon : Nat
  /-- Since 1900. -/
  tmYear : Int
  /-- From Sunday, which is 0. -/
  tmWday : Nat
deriving DecidableEq

/-- The day of a cycle of 400 years, as the year of the cycle and the day of that year. -/
def dayOfCycle (day : Nat) : Nat × Nat :=
  let year := (day - day / 1460 + day / 36524 - day / 146096) / 365
  (year, day - (365 * year + year / 4 - year / 100))

/-- The fields of the seconds since 1970 on the clock of the time zone. -/
def brokenDown (clock : Int) : Tm :=
  let second := (clock % 86400).toNat
  -- from the first of March of the year 0
  let day := clock / 86400 + 719468
  let cycle := dayOfCycle (day % 146097).toNat
  let month := (5 * cycle.2 + 2) / 153
  let year := cycle.1 + 400 * (day / 146097) + if month < 10 then 0 else 1
  { tmSec := second % 60
    tmMin := second / 60 % 60
    tmHour := second / 3600
    tmMday := cycle.2 - (153 * month + 2) / 5 + 1
    tmMon := (month + 2) % 12
    tmYear := year - 1900
    tmWday := ((clock / 86400 + 4) % 7).toNat }

/-- `localtime`, in a zone that is `zone t` seconds ahead of UTC at the time `t`. It returns `NULL`
for a year that `tm_year`, an `int`, does not have.
-/
def localtime (zone : Int → Int) (t : Int) : Option Tm :=
  let tm := brokenDown (t + zone t)
  if toInt tm.tmYear = tm.tmYear then some tm else none

-- The first day, the leap day of 2000, and a year that has no `tm_year`.
example : localtime (fun _ => 0) 0 = some ⟨0, 0, 0, 1, 0, 70, 4⟩ := by decide
example : localtime (fun _ => 0) 951827696 = some ⟨56, 34, 12, 29, 1, 100, 2⟩ := by decide
example : localtime (fun _ => 0) (2 ^ 62) = none := by decide

end Minions.Data
