import Mathlib

-- Calendar dates and Unix seconds (kernel/src/rtc.rs).

structure DateTime where
  second : Nat
  minute : Nat
  hour : Nat
  day : Nat
  month : Nat
  year : Nat

namespace DateTime

def zeroed : DateTime := { second := 0, minute := 0, hour := 0, day := 0, month := 0, year := 0 }

def secsOfDay (t : DateTime) : Nat := t.hour * 3600 + t.minute * 60 + t.second

def daysFromCivil (t : DateTime) : ℤ :=
  let y : ℤ := t.year - (if t.month ≤ 2 then 1 else 0)
  let era := (if y ≥ 0 then y else y - 399).tdiv 400
  let yoe := y - era * 400
  let m : ℤ := t.month
  let doy := (153 * (if m > 2 then m - 3 else m + 9) + 2).tdiv 5 + t.day - 1
  let doe := yoe * 365 + yoe.tdiv 4 - yoe.tdiv 100 + doy
  era * 146097 + doe - 719468

def toUnix (t : DateTime) : Option ℤ :=
  if t.year = 0 ∨ t.month = 0 ∨ t.day = 0 then none
  else some (t.daysFromCivil * 86400 + t.secsOfDay)

def fromUnix (secs : ℤ) : DateTime :=
  if secs ≤ 0 then zeroed
  else
    let days := secs / 86400
    let sod := (secs % 86400).toNat
    let z := days + 719468
    let era := (if z ≥ 0 then z else z - 146096).tdiv 146097
    let doe := z - era * 146097
    let yoe := (doe - doe.tdiv 1460 + doe.tdiv 36524 - doe.tdiv 146096).tdiv 365
    let y := yoe + era * 400
    let doy := doe - (365 * yoe + yoe.tdiv 4 - yoe.tdiv 100)
    let mp := (5 * doy + 2).tdiv 153
    let d := doy - (153 * mp + 2).tdiv 5 + 1
    let m := if mp < 10 then mp + 3 else mp - 9
    { second := sod % 60
      minute := sod / 60 % 60
      hour := sod / 3600
      day := (d % 2 ^ 8).toNat
      month := (m % 2 ^ 8).toNat
      year := ((if m ≤ 2 then y + 1 else y) % 2 ^ 16).toNat }

end DateTime
