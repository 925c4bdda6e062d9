import ModuLang.Operator

/-!
# The package `time`

A timestamp counts seconds since the beginning of 1970, in the calendar of today extended to all
years and without leap seconds. Years from 1 to 9999 can be shown. The clock counts 64-bit seconds
and keeps the years since 1900 in 32 bits, and a time is shown only if the day before it can be
shown too.
-/

namespace ModuLang.Library

/-- A day of the calendar; months and days count from one. -/
structure Date where
  year : Int
  month : Nat
  day : Nat
  deriving DecidableEq, Repr

/-- The date of a day counted from the first of January 1970. The count is moved to eras of 400
years that begin on the first of March, so that a leap day ends a year. -/
def dateOfDay (days : Int) : Date :=
  let shifted := days + 719468
  let era := shifted.fdiv 146097
  let ofEra := (shifted - era * 146097).toNat
  let yearOfEra := (ofEra - ofEra / 1460 + ofEra / 36524 - ofEra / 146096) / 365
  let ofYear := ofEra - (365 * yearOfEra + yearOfEra / 4 - yearOfEra / 100)
  let fromMarch := (5 * ofYear + 2) / 153
  let day := ofYear - (153 * fromMarch + 2) / 5 + 1
  let month := if fromMarch < 10 then fromMarch + 3 else fromMarch - 9
  let year := (yearOfEra : Int) + era * 400
  ⟨if month ≤ 2 then year + 1 else year, month, day⟩

/-- The day of a number of seconds. -/
def dayOf (seconds : Int) : Int :=
  seconds.fdiv 86400

/-- The second of the day. -/
def secondOfDay (seconds : Int) : Nat :=
  (seconds.fmod 86400).toNat

/-- The seconds that the clock of the host counts. -/
def clockSeconds (v : Value) (function : String) : Except Failure Int := do
  let seconds ←
    match v with
    | .int n => pure n
    | .float x =>
      match Number.toInt? .truncate x with
      | some n => pure n
      | none =>
        let defect := if x.isNaN then TimestampDefect.notANumber else .infinite
        refuse (.invalidTimestamp function defect)
    | _ => refuse (.timeArgument function)
  if !Number.inRange seconds then refuse (.invalidTimestamp function .outsideClock)
  else return seconds

/-- The years since 1900 that the clock can count. -/
def isClockYear (year : Int) : Bool :=
  -0x80000000 ≤ year - 1900 && year - 1900 < 0x80000000

/-- Refuses a time whose year cannot be shown; the year is reported in 32 bits. -/
def checkYear (function : String) (seconds : Int) : Except Failure Unit :=
  let year := (dateOfDay (dayOf seconds)).year
  if !isClockYear year then refuse (.invalidTimestamp function .clockEnd)
  else if year < 1 || 9999 < year then
    refuse (.invalidTimestamp function (.yearOutOfRange (Int.bmod year 0x100000000)))
  else .ok ()

/-- The seconds of a time that can be shown. -/
def timestamp (function : String) (v : Value) : Except Failure Int := do
  let seconds ← clockSeconds v function
  checkYear function seconds
  checkYear function (seconds - 86400)
  return seconds

/-- A number with zeros in front up to the given width. -/
def padded (width n : Nat) : String :=
  let digits := toString n
  String.ofList (List.replicate (width - digits.length) '0') ++ digits

/-- The time of day, with colons. -/
def clockText (seconds : Int) : String :=
  let s := secondOfDay seconds
  padded 2 (s / 3600) ++ ":" ++ padded 2 (s / 60 % 60) ++ ":" ++ padded 2 (s % 60)

/-- The text of a time in the international form. -/
def isoText (seconds : Int) : String :=
  let date := dateOfDay (dayOf seconds)
  padded 4 date.year.toNat ++ "-" ++ padded 2 date.month ++ "-" ++ padded 2 date.day ++ "T" ++
    clockText seconds ++ "+00:00"

/-- The names of the days, from the one of the first of January 1970 on. -/
def weekdayNames : List String := ["Thu", "Fri", "Sat", "Sun", "Mon", "Tue", "Wed"]

/-- The names of the months. -/
def monthNames : List String :=
  ["Jan", "Feb", "Mar", "Apr", "May", "Jun", "Jul", "Aug", "Sep", "Oct", "Nov", "Dec"]

/-- The text of a time with the names of its day and month; the day of the month has two places. -/
def longText (seconds : Int) : String :=
  let day := dayOf seconds
  let date := dateOfDay day
  let weekday := weekdayNames.getD (day.fmod 7).toNat ""
  let month := monthNames.getD (date.month - 1) ""
  let dayOfMonth := if date.day < 10 then s!" {date.day}" else s!"{date.day}"
  s!"{weekday} {month} {dayOfMonth} {clockText seconds} {date.year}"

end ModuLang.Library
