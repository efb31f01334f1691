import Parlance.Number.Display
/-!
# Moments in time

A date of the Gregorian calendar with a time of day, its standard text, and its text after a format
of directives: a percent sign and a letter.
-/
namespace Parlance

structure Moment where
  year : Nat
  month : Nat
  day : Nat
  hour : Nat := 0
  minute : Nat := 0
  second : Nat := 0
  microsecond : Nat := 0
  deriving DecidableEq, Repr

/-- A number written with leading pad characters up to a width. -/
def padded (pad : Char) (width n : Nat) : List Char :=
  let digits := decimalDigits n
  List.replicate (width - digits.length) pad ++ digits

namespace Moment

def two (n : Nat) : List Char := padded '0' 2 n

def isLeap (year : Nat) : Bool := year % 4 == 0 && (year % 100 != 0 || year % 400 == 0)

def monthLengths (year : Nat) : List Nat :=
  [31, if isLeap year then 29 else 28, 31, 30, 31, 30, 31, 31, 30, 31, 30, 31]

/-- The day's number in its year, from one. -/
def dayOfYear (m : Moment) : Nat := ((monthLengths m.year).take (m.month - 1)).foldl (· + ·) m.day

/-- The day's number in its week; Sunday is zero. The first day of the year one is a Monday. -/
def weekday (m : Moment) : Nat :=
  let before := m.year - 1
  (before * 365 + before / 4 - before / 100 + before / 400 + m.dayOfYear) % 7

def weekdays : List String :=
  ["Sunday", "Monday", "Tuesday", "Wednesday", "Thursday", "Friday", "Saturday"]

def months : List String :=
  ["January", "February", "March", "April", "May", "June", "July", "August", "September",
   "October", "November", "December"]

def weekdayName (m : Moment) : List Char := (weekdays.getD m.weekday "").toList

def monthName (m : Moment) : List Char := (months.getD (m.month - 1) "").toList

def dateText (m : Moment) (year : List Char) : List Char :=
  year ++ '-' :: two m.month ++ '-' :: two m.day

def timeText (m : Moment) : List Char :=
  two m.hour ++ ':' :: two m.minute ++ ':' :: two m.second

/-- Date and time with a `T` between them, and the microseconds if there are any. -/
def standard (m : Moment) : List Char :=
  m.dateText (padded '0' 4 m.year) ++ 'T' :: m.timeText
    ++ (if m.microsecond = 0 then [] else '.' :: padded '0' 6 m.microsecond)

/-- The hour on a dial of twelve. -/
def dialHour (m : Moment) : Nat := if m.hour % 12 = 0 then 12 else m.hour % 12

/-- What a directive stands for; one that is not known stays as it is. -/
def directive (m : Moment) : Char → List Char
  | 'Y' => decimalDigits m.year
  | 'y' => two (m.year % 100)
  | 'm' => two m.month
  | 'd' => two m.day
  | 'H' => two m.hour
  | 'M' => two m.minute
  | 'S' => two m.second
  | 'I' => two m.dialHour
  | 'p' => if m.hour < 12 then ['A', 'M'] else ['P', 'M']
  | 'A' => m.weekdayName
  | 'a' => m.weekdayName.take 3
  | 'B' => m.monthName
  | 'b' => m.monthName.take 3
  | 'j' => padded '0' 3 m.dayOfYear
  | 'w' => decimalDigits m.weekday
  | 'f' => padded '0' 6 m.microsecond
  | 'e' => padded ' ' 2 m.day
  | 'F' => m.dateText (decimalDigits m.year)
  | 'T' => m.timeText
  | 'D' => two m.month ++ '/' :: two m.day ++ '/' :: two (m.year % 100)
  | 'R' => two m.hour ++ ':' :: two m.minute
  | '%' => ['%']
  | c => ['%', c]

/-- The text of a moment after a format. -/
def format (m : Moment) : List Char → List Char
  | '%' :: c :: rest => m.directive c ++ m.format rest
  | c :: rest => c :: m.format rest
  | [] => []

end Moment
end Parlance
