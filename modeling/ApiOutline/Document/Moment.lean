import ApiOutline.Text.Basic

/-!
# Dates and times

A date, with or without a time of day and its offset from universal time, as a document can give
it. It is shown in the form `2024-01-02 03:04:05+00:00`; inside lists it is shown as the call that
makes it, where seconds and fractions are left out when they are zero.
-/

namespace ApiOutline

/-- A time of day; the offset from universal time is in seconds. -/
structure Moment.Clock where
  hour : Nat
  minute : Nat
  second : Nat
  micro : Nat
  offset : Option Int
  deriving DecidableEq

/-- A date with or without a time. -/
structure Moment where
  year : Nat
  month : Nat
  day : Nat
  clock : Option Moment.Clock
  deriving DecidableEq

namespace Moment

/-- A number of at least `width` digits. -/
def padded (width n : Nat) : String :=
  let digits := Nat.toDigits 10 n
  String.ofList (List.replicate (width - digits.length) '0' ++ digits)

/-- The offset from universal time with its sign; seconds are shown when there are some. -/
def offsetText (seconds : Int) : String :=
  let n := seconds.natAbs
  (if seconds < 0 then "-" else "+") ++ padded 2 (n / 3600) ++ ":" ++ padded 2 (n / 60 % 60)
    ++ if n % 60 = 0 then "" else ":" ++ padded 2 (n % 60)

/-- The plain text of a moment. -/
def text (m : Moment) : String :=
  let date := padded 4 m.year ++ "-" ++ padded 2 m.month ++ "-" ++ padded 2 m.day
  match m.clock with
  | none => date
  | some c =>
    date ++ " " ++ padded 2 c.hour ++ ":" ++ padded 2 c.minute ++ ":" ++ padded 2 c.second
      ++ (if c.micro = 0 then "" else "." ++ padded 6 c.micro) ++ c.offset.elim "" offsetText

/-- The zone of an offset, as a call. -/
def zoneCall (seconds : Int) : String :=
  if seconds = 0 then "datetime.timezone.utc"
  else
    let days := seconds.fdiv 86400
    let rest := seconds.fmod 86400
    let parts := (if days = 0 then [] else ["days=" ++ Text.decimalInt days])
      ++ if rest = 0 then [] else ["seconds=" ++ Text.decimalInt rest]
    "datetime.timezone(datetime.timedelta(" ++ ", ".intercalate parts ++ "))"

/-- The moment as the call that makes it. -/
def call (m : Moment) : String :=
  let date := [m.year, m.month, m.day]
  match m.clock with
  | none => "datetime.date(" ++ ", ".intercalate (date.map Text.decimal) ++ ")"
  | some c =>
    let tail :=
      if c.micro ≠ 0 then [c.second, c.micro] else if c.second ≠ 0 then [c.second] else []
    "datetime.datetime("
      ++ ", ".intercalate ((date ++ [c.hour, c.minute] ++ tail).map Text.decimal
        ++ (c.offset.map fun s => "tzinfo=" ++ zoneCall s).toList) ++ ")"

/-- Reads `digits` decimal digits at the head of `cs`. -/
def readDigits (digits : Nat) (cs : List Char) : Option (Nat × List Char) :=
  let (head, rest) := cs.splitAt digits
  if head.length = digits ∧ head.all Char.isDigit then
    some (head.foldl (fun n c => n * 10 + (c.toNat - '0'.toNat)) 0, rest)
  else none

/-- Passes one given character. -/
def readMark (mark : Char) : List Char → Option (List Char)
  | c :: cs => if c == mark then some cs else none
  | [] => none

/-- Reads the seconds at the end of an offset, which are zero when they are left out. -/
def readSeconds (cs : List Char) : Option Nat :=
  if cs.isEmpty then some 0
  else do
    let (seconds, rest) ← readDigits 2 (← readMark ':' cs)
    guard rest.isEmpty
    return seconds

/-- Reads the offset at the end of a moment. -/
def readOffset : List Char → Option (Option Int)
  | [] => some none
  | sign :: cs => do
    guard (sign == '+' || sign == '-')
    let (hours, cs) ← readDigits 2 cs
    let cs ← readMark ':' cs
    let (minutes, cs) ← readDigits 2 cs
    let seconds ← readSeconds cs
    let total : Int := hours * 3600 + minutes * 60 + seconds
    return some (if sign == '-' then -total else total)

/-- Reads the time of day after a date. -/
def readClock (cs : List Char) : Option Clock := do
  let cs ← readMark ' ' cs
  let (hour, cs) ← readDigits 2 cs
  let cs ← readMark ':' cs
  let (minute, cs) ← readDigits 2 cs
  let cs ← readMark ':' cs
  let (second, cs) ← readDigits 2 cs
  let (micro, cs) ← match cs with
    | '.' :: cs => readDigits 6 cs
    | cs => some (0, cs)
  return ⟨hour, minute, second, micro, ← readOffset cs⟩

/-- The moment that a plain text shows. -/
def read? (text : String) : Option Moment := do
  let (year, cs) ← readDigits 4 text.toList
  let cs ← readMark '-' cs
  let (month, cs) ← readDigits 2 cs
  let cs ← readMark '-' cs
  let (day, cs) ← readDigits 2 cs
  if cs.isEmpty then return ⟨year, month, day, none⟩
  else return ⟨year, month, day, ← readClock cs⟩

end Moment

end ApiOutline
