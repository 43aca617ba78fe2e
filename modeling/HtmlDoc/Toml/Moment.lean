import HtmlDoc.Toml.Reader

/-!
Moments: dates, times of day, and both together, with an offset or without. The seconds of a time may
be left out. Every part must be in range, a day that of its month.
-/

namespace HtmlDoc.Toml.Moment

open Reader

def digits (count : Nat) : Reader Nat := do
  let cs ← (List.replicate count (one Char.isDigit)).mapM id
  return ofDigits 10 cs

def isLeapYear (year : Nat) : Bool :=
  year % 4 == 0 && (year % 100 != 0 || year % 400 == 0)

def daysOfMonth (year month : Nat) : Nat :=
  if month = 2 then if isLeapYear year then 29 else 28
  else if month = 4 ∨ month = 6 ∨ month = 9 ∨ month = 11 then 30
  else 31

def date : Reader Unit := do
  let year ← digits 4
  char '-'
  let month ← digits 2
  char '-'
  let day ← digits 2
  check (1 ≤ month && month ≤ 12 && 1 ≤ day && day ≤ daysOfMonth year month)

def hourMinute : Reader Unit := do
  let hour ← digits 2
  char ':'
  let minute ← digits 2
  check (hour ≤ 23 && minute ≤ 59)

def fraction : Reader Unit := do
  char '.'
  let cs ← run Char.isDigit
  check (!cs.isEmpty)

/-- Reads seconds. There may be a leap second. -/
def seconds : Reader Unit := do
  char ':'
  let second ← digits 2
  check (second ≤ 60)
  fraction <|> pure ()

def time : Reader Unit := do
  hourMinute
  seconds <|> pure ()

def offset : Reader Unit :=
  (do let _ ← one fun c => c == 'Z' || c == 'z') <|>
    (do let _ ← one fun c => c == '+' || c == '-'
        hourMinute)

/-- Reads a date, and a time and an offset if they follow. -/
def dated : Reader Unit := do
  date
  (do let _ ← one fun c => c == 'T' || c == 't' || c == ' '
      time
      offset <|> pure ()) <|> pure ()

def takesAll (reader : Reader Unit) (cs : List Char) : Bool :=
  match reader cs with
  | some (_, []) => true
  | _ => false

def isDate (cs : List Char) : Bool := takesAll date cs

def isMoment (cs : List Char) : Bool := takesAll dated cs || takesAll time cs

end HtmlDoc.Toml.Moment
