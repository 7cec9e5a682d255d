/-!
Dates and times of TOML, checked and in one spelling: the letters T and Z are in upper case, and a
fraction has at most nine digits and no zeros at its end.
-/

namespace DesignTokens.Toml

def fixedDigits? (count : Nat) (text : List Char) : Option (Nat × List Char) :=
  let digits := text.take count
  if digits.length = count && digits.all Char.isDigit then
    some (digits.foldl (fun value digit => 10 * value + (digit.toNat - 0x30)) 0, text.drop count)
  else
    none

def twoDigits? (least greatest : Nat) (text : List Char) : Option (Nat × List Char) := do
  let (value, rest) ← fixedDigits? 2 text
  if least ≤ value && value ≤ greatest then return (value, rest) else none

def mark? (c : Char) : List Char → Option (List Char)
  | other :: rest => if other = c then some rest else none
  | [] => none

def isLeapYear (year : Nat) : Bool :=
  year % 4 = 0 && (year % 100 ≠ 0 || year % 400 = 0)

def daysOfMonth (year month : Nat) : Nat :=
  if month = 2 then if isLeapYear year then 29 else 28
  else if month = 4 || month = 6 || month = 9 || month = 11 then 30
  else 31

def padded (width value : Nat) : List Char :=
  let digits := Nat.toDigits 10 value
  List.replicate (width - digits.length) '0' ++ digits

def date? (text : List Char) : Option (List Char × List Char) := do
  let (year, text) ← fixedDigits? 4 text
  let text ← mark? '-' text
  let (month, text) ← twoDigits? 1 12 text
  let text ← mark? '-' text
  let (day, text) ← twoDigits? 1 31 text
  if daysOfMonth year month < day then none
  else return (padded 4 year ++ '-' :: padded 2 month ++ '-' :: padded 2 day, text)

def fractionText (digits : List Char) : List Char :=
  match ((digits.take 9).reverse.dropWhile (· = '0')).reverse with
  | [] => []
  | kept => '.' :: kept

def fractionOfSecond (text : List Char) : List Char × List Char :=
  match text with
  | '.' :: rest =>
    let digits := rest.takeWhile Char.isDigit
    if digits.isEmpty then ([], text) else (fractionText digits, rest.dropWhile Char.isDigit)
  | _ => ([], text)

/-- A leap second counts. -/
def time? (text : List Char) : Option (List Char × List Char) := do
  let (hour, text) ← twoDigits? 0 23 text
  let text ← mark? ':' text
  let (minute, text) ← twoDigits? 0 59 text
  let text ← mark? ':' text
  let (second, text) ← twoDigits? 0 60 text
  let (fraction, text) := fractionOfSecond text
  return (padded 2 hour ++ ':' :: padded 2 minute ++ ':' :: padded 2 second ++ fraction, text)

/-- The sign of an offset of zero is plus. -/
def offset? : List Char → Option (List Char × List Char)
  | [] => none
  | sign :: rest =>
    if sign = 'Z' || sign = 'z' then some (['Z'], rest)
    else if sign = '+' || sign = '-' then do
      let (hours, text) ← twoDigits? 0 23 rest
      let text ← mark? ':' text
      let (minutes, text) ← twoDigits? 0 59 text
      let shown := if hours = 0 && minutes = 0 then '+' else sign
      return (shown :: padded 2 hours ++ ':' :: padded 2 minutes, text)
    else
      none

def timeAfterDate? : List Char → Option (List Char × List Char)
  | [] => none
  | separator :: rest =>
    if separator = 'T' || separator = 't' || separator = ' ' then do
      let (time, text) ← time? rest
      match offset? text with
      | some (offset, text) => return ('T' :: time ++ offset, text)
      | none => return ('T' :: time, text)
    else
      none

def dateTime? (text : List Char) : Option (String × List Char) :=
  match date? text with
  | some (date, afterDate) =>
    match timeAfterDate? afterDate with
    | some (time, rest) => some (String.ofList (date ++ time), rest)
    | none => some (String.ofList date, afterDate)
  | none => (time? text).map fun (time, rest) => (String.ofList time, rest)

end DesignTokens.Toml
