import Toolpath.Number.Reading
import Toolpath.Settings.Toml.Item

/-!
# TOML scalars

Numbers, truth values, dates and times: the values written as one run of characters.
-/

namespace Toolpath.Settings.Toml

/-- Removes the underscores, each of which must stand between two digits. -/
def digitsOf (isDigit : Char → Bool) : List Char → Option (List Char)
  | [] => none
  | [c] => if isDigit c then some [c] else none
  | c :: '_' :: cs => if isDigit c then (digitsOf isDigit cs).map (c :: ·) else none
  | c :: cs => if isDigit c then (digitsOf isDigit cs).map (c :: ·) else none

def isHexDigit (c : Char) : Bool :=
  c.isDigit || ('a' ≤ c && c ≤ 'f') || ('A' ≤ c && c ≤ 'F')

def digitValue (c : Char) : Nat :=
  if c.isDigit then c.toNat - '0'.toNat
  else if 'a' ≤ c then c.toNat - 'a'.toNat + 10
  else c.toNat - 'A'.toNat + 10

def inBase (base : Nat) (ds : List Char) : Nat := ds.foldl (fun n c => base * n + digitValue c) 0

/-- Digits without a zero in front, unless zero is all there is. -/
def plainDigits (cs : List Char) : Option (List Char) :=
  (digitsOf Char.isDigit cs).filter fun ds => ds.length == 1 || ds.head? != some '0'

/-- A whole number has a value when it fits into 128 bits, with or without a sign. -/
def wholeItem (n : Int) : Item :=
  if -Int.pow 2 127 ≤ n ∧ n < Int.pow 2 128 then .integer n else .valueless

/-- The digits after the mark of a base, all of which may be missing. -/
def basedItem (base : Nat) (isDigit : Char → Bool) : List Char → Option Item
  | [] => some .valueless
  | cs => (digitsOf isDigit cs).map fun ds => wholeItem (inBase base ds)

def integer? (cs : List Char) : Option Item :=
  match cs with
  | '0' :: 'x' :: cs => basedItem 16 isHexDigit cs
  | '0' :: 'o' :: cs => basedItem 8 (fun c => '0' ≤ c && c ≤ '7') cs
  | '0' :: 'b' :: cs => basedItem 2 (fun c => c == '0' || c == '1') cs
  | cs =>
    let (negative, ds) := Number.splitSign cs
    (plainDigits ds).map fun ds =>
      wholeItem (if negative then -(inBase 10 ds : Int) else inBase 10 ds)

def floatExponent? : List Char → Option Int
  | [] => some 0
  | c :: cs =>
    if c = 'e' ∨ c = 'E' then
      let (negative, ds) := Number.splitSign cs
      (digitsOf Char.isDigit ds).map fun ds =>
        if negative then -(inBase 10 ds : Int) else inBase 10 ds
    else none

/-- Digits, then a fraction or an exponent or both. A number out of range has no value. -/
def float? (cs : List Char) : Option Item := do
  let (negative, cs) := Number.splitSign cs
  match String.ofList cs with
  | "inf" => return .float (if negative then -Number.infinity else Number.infinity)
  | "nan" => return .float Number.notANumber
  | _ =>
    let isPart := fun (c : Char) => c.isDigit || c == '_'
    let whole ← plainDigits (cs.takeWhile isPart)
    let rest := cs.dropWhile isPart
    let (fraction, rest) ← match rest with
      | '.' :: rest =>
        (digitsOf Char.isDigit (rest.takeWhile isPart)).map (·, rest.dropWhile isPart)
      | rest => some ([], rest)
    let e ← floatExponent? rest
    let d : Number.Decimal :=
      { negative, digits := inBase 10 (whole ++ fraction), exponent := e - fraction.length }
    return if d.value.isFinite then .float d.value else .valueless

def number? (n : Nat) (cs : List Char) : Option (Nat × List Char) :=
  let ds := cs.take n
  if ds.length = n ∧ ds.all Char.isDigit then some (inBase 10 ds, cs.drop n) else none

def daysIn (year month : Nat) : Nat :=
  if month = 2 then
    if year % 4 = 0 ∧ (year % 100 ≠ 0 ∨ year % 400 = 0) then 29 else 28
  else if [4, 6, 9, 11].contains month then 30
  else 31

def date? (cs : List Char) : Option (List Char) := do
  let (year, cs) ← number? 4 cs
  let '-' :: cs := cs | none
  let (month, cs) ← number? 2 cs
  let '-' :: cs := cs | none
  let (day, cs) ← number? 2 cs
  if 1 ≤ month ∧ month ≤ 12 ∧ 1 ≤ day ∧ day ≤ daysIn year month then some cs else none

def minutes? (cs : List Char) : Option (List Char) := do
  let (hour, cs) ← number? 2 cs
  let ':' :: cs := cs | none
  let (minute, cs) ← number? 2 cs
  if hour ≤ 23 ∧ minute ≤ 59 then some cs else none

/-- The rest after a time of day. Seconds may be left out. -/
def time? (cs : List Char) : Option (List Char) := do
  match ← minutes? cs with
  | ':' :: cs =>
    let (second, cs) ← number? 2 cs
    if 60 < second then none
    else match cs with
      | '.' :: cs =>
        if cs.takeWhile Char.isDigit = [] then none else some (cs.dropWhile Char.isDigit)
      | cs => some cs
  | cs => some cs

def offset? (cs : List Char) : Option (List Char) :=
  match cs with
  | 'Z' :: cs | 'z' :: cs => some cs
  | '+' :: cs | '-' :: cs => minutes? cs
  | cs => some cs

def isMoment (cs : List Char) : Bool :=
  match date? cs with
  | some [] => true
  | some (c :: rest) => (c == 'T' || c == 't' || c == ' ') && (time? rest >>= offset?) == some []
  | none => time? cs == some []

def scalar? (cs : List Char) : Option Item :=
  match String.ofList cs with
  | "true" => some (.boolean true)
  | "false" => some (.boolean false)
  | _ =>
    match (integer? cs).or (float? cs) with
    | some item => some item
    | none => if isMoment cs then some .moment else none

end Toolpath.Settings.Toml
