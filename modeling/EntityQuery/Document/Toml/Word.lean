import EntityQuery.Document.Basic
import EntityQuery.Double.Rounding
import EntityQuery.Text.Blank
import EntityQuery.Text.Hex

/-!
# TOML words

A value that is no string, array or table is written as one word: a truth value, a number, or a
date and time. A word is read as a whole, so each form is a test on a list of characters.

**Numbers.** Underscores may stand between two digits. A decimal whole part has no leading zero;
hexadecimal, octal and binary numerals have no sign.

**Dates and times.** The ranges of all fields are checked. Seconds may be missing, and an offset
needs a date.
-/

namespace EntityQuery.Document.Toml

open EntityQuery

/-! ## Digits -/

def digit? (base : Nat) (c : Char) : Option Nat := do
  let n ← Text.hexValue? c
  if n < base then return n else none

/-- Groups of digits between underscores. -/
def digits? (base : Nat) (cs : List Char) : Option (List Nat) := do
  let groups ← (Text.pieces '_' cs).mapM (·.mapM (digit? base))
  if groups.any (·.isEmpty) then none else return groups.flatten

def numberOf (base : Nat) (ds : List Nat) : Nat := ds.foldl (fun n d => n * base + d) 0

/-- The whole part of a decimal numeral. -/
def whole? (cs : List Char) : Option (List Nat) := do
  let ds ← digits? 10 cs
  match ds with
  | 0 :: _ :: _ => none
  | ds => return ds

/-- A sign and what follows it. -/
def signed (cs : List Char) : Option Bool × List Char :=
  match cs with
  | '-' :: rest => (some true, rest)
  | '+' :: rest => (some false, rest)
  | _ => (none, cs)

/-- The part before the first character that satisfies `p`, and the part after it. -/
def cutAt (p : Char → Bool) (cs : List Char) : List Char × Option (List Char) :=
  match cs.span (!p ·) with
  | (before, _ :: rest) => (before, some rest)
  | (before, []) => (before, none)

/-! ## Numbers -/

/-- Integers have at most 128 bits, with a sign or without. -/
def integer (negative : Bool) (n : Nat) : Document :=
  if negative then if n ≤ twoPow 127 then .int (-n) else .oversized
  else if n < twoPow 128 then .int n else .oversized

/-- A decimal with a fraction, an exponent, or both. -/
def decimal (negative : Bool) (ds fraction : List Nat) (down : Bool) (exponent : List Nat) :
    Document :=
  let e := numberOf 10 exponent
  let digits := ds ++ fraction
  let d := Double.ofDecimal negative (numberOf 10 digits) digits.length
    (if down then 0 else e) (fraction.length + if down then e else 0)
  if d.isInfinite then .oversized else .float d

/-- An optional part of a numeral. -/
def part? {α : Type} (read : List Char → Option α) (default : α) :
    Option (List Char) → Option α
  | none => some default
  | some cs => read cs

def exponent? (cs : List Char) : Option (Bool × List Nat) := do
  let (sign, cs) := signed cs
  return (sign.getD false, ← digits? 10 cs)

/-- A numeral without its sign. -/
def unsigned? (negative : Bool) (cs : List Char) : Option Document := do
  let (mantissa, exponent) := cutAt (fun c => c = 'e' || c = 'E') cs
  let (whole, fraction) := cutAt (· = '.') mantissa
  let ds ← whole? whole
  match fraction, exponent with
  | none, none => return integer negative (numberOf 10 ds)
  | _, _ =>
    let places ← part? (digits? 10) [] fraction
    let (down, es) ← part? exponent? (false, []) exponent
    return decimal negative ds places down es

def based? (base : Nat) (cs : List Char) : Option Document := do
  return integer false (numberOf base (← digits? base cs))

def number? (cs : List Char) : Option Document :=
  match cs with
  | '0' :: 'x' :: ds => based? 16 ds
  | '0' :: 'o' :: ds => based? 8 ds
  | '0' :: 'b' :: ds => based? 2 ds
  | _ =>
    let (sign, cs) := signed cs
    let negative := sign.getD false
    match cs with
    | ['i', 'n', 'f'] => some (.float (Double.infinity negative))
    | ['n', 'a', 'n'] => some (.float Double.nan)
    | _ => unsigned? negative cs

/-! ## Dates and times -/

/-- A number of exactly the given width. -/
def fixed? (width : Nat) (cs : List Char) : Option Nat := do
  if cs.length = width then return numberOf 10 (← cs.mapM (digit? 10)) else none

/-- Two digits of at most the given number. -/
def upTo? (most : Nat) (cs : List Char) : Option Nat := do
  let n ← fixed? 2 cs
  if n ≤ most then return n else none

def isLeap (year : Nat) : Bool := year % 4 == 0 && (year % 100 != 0 || year % 400 == 0)

def daysIn (year month : Nat) : Nat :=
  if month = 2 then if isLeap year then 29 else 28
  else if month = 4 ∨ month = 6 ∨ month = 9 ∨ month = 11 then 30 else 31

def isDate (cs : List Char) : Bool :=
  match Text.pieces '-' cs with
  | [year, month, day] => Option.isSome do
    let y ← fixed? 4 year
    let m ← upTo? 12 month
    let d ← upTo? (daysIn y m) day
    if 0 < m ∧ 0 < d then return (y, m, d) else none
  | _ => false

/-- Seconds with an optional fraction; the last second of a minute may be a leap second. -/
def isSeconds (cs : List Char) : Bool :=
  let (seconds, fraction) := cutAt (· = '.') cs
  (upTo? 60 seconds).isSome &&
    fraction.all fun ds => !ds.isEmpty && ds.all fun c => (digit? 10 c).isSome

def isTime (cs : List Char) : Bool :=
  match Text.pieces ':' cs with
  | hour :: minute :: rest =>
    (upTo? 23 hour).isSome && (upTo? 59 minute).isSome &&
      match rest with
      | [] => true
      | [seconds] => isSeconds seconds
      | _ => false
  | _ => false

/-- Hours and minutes. -/
def isOffset (cs : List Char) : Bool :=
  match Text.pieces ':' cs with
  | [hour, minute] => (upTo? 23 hour).isSome && (upTo? 59 minute).isSome
  | _ => false

def startsOffset (c : Char) : Bool := c = 'Z' || c = 'z' || c = '+' || c = '-'

/-- A time that may be followed by an offset. -/
def isOffsetTime (cs : List Char) : Bool :=
  match cs.span (!startsOffset ·) with
  | (time, []) => isTime time
  | (time, 'Z' :: rest) | (time, 'z' :: rest) => isTime time && rest.isEmpty
  | (time, _ :: offset) => isTime time && isOffset offset

def isMoment (cs : List Char) : Bool :=
  match cutAt (['T', 't', ' '].contains ·) cs with
  | (date, some time) => isDate date && isOffsetTime time
  | (word, none) => isDate word || isTime word

/-! ## Words -/

def word? (cs : List Char) : Option Document :=
  match String.ofList cs with
  | "true" => some (.bool true)
  | "false" => some (.bool false)
  | s => (number? cs).or (if isMoment cs then some (.datetime s) else none)

def isWordChar (c : Char) : Bool :=
  c.isAlphanum || ['+', '-', '_', '.', ':'].contains c

/-- The word at the start of a text. A date and a time may be divided by one blank. -/
def splitWord (cs : List Char) : List Char × List Char :=
  let (word, rest) := cs.span isWordChar
  match rest with
  | ' ' :: c :: more =>
    if isDate word && (digit? 10 c).isSome then
      let (time, rest) := (c :: more).span isWordChar
      (word ++ ' ' :: time, rest)
    else (word, rest)
  | _ => (word, rest)

end EntityQuery.Document.Toml
