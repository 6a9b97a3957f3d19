import EntityQuery.Document.Basic
import EntityQuery.Double.Rounding
import EntityQuery.Text.Hex

/-!
# Reading JSON

The reader takes a list of characters and returns a document together with the characters after
it. Every step consumes a character, so the number of characters bounds the recursion.

**Numbers.** A numeral without fraction and exponent is an integer when it lies between `-2 ^ 63`
and `2 ^ 64 - 1`; minus zero and everything else is a double. A double is formed from the leading
digits that fit in 64 bits, times or divided by a power of ten, in double precision arithmetic.
-/

namespace EntityQuery.Document.Json

open EntityQuery

def isSpace (c : Char) : Bool := c = ' ' || c = '\n' || c = '\t' || c = '\r'

def isDigit (c : Char) : Bool := '0' ≤ c && c ≤ '9'

def digit (c : Char) : Nat := c.toNat - 48

def skip (cs : List Char) : List Char := cs.dropWhile isSpace

/-! ## Numbers -/

/-- The leading digits of a numeral as far as they fit in 64 bits, and the digits left over. -/
def significand : (acc : Nat) → List Char → Nat × List Char
  | acc, [] => (acc, [])
  | acc, c :: cs =>
    let next := acc * 10 + digit c
    if next < twoPow 64 then significand next cs else (acc, c :: cs)

/-- Divides by `10 ^ n`, in steps of at most `10 ^ 308`. -/
def shrink (d : Double) (n : Nat) : Double :=
  if h : n ≤ 308 then d.div (Double.ofNat (tenPow n))
  else if d.isZero then d
  else shrink (d.div (Double.ofNat (tenPow 308))) (n - 308)
termination_by n
decreasing_by omega

/-- `digits * 10 ^ power` in double precision; none when it is out of range. -/
def scale? (negative : Bool) (digits : Nat) (power : Int) : Option Double := do
  let d := Double.ofNat digits
  let scaled ←
    if 0 ≤ power then
      if 308 < power then if digits = 0 then some d else none
      else
        let product := d.mul (Double.ofNat (tenPow power.toNat))
        if product.isInfinite then none else some product
    else some (shrink d power.natAbs)
  return Double.ofMagnitude negative scaled.magnitude

def naturalOf (cs : List Char) : Nat := cs.foldl (fun n c => n * 10 + digit c) 0

/-- A numeral given by its sign, its whole digits, its fraction and its exponent. -/
def number? (negative : Bool) (whole : List Char) (fraction : Option (List Char))
    (exponent : Option (Bool × List Char)) : Option Document := do
  let (high, dropped) := significand 0 whole
  let exact := naturalOf whole
  match fraction, exponent with
  | none, none =>
    if negative then
      if 0 < exact && exact ≤ twoPow 63 then return .int (-exact)
    else if exact < twoPow 64 then return .int exact
    let d ← scale? negative high dropped.length
    return .float d
  | _, _ =>
    let places := fraction.getD []
    let (digits, unread) := significand high places
    let start : Int := dropped.length - (places.length - unread.length : Nat)
    match exponent with
    | none =>
      let d ← scale? negative digits start
      return .float d
    | some (down, es) =>
      let e := naturalOf es
      if e < twoPow 31 then
        let d ← scale? negative digits (if down then start - e else start + e)
        return .float d
      else if digits = 0 || down then return .float (Double.ofMagnitude negative 0)
      else none

/-- Reads a numeral; a whole part has no leading zeros. -/
def numeral? (cs : List Char) : Option (Document × List Char) := do
  let (negative, cs) :=
    match cs with
    | '-' :: rest => (true, rest)
    | _ => (false, cs)
  let (whole, cs) ←
    match cs with
    | '0' :: rest => some (['0'], rest)
    | _ => some (cs.span isDigit)
  if whole.isEmpty || (whole = ['0'] && cs.head?.any isDigit) then none
  let (fraction, cs) ←
    match cs with
    | '.' :: rest =>
      let (ds, rest) := rest.span isDigit
      if ds.isEmpty then none else some (some ds, rest)
    | _ => some (none, cs)
  let (exponent, cs) ←
    match cs with
    | e :: rest =>
      if e = 'e' || e = 'E' then
        let (down, rest) :=
          match rest with
          | '-' :: more => (true, more)
          | '+' :: more => (false, more)
          | _ => (false, rest)
        let (es, rest) := rest.span isDigit
        if es.isEmpty then none else some (some (down, es), rest)
      else some (none, cs)
    | [] => some (none, cs)
  let d ← number? negative whole fraction exponent
  return (d, cs)

/-! ## Strings -/

/-- The value of four hexadecimal digits. -/
def unit? (a b c d : Char) : Option Nat := do
  let a ← Text.hexValue? a
  let b ← Text.hexValue? b
  let c ← Text.hexValue? c
  let d ← Text.hexValue? d
  return ((a * 16 + b) * 16 + c) * 16 + d

/-- The character that stands for itself after a backslash, or a control character. -/
def escape? : Char → Option Char
  | '"' => some '"'
  | '\\' => some '\\'
  | '/' => some '/'
  | 'b' => some '\x08'
  | 'f' => some '\x0c'
  | 'n' => some '\n'
  | 'r' => some '\r'
  | 't' => some '\t'
  | _ => none

/-- Reads the rest of a string after its opening quote; `acc` holds the characters read, the last
one first. Surrogates must come in pairs. -/
def stringBody? : (acc : List Char) → List Char → Option (List Char × List Char)
  | _, [] => none
  | acc, '"' :: cs => some (acc.reverse, cs)
  | acc, '\\' :: 'u' :: a :: b :: c :: d :: '\\' :: 'u' :: a' :: b' :: c' :: d' :: cs => do
    let high ← unit? a b c d
    if 0xD800 ≤ high && high < 0xDC00 then
      let low ← unit? a' b' c' d'
      if 0xDC00 ≤ low && low < 0xE000 then
        stringBody? (Char.ofNat (0x10000 + (high - 0xD800) * 0x400 + (low - 0xDC00)) :: acc) cs
      else none
    else if 0xDC00 ≤ high && high < 0xE000 then none
    else stringBody? (Char.ofNat high :: acc) ('\\' :: 'u' :: a' :: b' :: c' :: d' :: cs)
  | acc, '\\' :: 'u' :: a :: b :: c :: d :: cs => do
    let n ← unit? a b c d
    if 0xD800 ≤ n && n < 0xE000 then none
    else stringBody? (Char.ofNat n :: acc) cs
  | acc, '\\' :: e :: cs => do
    let c ← escape? e
    stringBody? (c :: acc) cs
  | acc, c :: cs => if c.toNat < 0x20 || c = '\\' then none else stringBody? (c :: acc) cs

/-! ## Values -/

/-- The characters after a given word. -/
def after? : (word cs : List Char) → Option (List Char)
  | [], cs => some cs
  | w :: ws, c :: cs => if w = c then after? ws cs else none
  | _ :: _, [] => none

mutual

def value? : (fuel : Nat) → List Char → Option (Document × List Char)
  | 0, _ => none
  | fuel + 1, cs =>
    match skip cs with
    | '{' :: rest =>
      match skip rest with
      | '}' :: rest => some (.table [], rest)
      | _ => fields? fuel [] rest
    | '[' :: rest =>
      match skip rest with
      | ']' :: rest => some (.list [], rest)
      | _ => items? fuel [] rest
    | '"' :: rest => (stringBody? [] rest).map fun (s, rest) => (.text (String.ofList s), rest)
    | 't' :: rest => (after? ['r', 'u', 'e'] rest).map (.bool true, ·)
    | 'f' :: rest => (after? ['a', 'l', 's', 'e'] rest).map (.bool false, ·)
    | 'n' :: rest => (after? ['u', 'l', 'l'] rest).map (.null, ·)
    | cs => numeral? cs

/-- The items of a list, the last one read first. -/
def items? : (fuel : Nat) → List Document → List Char → Option (Document × List Char)
  | 0, _, _ => none
  | fuel + 1, done, cs => do
    let (d, rest) ← value? fuel cs
    match skip rest with
    | ',' :: rest => items? fuel (d :: done) rest
    | ']' :: rest => return (.list (d :: done).reverse, rest)
    | _ => none

def fields? : (fuel : Nat) → List (String × Document) → List Char → Option (Document × List Char)
  | 0, _, _ => none
  | fuel + 1, done, cs =>
    match skip cs with
    | '"' :: rest => do
      let (name, rest) ← stringBody? [] rest
      match skip rest with
      | ':' :: rest =>
        let (d, rest) ← value? fuel rest
        let done := setField (String.ofList name) d done
        match skip rest with
        | ',' :: rest => fields? fuel done rest
        | '}' :: rest => return (.table done, rest)
        | _ => none
      | _ => none
    | _ => none

end

/-- The document a whole JSON text says. -/
def read? (s : String) : Option Document := do
  let cs := s.toList
  let (d, rest) ← value? (cs.length + 1) cs
  if (skip rest).isEmpty then return d else none

end EntityQuery.Document.Json
