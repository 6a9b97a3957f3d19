import EntityQuery.Document.JsonPrinter
import EntityQuery.Double.Rounding
import EntityQuery.Text.Blank

/-!
# Scalar values

What a condition compares a column with. Equality is numeric on doubles: NaN differs from
itself and the two zeros are equal, so `Value.eqv` is not an equivalence relation.
-/

namespace EntityQuery

inductive Value where
  | null
  | bool (b : Bool)
  | int (n : Int)
  | float (d : Double)
  | text (s : String)
  | bytes (bs : Text.Bytes)
  deriving DecidableEq, Inhabited

namespace Value

def eqv : Value → Value → Bool
  | null, null => true
  | bool a, bool b => a == b
  | int a, int b => a == b
  | float a, float b => a.eqv b
  | text a, text b => a == b
  | bytes a, bytes b => a == b
  | _, _ => false

def isNull : Value → Bool
  | null => true
  | _ => false

def text? : Value → Option String
  | text s => some s
  | _ => none

/-- The value in the form of an SQL literal. -/
def display : Value → String
  | null => "NULL"
  | bool true => "true"
  | bool false => "false"
  | int n => toString n
  | float d => d.text
  | text s => String.ofList ('\'' :: (Text.double '\'' s.toList ++ ['\'']))
  | bytes bs => String.ofList ('0' :: 'x' :: Text.upperHex bs)

def document : Value → Document
  | null => .null
  | bool b => .bool b
  | int n => .int n
  | float d => .float d
  | text s => .text s
  | bytes bs => .list (bs.map fun b => .int b.toNat)

/-- An integer from 0 to 255. -/
def byte? : Document → Option UInt8
  | .int n => if 0 ≤ n ∧ n < 256 then some (UInt8.ofNat n.toNat) else none
  | _ => none

/-- An integer beyond the signed range is read as a double, a list of bytes as a byte string. -/
def ofDocument? : Document → Option Value
  | .null => some null
  | .bool b => some (bool b)
  | .int n =>
    if -(twoPow 63 : Int) ≤ n ∧ n < (twoPow 63 : Int) then some (int n)
    else if 0 ≤ n ∧ n < (twoPow 64 : Int) then some (float (Double.ofNat n.toNat))
    else none
  | .float d => some (float d)
  | .text s => some (text s)
  | .list items => (items.mapM byte?).map bytes
  | .oversized | .datetime _ | .table _ => none

/-- Whether `v` equals some value of the list. -/
def memOf (v : Value) (vs : List Value) : Bool := vs.any (·.eqv v)

/-- The values of `vs`, then those of `ws` that equal none before them. -/
def extend (vs ws : List Value) : List Value :=
  ws.foldl (fun kept v => if v.memOf kept then kept else kept ++ [v]) vs

/-- The list without the values that equal an earlier one. -/
def distinct (vs : List Value) : List Value := extend [] vs

end Value

end EntityQuery
