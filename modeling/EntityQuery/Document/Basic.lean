import EntityQuery.Double.Basic

/-!
# Structured documents

A `Document` is what a JSON text or a TOML text says, before anything is known about its meaning.
The fields of a table keep their order, and a name occurs once. `Document.record?` reads a record
either by field names or, from a list, by position, and `Document.name?` reads a name out of a
fixed set; how freely they may be written depends on the format of the text.
-/

namespace EntityQuery

inductive Document where
  | null
  | bool (b : Bool)
  | int (n : Int)
  | float (d : Double)
  /-- A number beyond every range. It may be passed over but not read. -/
  | oversized
  | text (s : String)
  | datetime (s : String)
  | list (items : List Document)
  | table (fields : List (String × Document))
  deriving Inhabited

namespace Document

/-- The format of the text that a document was read from. -/
inductive Format where
  | json
  | toml
  deriving DecidableEq

/-- Sets a field: the last definition of a name counts, at the place of the first. -/
def setField (name : String) (value : Document) :
    List (String × Document) → List (String × Document)
  | [] => [(name, value)]
  | (n, v) :: rest =>
    if n = name then (n, value) :: rest else (n, v) :: setField name value rest

def field? (name : String) : Document → Option Document
  | table fields => fields.lookup name
  | _ => none

mutual

/-- The same document with the fields of every table in the order of their names. -/
def sorted : Document → Document
  | list items => list (sortedItems items)
  | table fields => table ((sortedFields fields).mergeSort fun a b => a.1 ≤ b.1)
  | d => d

def sortedItems : List Document → List Document
  | [] => []
  | d :: ds => d.sorted :: sortedItems ds

def sortedFields : List (String × Document) → List (String × Document)
  | [] => []
  | (n, d) :: ds => (n, d.sorted) :: sortedFields ds

end

mutual

/-- Whether a condition holds of every part that is neither a list nor a table. -/
def allParts (p : Document → Bool) : Document → Bool
  | list items => allItems p items
  | table fields => allFields p fields
  | d => p d

def allItems (p : Document → Bool) : List Document → Bool
  | [] => true
  | d :: ds => d.allParts p && allItems p ds

def allFields (p : Document → Bool) : List (String × Document) → Bool
  | [] => true
  | (_, d) :: ds => d.allParts p && allFields p ds

end

/-- Whether no number is beyond every range. -/
def isReadable : Document → Bool :=
  allParts fun
    | oversized => false
    | _ => true

/-- Whether every integer has at most 64 bits, with a sign or without. -/
def isNarrow : Document → Bool :=
  allParts fun
    | oversized => false
    | int n => -(twoPow 63 : Int) ≤ n && n < (twoPow 64 : Int)
    | _ => true

/-- The fields of a record whose field names are `names`, in this order. The other fields of a
table are read and dropped. A list gives the fields by position; in JSON it must not be longer
than the names, in TOML what is left over is passed over. A date and time is a record whose only
field has a name of its own. -/
def record? (format : Format) (names : List String) :
    Document → Option (String → Option Document)
  | table fields =>
    if fields.all fun (n, d) => names.contains n || d.isReadable then
      some fun n => fields.lookup n
    else none
  | list items =>
    if format = .toml ∨ items.length ≤ names.length then
      some fun n => (names.zip items).lookup n
    else none
  | datetime _ => some fun _ => none
  | _ => none

/-- The names of the fields of a table. -/
def fieldNames : Document → List String
  | table fields => fields.map (·.1)
  | _ => []

def text? : Document → Option String
  | text s => some s
  | _ => none

/-- Whether nothing is said. -/
def isVoid (format : Format) (d : Document) : Bool :=
  match format, d with
  | .json, null => true
  | .toml, list [] => true
  | .toml, table [] => true
  | _, _ => false

/-- A name out of a fixed set: a text, or a table whose only field has that name and says
nothing. -/
def name? (format : Format) : Document → Option String
  | text s => some s
  | table [(s, d)] => if d.isVoid format then some s else none
  | _ => none

def bool? : Document → Option Bool
  | bool b => some b
  | _ => none

/-- A natural number below `2 ^ 64`. -/
def count? : Document → Option Nat
  | int n => if 0 ≤ n ∧ n < (twoPow 64 : Int) then some n.toNat else none
  | _ => none

def list? : Document → Option (List Document)
  | list items => some items
  | _ => none

/-- A field that may be absent or null. -/
def optional? {α : Type} (read : Document → Option α) : Option Document → Option (Option α)
  | none | some null => some none
  | some d => (read d).map some

/-- A field that may be absent, but not null. -/
def withDefault? {α : Type} (read : Document → Option α) (default : α) :
    Option Document → Option α
  | none => some default
  | some d => read d

/-- A list field that may be absent. -/
def listOf? {α : Type} (read : Document → Option α) : Option Document → Option (List α)
  | none => some []
  | some d => d.list?.bind (·.mapM read)

end Document

end EntityQuery
