import EntityQuery.Document.Basic

/-!
# TOML tables

The tables of a text grow while it is read. A `Block` is a table that may still grow, and its
origin says how: a table under a header of its own is complete once, a table that only a longer
header mentions may get its header later, and a table made by dotted keys takes further dotted
keys only. Values are closed, inline tables and arrays among them.
-/

namespace EntityQuery.Document.Toml

open EntityQuery

inductive Origin where
  /-- The table has a header of its own. -/
  | header
  /-- A longer header leads through the table. -/
  | way
  /-- The table was made by a dotted key. -/
  | dotted
  deriving DecidableEq

mutual

inductive Entry where
  | value (d : Document)
  | table (b : Block)
  /-- The tables under headers in double brackets. -/
  | tables (bs : List Block)

structure Block where
  origin : Origin
  fields : List (String × Entry)

end

namespace Block

def empty (origin : Origin) : Block := ⟨origin, []⟩

/-- Adds a field or replaces the one there is. -/
def put (key : String) (e : Entry) : List (String × Entry) → List (String × Entry)
  | [] => [(key, e)]
  | (k, f) :: rest => if k = key then (k, e) :: rest else (k, f) :: put key e rest

def set (b : Block) (key : String) (e : Entry) : Block :=
  { b with fields := put key e b.fields }

/-- Changes the block at the end of a path. Missing tables on the way are added. A list of tables
leads on to its last one. A dotted key does not lead into a table with a header of its own. -/
def change (dotted : Bool) (act : Block → Option Block) : List String → Block → Option Block
  | [], b => act b
  | key :: path, b =>
    match b.fields.lookup key with
    | none => do
      let inner ← change dotted act path (empty (if dotted then .dotted else .way))
      return b.set key (.table inner)
    | some (.table inner) =>
      if dotted && inner.origin = .header then none
      else do return b.set key (.table (← change dotted act path inner))
    | some (.tables bs) => do
      let inner ← change dotted act path (← bs.getLast?)
      return b.set key (.tables (bs.dropLast ++ [inner]))
    | some (.value _) => none

/-- Defines a new field. Only dotted keys add to a table that dotted keys made. -/
def define (dotted : Bool) (key : String) (d : Document) (b : Block) : Option Block :=
  if (b.origin = .dotted) = dotted ∧ (b.fields.lookup key).isNone then
    some (b.set key (.value d))
  else none

def assign (path : List String) (d : Document) (b : Block) : Option Block := do
  let key ← path.getLast?
  let parents := path.dropLast
  change (!parents.isEmpty) (define (!parents.isEmpty) key d) parents b

/-- Opens the table under a header. -/
def openTable (path : List String) (b : Block) : Option Block := do
  let key ← path.getLast?
  change false (fun parent =>
    match parent.fields.lookup key with
    | none => some (parent.set key (.table (empty .header)))
    | some (.table ⟨.way, fields⟩) => some (parent.set key (.table ⟨.header, fields⟩))
    | _ => none) path.dropLast b

/-- Opens the next table under a header in double brackets. -/
def openNext (path : List String) (b : Block) : Option Block := do
  let key ← path.getLast?
  change false (fun parent =>
    match parent.fields.lookup key with
    | none => some (parent.set key (.tables [empty .header]))
    | some (.tables bs) => some (parent.set key (.tables (bs ++ [empty .header])))
    | _ => none) path.dropLast b

end Block

mutual

def Entry.document : Entry → Document
  | .value d => d
  | .table b => b.document
  | .tables bs => .list (documents bs)

def Block.document : Block → Document
  | ⟨_, fields⟩ => .table (fieldDocuments fields)

def documents : List Block → List Document
  | [] => []
  | b :: bs => b.document :: documents bs

def fieldDocuments : List (String × Entry) → List (String × Document)
  | [] => []
  | (key, e) :: rest => (key, e.document) :: fieldDocuments rest

end

end EntityQuery.Document.Toml
