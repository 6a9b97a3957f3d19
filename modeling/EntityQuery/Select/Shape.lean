import EntityQuery.Select.Level

/-!
# Shape of results

Where no query is nested, the result has one column for each selected value. Otherwise every row
becomes a JSON document, in which the keys of the values are places. PostgreSQL and MySQL build
the documents with functions, row by row. SQL Server names the columns by their places and turns
the whole result into one document.
-/

namespace EntityQuery

open EntityQuery.Sql (Expr Query SelectItem Dialect JsonFunctions)

/-- A column of a flat result. -/
structure OutputColumn where
  label : String
  key : Path
  deriving DecidableEq

/-- Where the documents of a result stand. -/
inductive JsonMode where
  /-- Every row holds a document. -/
  | rowPerRow
  /-- All rows together are one document. -/
  | aggregate
  deriving DecidableEq

/-- How the columns of a result are read. -/
inductive Shape where
  | flat (columns : List OutputColumn)
  | json (column : String) (mode : JsonMode)
  deriving DecidableEq

/-! ## Objects -/

/-- The fields of an object under construction; a field is a value or an object. -/
inductive JsonTree where
  | leaf (e : Expr)
  | object (fields : List (String × JsonTree))

namespace JsonTree

/-- Names and values, in the order of the text. -/
abbrev Fields := List (String × JsonTree)

/-- Changes the first object with a name, or adds one. -/
def changeObject (name : String) (change : Fields → Fields) : Fields → Fields
  | [] => [(name, object (change []))]
  | (n, leaf e) :: rest => (n, leaf e) :: changeObject name change rest
  | (n, object fields) :: rest =>
    if n = name then (n, object (change fields)) :: rest
    else (n, object fields) :: changeObject name change rest

/-- Puts a value at its place. -/
def insert (e : Expr) : List String → Fields → Fields
  | [], fields => fields
  | [name], fields => fields ++ [(name, leaf e)]
  | name :: member :: rest, fields => changeObject name (insert e (member :: rest)) fields

mutual

/-- The calls that build a document. -/
def expr (object : String) : JsonTree → Expr
  | .leaf e => e
  | .object fields => .apply object (args object fields)

/-- Names and values in turn. -/
def args (object : String) : Fields → List Expr
  | [] => []
  | (name, tree) :: rest => .literal (.text name) :: tree.expr object :: args object rest

end

end JsonTree

namespace Level

/-- All values of a level with their places. -/
def entries (l : Level) : List (Path × Expr) :=
  l.items.map (fun i => (i.key, i.expr)) ++ l.nested.map fun n => (n.key, n.expr)

/-- A row as a document. -/
def jsonObject (l : Level) (functions : JsonFunctions) : Expr :=
  let fields := l.entries.foldl (fun fields (key, e) => JsonTree.insert e key.segments fields) []
  (JsonTree.object fields).expr functions.object

/-- The values named by their places. -/
def pathItems (l : Level) : List SelectItem :=
  l.entries.map fun (key, e) => ⟨e, some key.text⟩

/-- The column of a document. -/
def jsonColumn : String := "json"

/-- The document as the only column. -/
def jsonItems (l : Level) (functions : JsonFunctions) : List SelectItem :=
  [⟨l.jsonObject functions, some jsonColumn⟩]

/-- The name that SQL Server gives to a result that is one document. -/
def wholeColumn : String := "JSON_F52E2B61-18A1-11d1-B105-00805F49916B"

/-- The query of the outermost level and the shape of its result. -/
def shaped (l : Level) (d : Dialect) : Query × Shape :=
  if l.nested.isEmpty then
    (l.query (l.items.map fun i => ⟨i.expr, some i.label⟩),
      .flat (l.items.map fun i => ⟨i.label, i.key⟩))
  else
    match d.jsonFunctions? with
    | some functions => (l.query (l.jsonItems functions), .json jsonColumn .rowPerRow)
    | none =>
      ({ l.query l.pathItems with forJson := some ⟨false, true⟩ }, .json wholeColumn .aggregate)

/-- At most one row, unless the level has a window. -/
def atMostOne (l : Level) (toOne : Bool) (q : Query) : Query :=
  if toOne && l.paging.isNone then { q with top := some 1 } else q

/-- The rows of a nested level as one value: a document if there is at most one row, otherwise an
array, which may be empty. -/
def nestedExpr (l : Level) (toOne : Bool) (d : Dialect) : Expr :=
  match d.jsonFunctions? with
  | some functions =>
    let rows := l.atMostOne toOne (l.query (l.jsonItems functions))
    if toOne then .subquery rows
    else
      let array := { Query.empty with
        items := [⟨.apply functions.arrayOfRows [.ofTable "s" jsonColumn], none⟩]
        source := some (.derived rows "s") }
      -- an aggregate of no rows is null
      .apply "COALESCE" [.subquery array, .apply functions.array []]
  | none =>
    let rows := l.atMostOne toOne { l.query l.pathItems with forJson := some ⟨toOne, true⟩ }
    if toOne then .apply "JSON_QUERY" [.subquery rows]
    else .apply "JSON_QUERY" [.apply "COALESCE" [.subquery rows, .literal (.text "[]")]]

end Level

end EntityQuery
