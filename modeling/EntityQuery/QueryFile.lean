import EntityQuery.Graph.Session
import EntityQuery.Predicate.Negation
import EntityQuery.Select.Builder

/-!
# Query files

A query file names a root entity and says in member paths what is selected, under which
conditions, in which order, and which part of the result is wanted. Conditions at the top level
hold all together; a comparison without a value is one with null.
-/

namespace EntityQuery

open Document (Format optional? withDefault? listOf?)

inductive FilterEntry where
  /-- One of the filters holds. -/
  | any (filters : List FilterEntry)
  /-- Some related row satisfies all filters; if `absent`, no row does. -/
  | related (via : Path) (absent : Bool) (filters : List FilterEntry)
  | compare (path : Path) (op : Operator) (operand : Operand) (quantifier : Quantifier)
    (not : Bool)

structure QueryFile where
  entity : String
  select : List Path
  include_ : List Path
  filters : List FilterEntry
  order : List OrderBy
  top : Option Nat
  /-- Number and size of a page. -/
  page : Option (Nat × Nat)
  /-- Limit and offset. -/
  limit : Option (Nat × Nat)
  distinct : Option Bool

/-! ## Reading -/

def Path.ofDocument? (d : Document) : Option Path := d.text?.map Path.parse

def Operator.ofDocument? (format : Format) (d : Document) : Option Operator :=
  (d.name? format).bind Operator.ofName?

def Quantifier.ofDocument? (format : Format) (d : Document) : Option Quantifier :=
  (d.name? format).bind Quantifier.ofName?

def Sql.SortDir.ofDocument? (format : Format) (d : Document) : Option Sql.SortDir :=
  match d.name? format with
  | some "asc" => some .asc
  | some "desc" => some .desc
  | _ => none

namespace FilterEntry

/-- The lists of filters among the fields of a filter, by name; a field that is no such list has
none. -/
abbrev Lists := List (String × Option (List FilterEntry))

def any? (lists : Lists) : Option FilterEntry := do
  return any (← ← lists.lookup "any")

def related? (fields : List (String × Document)) (lists : Lists) : Option FilterEntry := do
  let via ← (fields.lookup "related").bind Path.ofDocument?
  let absent ← withDefault? Document.bool? false (fields.lookup "none")
  let filters ← (lists.lookup "filter").getD (some [])
  return related via absent filters

def compare? (fields : List (String × Document)) : Option FilterEntry := do
  let path ← (fields.lookup "path").bind Path.ofDocument?
  let op ← withDefault? (Operator.ofDocument? .json) .eq (fields.lookup "op")
  let value ← optional? Value.ofDocument? (fields.lookup "value")
  let values ← optional? (fun d => d.list?.bind (·.mapM Value.ofDocument?))
    (fields.lookup "values")
  let quantifier ← withDefault? (Quantifier.ofDocument? .json) .any (fields.lookup "quantifier")
  let not ← withDefault? Document.bool? false (fields.lookup "not")
  let operand : Operand := match values with
    | some vs => .values vs
    | none => .value (value.getD .null)
  return compare path op operand quantifier not

mutual

/-- The first reading of a filter that fits: `any`, `related`, then a comparison. -/
def ofDocument? : Document → Option FilterEntry
  | .table fields =>
    let lists := listsOf fields
    (any? lists).or ((related? fields lists).or (compare? fields))
  | _ => none

def listsOf : List (String × Document) → Lists
  | [] => []
  | (name, d) :: rest => (name, listOf? d) :: listsOf rest

def listOf? : Document → Option (List FilterEntry)
  | .list items => ofItems? items
  | _ => none

def ofItems? : List Document → Option (List FilterEntry)
  | [] => some []
  | d :: ds => do
    let filter ← ofDocument? d
    let filters ← ofItems? ds
    return filter :: filters

end

/-- Reads a filter. The whole of it is kept until one of its readings fits, and what is kept has
integers of at most 64 bits and follows JSON in the writing of names. -/
def read? (d : Document) : Option FilterEntry := if d.isNarrow then ofDocument? d else none

end FilterEntry

def OrderBy.ofDocument? (format : Format) (d : Document) : Option OrderBy := do
  let field ← d.record? format ["path", "dir"]
  return ⟨← (field "path").bind Path.ofDocument?,
    ← withDefault? (Sql.SortDir.ofDocument? format) .asc (field "dir")⟩

namespace QueryFile

def pageOf? (format : Format) (d : Document) : Option (Nat × Nat) := do
  let field ← d.record? format ["page", "size"]
  return (← (← field "page").count?, ← (← field "size").count?)

def limitOf? (format : Format) (d : Document) : Option (Nat × Nat) := do
  let field ← d.record? format ["limit", "offset"]
  return (← (← field "limit").count?, ← withDefault? Document.count? 0 (field "offset"))

/-- The fields of a query file; no other may be there. -/
def fieldNames : List String :=
  ["entity", "select", "include", "filter", "order", "top", "page", "limit", "distinct"]

def ofDocument? (format : Format) (d : Document) : Option QueryFile := do
  let field ← d.record? format fieldNames
  guard (d.fieldNames.all (fieldNames.contains ·))
  return {
    entity := ← (← field "entity").text?
    select := ← listOf? Path.ofDocument? (field "select")
    include_ := ← listOf? Path.ofDocument? (field "include")
    filters := ← listOf? FilterEntry.read? (field "filter")
    order := ← listOf? (OrderBy.ofDocument? format) (field "order")
    top := ← optional? Document.count? (field "top")
    page := ← optional? (pageOf? format) (field "page")
    limit := ← optional? (limitOf? format) (field "limit")
    distinct := ← optional? Document.bool? (field "distinct") }

end QueryFile

/-! ## Building -/

mutual

def FilterEntry.predicate : FilterEntry → Predicate
  | .any filters => .group .or (filterPredicates filters)
  | .related via absent filters =>
    .related via (.group .and (filterPredicates filters)) absent none
  | .compare path op operand quantifier not =>
    if not then Predicate.invertCompare path op operand quantifier
    else .compare path op operand quantifier

def filterPredicates : List FilterEntry → List Predicate
  | [] => []
  | f :: fs => f.predicate :: filterPredicates fs

end

/-- A selection from the shared root of an entity, and the session that is left. -/
def Session.select (s : Session) (now : Nat) (entity : String) :
    Except QueryError SelectQuery × Session :=
  let (t, s) := s.shared now entity
  (t.map fun t => { SelectQuery.ofTable t with eagerDepth := s.settings.eagerDepth }, s)

def Session.query (s : Session) (now : Nat) (entity : String) :
    Except QueryError (SelectQuery × Session) :=
  settle (s.select now entity)

namespace QueryFile

/-- The window that is asked for; there is at most one. -/
def paging? (f : QueryFile) : Except QueryError (Option Paging) :=
  match f.top, f.page, f.limit with
  | none, none, none => .ok none
  | some n, none, none => .ok (some (.top n))
  | none, some (number, size), none => .ok (some (.page number size))
  | none, none, some (limit, offset) => .ok (some (.limit limit offset))
  | _, _, _ => .error (.invalidPaging .several)

/-- The selection that a file describes, on a query that selects nothing yet. -/
def applyTo (f : QueryFile) (m : Model) (q : SelectQuery) : Except QueryError SelectQuery := do
  let q := if f.select.isEmpty && f.include_.isEmpty then q.selectAll m else q
  let q ← f.select.foldlM (·.select m ·) q
  let q ← f.include_.foldlM (·.includeRelated m ·) q
  let q ← if f.filters.isEmpty then pure q
    else q.addFilter m (.group .and (filterPredicates f.filters))
  let q ← f.order.foldlM (fun q o => q.addOrder m o.path o.dir) q
  let q ← match ← f.paging? with
    | some paging => q.withPaging paging
    | none => pure q
  return { q with distinct := f.distinct.or q.distinct }

def build (f : QueryFile) (s : Session) (now : Nat) :
    Except QueryError (SelectQuery × Session) := do
  let (q, s) ← s.query now f.entity
  return (← f.applyTo s.model q, s)

end QueryFile

end EntityQuery
