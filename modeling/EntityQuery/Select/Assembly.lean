import EntityQuery.Predicate.Rendering
import EntityQuery.Select.Shape
import EntityQuery.Sql.Printing

/-!
# Assembling statements

Every query of a selection becomes a level: its conditions, its values, its order and its
grouping. A nested query becomes a level in a scope of its own, tied to the row above it, and
then one value of that row. `SelectQuery.compile` gives the statement, the statement that counts
its rows, and the shape of the result.
-/

namespace EntityQuery

open EntityQuery.Sql (Expr Query SelectItem OrderItem Dialect)

/-- Joins the tables of a column path for the select list. -/
def joinSelected (m : Model) (path : Path) : Build Resolution := do
  let root ← Build.root
  let r ← Build.lift (m.resolve root path)
  Build.join r.hops .select
  return r

/-! ## Values -/

/-- What the nodes of a query contribute to its level. -/
structure Parts where
  items : List FlatItem
  nested : List NestedItem
  /-- Columns that nested values read from the row. -/
  keys : List Sql.Column
  /-- Whether an argument of a function multiplies the rows. -/
  fansOut : Bool

namespace Parts

def empty : Parts := ⟨[], [], [], false⟩

def ofItem (item : FlatItem) : Parts := { empty with items := [item] }

def append (a b : Parts) : Parts :=
  ⟨a.items ++ b.items, a.nested ++ b.nested, a.keys ++ b.keys, a.fansOut || b.fansOut⟩

instance : Append Parts := ⟨append⟩

end Parts

/-- An argument of a function, and whether it multiplies the rows. -/
def FunctionArg.assemble (m : Model) : FunctionArg → Build (Expr × Bool)
  | .column path => do
    let r ← joinSelected m path
    return (m.columnExpr r.table r.column, r.crossesMany)
  | .value v => return (.param v none, false)
  | .star => return (.star none, false)

/-- A branch of a CASE; a condition without constraint always holds. -/
def assembleBranch (m : Model) (branch : Predicate × Value) : Build (Expr × Expr) := do
  let condition ← branch.1.compile m .select
  return (condition.getD (.eq (.int 1) (.int 1)), .param branch.2 none)

/-! ## Order -/

/-- The order of a window that has none: the primary key, or the first column. -/
def fallbackOrder (t : Table) : Except QueryError OrderBy :=
  match t.primaryKey?.or t.entity.columns.head? with
  | some c => .ok ⟨Path.parse c.member, .asc⟩
  | none => .error (.pagingWithoutOrder t.entity.name)

/-- The orders of a query; a window needs one. -/
def ordersOf (root : Table) (order : List OrderBy) (paging : Option Paging) :
    Except QueryError (List OrderBy) :=
  if order.isEmpty && paging.any (·.isWindow) then (fallbackOrder root).map ([·]) else .ok order

/-- The least value among the related rows, or the greatest if the order descends. -/
def extremeQuery (m : Model) (many : Relationship) (after : List Relationship) (r : Resolution)
    (dir : Sql.SortDir) : Except QueryError Query := do
  let body ← (Scope.ofRelationship many).joinHops after .select
  let function := match dir with
    | .asc => "MIN"
    | .desc => "MAX"
  return body.apply
    { Query.empty with
      items := [⟨.apply function [m.columnExpr r.table r.column], none⟩]
      condition := Expr.combine .and (body.baseFilters ++ [many.correlation]) } false

/-- The values of a level with its order. -/
structure Ordered where
  items : List FlatItem
  keys : List Sql.Column
  orderBy : List OrderItem

/-- Adds one order. A column is also selected, unless it is already, or belongs to the document
of a nested query. -/
def Ordered.add (m : Model) (nested : List NestedItem) (acc : Ordered) (o : OrderBy) :
    Build Ordered := do
  let root ← Build.root
  let r ← Build.lift (m.resolve root o.path)
  match r.splitMany? with
  | some (before, many, after) =>
    -- the row has many values here, so the first one in the order decides
    Build.join before .select
    let query ← Build.lift (extremeQuery m many after r o.dir)
    return { acc with
      keys := acc.keys ++ [many.parentColumn]
      orderBy := acc.orderBy ++ [⟨.subquery query, o.dir⟩] }
  | none =>
    Build.join r.hops .select
    let expr := m.columnExpr r.table r.column
    let hidden := !nested.any (o.path.startsWith ·.key) && !acc.items.any (·.expr.eqv expr)
    let item : FlatItem := ⟨expr, m.columnAlias r.table r.column, o.path, .key⟩
    return { acc with
      items := acc.items ++ if hidden then [item] else []
      orderBy := acc.orderBy ++ [⟨expr, o.dir⟩] }

/-! ## Keys -/

/-- The first two places of which one lies inside the other. -/
def conflict? : List Path → Option (Path × Path)
  | [] => none
  | key :: rest =>
    match rest.find? fun other => key.startsWith other || other.startsWith key with
    | some other => some (key, other)
    | none => conflict? rest

/-- In a document no value lies inside another. -/
def checkKeys (items : List FlatItem) (nested : List NestedItem) : Except QueryError Unit :=
  match conflict? (items.map (·.key) ++ nested.map (·.key)) with
  | some (key, other) => .error (.conflictingKey other key)
  | none => .ok ()

/-- Beside an aggregate, the rows are grouped by every column that is read from them. -/
def groupColumns (items : List FlatItem) (keys : List Sql.Column) : List Sql.Column :=
  let grouped := items.filter (·.grouping == .key)
  if items.any (·.grouping == .aggregate) && !grouped.isEmpty then
    (grouped.flatMap (·.expr.columns) ++ keys).eraseDups
  else []

/-! ## Levels -/

mutual

/-- What a node contributes; its joins are made on the way. -/
def SelectNode.assemble (m : Model) (d : Dialect) : SelectNode → Build Parts
  | .column path label => do
    let r ← joinSelected m path
    return .ofItem {
      expr := m.columnExpr r.table r.column
      label := label.getD (m.columnAlias r.table r.column)
      key := (label.map Path.parse).getD path
      grouping := .key }
  | .function name args distinct aggregate label => do
    if distinct && 1 < args.length && !d.hasWideDistinct then
      throw (.notSupported d s!"multi-argument DISTINCT {name}")
    let args ← args.mapM (·.assemble m)
    return { Parts.ofItem {
        expr := .call name (args.map (·.1)) distinct
        label := label
        key := Path.parse label
        grouping := if aggregate then .aggregate else .key } with
      fansOut := args.any (·.2) }
  | .case branches otherwise label => do
    let branches ← branches.mapM (assembleBranch m)
    return .ofItem {
      expr := .case branches (otherwise.map (.param · none))
      label := label
      key := Path.parse label
      grouping := .key }
  | .nested path relationship query => do
    let root ← Build.root
    let route ← Build.lift (m.resolveRelationship root path)
    Build.join route.before .select
    let (level, _) ← Build.within (Scope.ofRelationship relationship)
      (query.assemble m d (some relationship.correlation))
    return { Parts.empty with
      nested := [⟨path, level.nestedExpr (!relationship.fansOut) d⟩]
      keys := [relationship.parentColumn] }

/-- What the nodes contribute, in their order. -/
def assembleAll (m : Model) (d : Dialect) : List SelectNode → Build Parts
  | [] => pure .empty
  | node :: rest => do
    let part ← node.assemble m d
    let parts ← assembleAll m d rest
    return part ++ parts

/-- The level of a query in the current scope; a nested one is tied to the row above it. -/
def SelectQuery.assemble (m : Model) (d : Dialect) : SelectQuery → Option Expr → Build Level
  | ⟨_, nodes, filter, order, paging, distinct, _, _⟩, correlation => do
    let root ← Build.root
    let condition ← compileFilter m filter
    -- a plain count needs only the CTEs of the filter, which come first
    let filterCtes := (← get).ctes.length
    let parts ← assembleAll m d nodes
    let orders ← Build.lift (ordersOf root order paging)
    let ordered ← orders.foldlM (Ordered.add m parts.nested) ⟨parts.items, parts.keys, []⟩
    -- only in a document can a value lie inside another
    let isDocument := correlation.isSome || !parts.nested.isEmpty
    Build.lift (if isDocument then checkKeys ordered.items parts.nested else .ok ())
    let scope := (← get).scope
    let hasAggregate := ordered.items.any (·.grouping == .aggregate)
    return {
      scope := scope
      conditions := scope.baseFilters ++ correlation.toList ++ condition.toList
      items := ordered.items
      nested := parts.nested
      groupBy := groupColumns ordered.items ordered.keys
      orderBy := ordered.orderBy
      paging := paging
      distinct := distinct.getD (parts.fansOut && !hasAggregate)
      filterCtes := filterCtes }

end

/-! ## Statements -/

/-- A selection written as SQL. -/
structure CompiledQuery where
  dialect : Dialect
  query : Query
  count : Query
  shape : Shape

namespace CompiledQuery

/-- The statement that reads the rows. -/
def statement (c : CompiledQuery) : Sql.Statement := c.query.statement c.dialect

/-- The statement that counts the rows of the other before its window. -/
def countStatement (c : CompiledQuery) : Sql.Statement := c.count.statement c.dialect

end CompiledQuery

/-- Writes a selection as SQL. -/
def SelectQuery.compile (m : Model) (q : SelectQuery) (d : Dialect) :
    Except QueryError CompiledQuery :=
  match StateT.run (q.assemble m d none) (Frame.mk (Scope.ofTable m q.root) []) with
  | (.error e, _) => .error e
  | (.ok level, frame) =>
    let (query, shape) := level.shaped d
    .ok ⟨d, { query with ctes := frame.ctes }, level.countQuery frame.ctes, shape⟩

end EntityQuery
