import EntityQuery.Graph.Resolution

/-!
# Scopes

A `Scope` is the FROM clause of one SELECT that is being written: a table and the joins found so
far. Every join has a key, so two paths to one table share it. The CTEs of a statement are
collected beside the scope, in a `Frame`, because all scopes of the statement share them.
-/

namespace EntityQuery

/-- What needs a join: a condition, or only the select list. -/
inductive JoinOrigin where
  | filter | select
  deriving DecidableEq

/-- What a join is found again by. -/
inductive JoinKey where
  | table (identity : Identity)
  | cte (name : String)
  deriving DecidableEq

/-- A join, its key, and what needs it. -/
structure ScopedJoin where
  key : JoinKey
  join : Sql.Join
  origin : JoinOrigin

/-- The FROM clause of one SELECT. -/
structure Scope where
  root : Table
  source : Sql.TableRef
  /-- The join of a link table that leads back to the parent. -/
  baseJoins : List Sql.Join
  /-- The conditions of the relationship on the table itself. -/
  baseFilters : List Sql.Expr
  /-- The column that refers to the parent. -/
  link : Option Sql.Expr
  joins : List ScopedJoin

namespace Scope

/-- The rows of a table, with nothing joined. -/
def ofTable (m : Model) (t : Table) : Scope := ⟨t, m.tableRef t, [], [], none, []⟩

/-- The rows on the far side of a relationship. The joins are walked backwards: from the child,
over the link table if there is one. -/
def ofRelationship (r : Relationship) : Scope where
  root := r.child
  source := r.childJoin.tableRef
  baseJoins := r.linkJoin.toList.map fun link =>
    -- the condition of the child is there, so `combine` has a result
    ⟨.inner, link.tableRef,
      (Sql.Expr.combine .and (r.childJoin.condition :: link.filterExprs)).getD
        r.childJoin.condition⟩
  baseFilters := r.childJoin.filterExprs
  link := some r.linkKey
  joins := []

/-- Adds a join unless its key is there. A filter that needs a join marks it. -/
def addTo (new : ScopedJoin) : List ScopedJoin → List ScopedJoin
  | [] => [new]
  | j :: rest =>
    if j.key = new.key then
      { j with origin := if new.origin = .filter then .filter else j.origin } :: rest
    else j :: addTo new rest

def addJoin (s : Scope) (new : ScopedJoin) : Scope := { s with joins := addTo new s.joins }

/-- The joins of a relationship, from the parent's side. -/
def joinsOf (origin : JoinOrigin) (r : Relationship) : List ScopedJoin :=
  r.joins.map fun j => ⟨.table j.identity, ⟨.left, j.tableRef, j.on⟩, origin⟩

/-- Joins the tables along a walk that starts in this scope. -/
def joinHops (s : Scope) (hops : List Relationship) (origin : JoinOrigin) :
    Except QueryError Scope :=
  let joined := (hops.flatMap (joinsOf origin)).foldl addJoin s
  match hops with
  | [] => .ok joined
  | first :: _ =>
    if first.parent.isAtOrBelow s.root then .ok joined
    else .error (.pathNotFound s.root.entity.name ⟨[first.member]⟩)

/-- Joins a CTE, found by its name. -/
def joinCte (s : Scope) (name : String) (on : Sql.Expr) (origin : JoinOrigin) : Scope :=
  s.addJoin ⟨.cte name, ⟨.left, ⟨none, name, none⟩, on⟩, origin⟩

/-- The joins that a query over this scope has; without the others, those that filters need. -/
def joinsFor (s : Scope) (filterOnly : Bool) : List Sql.Join :=
  s.baseJoins ++ (s.joins.filter fun j => !filterOnly || j.origin == .filter).map (·.join)

/-- Puts the FROM clause into a query. -/
def apply (s : Scope) (q : Sql.Query) (filterOnly : Bool) : Sql.Query :=
  { q with source := some (.table s.source), joins := q.joins ++ s.joinsFor filterOnly }

end Scope

/-! ## Writing a statement -/

/-- A scope and the CTEs of its statement. -/
structure Frame where
  scope : Scope
  ctes : List Sql.Cte

/-- A computation on the frame of a SELECT. A failure keeps what was written before it. -/
abbrev Build := ExceptT QueryError (StateM Frame)

namespace Build

/-- The table that paths start at. -/
def root : Build Table := do return (← get).scope.root

/-- A pure step that may fail. -/
def lift {α : Type} : Except QueryError α → Build α
  | .ok a => pure a
  | .error e => throw e

/-- Joins a walk in the current scope. -/
def join (hops : List Relationship) (origin : JoinOrigin) : Build Unit := do
  let f ← get
  let scope ← lift (f.scope.joinHops hops origin)
  set (Frame.mk scope f.ctes)

def joinCte (name : String) (on : Sql.Expr) (origin : JoinOrigin) : Build Unit := do
  let f ← get
  set (Frame.mk (f.scope.joinCte name on origin) f.ctes)

/-- Registers a CTE and gives it the next name, so a CTE comes after those it refers to. -/
def addCte (q : Sql.Query) : Build String := do
  let f ← get
  let name := "cte_" ++ toString f.ctes.length
  set (Frame.mk f.scope (f.ctes ++ [⟨name, q⟩]))
  return name

/-- Runs a computation in a scope of its own and returns also what became of that scope. -/
def within {α : Type} (inner : Scope) (act : Build α) : Build (α × Scope) := fun (f : Frame) =>
  -- the CTEs stay, whatever becomes of the inner scope
  match StateT.run act (Frame.mk inner f.ctes) with
  | (.ok a, g) => (.ok (a, g.scope), ⟨f.scope, g.ctes⟩)
  | (.error e, g) => (.error e, ⟨f.scope, g.ctes⟩)

end Build

end EntityQuery
