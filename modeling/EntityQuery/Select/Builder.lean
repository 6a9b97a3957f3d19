import EntityQuery.Select.Basic

/-!
# Building selections

The operations on a `SelectQuery`. Every path is resolved when it is given, so a query that was
built has no path that leads nowhere.

A path that fans out is divided there: the first part names a nested query and the rest is
selected inside it. What lies below a nested relationship belongs to its query, also if it was
selected before.
-/

namespace EntityQuery.SelectQuery

/-! ## Nested queries -/

/-- Where a path enters the first nested query that it leads into. -/
def enclosing? (q : SelectQuery) (path : Path) : Option Nat :=
  q.nodes.findSome? fun
    | .nested via _ _ => if 0 < via.length && path.continues via then some via.length else none
    | _ => none

theorem enclosing?_lt {q : SelectQuery} {path : Path} {n : Nat}
    (h : q.enclosing? path = some n) : 0 < n ∧ n < path.length := by
  obtain ⟨node, -, hnode⟩ := List.exists_of_findSome?_eq_some h
  split at hnode
  · split at hnode
    · rename_i hlt
      cases hnode
      simp [Path.continues] at hlt
      exact ⟨hlt.1, hlt.2.1⟩
    · contradiction
  · contradiction

/-- The query nested at a path. -/
def nestedAt? (q : SelectQuery) (via : Path) : Option SelectQuery :=
  q.nodes.findSome? (·.nestedAt? via)

/-- Replaces the first query nested at a path. -/
def putNested (via : Path) (inner : SelectQuery) : List SelectNode → List SelectNode
  | [] => []
  | .nested path r query :: rest =>
    if path = via then .nested path r inner :: rest
    else .nested path r query :: putNested via inner rest
  | node :: rest => node :: putNested via inner rest

/-- Replaces the query nested at a path. -/
def setNested (q : SelectQuery) (via : Path) (inner : SelectQuery) : SelectQuery :=
  { q with nodes := putNested via inner q.nodes }

/-- Whether a node lies below a relationship. -/
def isBelow (via : Path) (node : SelectNode) : Bool := node.path?.any (·.continues via)

/-- A node below a relationship, seen from there. -/
def rebase (via : Path) : SelectNode → SelectNode
  | .column path label => .column (path.drop via.length) label
  | .nested path r query => .nested (path.drop via.length) r query
  | node => node

/-- Adds a query nested at a path, with the nodes that lie below it. -/
def addNested (m : Model) (q : SelectQuery) (via : Path) : Except QueryError SelectQuery := do
  let route ← m.resolveRelationship q.root via
  let inner := { SelectQuery.ofTable route.last.child with
    nodes := (q.nodes.filter (isBelow via)).map (rebase via)
    eagerDepth := q.eagerDepth
    ancestors := q.ancestors ++ [q.root.entity.name] }
  return { q with
    nodes := q.nodes.filter (!isBelow via ·) ++ [.nested via route.last inner] }

/-- The query nested at a path, which is added if there is none, and the query that holds it. -/
def openNested (m : Model) (q : SelectQuery) (via : Path) :
    Except QueryError (SelectQuery × SelectQuery) := do
  match q.nestedAt? via with
  | some inner => return (inner, q)
  | none =>
    let q ← q.addNested m via
    match q.nestedAt? via with
    | some inner => return (inner, q)
    | none => throw (.notARelationship q.root.entity.name via)

/-- Changes the query nested at a path. -/
def changeNested (m : Model) (q : SelectQuery) (via : Path)
    (change : SelectQuery → Except QueryError SelectQuery) : Except QueryError SelectQuery := do
  let (inner, q) ← q.openNested m via
  return q.setNested via (← change inner)

/-! ## Columns -/

/-- Adds a column unless its path is there. -/
def addColumn (q : SelectQuery) (path : Path) (label : Option String) : SelectQuery :=
  if q.nodes.any (·.isColumn path) then q else { q with nodes := q.nodes ++ [.column path label] }

/-- The columns of a table and of those one-to-one relationships away from it, but not of an
entity that was visited on the way. -/
def eagerPaths (m : Model) : (depth : Nat) → (visited : List String) → Table → (base : Path) →
    List Path
  | depth, visited, t, base =>
    t.entity.columns.map (fun c => base.child c.member) ++
      match depth with
      | 0 => []
      | depth + 1 => (m.relationships t).flatMap fun r =>
        let entity := r.child.entity.name
        if r.fansOut || visited.contains entity then []
        else eagerPaths m depth (visited ++ [entity]) r.child (base.child r.member)

/-- Adds all columns up to the eager depth. -/
def selectAll (m : Model) (q : SelectQuery) : SelectQuery :=
  let visited := q.ancestors ++ [q.root.entity.name]
  (eagerPaths m q.eagerDepth visited q.root Path.empty).foldl (·.addColumn · none) q

/-- A query that selects nothing selects all columns. -/
def orAll (m : Model) (q : SelectQuery) : SelectQuery :=
  if q.nodes.isEmpty then q.selectAll m else q

theorem length_drop_lt {path : Path} {n : Nat} (hn : 0 < n) (hp : n < path.length) :
    (path.drop n).length < path.length := by
  simp only [Path.drop, Path.length, List.length_drop] at *
  omega

/-- Selects all columns of the query nested at a path, unless it selects something already. -/
def includeAt (m : Model) (q : SelectQuery) (via : Path) : Except QueryError SelectQuery :=
  q.changeNested m via fun inner =>
    .ok (if (q.nestedAt? via).isNone then inner.selectAll m else inner.orAll m)

/-- Includes the rows related through a path, with all their columns. -/
def includeRelated (m : Model) (q : SelectQuery) (path : Path) :
    Except QueryError SelectQuery := do
  match _h : q.enclosing? path with
  | some n =>
    q.changeNested m (path.take n) fun inner => inner.includeRelated m (path.drop n)
  | none =>
    let route ← m.resolveRelationship q.root path
    match route.hops.findIdx? (·.fansOut) with
    | some i =>
      if _h : i + 1 < path.length then
        q.changeNested m (path.take (i + 1)) fun inner =>
          inner.includeRelated m (path.drop (i + 1))
      else q.includeAt m path
    | none => q.includeAt m path
termination_by path.length
decreasing_by
  · exact length_drop_lt (enclosing?_lt _h).1 (enclosing?_lt _h).2
  · exact length_drop_lt (Nat.succ_pos i) _h

/-- Selects a column, or includes a relationship if the path ends at one. -/
def addPath (m : Model) (q : SelectQuery) (path : Path) (label : Option String) :
    Except QueryError SelectQuery :=
  match _h : q.enclosing? path with
  | some n =>
    q.changeNested m (path.take n) fun inner => inner.addPath m (path.drop n) label
  | none =>
    match _hr : m.resolve q.root path with
    | .ok r =>
      match _hi : r.firstMany? with
      | none => .ok (q.addColumn path label)
      | some i =>
        q.changeNested m (path.take (i + 1)) fun inner =>
          inner.addPath m (path.drop (i + 1)) label
    -- the path may end at a relationship instead
    | .error (.notAColumn _ _) => q.includeRelated m path
    | .error e => .error e
termination_by path.length
decreasing_by
  · exact length_drop_lt (enclosing?_lt _h).1 (enclosing?_lt _h).2
  · exact length_drop_lt (Nat.succ_pos i) (Model.firstMany?_resolve_lt _hr _hi)

/-- Selects a path under the name that it has. -/
def select (m : Model) (q : SelectQuery) (path : Path) : Except QueryError SelectQuery :=
  q.addPath m path none

/-- Selects a column under a name of its own. -/
def selectAs (m : Model) (q : SelectQuery) (path : Path) (label : String) :
    Except QueryError SelectQuery := do
  let _ ← m.resolve q.root path
  q.addPath m path (some label)

/-- A query inside another, and what the other becomes when it is replaced. -/
structure Focus where
  inner : SelectQuery
  replace : SelectQuery → SelectQuery

/-- The query nested at a path of this query. -/
def focusAt (m : Model) (q : SelectQuery) (via : Path) : Except QueryError Focus := do
  let (inner, q) ← q.openNested m via
  return ⟨inner, fun x => q.setNested via (x.orAll m)⟩

/-- The query nested at a relationship path, which is added where it is missing. Queries that
select nothing when they are put back select all columns. -/
def focus (m : Model) (q : SelectQuery) (path : Path) : Except QueryError Focus := do
  let route ← m.resolveRelationship q.root path
  match route.hops.findIdx? (·.fansOut) with
  | some i =>
    if _h : i + 1 < path.length then
      let via := path.take (i + 1)
      let (inner, q) ← q.openNested m via
      let deep ← inner.focus m (path.drop (i + 1))
      return ⟨deep.inner, fun x => q.setNested via ((deep.replace x).orAll m)⟩
    else q.focusAt m path
  | none => q.focusAt m path
termination_by path.length
decreasing_by exact length_drop_lt (Nat.succ_pos i) _h

/-! ## Functions, conditions and order -/

/-- Resolves the columns among the arguments of a function. -/
def checkArgs (m : Model) (q : SelectQuery) (args : List FunctionArg) :
    Except QueryError Unit :=
  args.forM fun
    | .column path => do let _ ← m.resolve q.root path
    | _ => pure ()

def addFunction (m : Model) (q : SelectQuery) (name : String) (args : List FunctionArg)
    (distinct aggregate : Bool) (label : String) : Except QueryError SelectQuery := do
  q.checkArgs m args
  return { q with nodes := q.nodes ++ [.function name args distinct aggregate label] }

/-- Selects the value of the first branch whose condition holds. -/
def addCase (m : Model) (q : SelectQuery) (branches : List (Predicate × Value))
    (otherwise : Option Value) (label : String) : Except QueryError SelectQuery := do
  branches.forM fun (p, _) => p.validate m q.root
  return { q with nodes := q.nodes ++ [.case branches otherwise label] }

/-- Adds a condition to those there are. -/
def addFilter (m : Model) (q : SelectQuery) (p : Predicate) : Except QueryError SelectQuery := do
  p.validate m q.root
  return { q with filter := match q.filter with
    | some existing => some (.group .and [existing, p])
    | none => some p }

/-- Adds an order, after those there are. -/
def addOrder (m : Model) (q : SelectQuery) (path : Path) (dir : Sql.SortDir) :
    Except QueryError SelectQuery := do
  let _ ← m.resolve q.root path
  return { q with order := q.order ++ [⟨path, dir⟩] }

/-- Pages, sizes and limits are positive. -/
def withPaging (q : SelectQuery) (paging : Paging) : Except QueryError SelectQuery := do
  match paging with
  | .top 0 => throw (.invalidPaging .zeroTop)
  | .page number size =>
    if number = 0 ∨ size = 0 then throw (.invalidPaging (.zeroPage number size))
  | .limit 0 _ => throw (.invalidPaging .zeroLimit)
  | _ => pure ()
  return { q with paging := some paging }

end EntityQuery.SelectQuery
