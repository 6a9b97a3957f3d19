import EntityQuery.Predicate.Basic

/-!
# Selections

A `SelectQuery` says what is read from a root table. Columns that one row reaches at most once
stand beside each other; rows behind a relationship that fans out, or that were asked for as a
whole, are selected by a nested query of their own.
-/

namespace EntityQuery

/-- What a selected item means for grouping. -/
inductive Grouping where
  /-- The rows are grouped by it when there is an aggregate. -/
  | key
  | aggregate
  /-- It takes no part in grouping. -/
  | neutral
  deriving DecidableEq

/-- An argument of a function. -/
inductive FunctionArg where
  | column (path : Path)
  | value (v : Value)
  | star
  deriving DecidableEq

/-- An order by one column. -/
structure OrderBy where
  path : Path
  dir : Sql.SortDir
  deriving DecidableEq

/-- The part of the result that is wanted. Pages count from one. -/
inductive Paging where
  | top (n : Nat)
  | page (number size : Nat)
  | limit (limit offset : Nat)
  deriving DecidableEq

/-- Whether the window needs an order. -/
def Paging.isWindow : Paging → Bool
  | top _ => false
  | page .. | limit .. => true

mutual

/-- One entry of a selection. -/
inductive SelectNode where
  | column (path : Path) (label : Option String)
  | function (name : String) (args : List FunctionArg) (distinct aggregate : Bool)
    (label : String)
  | case (branches : List (Predicate × Value)) (otherwise : Option Value) (label : String)
  | nested (path : Path) (relationship : Relationship) (query : SelectQuery)

/-- What is read, from which rows of a table. -/
structure SelectQuery where
  root : Table
  nodes : List SelectNode
  filter : Option Predicate
  order : List OrderBy
  paging : Option Paging
  /-- Whether equal rows are dropped, if it was said. -/
  distinct : Option Bool
  /-- How many one-to-one relationships a selection of all columns follows. -/
  eagerDepth : Nat
  /-- The entities of the enclosing queries. -/
  ancestors : List String

end

/-- The part a node takes in grouping. -/
def SelectNode.grouping : SelectNode → Grouping
  | column .. | case .. => .key
  | function _ _ _ aggregate _ => if aggregate then .aggregate else .key
  | nested .. => .neutral

/-- The path of a column or nested node. -/
def SelectNode.path? : SelectNode → Option Path
  | column path _ | nested path _ _ => some path
  | _ => none

/-- Whether the node is the column with the given path. -/
def SelectNode.isColumn (path : Path) : SelectNode → Bool
  | column p _ => p == path
  | _ => false

/-- The query of a nested node with the given path. -/
def SelectNode.nestedAt? (path : Path) : SelectNode → Option SelectQuery
  | nested p _ query => if p = path then some query else none
  | _ => none

/-- A query that selects nothing yet. -/
def SelectQuery.ofTable (t : Table) : SelectQuery := ⟨t, [], none, [], none, none, 2, []⟩

end EntityQuery
