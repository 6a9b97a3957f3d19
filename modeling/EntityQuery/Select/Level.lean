import EntityQuery.Scope
import EntityQuery.Select.Basic
import EntityQuery.Sql.Equality

/-!
# Levels of a statement

A `Level` is one SELECT of a statement with everything found for it, before the form of its rows
is chosen: `Level.query` takes the select list, `Level.countQuery` counts the rows.
-/

namespace EntityQuery

open EntityQuery.Sql (Expr Query SelectItem OrderItem)

/-- A selected value. -/
structure FlatItem where
  expr : Expr
  /-- Its name in the result of the statement. -/
  label : String
  /-- Its place in the result as a document. -/
  key : Path
  grouping : Grouping

/-- The rows of a nested query, as one value. -/
structure NestedItem where
  key : Path
  expr : Expr

/-- One SELECT with all that was found for it. -/
structure Level where
  scope : Scope
  conditions : List Expr
  items : List FlatItem
  nested : List NestedItem
  groupBy : List Sql.Column
  orderBy : List OrderItem
  paging : Option Paging
  distinct : Bool
  /-- How many CTEs there were when the conditions were written. -/
  filterCtes : Nat

/-- The rows before a page. They are counted in 64 bits, and the largest number stands for all
beyond it. -/
def rowsBefore (number size : Nat) : Nat := min ((number - 1) * size) 0xFFFFFFFFFFFFFFFF

/-- Sets the window of a query. -/
def Paging.apply (q : Query) : Paging → Query
  | top n => { q with top := some n }
  | page number size => { q with window := some ⟨some size, some (rowsBefore number size)⟩ }
  | limit n 0 => { q with window := some ⟨some n, none⟩ }
  | limit n offset => { q with window := some ⟨some n, some offset⟩ }

namespace Level

/-- Whether the rows are aggregated. -/
def hasAggregate (l : Level) : Bool := l.items.any (·.grouping == .aggregate)

/-- The part of a query that does not depend on its select list. -/
def base (l : Level) (items : List SelectItem) : Query :=
  { Query.empty with
    items := items
    distinct := l.distinct
    condition := Expr.combine .and l.conditions
    groupBy := l.groupBy.map Expr.column }

/-- Rows without repetition can only be ordered by what is selected. What is not is added under
the name `o` with the number of the order. -/
def coverOrder (i : Nat) (items : List SelectItem) :
    List OrderItem → List SelectItem × List OrderItem
  | [] => (items, [])
  | o :: rest =>
    if items.any (·.expr.eqv o.expr) then
      let (items, rest) := coverOrder (i + 1) items rest
      (items, o :: rest)
    else
      let label := "o" ++ toString i
      let (items, rest) := coverOrder (i + 1) (items ++ [⟨o.expr, some label⟩]) rest
      (items, ⟨.column ⟨none, label⟩, o.dir⟩ :: rest)

/-- The query of a level with a select list. -/
def query (l : Level) (items : List SelectItem) : Query :=
  let (items, orderBy) := if l.distinct then coverOrder 0 items l.orderBy else (items, l.orderBy)
  let q := { l.base items with orderBy := orderBy }
  l.scope.apply (l.paging.elim q (·.apply q)) false

/-- The name of the column with the number of rows. -/
def countItem : SelectItem := ⟨.countAll, some "count"⟩

/-- Whether every row of the joined tables that are filtered is a row of the result. -/
def isPlain (l : Level) : Bool := !l.distinct && l.groupBy.isEmpty && !l.hasAggregate

/-- The select list of the rows that are counted. -/
def countedItems (l : Level) : List SelectItem :=
  if l.items.isEmpty then [⟨.int 1, some "g0"⟩]
  else l.items.zipIdx.map fun (item, i) => ⟨item.expr, some ("g" ++ toString i)⟩

/-- The number of rows without the window. Joins that only the select list needs are left out
where they cannot matter. -/
def countQuery (l : Level) (ctes : List Sql.Cte) : Query :=
  if l.isPlain then
    l.scope.apply
      { Query.empty with
        ctes := ctes.take l.filterCtes
        items := [countItem]
        condition := Expr.combine .and l.conditions } true
  else
    { Query.empty with
      ctes := ctes
      items := [countItem]
      source := some (.derived (l.scope.apply (l.base l.countedItems) false) "counted") }

end Level

end EntityQuery
