import EntityQuery.Predicate.Depth
import EntityQuery.Scope

/-!
# Predicates in SQL

`Predicate.compile` writes a predicate as an SQL condition on the rows of the current scope. Paths
that do not fan out become LEFT JOINs. A `related` becomes a CTE of the keys that have a matching
row; the CTE is joined to its parent, and the condition asks whether a key was found. So no join
of a filter ever multiplies rows.

The recursion ends because the depth of what is left decreases.
-/

namespace EntityQuery

open EntityQuery.Sql (Expr Query)

/-- The column of the keys in a CTE. -/
def linkColumn : String := "link"

/-- The column on the left of a comparison, with the type of the parameters compared with it. -/
structure Target where
  column : Expr
  type : Option String
  path : Path

namespace Target

/-- A value that is sent with the type of the column. -/
def param (t : Target) (v : Value) : Expr := .param v t.type

/-- The patterns of a text that holds a word: alone, at the start, at the end, inside. -/
def wordPatterns (word : String) : List String :=
  [word, word ++ " %", "% " ++ word, "% " ++ word ++ " %"]

/-- Compares the column with the patterns of a word. -/
def words (t : Target) (op connective : Sql.BinaryOp) (v : Value) : Except QueryError Expr :=
  match v.text? with
  | none => .error (.wordNotText t.path v)
  | some word =>
    let parts := (wordPatterns word).map fun s => Expr.binary t.column op (t.param (.text s))
    .ok ((Expr.combine connective parts).getD (.int 1))

/-- The comparison with one value. -/
def scalar (t : Target) (op : Operator) (v : Value) : Except QueryError Expr :=
  if v.isNull then
    match op with
    | .eq => .ok (.isNull t.column false)
    | .ne => .ok (.isNull t.column true)
    | op => .error (.unsupportedOperator (.nullOperand op t.path))
  else
    match op with
    | .wordLike => t.words .like .or v
    | .notWordLike => t.words .notLike .and v
    | .notLikeOrNull =>
      .ok (.combine₂ .or (.isNull t.column false) (.binary t.column .notLike (t.param v)))
    | op =>
      match op.binary? with
      | some binary => .ok (.binary t.column binary (t.param v))
      | none => .error (.unsupportedOperator (.value op t.path))

/-- The comparison with a list of values, one of them or all. -/
def list (t : Target) (op : Operator) (vs : List Value) (q : Quantifier) :
    Except QueryError Expr :=
  match vs with
  -- ANY of no values is false, ALL of them is true
  | [] => .ok (.inList t.column [] (q == .all))
  | [v] => t.scalar op v
  | vs =>
    match op, q with
    | .eq, .any => .ok (.inList t.column (vs.map t.param) false)
    | .ne, .all => .ok (.inList t.column (vs.map t.param) true)
    | .eq, .all | .ne, .any => .error (.quantifierOutsideMany q t.path)
    | op, q => do
      let parts ← vs.mapM (t.scalar op)
      let connective : Sql.BinaryOp := if q = .any then .or else .and
      return (Expr.combine connective parts).getD (.int 1)

end Target

/-- Joins the tables of a column path and gives its column. -/
def joinColumn (m : Model) (path : Path) (origin : JoinOrigin) : Build Target := do
  let root ← Build.root
  let r ← Build.lift (m.resolve root path)
  if r.crossesMany then
    throw (.unsupportedOperator (.direct path))
  Build.join r.hops origin
  return ⟨m.columnExpr r.table r.column, r.column.type, path⟩

/-- Whether a comparison with a subquery is negated. -/
def subqueryNegated : Operator → Except QueryError Bool
  | .eq => .ok false
  | .ne => .ok true
  | op => .error (.unsupportedOperator (.subquery op))

/-- The comparison of two columns of one row. -/
def compareColumns (left right : Target) (op : Operator) : Except QueryError Expr :=
  match op with
  | .notLikeOrNull =>
    .ok (.combine₂ .or (.isNull left.column false) (.binary left.column .notLike right.column))
  | op =>
    match op.binary? with
    | some binary => .ok (.binary left.column binary right.column)
    | none => .error (.unsupportedOperator (.columns op))

/-- The keys of the related rows that satisfy the conditions: each once, or those with enough
different values of a counted column. -/
def keysQuery (link : Expr) (conditions : List Expr) (counted : Option (Expr × Nat)) : Query :=
  let keys := { Query.empty with
    items := [⟨link, some linkColumn⟩]
    condition := Expr.combine .and conditions }
  match counted with
  | none => { keys with distinct := true }
  | some (column, count) =>
    { keys with
      groupBy := [link]
      having := some (.binary (.countDistinct column) .gte (.int (Sql.rowCount count))) }

/-- The column counted by a threshold, joined in the current scope. -/
def joinThreshold (m : Model) : Option Threshold → Build (Option (Expr × Nat))
  | none => pure none
  | some t => do
    let target ← joinColumn m t.column .filter
    return some (target.column, t.count)

mutual

/-- Writes a predicate; `none` is no constraint. -/
def Predicate.compile (m : Model) (p : Predicate) (origin : JoinOrigin) :
    Build (Option Expr) := do
  let root ← Build.root
  match _h : p.simplify.correlate m root with
  | .error e => throw e
  | .ok q => q.simplify.render m origin
termination_by (p.depth, 1, 0)
decreasing_by
  have h₁ := Predicate.depth_simplify q
  have h₂ := Predicate.depth_correlate p.simplify _h
  have h₃ := Predicate.depth_simplify p
  simp only [Prod.lex_def]
  omega

/-- Writes a predicate that is correlated already. -/
def Predicate.render (m : Model) (p : Predicate) (origin : JoinOrigin) : Build (Option Expr) :=
  match p with
  | .group op members => do
    let parts ← renderAll m members origin
    return Expr.combine op.binary parts
  | .compare path op operand q => do
    let target ← joinColumn m path origin
    return some (← operand.render m target op q)
  | .columns left op right => do
    let left ← joinColumn m left origin
    let right ← joinColumn m right origin
    return some (← Build.lift (compareColumns left right op))
  | .related via condition inverted threshold => do
    let root ← Build.root
    if _h : via.length = 0 then
      throw (.pathNotFound root.entity.name via)
    else
      let route ← Build.lift (m.resolveRelationship root via)
      Build.join route.before origin
      let body := Scope.ofRelationship route.last
      let ((condition, counted), body) ← Build.within body do
        let condition ← condition.compile m .filter
        let counted ← joinThreshold m threshold
        return (condition, counted)
      let keys := keysQuery route.last.linkKey (body.baseFilters ++ condition.toList) counted
      let name ← Build.addCte (body.apply keys false)
      let key := Expr.ofTable name linkColumn
      Build.joinCte name (.eq key route.last.parentKey) origin
      -- the LEFT JOIN leaves the key null where no row was found
      return some (.isNull key (!inverted))
termination_by (p.depth, 0, sizeOf p)
decreasing_by
  all_goals
    simp only [Prod.lex_def, Predicate.depth, Predicate.group.sizeOf_spec,
      Predicate.compare.sizeOf_spec, true_and]
    omega

/-- Writes the comparison of a column with an operand. -/
def Operand.render (m : Model) (target : Target) (op : Operator) (q : Quantifier)
    (operand : Operand) : Build Expr :=
  match operand with
  | .value v => Build.lift (target.scalar op v)
  | .values vs => Build.lift (target.list op vs q)
  | .subquery ⟨table, column, filter⟩ => do
    let negated ← Build.lift (subqueryNegated op)
    let ((selected, condition), scope) ← Build.within (Scope.ofTable m table) do
      let selected ← joinColumn m column .filter
      let condition ← compileFilter m filter
      return (selected.column, condition)
    let query := { Query.empty with items := [⟨selected, none⟩], condition := condition }
    return .inQuery target.column (scope.apply query false) negated
termination_by (operand.depth, 0, 0)
decreasing_by
  simp only [Prod.lex_def, Operand.depth, SubQuery.depth]
  omega

/-- Writes the members that are a constraint. -/
def renderAll (m : Model) (ps : List Predicate) (origin : JoinOrigin) : Build (List Expr) :=
  match ps with
  | [] => pure []
  | p :: ps => do
    let part ← p.render m origin
    let parts ← renderAll m ps origin
    return part.toList ++ parts
termination_by (depthAll ps, 0, sizeOf ps)
decreasing_by
  all_goals
    simp only [Prod.lex_def, depthAll, List.cons.sizeOf_spec, true_and]
    omega

/-- Writes the filter of a query, if there is one. -/
def compileFilter (m : Model) (filter : Option Predicate) : Build (Option Expr) :=
  match filter with
  | none => pure none
  | some p => p.compile m .filter
termination_by (depthFilter filter, 2, 0)

end

end EntityQuery
