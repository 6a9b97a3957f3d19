import EntityQuery.Graph.Resolution

/-!
# Predicates

A `Predicate` is a condition on the rows of a table, with columns given by paths from it. Groups
nest freely; `related` asks for a row that is reached through a relationship.
-/

namespace EntityQuery

/-- What joins the members of a group. -/
inductive Connective where
  | and | or
  deriving DecidableEq

namespace Connective

/-- The connective of the negated members. -/
def dual : Connective → Connective
  | and => or
  | or => and

/-- The connective, or its dual under a negation. -/
def under (c : Connective) (negated : Bool) : Connective := if negated then c.dual else c

/-- The connective in SQL. -/
def binary : Connective → Sql.BinaryOp
  | and => .and
  | or => .or

end Connective

/-- At least `count` different values of a column. -/
structure Threshold where
  column : Path
  count : Nat
  deriving DecidableEq

mutual

/-- A condition on the rows of a table. -/
inductive Predicate where
  | group (op : Connective) (members : List Predicate)
  | compare (path : Path) (op : Operator) (operand : Operand) (quantifier : Quantifier)
  | columns (left : Path) (op : Operator) (right : Path)
  /-- Some row related through `via` satisfies the condition; `inverted`, none does. With a
  threshold, there are enough different values among these rows. -/
  | related (via : Path) (condition : Predicate) (inverted : Bool) (threshold : Option Threshold)

/-- What a column is compared with. -/
inductive Operand where
  | value (v : Value)
  | values (vs : List Value)
  | subquery (q : SubQuery)

/-- One column of the rows of a table that satisfy a filter. -/
structure SubQuery where
  table : Table
  column : Path
  filter : Option Predicate

end

/-- The comparison in SQL, for the operators that are one. -/
def Operator.binary? : Operator → Option Sql.BinaryOp
  | eq => some .eq
  | ne => some .ne
  | gt => some .gt
  | gte => some .gte
  | lt => some .lt
  | lte => some .lte
  | like => some .like
  | notLike => some .notLike
  | wordLike | notWordLike | notLikeOrNull => none

namespace Predicate

/-! ## Constructors -/

/-- Compares a column with one value. -/
def ofValue (path : Path) (op : Operator) (v : Value) : Predicate :=
  compare path op (.value v) .any

/-- No constraint. -/
def trivial : Predicate := group .and []

def anyRelated (via : Path) : Predicate := related via trivial false none

def noneRelated (via : Path) : Predicate := related via trivial true none

/-- Sets the quantifier of a comparison. -/
def withQuantifier (q : Quantifier) : Predicate → Predicate
  | compare path op operand _ => compare path op operand q
  | p => p

/-! ## Paths -/

mutual

/-- The column paths that a predicate reads below `base`; not those of subqueries. -/
def pathsFrom (base : Path) : Predicate → List Path
  | group _ members => pathsFromAll base members
  | compare path _ _ _ => [base ++ path]
  | columns left _ right => [base ++ left, base ++ right]
  | related via condition _ threshold =>
    condition.pathsFrom (base ++ via) ++
      (threshold.map fun t => base ++ via ++ t.column).toList

/-- The paths of several predicates. -/
def pathsFromAll (base : Path) : List Predicate → List Path
  | [] => []
  | p :: ps => p.pathsFrom base ++ pathsFromAll base ps

end

def columnPaths (p : Predicate) : List Path := p.pathsFrom Path.empty

end Predicate

mutual

/-- Resolves every path of a predicate on `t`; the first one that fails is the error. -/
def Predicate.validate (m : Model) (t : Table) : Predicate → Except QueryError Unit
  | .group _ members => validateAll m t members
  | .compare path _ operand _ => do
    let _ ← m.resolve t path
    operand.validate m
  | .columns left _ right => do
    let _ ← m.resolve t left
    let _ ← m.resolve t right
  | .related via condition _ threshold => do
    let route ← m.resolveRelationship t via
    condition.validate m route.last.child
    match threshold with
    | none => pure ()
    | some t =>
      let _ ← m.resolve route.last.child t.column

/-- Resolves the paths of all members. -/
def validateAll (m : Model) (t : Table) : List Predicate → Except QueryError Unit
  | [] => .ok ()
  | p :: ps => do
    p.validate m t
    validateAll m t ps

/-- Only a subquery has paths. -/
def Operand.validate (m : Model) : Operand → Except QueryError Unit
  | .value _ | .values _ => .ok ()
  | .subquery q => q.validate m

/-- The paths of a subquery start at its own table. -/
def SubQuery.validate (m : Model) : SubQuery → Except QueryError Unit
  | ⟨table, column, filter⟩ => do
    let _ ← m.resolve table column
    validateFilter m table filter

def validateFilter (m : Model) (t : Table) : Option Predicate → Except QueryError Unit
  | none => .ok ()
  | some p => p.validate m t

end

end EntityQuery
