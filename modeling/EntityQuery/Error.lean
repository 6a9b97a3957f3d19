import EntityQuery.Entity.Declaration
import EntityQuery.Path
import EntityQuery.Predicate.Operator
import EntityQuery.Sql.Token

/-!
# Errors

What can go wrong between the declaration of a model and the SQL of a query, by its cause. The
wording is in `QueryError.message`.
-/

namespace EntityQuery

/-- The stage that an error belongs to. -/
inductive ErrorKind where
  | pathResolution | configuration | compilation | execution
  deriving DecidableEq

def ErrorKind.name : ErrorKind → String
  | pathResolution => "PathResolution"
  | configuration => "Configuration"
  | compilation => "Compilation"
  | execution => "Execution"

/-- What needs a primary key; both name a relationship by its entity and member. -/
inductive KeyNeed where
  /-- A relationship that fans out needs keys on both sides. -/
  | fanOut (cardinality : Cardinality) (entity member : String)
  /-- A relationship that names no join column uses the primary key. -/
  | joinColumn (entity member : String)
  deriving DecidableEq

inductive RelationFault where
  | memberIsColumn
  | linkMissing
  | linkUnexpected
  | unknownOperator (operator : String)
  deriving DecidableEq

/-- A use of an operator that has no SQL form. -/
inductive UnsupportedUse where
  /-- Containment of all values across two relationships that fan out. -/
  | containment (path : Path)
  | subquery (operator : Operator)
  | columns (operator : Operator)
  /-- A plain comparison across a relationship that fans out. -/
  | direct (path : Path)
  | nullOperand (operator : Operator) (path : Path)
  | value (operator : Operator) (path : Path)
  deriving DecidableEq

/-- What cannot be negated. -/
inductive NotInvertible where
  | subquery (operator : Operator) (path : Path)
  | columns (operator : Operator) (left right : Path)
  deriving DecidableEq

inductive PagingFault where
  | zeroTop
  | zeroPage (page size : Nat)
  | zeroLimit
  | several
  deriving DecidableEq

inductive QueryError where
  | pathNotFound (entity : String) (path : Path)
  | notAColumn (entity : String) (path : Path)
  | notARelationship (entity : String) (path : Path)
  | unknownEntity (entity : String)
  | invalidModel (reason : String)
  | duplicateEntity (entity : String)
  | unknownMember (entity member : String)
  | missingPrimaryKey (entity : String) (need : KeyNeed)
  | unresolvableKey (entity member column : String)
  | invalidJoinIndex (entity member : String) (index joins : Nat)
  | invalidRelationship (entity member : String) (fault : RelationFault)
  | notInvertible (what : NotInvertible)
  | unsupportedOperator (use : UnsupportedUse)
  | quantifierOutsideMany (quantifier : Quantifier) (path : Path)
  | crossBranch (left right : Path)
  | notSupported (dialect : Sql.Dialect) (feature : String)
  | pagingWithoutOrder (entity : String)
  | invalidPaging (fault : PagingFault)
  /-- A word is searched for that is not a text. -/
  | wordNotText (path : Path) (value : Value)
  | conflictingKey (key other : Path)
  | execution (sql : String) (params : List Sql.Parameter) (reason : String)

def KeyNeed.message : KeyNeed → String
  | fanOut cardinality entity member =>
    s!"{cardinality.text} relationship '{entity}.{member}' needs keys on both sides"
  | joinColumn entity member =>
    s!"relationship '{entity}.{member}' does not name its join column"

def RelationFault.message : RelationFault → String
  | memberIsColumn => "member is already a column"
  | linkMissing => "many-to-many relationship needs a link table"
  | linkUnexpected => "only many-to-many relationships take a link table"
  | unknownOperator operator => s!"unknown condition operator '{operator}'"

def UnsupportedUse.message : UnsupportedUse → String
  | containment path =>
    s!"= ALL is not supported for '{path.text}', which crosses a second one-to-many relationship"
  | subquery operator => s!"{operator.text} is not supported for a sub-query operand"
  | columns operator => s!"{operator.text} is not supported for a column-to-column comparison"
  | direct path =>
    "direct comparison is not supported for " ++
      s!"'{path.text}', which crosses a one-to-many relationship"
  | nullOperand operator path =>
    s!"{operator.text} is not supported for a NULL operand on '{path.text}'"
  | value operator path => s!"{operator.text} is not supported for '{path.text}'"

def NotInvertible.message : NotInvertible → String
  | subquery operator path => s!"{operator.text} (sub-query) on '{path.text}' cannot be inverted"
  | columns operator left right =>
    s!"{operator.text} on '{left.text} / {right.text}' cannot be inverted"

def PagingFault.message : PagingFault → String
  | zeroTop => "TOP must be positive"
  | zeroPage page size =>
    s!"page {page} of size {size}: both are 1-based and must be positive"
  | zeroLimit => "limit must be positive"
  | several => "only one of top, page and limit may be given"

namespace QueryError

def message : QueryError → String
  | pathNotFound entity path => s!"path '{path.text}' not found on entity '{entity}'"
  | notAColumn entity path =>
    s!"path '{path.text}' on entity '{entity}' does not end at a column"
  | notARelationship entity path =>
    s!"path '{path.text}' on entity '{entity}' does not end at a relationship"
  | unknownEntity entity => s!"unknown entity '{entity}'"
  | invalidModel reason => s!"invalid model definition: {reason}"
  | duplicateEntity entity => s!"entity '{entity}' is registered more than once"
  | unknownMember entity member => s!"entity '{entity}' has no member '{member}'"
  | missingPrimaryKey entity need => s!"entity '{entity}' needs a primary key: {need.message}"
  | unresolvableKey entity member column =>
    s!"relationship '{entity}.{member}' cannot resolve foreign key column '{column}'"
  | invalidJoinIndex entity member index joins =>
    s!"relationship '{entity}.{member}' has no join {index} (it has {joins})"
  | invalidRelationship entity member fault =>
    s!"relationship '{entity}.{member}' is invalid: {fault.message}"
  | notInvertible what => s!"operator {what.message}"
  | unsupportedOperator use => s!"operator {use.message}"
  | quantifierOutsideMany quantifier path =>
    s!"quantifier {quantifier.text} on '{path.text}' requires a one-to-many relationship"
  | crossBranch left right =>
    s!"columns '{left.text}' and '{right.text}' lie on different one-to-many branches"
  | notSupported dialect feature => s!"{feature} is not supported by {dialect.name}"
  | pagingWithoutOrder entity =>
    s!"paging requires an order column but entity '{entity}' declares no columns"
  | invalidPaging fault => s!"invalid paging: {fault.message}"
  | wordNotText path value =>
    s!"invalid operand for '{path.text}': word match needs a text value, got {value.display}"
  | conflictingKey key other =>
    s!"output key '{key.text}' collides with '{other.text}' in the shaped result"
  | execution sql _ reason => s!"execution failed: {reason}\nSQL: {sql}"

/-- A short name of the cause. -/
def name : QueryError → String
  | pathNotFound .. => "PathNotFound"
  | notAColumn .. => "NotAColumn"
  | notARelationship .. => "NotARelationship"
  | unknownEntity .. => "UnknownEntity"
  | invalidModel .. => "InvalidModel"
  | duplicateEntity .. => "DuplicateEntity"
  | unknownMember .. => "UnknownMember"
  | missingPrimaryKey .. => "MissingPrimaryKey"
  | unresolvableKey .. => "UnresolvableForeignKey"
  | invalidJoinIndex .. => "InvalidJoinIndex"
  | invalidRelationship .. => "InvalidRelationship"
  | notInvertible .. => "OperatorNotInvertible"
  | unsupportedOperator .. => "UnsupportedOperator"
  | quantifierOutsideMany .. => "QuantifierOutsideMany"
  | crossBranch .. => "CrossBranchComparison"
  | notSupported .. => "NotSupported"
  | pagingWithoutOrder .. => "PagingWithoutOrder"
  | invalidPaging .. => "InvalidPaging"
  | wordNotText .. => "InvalidOperand"
  | conflictingKey .. => "ConflictingOutputKey"
  | execution .. => "Execution"

def kind : QueryError → ErrorKind
  | pathNotFound .. | notAColumn .. | notARelationship .. => .pathResolution
  | unknownEntity .. | invalidModel .. | duplicateEntity .. | unknownMember ..
  | missingPrimaryKey .. | unresolvableKey .. | invalidJoinIndex .. | invalidRelationship .. =>
    .configuration
  | notInvertible .. | unsupportedOperator .. | quantifierOutsideMany .. | crossBranch ..
  | notSupported .. | pagingWithoutOrder .. | invalidPaging .. | wordNotText ..
  | conflictingKey .. => .compilation
  | execution .. => .execution

/-- The failure of a statement that was sent to a database. -/
def ofExecution (s : Sql.Statement) (reason : String) : QueryError :=
  execution s.sql s.params reason

end QueryError

/-- Each step of a computation that succeeds does. -/
theorem bind_eq_ok {ε α β : Type} {x : Except ε α} {k : α → Except ε β} {b : β} :
    (x >>= k) = .ok b ↔ ∃ a, x = .ok a ∧ k a = .ok b := by
  rcases x with e | a <;> simp only [bind, Except.bind]
  · simp
  · simp

end EntityQuery
