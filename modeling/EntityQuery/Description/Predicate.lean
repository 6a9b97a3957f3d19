import EntityQuery.Description.Statement
import EntityQuery.Predicate.Basic

/-!
# Descriptions of predicates
-/

namespace EntityQuery

def Threshold.describe (t : Threshold) : Document :=
  .table [("column", .text t.column.text), ("count", .int t.count)]

mutual

def Predicate.describe (m : Model) : Predicate → Document
  | .group .and members => .table [("and", .list (describeAll m members))]
  | .group .or members => .table [("or", .list (describeAll m members))]
  | .compare path op operand q =>
    .table [("path", .text path.text), ("op", .text op.text), ("q", .text q.text),
      operand.describe m]
  | .columns left op right =>
    .table [("left", .text left.text), ("op", .text op.text), ("right", .text right.text)]
  | .related via condition inverted threshold =>
    .table [("exists", .text via.text), ("cond", condition.describe m),
      ("inverted", .bool inverted), ("threshold", .ofOption (·.describe) threshold)]

def describeAll (m : Model) : List Predicate → List Document
  | [] => []
  | p :: ps => p.describe m :: describeAll m ps

def Operand.describe (m : Model) : Operand → String × Document
  | .value v => ("value", v.describe)
  | .values vs => ("values", .ofList (·.describe) vs)
  | .subquery q => ("subquery", q.describe m)

def SubQuery.describe (m : Model) : SubQuery → Document
  | ⟨table, column, filter⟩ =>
    .table [("table", .text (m.aliasOf table)), ("column", .text column.text),
      ("filter", describeFilter m filter)]

def describeFilter (m : Model) : Option Predicate → Document
  | none => .null
  | some p => p.describe m

end

end EntityQuery
