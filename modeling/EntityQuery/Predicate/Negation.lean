import EntityQuery.Predicate.Basic

/-!
# Negation of predicates

Negation is pushed to the leaves: connectives and quantifiers turn into their duals, operators
into their opposites. What has no opposite is refused: a comparison with a subquery, and word
matching between two columns.
-/

namespace EntityQuery

/-- The opposite of an operator. -/
def Operator.inverse? : Operator → Option Operator
  | eq => some ne
  | ne => some eq
  | gt => some lte
  | lte => some gt
  | lt => some gte
  | gte => some lt
  | like => some notLike
  | notLike => some like
  | wordLike => some notWordLike
  | notWordLike => some wordLike
  | notLikeOrNull => none

/-- The opposite of an operator between two columns. -/
def Operator.columnInverse? : Operator → Option Operator
  | wordLike | notWordLike => none
  | op => op.inverse?

namespace Predicate

/-- The negation of a comparison with values. -/
def invertCompare (path : Path) (op : Operator) (operand : Operand) (q : Quantifier) :
    Predicate :=
  match op.inverse? with
  | some op => compare path op operand q.flip
  | none =>
    group .and [compare path .ne (.value .null) q.flip, compare path .like operand q.flip]

mutual

/-- The negation, if it is a predicate again. -/
def invert : Predicate → Except QueryError Predicate
  | group op members => do return group op.dual (← invertAll members)
  | compare path op (.subquery _) _ => .error (.notInvertible (.subquery op path))
  | compare path op operand q => .ok (invertCompare path op operand q)
  | columns left op right =>
    match op.columnInverse? with
    | some op => .ok (columns left op right)
    | none => .error (.notInvertible (.columns op left right))
  | related via condition inverted threshold => .ok (related via condition (!inverted) threshold)

/-- Negates every member; the first failure is the error. -/
def invertAll : List Predicate → Except QueryError (List Predicate)
  | [] => .ok []
  | p :: ps => do
    let p ← p.invert
    let ps ← invertAll ps
    return p :: ps

end

end Predicate

end EntityQuery
