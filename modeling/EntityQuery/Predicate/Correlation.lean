import EntityQuery.Predicate.Negation
import EntityQuery.Predicate.Normal

/-!
# Correlated predicates

`Predicate.correlate` splits every path at its first relationship that fans out, so that what lies
beyond is asked of related rows:

* ANY asks for a related row that matches, ALL for none that fails;
* `= ALL` of a list asks that the related rows have every value of the list, and `<> ANY` is its
  negation;
* a `related` across several such relationships becomes one inside the other.

Paths that do not fan out stay as they are.
-/

namespace EntityQuery

namespace Predicate

/-- The rows related through `via` have every value of the list in the column `rest`. Of an empty
list, there is such a row. -/
def containment (m : Model) (t : Table) (path via rest : Path) (vs : List Value)
    (inverted : Bool) : Except QueryError Predicate :=
  match m.relationshipAt? t via with
  | none => .error (.pathNotFound t.entity.name via)
  | some r =>
    if (m.firstMany? r.child rest).isSome then
      .error (.unsupportedOperator (.containment path))
    else
      let distinct := Value.distinct vs
      if distinct.isEmpty then .ok (related via trivial inverted none)
      else
        let threshold := if 1 < distinct.length then some ⟨rest, distinct.length⟩ else none
        .ok (related via (compare rest .eq (.values distinct) .any) inverted threshold)

/-- A comparison whose path fans out after `via`. -/
def correlateAt (m : Model) (t : Table) (path via rest : Path) (op : Operator)
    (operand : Operand) (q : Quantifier) : Except QueryError Predicate :=
  match op, q, operand with
  | .eq, .all, .values vs => containment m t path via rest vs false
  | .ne, .any, .values vs => containment m t path via rest vs true
  | op, .any, operand => .ok (related via (compare rest op operand .any) false none)
  | op, .all, operand => do
    let failing ← (compare rest op operand .all).invert
    return related via failing true none

/-- A comparison, split if its path fans out. -/
def correlateCompare (m : Model) (t : Table) (path : Path) (op : Operator) (operand : Operand)
    (q : Quantifier) : Except QueryError Predicate :=
  match m.firstMany? t path with
  | none => .ok (compare path op operand q)
  | some (i, _) =>
    let rest := path.drop (i + 1)
    if rest.isEmpty then .error (.notAColumn t.entity.name path)
    else correlateAt m t path (path.take (i + 1)) rest op operand q

/-- Two columns are compared within one row, so both paths fan out at the same place or not at
all. -/
def correlateColumns (m : Model) (t : Table) (left : Path) (op : Operator) (right : Path) :
    Except QueryError Predicate :=
  match m.firstMany? t left, m.firstMany? t right with
  | none, none => .ok (columns left op right)
  | some (i, r), some (j, s) =>
    if i = j ∧ r.child.identity = s.child.identity then
      .ok (related (left.take (i + 1)) (columns (left.drop (i + 1)) op (right.drop (j + 1)))
        false none)
    else .error (.crossBranch left right)
  | _, _ => .error (.crossBranch left right)

/-- A `related`, nested if its path goes on behind a fan-out. -/
def correlateRelated (m : Model) (t : Table) (via : Path) (condition : Predicate)
    (inverted : Bool) (threshold : Option Threshold) : Predicate :=
  match m.firstMany? t via with
  | some (i, _) =>
    if i + 1 < via.length then
      -- the negation stays outside, the threshold with the rows it counts
      related (via.take (i + 1)) (related (via.drop (i + 1)) condition false threshold)
        inverted none
    else related via condition inverted threshold
  | none => related via condition inverted threshold

mutual

/-- Puts a `related` wherever a path fans out. -/
def correlate (m : Model) (t : Table) : Predicate → Except QueryError Predicate
  | group op members => do return group op (← correlateAll m t members)
  | compare path op operand q =>
    if op = .notLikeOrNull then do
      let null ← correlateCompare m t path .eq (.value .null) q
      let unlike ← correlateCompare m t path .notLike operand q
      return group .or [null, unlike]
    else correlateCompare m t path op operand q
  | columns left op right => correlateColumns m t left op right
  | related via condition inverted threshold =>
    -- the condition is correlated when its own scope is written
    .ok (correlateRelated m t via condition inverted threshold)

/-- Correlates every member; the first failure is the error. -/
def correlateAll (m : Model) (t : Table) : List Predicate → Except QueryError (List Predicate)
  | [] => .ok []
  | p :: ps => do
    let p ← p.correlate m t
    let ps ← correlateAll m t ps
    return p :: ps

end

end Predicate

end EntityQuery
