import EntityQuery.Predicate.Basic

/-!
# Normal form of predicates

`Predicate.simplify` flattens groups, drops empty ones and merges members that say the same of
different values:

* `a = x OR a = y` becomes `a IN (x, y)`, and `a <> x AND a <> y` becomes `a NOT IN (x, y)`;
* two `related` members through the same path become one with the disjunction of the conditions,
  where the quantifier allows it.

Members are inserted one by one, each into the first that takes it. Whether two members merge
does not change by merging, so one pass is enough.
-/

namespace EntityQuery

/-- The values of an operand that may be put into a list; a null may not. -/
def Operand.listed? : Operand → Option (List Value)
  | value v => if v.isNull then none else some [v]
  | values vs => if vs.any (·.isNull) then none else some vs
  | subquery _ => none

namespace Predicate

/-- The column is null or does not match, as two comparisons. -/
def nullOrNotLike (path : Path) (operand : Operand) (q : Quantifier) : Predicate :=
  group .or [compare path .eq (.value .null) q, compare path .notLike operand q]

/-! ## Merging two members -/

/-- Whether comparisons of one column under a connective say something of a list of values. -/
def listsValues : Connective → Operator → Quantifier → Bool
  | .or, .eq, .any => true
  | .and, .ne, .all => true
  | _, _, _ => false

/-- The member `a` with the values of a later comparison, if both compare the same way. -/
def mergeCompare (connective : Connective) (path : Path) (op : Operator) (operand : Operand)
    (q : Quantifier) : Predicate → Option Predicate
  | compare path' op' operand' q' =>
    if path' = path ∧ op' = op ∧ q' = q ∧ listsValues connective op q then do
      let vs ← operand'.listed?
      let ws ← operand.listed?
      return compare path' op' (.values (Value.extend vs ws)) q'
    else none
  | _ => none

/-- The condition of a member that another `related` may be merged into. Within one row related
through `via` both conditions are joined by OR; AND would ask for a single row. -/
def openCondition? (connective : Connective) (via : Path) (inverted : Bool)
    (threshold : Option Threshold) : Predicate → Option Predicate
  | related via' condition' inverted' threshold' =>
    if via' = via ∧ inverted' = inverted ∧ threshold' = none ∧ threshold = none ∧
        connective.under inverted = .or then
      some condition'
    else none
  | _ => none

/-! ## Groups -/

/-- What a simplified predicate contributes to a group: the members of a group with the same
connective, nothing for an empty group. -/
def membersUnder (connective : Connective) : Predicate → List Predicate
  | group op members =>
    if op = connective || members.isEmpty then members else [group op members]
  | p => [p]

/-- A group of members; one member needs no group. -/
def close (op : Connective) : List Predicate → Predicate
  | [p] => p
  | members => group op members

/-- Replaces the first member that `merge` accepts, or adds `p` at the end. -/
def insertWith (merge : Predicate → Option Predicate) (p : Predicate) :
    List Predicate → List Predicate
  | [] => [p]
  | a :: rest =>
    match merge a with
    | some merged => merged :: rest
    | none => a :: insertWith merge p rest

mutual

/-- Adds a simplified member to a group. -/
def insert (connective : Connective) (members : List Predicate) : Predicate → List Predicate
  | compare path op operand q =>
    insertWith (mergeCompare connective path op operand q) (compare path op operand q) members
  | related via condition inverted threshold =>
    let disjoin (c : Predicate) : List Predicate :=
      match condition with
      | group .or inner => insertAll .or (c.membersUnder .or) inner
      | group .and [] => c.membersUnder .or
      | condition => insert .or (c.membersUnder .or) condition
    let merge (a : Predicate) : Option Predicate :=
      (openCondition? connective via inverted threshold a).map fun c =>
        related via (close .or (disjoin c)) inverted none
    insertWith merge (related via condition inverted threshold) members
  | columns left op right => members ++ [columns left op right]
  | group op inner => members ++ [group op inner]

/-- Adds simplified members one after the other. -/
def insertAll (connective : Connective) (members : List Predicate) :
    List Predicate → List Predicate
  | [] => members
  | p :: ps => insertAll connective (insert connective members p) ps

end

/-! ## Simplifying -/

mutual

/-- Flattens groups and merges their members, from the inside. -/
def simplify : Predicate → Predicate
  | group op members => close op (insertAll op [] (simplifyUnder op members))
  | compare path op operand q =>
    if op = .notLikeOrNull then nullOrNotLike path operand q else compare path op operand q
  | columns left op right => columns left op right
  | related via condition inverted threshold =>
    related via condition.simplify inverted threshold

/-- What the simplified members contribute to a group. -/
def simplifyUnder (op : Connective) : List Predicate → List Predicate
  | [] => []
  | p :: ps => p.simplify.membersUnder op ++ simplifyUnder op ps

end

/-- The predicate that stands for two members of a group, if they merge. -/
def merge? (connective : Connective) (a : Predicate) : Predicate → Option Predicate
  | compare path op operand q => mergeCompare connective path op operand q a
  | related via condition inverted threshold =>
    (openCondition? connective via inverted threshold a).map fun c =>
      related via (group .or [c, condition]).simplify inverted none
  | _ => none

/-- Merges a candidate into the first member of a group that takes it. -/
def mergeInto? (connective : Connective) (candidate : Predicate) :
    List Predicate → Option (List Predicate)
  | [] => none
  | a :: rest =>
    match merge? connective a candidate with
    | some merged => some (merged :: rest)
    | none => (mergeInto? connective candidate rest).map (a :: ·)

end Predicate

end EntityQuery
