import EntityQuery.Predicate.Correlated

/-!
# The weight of predicates

A measure that no step of writing a predicate makes larger. Neither the size of the tree nor its
depth is one: merging builds a group where two members were, an expanded comparison has its path
twice, and a path that is split becomes a condition below a relationship.

**The weight** counts the parts of a predicate, its subqueries, and the members of every path that
are still to be followed. A comparison that will be expanded weighs as much as the group that it
becomes, and one more.

**Rewriting.** What is merged weighs no more than the two members did (`weightAll_insert`): the
second `related` pays for the new group. So simplifying keeps the weight (`weight_simplify`), and
so does splitting paths (`weight_correlate`), since the two parts of a path weigh as much as the
whole.
-/

namespace EntityQuery

mutual

def Predicate.weight : Predicate → Nat
  | .group _ members => 1 + weightAll members
  | .compare path op operand _ =>
    if op = .notLikeOrNull then 2 * (path.length + 2) + operand.weight
    else 1 + path.length + operand.weight
  | .columns left _ right => 1 + max left.length right.length
  | .related via condition _ _ => max 1 via.length + condition.weight

def weightAll : List Predicate → Nat
  | [] => 0
  | p :: ps => p.weight + weightAll ps

def Operand.weight : Operand → Nat
  | .value _ | .values _ => 0
  | .subquery q => 1 + q.weight

def SubQuery.weight : SubQuery → Nat
  | ⟨_, _, filter⟩ => weightFilter filter

def weightFilter : Option Predicate → Nat
  | none => 0
  | some p => p.weight

end

theorem weightAll_append (ps qs : List Predicate) :
    weightAll (ps ++ qs) = weightAll ps + weightAll qs := by
  induction ps with
  | nil => simp [weightAll]
  | cons p ps ih => simp [weightAll, ih, Nat.add_assoc]

theorem weight_le_weightAll {p : Predicate} {ps : List Predicate} (h : p ∈ ps) :
    p.weight ≤ weightAll ps := by
  induction ps with
  | nil => cases h
  | cons q ps ih =>
    rw [weightAll]
    rcases List.mem_cons.1 h with rfl | h
    · omega
    · have := ih h
      omega

namespace Predicate

variable {p : Predicate} {ps : List Predicate} {op : Operator} {operand : Operand} {path : Path}
  {q : Quantifier}

theorem weight_pos (p : Predicate) : 0 < p.weight := by
  cases p with
  | group op members => simp only [weight]; omega
  | compare path op operand q =>
    simp only [weight]
    split <;> omega
  | columns left op right => simp only [weight]; omega
  | related via condition inverted threshold => simp only [weight]; omega

theorem weight_compare (hop : op ≠ .notLikeOrNull) (operand : Operand) (q : Quantifier) :
    (compare path op operand q).weight = 1 + path.length + operand.weight := by
  rw [weight, if_neg hop]

/-- A comparison weighs at least its path and its operand. -/
theorem le_weight_compare (path : Path) (op : Operator) (operand : Operand) (q : Quantifier) :
    1 + path.length + operand.weight ≤ (compare path op operand q).weight := by
  rw [weight]
  split <;> omega

theorem weight_nullOrNotLike (path : Path) (operand : Operand) (q : Quantifier) :
    (nullOrNotLike path operand q).weight < (compare path .notLikeOrNull operand q).weight := by
  simp only [nullOrNotLike, weight, weightAll, Operand.weight, reduceCtorEq, if_false, if_true]
  omega

theorem weight_close (op : Connective) (members : List Predicate) :
    (close op members).weight ≤ 1 + weightAll members := by
  match members with
  | [] => simp [close, weight]
  | [p] =>
    simp only [close, weightAll]
    omega
  | _ :: _ :: _ => simp [close, weight]

theorem weightAll_membersUnder (op : Connective) (p : Predicate) :
    weightAll (p.membersUnder op) ≤ p.weight := by
  cases p with
  | group op' members =>
    rw [membersUnder]
    split
    · simp only [weight]
      omega
    · simp [weightAll]
  | _ => simp [membersUnder, weightAll]

/-! ## Simplification -/

theorem weightAll_insertWith {merge : Predicate → Option Predicate}
    (h : ∀ a b, merge a = some b → b.weight ≤ a.weight + p.weight) (members : List Predicate) :
    weightAll (insertWith merge p members) ≤ weightAll members + p.weight := by
  induction members with
  | nil => simp [insertWith, weightAll]
  | cons a rest ih =>
    rw [insertWith]
    split
    · rename_i merged hm
      have := h a merged hm
      simp only [weightAll]
      omega
    · simp only [weightAll]
      omega

theorem weightAll_insertAll_of {connective : Connective} (h : ∀ p ∈ ps, ∀ members,
      weightAll (insert connective members p) ≤ weightAll members + p.weight)
    (members : List Predicate) :
    weightAll (insertAll connective members ps) ≤ weightAll members + weightAll ps := by
  induction ps generalizing members with
  | nil => simp [insertAll, weightAll]
  | cons p ps ih =>
    rw [List.forall_mem_cons] at h
    have h₁ := h.1 members
    have h₂ := ih h.2 (insert connective members p)
    simp only [insertAll, weightAll]
    omega

/-- **Merging makes nothing heavier.** -/
theorem weightAll_insert (connective : Connective) (members : List Predicate) (p : Predicate) :
    weightAll (insert connective members p) ≤ weightAll members + p.weight := by
  induction p using insert_induction generalizing connective members with
  | compare path op operand q =>
    rw [insert]
    refine weightAll_insertWith (fun a b hm => ?_) members
    obtain ⟨operand', vs, rfl, rfl, -⟩ := mergeCompare_eq_some hm
    simp only [weight, Operand.weight]
    split <;> omega
  | columns left op right => simp [insert, weightAll_append, weightAll]
  | group op inner => simp [insert, weightAll_append, weightAll]
  | related via condition inverted threshold ih =>
    rw [insert_related]
    refine weightAll_insertWith (fun a b hm => ?_) members
    obtain ⟨c, hopen, rfl⟩ := Option.map_eq_some_iff.1 hm
    rw [openCondition?_via hopen]
    -- The group of the two conditions replaces one of the two relationships.
    have hc := weightAll_membersUnder .or c
    have hcondition := weightAll_membersUnder .or condition
    have hjoined := weightAll_insertAll_of (fun p hp members => ih p hp .or members)
      (c.membersUnder .or)
    have hclose := weight_close .or
      (insertAll .or (c.membersUnder .or) (condition.membersUnder .or))
    simp only [weight]
    omega

theorem weightAll_insertAll (connective : Connective) (members ps : List Predicate) :
    weightAll (insertAll connective members ps) ≤ weightAll members + weightAll ps :=
  weightAll_insertAll_of (fun p _ members => weightAll_insert connective members p) members

theorem weightAll_flatMap_membersUnder (op : Connective) {f : Predicate → Predicate}
    (h : ∀ p ∈ ps, (f p).weight ≤ p.weight) :
    weightAll (ps.flatMap fun p => (f p).membersUnder op) ≤ weightAll ps := by
  induction ps with
  | nil => simp
  | cons p ps ih =>
    rw [List.forall_mem_cons] at h
    have h₁ := weightAll_membersUnder op (f p)
    have h₂ := ih h.2
    simp only [List.flatMap_cons, weightAll_append, weightAll]
    omega

/-- **Simplifying makes nothing heavier.** -/
theorem weight_simplify (p : Predicate) : p.simplify.weight ≤ p.weight := by
  induction p using tree_induction with
  | group op members ih =>
    have hparts := weightAll_flatMap_membersUnder op ih
    have hmerged := weightAll_insertAll op [] (simplifyUnder op members)
    have hclose := weight_close op (insertAll op [] (simplifyUnder op members))
    rw [simplifyUnder_eq] at hmerged hclose
    rw [simplify, simplifyUnder_eq, weight]
    simp only [weightAll] at hmerged
    omega
  | compare path op operand q =>
    rw [simplify]
    split
    · rename_i hop
      subst hop
      exact Nat.le_of_lt (weight_nullOrNotLike path operand q)
    · exact Nat.le_refl _
  | columns left op right => exact Nat.le_refl _
  | related via condition inverted threshold ih =>
    simp only [simplify, weight]
    omega

/-! ## Correlation -/

theorem weight_invertCompare (path : Path) (op : Operator) (operand : Operand) (q : Quantifier) :
    (invertCompare path op operand q).weight ≤ (compare path op operand q).weight := by
  rw [invertCompare]
  split
  · rename_i op' hop
    have hop' : op' ≠ .notLikeOrNull := by cases op <;> cases hop <;> decide
    rw [weight_compare hop']
    exact le_weight_compare path op operand q
  · rename_i hop
    have hop' : op = .notLikeOrNull := by cases op <;> first | rfl | cases hop
    subst hop'
    simp only [weight, weightAll, Operand.weight, reduceCtorEq, if_false, if_true]
    omega

theorem weight_invert_compare {inverse : Predicate}
    (h : (compare path op operand q).invert = .ok inverse) :
    inverse.weight ≤ (compare path op operand q).weight := by
  cases operand with
  | subquery s => simp [invert] at h
  | value v =>
    cases h
    exact weight_invertCompare ..
  | values vs =>
    cases h
    exact weight_invertCompare ..

theorem Asked.weight {rest : Path} {threshold : Option Threshold}
    (h : Asked rest op operand p threshold) : p.weight ≤ (compare rest op operand q).weight := by
  have hleast := le_weight_compare rest op operand q
  cases h with
  | any => exact Nat.le_refl _
  | failing hc => exact weight_invert_compare (q := .all) hc
  | values vs _ =>
    simp only [Predicate.weight, Operand.weight, reduceCtorEq, if_false] at hleast ⊢
    omega
  | row =>
    simp only [Predicate.weight, trivial, weightAll] at hleast ⊢
    omega

theorem Correlates.weight {m : Model} {t : Table} {c : Predicate} (h : Correlates m t p c) :
    c.weight ≤ p.weight := by
  induction h with
  | kept _ => exact Nat.le_refl _
  | cons _ _ ih₁ ih₂ =>
    simp only [Predicate.weight, weightAll] at ih₂ ⊢
    omega
  | unlike _ _ ih₁ ih₂ =>
    simp only [Predicate.weight, weightAll, Operand.weight, reduceCtorEq, if_false, if_true]
      at ih₁ ih₂ ⊢
    omega
  | @across path op operand q i r c inverted threshold hmany hasked =>
    have hi := Model.firstMany?_lt hmany
    have hc := hasked.weight (q := q)
    simp only [Predicate.weight, Path.length_take, Path.length_drop] at hc ⊢
    split at hc <;> split <;> omega
  | columns hleft hright _ =>
    have hi := Model.firstMany?_lt hleft
    have hj := Model.firstMany?_lt hright
    simp only [Predicate.weight, Path.length_take, Path.length_drop]
    omega
  | nested hmany hlt =>
    simp only [Predicate.weight, Path.length_take, Path.length_drop]
    omega

/-- **Splitting paths makes nothing heavier.** -/
theorem weight_correlate {m : Model} {t : Table} {c : Predicate} (h : p.correlate m t = .ok c) :
    c.weight ≤ p.weight :=
  (correlates_of_ok p h).weight

end Predicate

end EntityQuery
