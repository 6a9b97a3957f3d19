import EntityQuery.Predicate.Leaves

/-!
# What correlation does

Correlation cuts a path behind its first relationship that fans out. The relation
`Predicate.Correlates` says once what becomes of a predicate, with one rule for each way: it stays
as it is, or a comparison becomes a question about the rows behind the cut (`Predicate.Asked`), or a
`related` is nested. What holds of every rule holds of every correlated predicate.

A `related` stays as it is if it fans out at most in the last member of its path (`fansOutLast`).
-/

namespace EntityQuery

/-- Every `related` fans out at most in the last member of its path. -/
def fansOutLast (m : Model) (t : Table) : LeafTest where
  compare _ _ := True
  columns _ _ := True
  related via := ∀ i r, m.firstMany? t via = some (i, r) → i + 1 = via.length

namespace Predicate

variable {m : Model} {t : Table}

/-! ## The rules -/

/-- The condition and the threshold for the rows behind the cut: a comparison of the column `rest`,
its negation, one with a list of values, or no condition at all. -/
inductive Asked (rest : Path) (op : Operator) (operand : Operand) :
    Predicate → Option Threshold → Prop
  | any : Asked rest op operand (compare rest op operand .any) none
  | failing {c : Predicate} : (compare rest op operand .all).invert = .ok c →
      Asked rest op operand c none
  | values (vs : List Value) {threshold : Option Threshold} : (∀ x ∈ threshold, x.column = rest) →
      Asked rest op operand (compare rest .eq (.values vs) .any) threshold
  | row : Asked rest op operand trivial none

/-- The second predicate is what the first becomes on `t`. -/
inductive Correlates (m : Model) (t : Table) : Predicate → Predicate → Prop
  | kept {p : Predicate} : p.OnLeaves (fansOutLast m t) → Correlates m t p p
  | cons {op : Connective} {p c : Predicate} {ps cs : List Predicate} : Correlates m t p c →
      Correlates m t (group op ps) (group op cs) →
      Correlates m t (group op (p :: ps)) (group op (c :: cs))
  | unlike {path : Path} {operand : Operand} {q : Quantifier} {a b : Predicate} :
      Correlates m t (compare path .eq (.value .null) q) a →
      Correlates m t (compare path .notLike operand q) b →
      Correlates m t (compare path .notLikeOrNull operand q) (group .or [a, b])
  | across {path : Path} {op : Operator} {operand : Operand} {q : Quantifier} {i : Nat}
      {r : Relationship} {c : Predicate} {inverted : Bool} {threshold : Option Threshold} :
      m.firstMany? t path = some (i, r) → Asked (path.drop (i + 1)) op operand c threshold →
      Correlates m t (compare path op operand q) (related (path.take (i + 1)) c inverted threshold)
  | columns {left right : Path} {op : Operator} {i : Nat} {r s : Relationship} :
      m.firstMany? t left = some (i, r) → m.firstMany? t right = some (i, s) →
      r.child.identity = s.child.identity →
      Correlates m t (columns left op right)
        (related (left.take (i + 1)) (columns (left.drop (i + 1)) op (right.drop (i + 1))) false
          none)
  | nested {via : Path} {c : Predicate} {inverted : Bool} {threshold : Option Threshold} {i : Nat}
      {r : Relationship} : m.firstMany? t via = some (i, r) → i + 1 < via.length →
      Correlates m t (related via c inverted threshold)
        (related (via.take (i + 1)) (related (via.drop (i + 1)) c false threshold) inverted none)

/-! ## Correlation follows the rules -/

theorem asked_containment {path via rest : Path} {op : Operator} {operand : Operand}
    {vs : List Value} {inverted : Bool} {c : Predicate}
    (h : containment m t path via rest vs inverted = .ok c) :
    ∃ condition threshold, Asked rest op operand condition threshold ∧
      c = related via condition inverted threshold := by
  simp only [containment] at h
  split at h
  · contradiction
  · split at h
    · contradiction
    · split at h
      · cases h
        exact ⟨_, _, .row, rfl⟩
      · cases h
        refine ⟨_, _, .values _ fun x hx => ?_, rfl⟩
        split at hx
        · cases hx
          rfl
        · cases hx

theorem correlates_compare {path : Path} {op : Operator} {operand : Operand} {q : Quantifier}
    {c : Predicate} (h : correlateCompare m t path op operand q = .ok c) :
    Correlates m t (compare path op operand q) c := by
  simp only [correlateCompare] at h
  split at h
  · cases h
    exact .kept True.intro
  · rename_i i r hmany
    split at h
    · contradiction
    · unfold correlateAt at h
      split at h
      · obtain ⟨_, _, hasked, rfl⟩ := asked_containment h
        exact .across hmany hasked
      · obtain ⟨_, _, hasked, rfl⟩ := asked_containment h
        exact .across hmany hasked
      · cases h
        exact .across hmany .any
      · obtain ⟨failing, hfailing, h⟩ := bind_eq_ok.1 h
        cases h
        exact .across hmany (.failing hfailing)

theorem correlates_columns {left right : Path} {op : Operator} {c : Predicate}
    (h : correlateColumns m t left op right = .ok c) :
    Correlates m t (columns left op right) c := by
  simp only [correlateColumns] at h
  split at h
  · cases h
    exact .kept True.intro
  · rename_i i r j s hleft hright
    split at h
    · rename_i hsame
      obtain ⟨rfl, hid⟩ := hsame
      cases h
      exact .columns hleft hright hid
    · contradiction
  · contradiction

theorem correlates_related (via : Path) (condition : Predicate) (inverted : Bool)
    (threshold : Option Threshold) :
    Correlates m t (related via condition inverted threshold)
      (correlateRelated m t via condition inverted threshold) := by
  simp only [correlateRelated]
  split
  · rename_i i r hmany
    split
    · rename_i hlt
      exact .nested hmany hlt
    · refine .kept fun j s hj => ?_
      rw [hmany] at hj
      cases hj
      have := Model.firstMany?_lt hmany
      omega
  · rename_i hnone
    refine .kept fun j s hj => ?_
    rw [hnone] at hj
    cases hj

mutual

theorem correlates_of_ok (p : Predicate) {c : Predicate} (h : p.correlate m t = .ok c) :
    Correlates m t p c := by
  match p with
  | .group op members =>
    rw [correlate] at h
    obtain ⟨cs, hcs, h⟩ := bind_eq_ok.1 h
    cases h
    exact correlates_group op members hcs
  | .compare path op operand q =>
    rw [correlate] at h
    split at h
    · rename_i hop
      subst hop
      obtain ⟨null, hnull, h⟩ := bind_eq_ok.1 h
      obtain ⟨unlike, hunlike, h⟩ := bind_eq_ok.1 h
      cases h
      exact .unlike (correlates_compare hnull) (correlates_compare hunlike)
    · exact correlates_compare h
  | .columns left op right => exact correlates_columns h
  | .related via condition inverted threshold =>
    rw [correlate] at h
    cases h
    exact correlates_related via condition inverted threshold

theorem correlates_group (op : Connective) (ps : List Predicate) {cs : List Predicate}
    (h : correlateAll m t ps = .ok cs) : Correlates m t (group op ps) (group op cs) := by
  match ps with
  | [] =>
    cases h
    exact .kept ⟨⟩
  | p :: ps =>
    rw [correlateAll] at h
    obtain ⟨c, hc, h⟩ := bind_eq_ok.1 h
    obtain ⟨cs', hcs, h⟩ := bind_eq_ok.1 h
    cases h
    exact .cons (correlates_of_ok p hc) (correlates_group op ps hcs)

end

/-! ## What follows -/

/-- A hereditary property of a comparison is one of what is asked behind the cut. -/
theorem Asked.hereditary {α : Type} {Q : α → Predicate → Prop} (hQ : Hereditary Q) {u : α}
    {rest : Path} {op : Operator} {operand : Operand} {q : Quantifier} {c : Predicate}
    {threshold : Option Threshold} (h : Asked rest op operand c threshold)
    (hp : Q u (compare rest op operand q)) : Q u c := by
  cases h with
  | any => exact hQ.compare hp
  | failing hc => exact hQ.invert_compare (hQ.compare hp) hc
  | values vs _ => exact hQ.values vs (hQ.compare hp)
  | row => exact hQ.group.2 (List.forall_mem_nil _)

/-- The threshold counts the values of the column that is asked about. -/
theorem Asked.column {rest : Path} {op : Operator} {operand : Operand} {c : Predicate}
    {threshold : Option Threshold} (h : Asked rest op operand c threshold) :
    ∀ x ∈ threshold, x.column = rest := by
  cases h with
  | values vs hcolumn => exact hcolumn
  | _ => exact fun x hx => absurd hx (Option.not_mem_none x)

end Predicate

end EntityQuery
