import EntityQuery.Predicate.Correlation

/-!
# Properties that simplification keeps

Simplifying a predicate moves its members between groups, puts values into lists and joins the
conditions of related rows, but it asks nothing new: each comparison reads a column that a
comparison of the predicate reads at the same place, and each `related` goes where one of the
predicate goes.

**Gathered properties** (`Predicate.Gathered`) are those of the parts: a group has the property if
its members have it, a comparison whatever its constants, a `related` if its condition has it at the
rows it goes to. Putting members together keeps all of them (`Gathered.insertAll`).

**Hereditary properties** (`Predicate.Hereditary`) do not depend on operators and quantifiers
either. Simplification keeps all of them (`Hereditary.simplify`).
-/

namespace EntityQuery

namespace Predicate

/-! ## Induction -/

/-- Induction over the members of groups and the conditions of related rows. -/
theorem tree_induction {motive : Predicate → Prop}
    (group : ∀ op members, (∀ p ∈ members, motive p) → motive (group op members))
    (compare : ∀ path op operand q, motive (compare path op operand q))
    (columns : ∀ left op right, motive (columns left op right))
    (related : ∀ via condition inverted threshold, motive condition →
      motive (related via condition inverted threshold)) (p : Predicate) : motive p := by
  cases p with
  | group op members =>
    refine group op members fun q hq => ?_
    have hlt := List.sizeOf_lt_of_mem hq
    exact tree_induction group compare columns related q
  | compare path op operand q => exact compare path op operand q
  | columns left op right => exact columns left op right
  | related via condition inverted threshold =>
    exact related via condition inverted threshold
      (tree_induction group compare columns related condition)
termination_by sizeOf p
decreasing_by
  · simp only [Predicate.group.sizeOf_spec]
    omega
  · simp only [Predicate.related.sizeOf_spec]
    omega

/-! ## Merging -/

variable {connective : Connective} {a : Predicate}

/-- Comparisons that merge differ in their values only. -/
theorem mergeCompare_eq_some {path : Path} {op : Operator} {operand : Operand} {q : Quantifier}
    {merged : Predicate} (h : mergeCompare connective path op operand q a = some merged) :
    ∃ operand' vs, a = compare path op operand' q ∧ merged = compare path op (.values vs) q ∧
      operand'.listed?.isSome ∧ operand.listed?.isSome := by
  cases a with
  | compare path' op' operand' q' =>
    simp only [mergeCompare] at h
    split at h
    · rename_i hsame
      obtain ⟨rfl, rfl, rfl, -⟩ := hsame
      simp only [Option.bind_eq_bind, Option.bind_eq_some_iff] at h
      obtain ⟨vs, hvs, ws, hws, h⟩ := h
      cases h
      exact ⟨operand', _, rfl, rfl, by simp [hvs], by simp [hws]⟩
    · contradiction
  | _ => simp [mergeCompare] at h

theorem openCondition?_via {via : Path} {inverted : Bool} {threshold : Option Threshold}
    {c : Predicate} (h : openCondition? connective via inverted threshold a = some c) :
    a = related via c inverted none := by
  cases a with
  | related via' condition' inverted' threshold' =>
    simp only [openCondition?] at h
    split at h
    · rename_i hc
      obtain ⟨rfl, rfl, rfl, -⟩ := hc
      cases h
      rfl
    · contradiction
  | _ => simp [openCondition?] at h

theorem openCondition?_threshold {via : Path} {inverted : Bool} {threshold : Option Threshold}
    {c : Predicate} (h : openCondition? connective via inverted threshold a = some c) :
    threshold = none ∧ connective.under inverted = .or := by
  cases a with
  | related via' condition' inverted' threshold' =>
    simp only [openCondition?] at h
    split at h
    · rename_i hc
      exact ⟨hc.2.2.2.1, hc.2.2.2.2⟩
    · contradiction
  | _ => simp [openCondition?] at h

/-- The conditions of two `related` are put together like the members of one group. -/
theorem insert_related {connective : Connective} {members : List Predicate} {via : Path}
    {condition : Predicate} {inverted : Bool} {threshold : Option Threshold} :
    insert connective members (related via condition inverted threshold) =
      insertWith (fun a => (openCondition? connective via inverted threshold a).map fun c =>
          related via (close .or (insertAll .or (c.membersUnder .or) (condition.membersUnder .or)))
            inverted none)
        (related via condition inverted threshold) members := by
  rw [insert]
  cases condition with
  | group op inner =>
    cases op with
    | or => simp only [membersUnder, decide_true, Bool.true_or, if_true]
    | and =>
      cases inner with
      | nil => simp only [membersUnder, List.isEmpty_nil, Bool.or_true, if_true, insertAll]
      | cons x xs =>
        simp only [membersUnder, reduceCtorEq, decide_false, List.isEmpty_cons, Bool.or_false,
          Bool.false_eq_true, if_false, insertAll]
  | compare path op operand q => rfl
  | columns left op right => rfl
  | related via' condition' inverted' threshold' => rfl

/-- What holds of the members of a condition holds of the `related` it belongs to. -/
theorem insert_induction {motive : Predicate → Prop}
    (compare : ∀ path op operand q, motive (compare path op operand q))
    (columns : ∀ left op right, motive (columns left op right))
    (group : ∀ op members, motive (group op members))
    (related : ∀ via condition inverted threshold,
      (∀ p ∈ condition.membersUnder .or, motive p) →
        motive (related via condition inverted threshold)) (p : Predicate) : motive p := by
  have hboth : motive p ∧ ∀ q ∈ p.membersUnder .or, motive q := by
    induction p using tree_induction with
    | group op members ih =>
      refine ⟨group op members, fun q hq => ?_⟩
      rw [membersUnder] at hq
      split at hq
      · exact (ih q hq).1
      · rw [List.mem_singleton.1 hq]
        exact group op members
    | compare path op operand q =>
      exact ⟨compare path op operand q, List.forall_mem_singleton.2 (compare path op operand q)⟩
    | columns left op right =>
      exact ⟨columns left op right, List.forall_mem_singleton.2 (columns left op right)⟩
    | related via condition inverted threshold ih =>
      have hrelated := related via condition inverted threshold ih.2
      exact ⟨hrelated, List.forall_mem_singleton.2 hrelated⟩
  exact hboth.1

theorem forall_mem_insertWith {P : Predicate → Prop} {merge : Predicate → Option Predicate}
    {p : Predicate} (hmerge : ∀ a b, merge a = some b → P a → P b) (hp : P p)
    {members : List Predicate} (h : ∀ x ∈ members, P x) :
    ∀ x ∈ insertWith merge p members, P x := by
  induction members with
  | nil => exact List.forall_mem_singleton.2 hp
  | cons a rest ih =>
    rw [List.forall_mem_cons] at h
    rw [insertWith]
    split
    · rename_i merged hm
      exact List.forall_mem_cons.2 ⟨hmerge a merged hm h.1, h.2⟩
    · exact List.forall_mem_cons.2 ⟨h.1, ih h.2⟩

/-- What a merged member says, both of its members say. -/
theorem forall_mem_insertWith_iff {P : Predicate → Prop} {merge : Predicate → Option Predicate}
    {p : Predicate} (hmerge : ∀ a b, merge a = some b → (P b ↔ P a ∧ P p))
    {members : List Predicate} :
    (∀ x ∈ insertWith merge p members, P x) ↔ (∀ x ∈ members, P x) ∧ P p := by
  induction members with
  | nil => simp [insertWith]
  | cons a rest ih =>
    rw [insertWith]
    split
    · rename_i merged hm
      rw [List.forall_mem_cons, List.forall_mem_cons, hmerge a merged hm, and_right_comm]
    · rw [List.forall_mem_cons, List.forall_mem_cons, ih, and_assoc]

theorem forall_mem_insertAll_iff {P : Predicate → Prop} {connective : Connective}
    {ps members : List Predicate}
    (hinsert : ∀ p ∈ ps, ∀ {members}, (∀ x ∈ insert connective members p, P x) ↔
      (∀ x ∈ members, P x) ∧ P p) :
    (∀ x ∈ insertAll connective members ps, P x) ↔ (∀ x ∈ members, P x) ∧ ∀ p ∈ ps, P p := by
  induction ps generalizing members with
  | nil => simp [insertAll]
  | cons p ps ih =>
    rw [List.forall_mem_cons] at hinsert ⊢
    rw [insertAll, ih hinsert.2, hinsert.1, and_assoc]

/-- What every insertion of these members keeps, the insertion of all of them keeps. -/
theorem insertAll_of_insert (P : List Predicate → Prop) {connective : Connective}
    {ps members : List Predicate}
    (hinsert : ∀ p ∈ ps, ∀ members, P members → P (insert connective members p))
    (h : P members) : P (insertAll connective members ps) := by
  induction ps generalizing members with
  | nil => rwa [insertAll]
  | cons p ps ih =>
    rw [List.forall_mem_cons] at hinsert
    rw [insertAll]
    exact ih hinsert.2 (hinsert.1 members h)

theorem simplifyUnder_eq (op : Connective) (ps : List Predicate) :
    simplifyUnder op ps = ps.flatMap fun p => p.simplify.membersUnder op := by
  induction ps with
  | nil => rw [simplifyUnder, List.flatMap_nil]
  | cons p ps ih => rw [simplifyUnder, ih, List.flatMap_cons]

/-! ## Hereditary properties -/

/-- The property of a predicate, by the place it stands at, is that of its members, of its
comparisons up to constants, and of its conditions at one place for each path. -/
structure Gathered {α : Type} (Q : α → Predicate → Prop) : Prop where
  group : ∀ {t op ps}, Q t (.group op ps) ↔ ∀ p ∈ ps, Q t p
  value : ∀ {t path op operand q} (v : Value), Q t (.compare path op operand q) →
    Q t (.compare path op (.value v) q)
  values : ∀ {t path op operand q} (vs : List Value), Q t (.compare path op operand q) →
    Q t (.compare path op (.values vs) q)
  related : ∀ t via, ∃ u, ∀ threshold, ∃ S : Prop, ∀ condition inverted,
    Q t (.related via condition inverted threshold) ↔ S ∧ Q u condition

/-- The property does not depend on operators and quantifiers either. -/
structure Hereditary {α : Type} (Q : α → Predicate → Prop) : Prop extends Gathered Q where
  compare : ∀ {t path op op' operand q q'}, Q t (.compare path op operand q) →
    Q t (.compare path op' operand q')

namespace Gathered

variable {α : Type} {Q : α → Predicate → Prop} {t : α} {op : Connective} {p : Predicate}
  {members ps : List Predicate}

theorem close (hQ : Gathered Q) : Q t (close op members) ↔ ∀ p ∈ members, Q t p := by
  match members with
  | [] => exact hQ.group
  | [p] => exact List.forall_mem_singleton.symm
  | _ :: _ :: _ => exact hQ.group

theorem membersUnder (hQ : Gathered Q) (op : Connective) :
    (∀ q ∈ p.membersUnder op, Q t q) ↔ Q t p := by
  cases p with
  | group op' members =>
    simp only [Predicate.membersUnder]
    split
    · exact hQ.group.symm
    · exact List.forall_mem_singleton
  | _ => exact List.forall_mem_singleton

/-- Operands whose values may be listed are all the same. -/
theorem listed (hQ : Gathered Q) {path : Path} {op : Operator} {operand operand' : Operand}
    {q : Quantifier} (h : operand.listed?.isSome) (hp : Q t (.compare path op operand' q)) :
    Q t (.compare path op operand q) := by
  cases operand with
  | value v => exact hQ.value v hp
  | values vs => exact hQ.values vs hp
  | subquery s => cases h

theorem insert (hQ : Gathered Q) :
    (∀ x ∈ insert op members p, Q t x) ↔ (∀ x ∈ members, Q t x) ∧ Q t p := by
  induction p using insert_induction generalizing t op members with
  | compare path op' operand q =>
    rw [Predicate.insert]
    refine forall_mem_insertWith_iff fun a b hm => ?_
    obtain ⟨operand', vs, rfl, rfl, hoperand', hoperand⟩ := mergeCompare_eq_some hm
    exact ⟨fun h => ⟨hQ.listed hoperand' h, hQ.listed hoperand h⟩, fun h => hQ.values vs h.1⟩
  | columns left op' right =>
    rw [Predicate.insert, List.forall_mem_append, List.forall_mem_singleton]
  | group op' inner =>
    rw [Predicate.insert, List.forall_mem_append, List.forall_mem_singleton]
  | related via condition inverted threshold ih =>
    rw [insert_related]
    refine forall_mem_insertWith_iff fun a b hm => ?_
    obtain ⟨c, hopen, rfl⟩ := Option.map_eq_some_iff.1 hm
    obtain ⟨rfl, -⟩ := openCondition?_threshold hopen
    rw [openCondition?_via hopen]
    -- Both conditions are about the rows that `via` leads to.
    obtain ⟨u, hu⟩ := hQ.related t via
    obtain ⟨S, hS⟩ := hu none
    rw [hS, hS, hS, hQ.close, forall_mem_insertAll_iff fun q hq _ => ih q hq, hQ.membersUnder,
      hQ.membersUnder, and_and_left]

theorem insertAll (hQ : Gathered Q) :
    (∀ x ∈ insertAll op members ps, Q t x) ↔ (∀ x ∈ members, Q t x) ∧ ∀ p ∈ ps, Q t p :=
  forall_mem_insertAll_iff fun _ _ _ => hQ.insert

end Gathered

namespace Hereditary

variable {α : Type} {Q : α → Predicate → Prop} {t : α} {p : Predicate}

/-- **Simplification keeps hereditary properties**, and adds none. -/
theorem simplify (hQ : Hereditary Q) : Q t p.simplify ↔ Q t p := by
  induction p using tree_induction generalizing t with
  | group op members ih =>
    rw [Predicate.simplify, simplifyUnder_eq, hQ.close, hQ.insertAll, hQ.group]
    simp only [List.forall_mem_flatMap, List.not_mem_nil, hQ.membersUnder]
    exact ⟨fun h p hp => (ih p hp).1 (h.2 p hp),
      fun h => ⟨by simp, fun p hp => (ih p hp).2 (h p hp)⟩⟩
  | compare path op operand q =>
    rw [Predicate.simplify]
    split
    · rw [nullOrNotLike, hQ.group, List.forall_mem_cons, List.forall_mem_singleton]
      exact ⟨fun h => hQ.compare h.2, fun h => ⟨hQ.value .null (hQ.compare h), hQ.compare h⟩⟩
    · rfl
  | columns left op right => rw [Predicate.simplify]
  | related via condition inverted threshold ih =>
    rw [Predicate.simplify]
    obtain ⟨u, hu⟩ := hQ.related t via
    obtain ⟨S, hS⟩ := hu threshold
    rw [hS, hS, ih]

/-- A negated comparison is about the same column. -/
theorem invert_compare (hQ : Hereditary Q) {path : Path} {op : Operator} {operand : Operand}
    {q : Quantifier} {c : Predicate} (hp : Q t (.compare path op operand q))
    (h : (Predicate.compare path op operand q).invert = .ok c) : Q t c := by
  have hinvert : Q t (invertCompare path op operand q) := by
    rw [invertCompare]
    split
    · exact hQ.compare hp
    · refine hQ.group.2 (List.forall_mem_cons.2 ⟨hQ.value .null (hQ.compare hp), ?_⟩)
      exact List.forall_mem_singleton.2 (hQ.compare hp)
  cases operand with
  | subquery s => simp [invert] at h
  | value v =>
    simp only [invert] at h
    cases h
    exact hinvert
  | values vs =>
    simp only [invert] at h
    cases h
    exact hinvert

end Hereditary

end Predicate

end EntityQuery
