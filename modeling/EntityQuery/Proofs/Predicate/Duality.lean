import EntityQuery.Proofs.Predicate.Writing

/-!
# Negation and normal forms

A predicate and its negation are normalised to a predicate and its negation: `Predicate.invert`
commutes with simplification and with correlation, so with `Predicate.normal`, which is what a
predicate goes through before it is written.

**Why every rewrite has a dual.** `a = x OR a = y` is merged exactly where `a <> x AND a <> y` is,
and two `related` are merged under a connective exactly where their negations are merged under the
dual one, into the same condition. So a member finds the same partner on both sides
(`mergeCompare_dual`, `openCondition?_dual`), and whole groups correspond member by member
(`Inverses`).

**The exception** is a comparison of two columns behind a relationship that fans out. It has no
quantifier that could turn into its dual, so `columnsNear` keeps it out.
-/

namespace EntityQuery

/-! ## Duals -/

theorem Operator.inverse?_symm {op op' : Operator} (h : op.inverse? = some op') :
    op'.inverse? = some op := by
  cases op <;> cases h <;> rfl

theorem Operator.inverse?_isSome {op : Operator} (h : op ≠ .notLikeOrNull) :
    ∃ op', op.inverse? = some op' := by
  cases op <;> first | exact ⟨_, rfl⟩ | contradiction

theorem Operator.inverse?_inj {a b a' b' : Operator} (ha : a.inverse? = some a')
    (hb : b.inverse? = some b') : a' = b' ↔ a = b := by
  refine ⟨fun h => ?_, fun h => ?_⟩
  · subst h
    exact Option.some.inj ((inverse?_symm ha).symm.trans (inverse?_symm hb))
  · subst h
    exact Option.some.inj (ha.symm.trans hb)

theorem Connective.dual_inj {a b : Connective} : a.dual = b.dual ↔ a = b := by
  cases a <;> cases b <;> decide

theorem Connective.dual_under (c : Connective) (negated : Bool) :
    c.dual.under (!negated) = c.under negated := by
  cases c <;> cases negated <;> rfl

theorem Quantifier.flip_inj {a b : Quantifier} : a.flip = b.flip ↔ a = b := by
  cases a <;> cases b <;> decide

namespace Predicate

variable {p p' : Predicate} {operand : Operand} {op op' : Operator}
  {members members' ps ps' : List Predicate} {connective : Connective}
  {r : Except QueryError Predicate} {q : Quantifier} {path : Path} {m : Model} {t : Table}

/-- Comparisons are listed under a connective exactly where their negations are listed under the
dual one. -/
theorem listsValues_dual (h : op.inverse? = some op') (c : Connective) (q : Quantifier) :
    listsValues c.dual op' q.flip = listsValues c op q := by
  cases op <;> cases h <;> cases c <;> cases q <;> rfl

/-! ## Negated lists -/

/-- The second predicate is the negation of the first. -/
def Inverse (p p' : Predicate) : Prop := p.invert = .ok p'

/-- The negations of a list of predicates, one by one. -/
abbrev Inverses : List Predicate → List Predicate → Prop := List.Forall₂ Inverse

theorem invertAll_eq_ok : invertAll ps = .ok ps' ↔ Inverses ps ps' := by
  induction ps generalizing ps' with
  | nil =>
    simp only [invertAll, Except.ok.injEq, List.forall₂_nil_left_iff]
    exact eq_comm
  | cons p ps ih =>
    simp only [invertAll, bind_eq_ok, pure_eq_ok, ih, List.forall₂_cons_left_iff]
    constructor
    · intro h
      obtain ⟨p', hp, qs, hqs, rfl⟩ := h
      exact ⟨p', qs, hp, hqs, rfl⟩
    · intro h
      obtain ⟨p', qs, hp, hqs, rfl⟩ := h
      exact ⟨p', hp, qs, hqs, rfl⟩

theorem inverse_group {op : Connective} :
    Inverse (group op members) p' ↔ ∃ ms, Inverses members ms ∧ p' = group op.dual ms := by
  simp only [Inverse, invert, bind_eq_ok, pure_eq_ok, invertAll_eq_ok]

theorem inverse_compare_of (h : op.inverse? = some op') (hs : ∀ s, operand ≠ .subquery s)
    (path : Path) (q : Quantifier) :
    Inverse (compare path op operand q) (compare path op' operand q.flip) := by
  cases operand with
  | subquery s => exact absurd rfl (hs s)
  | value v => simp [Inverse, invert, invertCompare, h]
  | values vs => simp [Inverse, invert, invertCompare, h]

theorem not_inverse_subquery {s : SubQuery} : ¬ Inverse (compare path op (.subquery s) q) p' := by
  simp [Inverse, invert]

theorem inverse_compare (hop : op ≠ .notLikeOrNull) (h : Inverse (compare path op operand q) p') :
    ∃ op', op.inverse? = some op' ∧ p' = compare path op' operand q.flip := by
  obtain ⟨op', hop'⟩ := Operator.inverse?_isSome hop
  refine ⟨op', hop', ?_⟩
  have hs : ∀ s, operand ≠ .subquery s := by
    rintro s rfl
    exact not_inverse_subquery h
  exact Except.ok.inj (h.symm.trans (inverse_compare_of hop' hs path q))

theorem inverse_notLikeOrNull (h : Inverse (compare path .notLikeOrNull operand q) p') :
    (∀ s, operand ≠ .subquery s) ∧
      p' = group .and
        [compare path .ne (.value .null) q.flip, compare path .like operand q.flip] := by
  cases operand with
  | subquery s => exact (not_inverse_subquery h).elim
  | value v => exact ⟨nofun, (Except.ok.inj h).symm⟩
  | values vs => exact ⟨nofun, (Except.ok.inj h).symm⟩

theorem inverse_related {via : Path} {condition : Predicate} {inverted : Bool}
    {threshold : Option Threshold} :
    Inverse (related via condition inverted threshold) p' ↔
      p' = related via condition (!inverted) threshold := by
  rw [Inverse, invert, Except.ok.injEq, eq_comm]

theorem inverse_columns {left right : Path} :
    Inverse (columns left op right) p' ↔
      ∃ op', op.columnInverse? = some op' ∧ p' = columns left op' right := by
  rw [Inverse, invert]
  cases h : op.columnInverse? with
  | none => simp
  | some op' => simp [eq_comm]

/-! ## Merging -/

/-- The negation of a leaf or group that is not a comparison is of the same kind. -/
theorem mergeCompare_dual (hop : op.inverse? = some op') {a a' : Predicate}
    (ha : a.OnLeaves expanded) (h : Inverse a a') :
    Option.Rel Inverse (mergeCompare connective path op operand q a)
      (mergeCompare connective.dual path op' operand q.flip a') := by
  cases a with
  | compare path₁ op₁ operand₁ q₁ =>
    obtain ⟨op₁', hop₁, rfl⟩ := inverse_compare ha h
    simp only [mergeCompare, Operator.inverse?_inj hop₁ hop, Quantifier.flip_inj,
      listsValues_dual hop]
    split
    · cases hvs : operand₁.listed? with
      | none => exact .none
      | some vs =>
        cases hws : operand.listed? with
        | none => exact .none
        | some ws => exact .some (inverse_compare_of hop₁ (fun _ h => by cases h) path₁ q₁)
    · exact .none
  | group op₁ members =>
    obtain ⟨ms, -, rfl⟩ := inverse_group.1 h
    exact .none
  | columns left op₁ right =>
    obtain ⟨op₁', -, rfl⟩ := inverse_columns.1 h
    exact .none
  | related via condition inverted threshold =>
    rw [inverse_related.1 h]
    exact .none

theorem openCondition?_dual {via : Path} {inverted : Bool} {threshold : Option Threshold}
    {a a' : Predicate} (ha : a.OnLeaves expanded) (h : Inverse a a') :
    openCondition? connective.dual via (!inverted) threshold a' =
      openCondition? connective via inverted threshold a := by
  cases a with
  | compare path₁ op₁ operand₁ q₁ =>
    obtain ⟨op₁', -, rfl⟩ := inverse_compare ha h
    rfl
  | group op₁ members =>
    obtain ⟨ms, -, rfl⟩ := inverse_group.1 h
    rfl
  | columns left op₁ right =>
    obtain ⟨op₁', -, rfl⟩ := inverse_columns.1 h
    rfl
  | related via₁ condition₁ inverted₁ threshold₁ =>
    rw [inverse_related.1 h]
    simp only [openCondition?, Connective.dual_under, Bool.not_inj_iff]

theorem inverses_insertWith {merge merge' : Predicate → Option Predicate}
    (hmerge : ∀ a a', a.OnLeaves expanded → Inverse a a' → Option.Rel Inverse (merge a) (merge' a'))
    (hp : Inverse p p') (h : Inverses members members') (hexp : OnLeavesAll expanded members) :
    Inverses (insertWith merge p members) (insertWith merge' p' members') := by
  induction h with
  | nil => exact .cons hp .nil
  | @cons a a' rest rest' ha hrest ih =>
    have hm := hmerge a a' hexp.1 ha
    simp only [insertWith]
    revert hm
    cases merge a <;> cases merge' a' <;> intro hm <;> cases hm
    · exact .cons ha (ih hexp.2)
    · rename_i hm
      exact .cons hm hrest

/-- Inserting into a group and inserting the negation into the dual group correspond. -/
theorem inverses_insert (h : Inverses members members') (hexp : OnLeavesAll expanded members)
    (hp : Inverse p p') (hpexp : p.OnLeaves expanded) :
    Inverses (insert connective members p) (insert connective.dual members' p') := by
  cases p with
  | compare path op operand q =>
    obtain ⟨op', hop, rfl⟩ := inverse_compare hpexp hp
    rw [insert, insert]
    exact inverses_insertWith (fun a a' => mergeCompare_dual hop) hp h hexp
  | related via condition inverted threshold =>
    cases inverse_related.1 hp
    rw [insert, insert]
    refine inverses_insertWith (fun a a' ha hinv => ?_) hp h hexp
    simp only [openCondition?_dual ha hinv]
    cases openCondition? connective via inverted threshold a with
    | none => exact .none
    | some c => exact .some (inverse_related.2 rfl)
  | columns left op right =>
    obtain ⟨op', -, rfl⟩ := inverse_columns.1 hp
    rw [insert, insert]
    exact List.rel_append h (.cons hp .nil)
  | group op inner =>
    obtain ⟨ms, -, rfl⟩ := inverse_group.1 hp
    rw [insert, insert]
    exact List.rel_append h (.cons hp .nil)

theorem inverses_insertAll (h : Inverses members members') (hexp : OnLeavesAll expanded members)
    (hps : Inverses ps ps') (hpsexp : OnLeavesAll expanded ps) :
    Inverses (insertAll connective members ps) (insertAll connective.dual members' ps') := by
  induction hps generalizing members members' with
  | nil => simpa only [insertAll] using h
  | cons hp hps ih =>
    simp only [insertAll]
    exact ih (inverses_insert h hexp hp hpsexp.1) (onLeavesAll_insert hexp hpsexp.1) hpsexp.2

/-! ## Simplifying -/

theorem inverse_close {op : Connective} (h : Inverses members members') :
    Inverse (close op members) (close op.dual members') := by
  cases h with
  | nil => exact inverse_group.2 ⟨[], .nil, rfl⟩
  | cons hp hps =>
    cases hps with
    | nil => exact hp
    | cons hq hqs => exact inverse_group.2 ⟨_, .cons hp (.cons hq hqs), rfl⟩

theorem inverses_membersUnder (hexp : p.OnLeaves expanded) (h : Inverse p p') :
    Inverses (p.membersUnder connective) (p'.membersUnder connective.dual) := by
  cases p with
  | compare path op operand q =>
    obtain ⟨op', -, rfl⟩ := inverse_compare hexp h
    exact .cons h .nil
  | related via condition inverted threshold =>
    cases inverse_related.1 h
    exact .cons h .nil
  | columns left op right =>
    obtain ⟨op', -, rfl⟩ := inverse_columns.1 h
    exact .cons h .nil
  | group op members =>
    obtain ⟨ms, hms, rfl⟩ := inverse_group.1 h
    have hempty : members.isEmpty = ms.isEmpty := by
      cases hms <;> rfl
    simp only [membersUnder, hempty, Connective.dual_inj]
    split
    · exact hms
    · exact .cons h .nil

/-- The expansion of `notLikeOrNull` and that of its negation have no members that merge. -/
theorem inverse_nullOrNotLike (h : Inverse (compare path .notLikeOrNull operand q) p') :
    Inverse (nullOrNotLike path operand q) p'.simplify := by
  obtain ⟨hs, rfl⟩ := inverse_notLikeOrNull h
  have hsimp : (group .and [compare path .ne (.value .null) q.flip,
      compare path .like operand q.flip]).simplify =
      group .and [compare path .ne (.value .null) q.flip, compare path .like operand q.flip] := by
    simp [simplify, simplifyUnder, membersUnder, insertAll, insert, insertWith, mergeCompare, close]
  rw [hsimp]
  exact inverse_group.2 ⟨_, .cons (inverse_compare_of rfl (fun _ h => by cases h) path q)
    (.cons (inverse_compare_of rfl hs path q) .nil), rfl⟩

mutual

/-- **Negation commutes with simplification.** -/
theorem inverse_simplify (p : Predicate) {p' : Predicate} (h : Inverse p p') :
    Inverse p.simplify p'.simplify := by
  match p with
  | .group op members =>
    obtain ⟨ms, hms, rfl⟩ := inverse_group.1 h
    rw [simplify, simplify]
    exact inverse_close (inverses_insertAll .nil ⟨⟩ (inverses_simplifyUnder op members hms)
      (onLeavesAll_simplifyUnder expands_expanded op (onLeavesAll_iff.2 fun p _ => onLeaves_all p)))
  | .compare path op operand q =>
    by_cases hop : op = .notLikeOrNull
    · subst hop
      rw [simplify, if_pos rfl]
      exact inverse_nullOrNotLike h
    · obtain ⟨op', hop', rfl⟩ := inverse_compare hop h
      have hne : op' ≠ .notLikeOrNull := by
        intro heq
        subst heq
        exact absurd (Operator.inverse?_symm hop') nofun
      rw [simplify, if_neg hop, simplify, if_neg hne]
      exact h
  | .columns left op right =>
    obtain ⟨op', -, rfl⟩ := inverse_columns.1 h
    simpa only [simplify] using h
  | .related via condition inverted threshold =>
    cases inverse_related.1 h
    rw [simplify, simplify]
    exact inverse_related.2 rfl

theorem inverses_simplifyUnder (op : Connective) (ps : List Predicate) {ps' : List Predicate}
    (h : Inverses ps ps') : Inverses (simplifyUnder op ps) (simplifyUnder op.dual ps') := by
  match ps, h with
  | [], .nil => exact .nil
  | p :: ps, .cons hp hps =>
    rw [simplifyUnder, simplifyUnder]
    exact List.rel_append
      (inverses_membersUnder (onLeaves_expanded_simplify p) (inverse_simplify p hp))
      (inverses_simplifyUnder op ps hps)

end

/-! ## Correlating -/

/-- No comparison of two columns reaches across a relationship that fans out. -/
def columnsNear (m : Model) (t : Table) : LeafTest where
  compare _ _ := True
  columns left right := m.firstMany? t left = none ∧ m.firstMany? t right = none
  related _ := True

/-- Both computations succeed, the second with the negation of the first result, or both fail
with the same error. -/
def Corresponds : Except QueryError Predicate → Except QueryError Predicate → Prop
  | .ok c, .ok d => Inverse c d
  | .error e, .error e' => e = e'
  | _, _ => False

theorem Corresponds.ok {c : Predicate} (h : Corresponds (.ok c) r) :
    ∃ d, Inverse c d ∧ r = .ok d := by
  cases r with
  | ok d => exact ⟨d, h, rfl⟩
  | error e => exact h.elim

theorem Corresponds.error {e : QueryError} (h : Corresponds (.error e) r) : r = .error e := by
  cases r with
  | ok d => exact h.elim
  | error e' => rw [show e = e' from h]

theorem containment_dual (m : Model) (t : Table) (path via rest : Path) (vs : List Value)
    (inverted : Bool) :
    Corresponds (containment m t path via rest vs inverted)
      (containment m t path via rest vs (!inverted)) := by
  simp only [containment]
  split
  · rfl
  · split
    · rfl
    · split <;> exact inverse_related.2 rfl

/-- ANY and ALL of a comparison and its negation are each other's negations, behind a
relationship that fans out; containment and its negation too. -/
theorem correlateAt_dual (h : op.inverse? = some op') (hs : ∀ s, operand ≠ .subquery s) (m : Model)
    (t : Table) (path via rest : Path) (q : Quantifier) :
    Corresponds (correlateAt m t path via rest op operand q)
      (correlateAt m t path via rest op' operand q.flip) := by
  cases operand with
  | subquery s => exact absurd rfl (hs s)
  | value v => cases op <;> cases h <;> cases q <;> rfl
  | values vs =>
    cases op <;> cases h <;> cases q <;>
      first
      | rfl
      | exact containment_dual m t path via rest vs _

theorem correlateCompare_dual (h : op.inverse? = some op') (hs : ∀ s, operand ≠ .subquery s)
    (m : Model) (t : Table) (path : Path) (q : Quantifier) :
    Corresponds (correlateCompare m t path op operand q)
      (correlateCompare m t path op' operand q.flip) := by
  simp only [correlateCompare]
  split
  · exact inverse_compare_of h hs path q
  · split
    · rfl
    · exact correlateAt_dual h hs m t path _ _ q

theorem correlateRelated_dual (m : Model) (t : Table) (via : Path) (condition : Predicate)
    (inverted : Bool) (threshold : Option Threshold) :
    Inverse (correlateRelated m t via condition inverted threshold)
      (correlateRelated m t via condition (!inverted) threshold) := by
  simp only [correlateRelated]
  split
  · split <;> exact inverse_related.2 rfl
  · exact inverse_related.2 rfl

theorem corresponds_compare (h : op.inverse? = some op') (hs : ∀ s, operand ≠ .subquery s)
    (m : Model) (t : Table) (path : Path) (q : Quantifier) :
    Corresponds ((compare path op operand q).correlate m t)
      ((compare path op' operand q.flip).correlate m t) := by
  have hne : op ≠ .notLikeOrNull := by
    intro heq
    subst heq
    exact absurd h nofun
  have hne' : op' ≠ .notLikeOrNull := by
    intro heq
    subst heq
    exact absurd (Operator.inverse?_symm h) nofun
  rw [correlate, if_neg hne, correlate, if_neg hne']
  exact correlateCompare_dual h hs m t path q

/-- The same of lists: all members succeed, or the first that fails is the same. -/
def CorrespondAll (m : Model) (t : Table) (ps ps' : List Predicate) : Prop :=
  (∃ cs ds, correlateAll m t ps = .ok cs ∧ correlateAll m t ps' = .ok ds ∧ Inverses cs ds) ∨
    ∃ e, correlateAll m t ps = .error e ∧ correlateAll m t ps' = .error e

theorem correspondAll_nil (m : Model) (t : Table) : CorrespondAll m t [] [] :=
  .inl ⟨[], [], rfl, rfl, .nil⟩

theorem correspondAll_cons (h : Corresponds (p.correlate m t) (p'.correlate m t))
    (hs : CorrespondAll m t ps ps') : CorrespondAll m t (p :: ps) (p' :: ps') := by
  rw [CorrespondAll, correlateAll, correlateAll]
  cases hc : p.correlate m t with
  | error e =>
    rw [hc] at h
    rw [h.error]
    exact .inr ⟨e, rfl, rfl⟩
  | ok c =>
    rw [hc] at h
    obtain ⟨d, hd, hpd⟩ := h.ok
    rw [hpd]
    rcases hs with ⟨cs, ds, hcs, hds, hinv⟩ | ⟨e, he, he'⟩
    · rw [hcs, hds]
      exact .inl ⟨c :: cs, d :: ds, rfl, rfl, .cons hd hinv⟩
    · rw [he, he']
      exact .inr ⟨e, rfl, rfl⟩

theorem corresponds_group {op : Connective} (h : CorrespondAll m t ps ps') :
    Corresponds ((group op ps).correlate m t) ((group op.dual ps').correlate m t) := by
  rw [correlate, correlate]
  rcases h with ⟨cs, ds, hcs, hds, hinv⟩ | ⟨e, he, he'⟩
  · rw [hcs, hds]
    exact inverse_group.2 ⟨ds, hinv, rfl⟩
  · rw [he, he']
    rfl

theorem correlate_notLikeOrNull (m : Model) (t : Table) (path : Path) (operand : Operand)
    (q : Quantifier) :
    (compare path .notLikeOrNull operand q).correlate m t =
      (nullOrNotLike path operand q).correlate m t := by
  simp only [nullOrNotLike, correlate, correlateAll, if_true, reduceCtorEq, if_false]
  cases correlateCompare m t path .eq (.value .null) q with
  | error e => rfl
  | ok null =>
    cases correlateCompare m t path .notLike operand q with
    | error e => rfl
    | ok unlike => rfl

mutual

/-- **Negation commutes with correlation.** -/
theorem corresponds_correlate {m : Model} {t : Table} (p : Predicate) {p' : Predicate}
    (h : Inverse p p') (hnear : p.OnLeaves (columnsNear m t)) :
    Corresponds (p.correlate m t) (p'.correlate m t) := by
  match p with
  | .group op members =>
    obtain ⟨ms, hms, rfl⟩ := inverse_group.1 h
    exact corresponds_group (correspondAll_correlate members hms hnear)
  | .compare path op operand q =>
    by_cases hop : op = .notLikeOrNull
    · subst hop
      obtain ⟨hs, rfl⟩ := inverse_notLikeOrNull h
      rw [correlate_notLikeOrNull, nullOrNotLike]
      exact corresponds_group (correspondAll_cons
        (corresponds_compare rfl (fun _ h => by cases h) m t path q)
        (correspondAll_cons (corresponds_compare rfl hs m t path q) (correspondAll_nil m t)))
    · obtain ⟨op', hop', rfl⟩ := inverse_compare hop h
      have hs : ∀ s, operand ≠ .subquery s := by
        rintro s rfl
        exact not_inverse_subquery h
      exact corresponds_compare hop' hs m t path q
  | .columns left op right =>
    obtain ⟨op', -, rfl⟩ := inverse_columns.1 h
    rw [correlate, correlate, correlateColumns, correlateColumns, hnear.1, hnear.2]
    exact h
  | .related via condition inverted threshold =>
    cases inverse_related.1 h
    rw [correlate, correlate]
    exact correlateRelated_dual m t via condition inverted threshold

theorem correspondAll_correlate {m : Model} {t : Table} (ps : List Predicate)
    {ps' : List Predicate} (h : Inverses ps ps') (hnear : OnLeavesAll (columnsNear m t) ps) :
    CorrespondAll m t ps ps' := by
  match ps, h with
  | [], .nil => exact correspondAll_nil m t
  | p :: ps, .cons hp hps =>
    exact correspondAll_cons (corresponds_correlate p hp hnear.1)
      (correspondAll_correlate ps hps hnear.2)

end

/-! ## Normal forms -/

theorem columnsNear_simplify (h : p.OnLeaves (columnsNear m t)) :
    p.simplify.OnLeaves (columnsNear m t) :=
  onLeaves_simplify (LeafTest.expands_self fun _ _ _ => rfl) p h

theorem corresponds_normal (h : Inverse p p') (hnear : p.OnLeaves (columnsNear m t)) :
    Corresponds (p.normal m t) (p'.normal m t) := by
  have hcorr := corresponds_correlate p.simplify (inverse_simplify p h) (columnsNear_simplify hnear)
  rw [normal, normal]
  cases hc : p.simplify.correlate m t with
  | error e =>
    rw [hc] at hcorr
    rw [hcorr.error]
    rfl
  | ok c =>
    rw [hc] at hcorr
    obtain ⟨d, hd, hpd⟩ := hcorr.ok
    rw [hpd]
    exact inverse_simplify c hd

theorem Corresponds.isOk_eq {s : Except QueryError Predicate} (h : Corresponds r s) :
    s.isOk = r.isOk := by
  cases r with
  | error e => rw [h.error]
  | ok c =>
    obtain ⟨d, -, rfl⟩ := h.ok
    rfl

/-- **Negation commutes with normalisation.** Where a predicate can be negated, and no comparison
of two columns reaches across a relationship that fans out, its normal form and that of its
negation exist together and are each other's negations. -/
theorem normal_invert (m : Model) (t : Table) (p q : Predicate) (h : p.invert = .ok q)
    (hnear : p.OnLeaves (columnsNear m t)) :
    p.simplify.invert = .ok q.simplify ∧
      (q.correlate m t).isOk = (p.correlate m t).isOk ∧
      (q.normal m t).isOk = (p.normal m t).isOk ∧
      ∀ c d, p.normal m t = .ok c → q.normal m t = .ok d → c.invert = .ok d := by
  have hnormal := corresponds_normal h hnear
  refine ⟨inverse_simplify p h, (corresponds_correlate p h hnear).isOk_eq, hnormal.isOk_eq, ?_⟩
  intro c d hc hd
  rw [hc, hd] at hnormal
  exact hnormal

/-- Two lines are asked for, or an order that is its own customer. -/
def lineOrOwn : Predicate :=
  .group .or [.compare ⟨["lines", "sku"]⟩ .eq (.value (.text "A")) .any,
    .compare ⟨["lines", "sku"]⟩ .eq (.value (.text "B")) .any,
    .columns ⟨["id"]⟩ .eq ⟨["customer_id"]⟩]

/-- The two lines are merged, and so are their negations. -/
theorem normal_invert_lineOrOwn :
    ∃ q c d, lineOrOwn.invert = .ok q ∧
      lineOrOwn.normal (Shop.model .hashed) Shop.orders = .ok c ∧
      q.normal (Shop.model .hashed) Shop.orders = .ok d ∧ c.invert = .ok d ∧
      d = .group .and
        [.related ⟨["lines"]⟩
          (.compare ⟨["sku"]⟩ .eq (.values [.text "A", .text "B"]) .any) true none,
        .columns ⟨["id"]⟩ .ne ⟨["customer_id"]⟩] := by
  have hinvert : lineOrOwn.invert = .ok (.group .and [
      .compare ⟨["lines", "sku"]⟩ .ne (.value (.text "A")) .all,
      .compare ⟨["lines", "sku"]⟩ .ne (.value (.text "B")) .all,
      .columns ⟨["id"]⟩ .ne ⟨["customer_id"]⟩]) := rfl
  have hnear : lineOrOwn.OnLeaves (columnsNear (Shop.model .hashed) Shop.orders) :=
    ⟨⟨⟩, ⟨⟩, ⟨rfl, rfl⟩, ⟨⟩⟩
  obtain ⟨-, -, -, hdual⟩ := normal_invert (Shop.model .hashed) Shop.orders _ _ hinvert hnear
  exact ⟨_, _, _, hinvert, rfl, rfl, hdual _ _ rfl rfl, rfl⟩

end Predicate

end EntityQuery
