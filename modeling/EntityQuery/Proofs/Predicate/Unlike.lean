import EntityQuery.Proofs.Predicate.Finding
import EntityQuery.Proofs.Predicate.Negation
import EntityQuery.Proofs.Predicate.Unconditional

/-!
# NULL or not like a pattern

`notLikeOrNull` stands for two comparisons joined by OR, its negation for two joined by AND, and
each of the two is divided at a fan-out on its own. No quantifier distributes over both connectives.
It comes out right all the same:

* where the two ask for related rows of the same kind, they are merged and asked of one row
  (`normal_unlike_merged`);
* where they are asked apart, one of them follows from the other, since NULL is like no pattern
  (`normal_unlike_apart`).
-/

namespace EntityQuery

open EntityQuery.Sql (Expr Query Engine Database Ctes Env Row Truth joinAll bindCtes)

variable {D : Type} [DecidableEq D] {E : Engine D} {db : Database D}

/-! ## Patterns -/

/-- The value is NULL or is not like one of the patterns, or not like any. -/
def Sql.Engine.Unlike (E : Engine D) (q : Quantifier) (type : Option String)
    (patterns : List Value) (a : Option D) : Prop :=
  a = none ∨ ∃ d, a = some d ∧ q.Over (· ∈ patterns) fun v => E.like d (E.datum v type) = false

/-- The value is like one of the patterns, or like all. -/
def Sql.Engine.Likens (E : Engine D) (q : Quantifier) (type : Option String)
    (patterns : List Value) (a : Option D) : Prop :=
  ∃ d, a = some d ∧ q.Over (· ∈ patterns) fun v => E.like d (E.datum v type) = true

omit [DecidableEq D] in
theorem Sql.Engine.not_unlike_flip {q : Quantifier} {type : Option String} {patterns : List Value}
    {a : Option D} : ¬ E.Unlike q.flip type patterns a ↔ E.Likens q type patterns a := by
  cases a with
  | none => simp [Unlike, Likens]
  | some d => simp [Unlike, Likens, q.not_over_flip]

omit [DecidableEq D] in
/-- No row is like a pattern if each is NULL or like none. -/
theorem over_unlike_all {S : Row D → Prop} {type : Option String} {patterns : List Value}
    {column : String} :
    Quantifier.all.Over S (fun c => E.Unlike .all type patterns (c column)) ↔
      ¬ ∃ c, S c ∧ E.Likens .any type patterns (c column) := by
  simp only [← Engine.not_unlike_flip, Quantifier.flip, not_exists, not_and, not_not,
    Quantifier.Over]

section

variable {target : Target} {op : Operator} {operand : Operand} {patterns : List Value}

theorem Target.exists_list (heq : op ≠ .eq) (hne : op ≠ .ne) {vs : List Value}
    (h : ∀ v ∈ vs, ∃ e, target.scalar op v = .ok e) (q : Quantifier) :
    ∃ x, target.list op vs q = .ok x := by
  have hparts : ∃ es, vs.mapM (target.scalar op) = .ok es := by
    simp only [mapM_eq_ok_iff]
    induction vs with
    | nil => exact ⟨[], .nil⟩
    | cons v vs ih =>
      rw [List.forall_mem_cons] at h
      obtain ⟨e, he⟩ := h.1
      obtain ⟨es, hes⟩ := ih h.2
      exact ⟨e :: es, .cons he hes⟩
  rcases vs with _ | ⟨v, _ | ⟨w, rest⟩⟩
  · exact ⟨_, rfl⟩
  · exact h v (List.mem_singleton_self v)
  · obtain ⟨es, hes⟩ := hparts
    exact ⟨_, by rw [list_chain heq hne, hes]; rfl⟩

/-- A pattern, or a list of patterns, is written as the list of its values. -/
theorem Operand.plain_listed (h : operand.listed? = some patterns) {q : Quantifier} {x : Expr}
    (hx : target.list op patterns q = .ok x) (m : Model) : operand.Plain m target op q x := by
  intro f
  cases operand with
  | subquery s => cases h
  | value v =>
    simp only [listed?, Option.ite_none_left_eq_some, Option.some.injEq] at h
    obtain ⟨-, rfl⟩ := h
    exact gives_render_value.2 ⟨hx, rfl⟩
  | values vs =>
    simp only [listed?, Option.ite_none_left_eq_some, Option.some.injEq] at h
    obtain ⟨-, rfl⟩ := h
    exact gives_render_values.2 ⟨hx, rfl⟩

theorem Operand.ne_subquery_of_listed (h : operand.listed? = some patterns) (s : SubQuery) :
    operand ≠ .subquery s := by
  rintro rfl
  cases h

theorem Operand.isNull_of_listed (h : operand.listed? = some patterns) :
    ∀ v ∈ patterns, v.isNull = false := by
  simpa using Operand.listed?_isNull h

/-- **LIKE and NOT LIKE** with patterns say what they say of each, unknown of NULL. -/
theorem exists_plain_like (hpatterns : operand.listed? = some patterns) (m : Model)
    (target : Target) (positive : Bool) (q : Quantifier) (E : Engine D) (db : Database D) :
    ∃ x, operand.Plain m target (bif positive then .like else .notLike) q x ∧
      ∀ (rows : Ctes D) group env, E.truth (x.eval E db rows group env) =
        q.truth (patterns.map fun v => (target.column.eval E db rows group env).map fun d =>
          E.like d (E.datum v target.type) == positive) := by
  have hop : (bif positive then Operator.like else .notLike) ≠ .eq ∧
      (bif positive then Operator.like else .notLike) ≠ .ne := by
    cases positive <;> decide
  have hbinary : (bif positive then Operator.like else .notLike).binary? =
      some (bif positive then .like else .notLike) := by
    cases positive <;> rfl
  have hscalar : ∀ v ∈ patterns, target.scalar (bif positive then .like else .notLike) v =
      .ok (.binary target.column (bif positive then .like else .notLike) (target.param v)) :=
    fun v hv => Target.scalar_of_binary (Operand.isNull_of_listed hpatterns v hv) hbinary
  obtain ⟨x, hx⟩ := Target.exists_list hop.1 hop.2 (fun v hv => ⟨_, hscalar v hv⟩) q
  obtain ⟨es, hes, htruth⟩ := Target.truth_list E db hx
  refine ⟨x, Operand.plain_listed hpatterns hx m, fun rows group env => ?_⟩
  have hplain := (htruth rows group env).1 fun h => h.2.2.elim (hop.1 ·.1) (hop.2 ·.1)
  refine hplain.trans (congrArg q.truth ?_)
  -- Each pattern is compared on its own.
  have hnull := Operand.isNull_of_listed hpatterns
  clear hplain htruth hx hpatterns
  induction hes with
  | nil => rfl
  | @cons v e vs es he _ ih =>
    rw [List.forall_mem_cons] at hscalar hnull
    cases hscalar.1.symm.trans he
    rw [List.map_cons, List.map_cons, ih hscalar.2 hnull.2, Expr.eval, Target.param, Expr.eval,
      Engine.param, hnull.1]
    congr 1
    cases target.column.eval E db rows group env <;> cases positive <;>
      simp [Engine.binary, Engine.truth, Engine.compare, E.holds_ofBool]

end

/-! ## Two comparisons -/

theorem Connective.or_under (inverted : Bool) :
    Connective.or.under inverted = (bif inverted then Quantifier.all else .any).connective := by
  cases inverted <;> rfl

namespace Predicate

/-- The column is NULL or not like, as two comparisons; `inverted`, it is there and like. -/
def unlike (inverted : Bool) (path : Path) (operand : Operand) (q : Quantifier) : Predicate :=
  group (Connective.or.under inverted)
    [compare path (bif inverted then .ne else .eq) (.value .null) q,
      compare path (bif inverted then .like else .notLike) operand q]

section

variable {path : Path} {operand : Operand} {patterns : List Value}

theorem invert_notLikeOrNull (h : operand.listed? = some patterns) (q : Quantifier) :
    (compare path .notLikeOrNull operand q).invert = .ok (unlike true path operand q.flip) := by
  cases operand with
  | subquery s => cases h
  | value v => rfl
  | values vs => rfl

/-- Two comparisons by different operators do not merge. -/
theorem simplify_compare_pair {op op' : Operator} {operand' : Operand} {q q' : Quantifier}
    (hop : op ≠ .notLikeOrNull) (hop' : op' ≠ .notLikeOrNull) (hne : op ≠ op') (c : Connective) :
    (group c [compare path op operand q, compare path op' operand' q']).simplify =
      group c [compare path op operand q, compare path op' operand' q'] := by
  have hself : (compare path op operand q).simplify = compare path op operand q := by
    rw [simplify, if_neg hop]
  have hself' : (compare path op' operand' q').simplify = compare path op' operand' q' := by
    rw [simplify, if_neg hop']
  have hapart : merge? c (compare path op operand q).simplify
      (compare path op' operand' q').simplify = none := by
    simp [hself, hself', merge?, mergeCompare, hne]
  rw [simplify_pair (by rw [hself]; rfl) (by rw [hself']; rfl) hapart, hself, hself']

theorem simplify_unlike (inverted : Bool) (path : Path) (operand : Operand) (q : Quantifier) :
    (unlike inverted path operand q).simplify = unlike inverted path operand q := by
  cases inverted with
  | false => exact simplify_compare_pair (by decide) (by decide) (by decide) .or
  | true => exact simplify_compare_pair (by decide) (by decide) (by decide) .and

variable {m : Model} {t : Table} {inverted : Bool} {i : Nat} {r : Relationship}

theorem normal_unlike_direct (hmany : m.firstMany? t path = none) (q : Quantifier) :
    (unlike inverted path operand q).normal m t = .ok (unlike inverted path operand q) := by
  have hself : ∀ op operand, op ≠ Operator.notLikeOrNull →
      (compare path op operand q).correlate m t = .ok (compare path op operand q) := by
    intro op operand hop
    rw [correlate, if_neg hop, correlateCompare, hmany]
  refine normal_eq_ok.2 ⟨_, ?_, (simplify_unlike inverted path operand q).symm⟩
  rw [simplify_unlike]
  exact correlate_pair (hself _ _ (by cases inverted <;> decide))
    (hself _ _ (by cases inverted <;> decide))

theorem quantifies_null {op : Operator} (hop : op ≠ .notLikeOrNull) (q : Quantifier) :
    (Operand.value .null).Quantifies op q :=
  ⟨hop, fun vs h => by cases h⟩

theorem quantifies_like (positive : Bool) (operand : Operand) (q : Quantifier) :
    operand.Quantifies (bif positive then .like else .notLike) q := by
  refine ⟨by cases positive <;> decide, fun vs _ => ?_⟩
  cases positive <;> cases q <;> decide

/-- **One row for both.** Some related row is NULL or not like, or no related row is. -/
theorem normal_unlike_merged (hvalues : operand.listed? = some patterns)
    (hmany : m.firstMany? t path = some (i, r)) (hrest : (path.drop (i + 1)).isEmpty = false) :
    (unlike inverted path operand (bif inverted then .all else .any)).normal m t =
      .ok (related (path.take (i + 1)) (unlike false (path.drop (i + 1)) operand .any)
        inverted none) := by
  refine normal_eq_ok.2 ⟨group (Connective.or.under inverted)
    [related (path.take (i + 1)) (compare (path.drop (i + 1)) .eq (.value .null) .any)
      inverted none,
     related (path.take (i + 1)) (compare (path.drop (i + 1)) .notLike operand .any)
      inverted none], ?_, ?_⟩
  · rw [simplify_unlike]
    cases inverted with
    | false =>
      exact correlate_pair
        (correlate_compare_any (quantifies_null (by decide) _) hmany hrest)
        (correlate_compare_any (quantifies_like false operand _) hmany hrest)
    | true =>
      exact correlate_pair
        (correlate_compare_all (quantifies_null (by decide) _) rfl (by simp) hmany hrest)
        (correlate_compare_all (quantifies_like true operand _) rfl
          (Operand.ne_subquery_of_listed hvalues) hmany hrest)
  · -- The conditions are joined as they stand before the fan-out.
    rw [simplify_related_pair, ← simplify_unlike]
    rfl

/-- **Each on its own.** No related row is there, or none is like; or there are both. -/
theorem normal_unlike_apart (hvalues : operand.listed? = some patterns)
    (hmany : m.firstMany? t path = some (i, r)) (hrest : (path.drop (i + 1)).isEmpty = false) :
    (unlike inverted path operand (bif inverted then .any else .all)).normal m t =
      .ok (group (Connective.or.under inverted)
        [related (path.take (i + 1)) (compare (path.drop (i + 1)) .ne (.value .null) .any)
          (!inverted) none,
         related (path.take (i + 1)) (compare (path.drop (i + 1)) .like operand .any)
          (!inverted) none]) := by
  have hcorrelate : (unlike inverted path operand
      (bif inverted then .any else .all)).simplify.correlate m t =
      .ok (group (Connective.or.under inverted)
        [related (path.take (i + 1)) (compare (path.drop (i + 1)) .ne (.value .null) .any)
          (!inverted) none,
         related (path.take (i + 1)) (compare (path.drop (i + 1)) .like operand .any)
          (!inverted) none]) := by
    rw [simplify_unlike]
    cases inverted with
    | false =>
      exact correlate_pair
        (correlate_compare_all (quantifies_null (by decide) _) rfl (by simp) hmany hrest)
        (correlate_compare_all (quantifies_like false operand _) rfl
          (Operand.ne_subquery_of_listed hvalues) hmany hrest)
    | true =>
      exact correlate_pair
        (correlate_compare_any (quantifies_null (by decide) _) hmany hrest)
        (correlate_compare_any (quantifies_like true operand _) hmany hrest)
  refine normal_eq_ok.2 ⟨_, hcorrelate, ?_⟩
  rw [simplify_pair rfl rfl]
  · simp only [simplify]
    rfl
  · cases inverted <;> simp [simplify, merge?, openCondition?, Connective.under, Connective.dual]

end

end Predicate

/-! ## What is asked -/

/-- Of two checks of which the second implies the first, only the second counts. -/
theorem over_apart {α : Type} {inverted : Bool} {R R' : α} {F : α → Prop} (h : F R' → F R) :
    (bif inverted then Quantifier.all else .any).Over (· ∈ [R, R'])
        (fun R => F R ↔ (!inverted) = false) ↔
      (¬ F R' ↔ inverted = false) := by
  cases inverted with
  | false =>
    simp only [cond_false, Quantifier.Over, List.mem_cons, List.not_mem_nil, or_false,
      exists_eq_or_imp, exists_eq_left, Bool.not_false, Bool.true_eq_false, iff_false, iff_true]
    exact or_iff_right_of_imp (mt h)
  | true =>
    simp only [cond_true, Quantifier.Over, List.mem_cons, List.not_mem_nil, or_false,
      forall_eq_or_imp, forall_eq, Bool.not_true, Bool.true_eq_false, iff_false, iff_true, not_not]
    exact and_iff_right_of_imp h

section

variable {m : Model} {t : Table} {path : Path} {res : Resolution} {operand : Operand}
  {patterns : List Value}

theorem plain_null (m : Model) (target : Target) (negated : Bool) (q : Quantifier) :
    (Operand.value .null).Plain m target (bif negated then .ne else .eq) q
      (.isNull target.column negated) :=
  fun _ => gives_render_value.2 ⟨by cases negated <;> rfl, rfl⟩

theorem eval_column {column : EntityColumn} {rows : Ctes D} {group : List (Env D)} {env : Env D} :
    (m.columnExpr t column).eval E db rows group env = env (m.aliasOf t) column.name := by
  rw [Model.columnExpr, Expr.ofTable, Expr.eval]

omit [DecidableEq D] in
/-- What the patterns say of a value that is there. -/
theorem truth_patterns (q : Quantifier) {type : Option String} {d : D} (b : Bool) :
    q.truth (patterns.map fun v => (some d).map fun d => E.like d (E.datum v type) == b) =
        some true ↔
      q.Over (· ∈ patterns) fun v => E.like d (E.datum v type) = b := by
  rw [q.truth_eq_true, q.over_map]
  exact q.over_congr fun v _ => by simp

/-- **The two comparisons of one value.** -/
theorem truth_unlike {target : Target} {inverted : Bool} {q : Quantifier} {x y : Expr}
    {rows : Ctes D} {group : List (Env D)} {env : Env D}
    (hx : E.truth (x.eval E db rows group env) =
      (bif inverted then q.flip else q).truth (patterns.map fun v =>
        (target.column.eval E db rows group env).map fun d =>
          E.like d (E.datum v target.type) == inverted))
    (hy : Expr.combine (bif inverted then Quantifier.all else .any).connective.binary
      [.isNull target.column inverted, x] = some y) :
    E.truth (y.eval E db rows group env) = some true ↔
      (E.Unlike q target.type patterns (target.column.eval E db rows group env) ↔
        inverted = false) := by
  rw [truth_combine _ hy, Quantifier.truth_eq_true, Quantifier.over_map]
  cases inverted with
  | false =>
    rw [cond_false] at hx
    simp only [cond_false, Quantifier.Over, List.mem_cons, List.not_mem_nil, or_false,
      exists_eq_or_imp, exists_eq_left, truth_isNull, hx, iff_true]
    rw [Engine.Unlike]
    cases target.column.eval E db rows group env with
    | none => simp
    | some d =>
      rw [truth_patterns q false]
      simp
  | true =>
    rw [cond_true] at hx
    simp only [cond_true, Quantifier.Over, List.mem_cons, List.not_mem_nil, or_false,
      forall_eq_or_imp, forall_eq, truth_isNull, hx, Bool.true_eq_false, iff_false]
    rw [← q.flip_flip, Engine.not_unlike_flip, q.flip_flip, Engine.Likens]
    cases target.column.eval E db rows group env with
    | none => simp
    | some d =>
      rw [truth_patterns q.flip true]
      simp

/-- **Without a fan-out** both comparisons are made of the row at the end of the path. -/
theorem asks_unlike_direct (hpatterns : operand.listed? = some patterns) (inverted : Bool)
    (q : Quantifier) (hres : m.resolve t path = .ok res) (hmany : m.firstMany? t path = none)
    (hone : res.crossesMany = false) (hnodup : m.AliasesApart t res.hops) :
    (Predicate.unlike inverted path operand (bif inverted then q.flip else q)).Asks E db m t
      (res.hops.flatMap (·.labels)) fun row => ∃ c, reaches E db true res.hops row c ∧
        (E.Unlike q res.column.type patterns (c res.column.name) ↔ inverted = false) := by
  obtain ⟨x, hx, htruth⟩ := exists_plain_like hpatterns m
    ⟨m.columnExpr res.table res.column, res.column.type, path⟩ inverted
    (bif inverted then q.flip else q) E db
  obtain ⟨y, hy⟩ : ∃ y, Expr.combine (bif inverted then Quantifier.all else .any).connective.binary
      [.isNull (m.columnExpr res.table res.column) inverted, x] = some y := ⟨_, rfl⟩
  have hnormal : (Predicate.unlike inverted path operand (bif inverted then q.flip else q)).normal
      m t = _ := Predicate.normal_unlike_direct hmany _
  rw [Predicate.unlike, Connective.or_under] at hnormal ⊢
  refine asks_plain_pair hres hone hnodup (plain_null m _ inverted _) hnormal hx hy
    fun rows env => ?_
  have hvalue := truth_unlike (htruth rows [env] env) hy
  rwa [eval_column] at hvalue

variable (hm : m.Unambiguous) (hnaming : m.naming.AvoidsCtes)
  (hpatterns : operand.listed? = some patterns) (ht : m.Covers t)
  (hres : m.resolve t path = .ok res) (hnodup : m.AliasesApart t res.hops)

include hm hnaming hpatterns ht hres hnodup

/-- Some row at the end of the path is NULL or not like. -/
theorem asks_any_unlike :
    (Predicate.unlike false path operand .any).Asks E db m t (res.hops.flatMap (·.labels))
      fun row => ∃ c, reaches E db true res.hops row c ∧
        E.Unlike .any res.column.type patterns (c res.column.name) := by
  refine asks_path (P := fun path => .unlike false path operand .any)
    (Q := fun column c => E.Unlike .any column.type patterns (c column.name)) hm hnaming ?_
    (fun t path i r hmany hrest => Predicate.normal_unlike_merged hpatterns hmany hrest) ht hres
    hnodup
  intro t path res hres hmany hone hnodup
  exact (asks_unlike_direct hpatterns false .any hres hmany hone hnodup).imp
    (List.Subset.refl _) fun row => by simp only [iff_true]

omit hpatterns in
/-- Some row at the end of the path is there. -/
theorem asks_any_value :
    (Predicate.compare path .ne (.value .null) .any).Asks E db m t (res.hops.flatMap (·.labels))
      fun row => ∃ c, reaches E db true res.hops row c ∧ (c res.column.name).isSome := by
  refine asks_compare_any (Q := fun _ a => a.isSome) hm hnaming
    (Predicate.quantifies_null (by decide) .any) (fun target => ?_) ht hres hnodup
  refine ⟨_, plain_null m target true .any, fun rows env => ?_⟩
  rw [truth_isNull, iff_true_right rfl]

/-- Some row at the end of the path is like one of the patterns. -/
theorem asks_any_like :
    (Predicate.compare path .like operand .any).Asks E db m t (res.hops.flatMap (·.labels))
      fun row => ∃ c, reaches E db true res.hops row c ∧
        E.Likens .any res.column.type patterns (c res.column.name) := by
  refine asks_compare_any (Q := fun type a => E.Likens .any type patterns a) hm hnaming
    (Predicate.quantifies_like true operand .any) (fun target => ?_) ht hres hnodup
  obtain ⟨x, hx, htruth⟩ := exists_plain_like hpatterns m target true .any E db
  refine ⟨x, hx, fun rows env => ?_⟩
  rw [htruth, Engine.Likens]
  cases target.column.eval E db rows [env] env with
  | none => simp [Quantifier.truth_eq_true, Quantifier.Over]
  | some d => simpa using truth_patterns .any true

/-- **Along every path** a row is asked whether one of the rows at its end, or each of them, is NULL
or not like, and by the negation whether not. -/
theorem asks_unlike
    (hsingle : ∀ r ∈ res.hops.takeWhile (!·.fansOut), ∀ j ∈ r.joins, j.Single E db)
    (inverted : Bool) (q : Quantifier) :
    (Predicate.unlike inverted path operand (bif inverted then q.flip else q)).Asks E db m t
      (res.hops.flatMap (·.labels)) fun row =>
        q.Over (reaches E db true res.hops row) (fun c =>
          E.Unlike q res.column.type patterns (c res.column.name)) ↔ inverted = false := by
  obtain ⟨hwalk, -⟩ := Model.walk_of_resolve hres
  cases hmany : m.firstMany? t path with
  | none =>
    have hcrosses := Model.crossesMany_of_firstMany? hres hmany
    have hone := Resolution.crossesMany_eq_false.1 hcrosses
    rw [List.takeWhile_eq_self_iff.2 (by simpa using hone)] at hsingle
    refine (asks_unlike_direct hpatterns inverted q hres hmany hcrosses hnodup).imp
      (List.Subset.refl _) fun row => ?_
    obtain ⟨c, hc, hunique⟩ := existsUnique_reaches hwalk hone hsingle hnodup row
    rw [q.over_unique hc hunique]
    exact Quantifier.any.over_unique hc hunique
  | some found =>
    obtain ⟨i, r⟩ := found
    obtain ⟨hrest, -⟩ := hm.resolve_split ht hres hmany
    obtain ⟨before, res', hroute, hres', hhops, -, hcolumn, hfan, hone⟩ :=
      Model.resolve_split hres hmany hrest
    obtain ⟨hwalk, hlast⟩ := Model.walk_of_resolveRelationship hroute
    rw [hhops, List.takeWhile_append_of_pos (by simpa using hone),
      List.takeWhile_cons_of_neg (by simp [hfan]), List.append_nil] at hsingle
    have hsub : before.flatMap (·.labels) ⊆ res.hops.flatMap (·.labels) := by
      rw [hhops, List.flatMap_append]
      exact List.subset_append_left _ _
    rw [hhops] at hnodup
    obtain ⟨hbefore, hbehind, hchild⟩ := hlast.nodup_divided hnodup
    have hstart := exists_divided_row hwalk hone hsingle hbefore hfan res'.hops
    simp only [← hhops] at hstart
    cases q with
    | any =>
      refine (asks_related hroute hone hnaming hbefore hbehind
        (asks_any_unlike hm hnaming hpatterns hlast.covers_child hres' hchild)
        (Predicate.normal_unlike_merged hpatterns hmany hrest)).imp hsub fun row => ?_
      obtain ⟨b, hat, hfound⟩ := hstart row
      rw [hat, hcolumn, hfound, Quantifier.Over]
    | all =>
      have hnormal : (Predicate.unlike inverted path operand
          (bif inverted then Quantifier.all.flip else .all)).normal m t = _ :=
        Predicate.normal_unlike_apart hpatterns hmany hrest
      rw [Connective.or_under] at hnormal
      refine (asks_pair hroute hone hnaming hbefore hbehind
        (asks_any_value hm hnaming hlast.covers_child hres' hchild) hnormal
        (asks_any_like hm hnaming hpatterns hlast.covers_child hres' hchild)).imp hsub fun row => ?_
      obtain ⟨b, hat, hfound⟩ := hstart row
      -- A row that is like a pattern is there.
      have hthere : (∃ c, reaches E db true res.hops row c ∧
          E.Likens .any res.column.type patterns (c res.column.name)) →
          ∃ c, reaches E db true res.hops row c ∧ (c res.column.name).isSome := by
        rintro ⟨c, hc, d, hd, -⟩
        exact ⟨c, hc, by rw [hd]; rfl⟩
      rw [hat, hcolumn, over_unlike_all]
      refine (over_apart (F := fun R : Row D → Prop =>
        ∃ a, r.Follows (JoinStep.Links E db) b a ∧ R a) ?_).trans ?_
      · rwa [hfound, hfound]
      · rw [hfound]

end

/-- **NULL or not like, through fan-outs.** With ALL the condition that is written is true of a row
exactly if each row that the path leads to has NULL in the column or a value like none of the
patterns; with ANY, if some row has NULL there or a value that is not like some pattern. Its
negation is written too, and is true exactly if it is not. Where the path does not fan out, it leads
to a row of NULLs if there is none. The tables of the path need aliases of their own: where a link
table has the identity of its child, the two share one, and this is not so. -/
theorem compile_notLikeOrNull {naming : Naming} {schema : Option String} {all : List EntityDecl}
    {m : Model} (hm : Model.build naming schema all = .ok m)
    (hnaming : ∀ id i, m.naming.tableAlias id ≠ Build.cteName i) {t : Table} (ht : m.Covers t)
    {path : Path} {res : Resolution} (hres : m.resolve t path = .ok res)
    (hnodup : (m.aliasOf t :: res.hops.flatMap (·.labels)).Nodup)
    (hsingle : ∀ r ∈ res.hops.takeWhile (!·.fansOut), ∀ j ∈ r.joins, j.Single E db)
    {operand : Operand} {patterns : List Value} (hpatterns : operand.listed? = some patterns)
    (q : Quantifier) (origin : JoinOrigin) :
    ∃ p e g e' g',
      (Predicate.compare path .notLikeOrNull operand q).invert = .ok p ∧
      ((Predicate.compare path .notLikeOrNull operand q).compile m origin).Gives
        ⟨.ofTable m t, []⟩ e g ∧
      (p.compile m origin).Gives ⟨.ofTable m t, []⟩ e' g' ∧
      ∀ row,
        (g.Passes E db m e row ↔ match q with
          | .all => ∀ c, reaches E db (!res.crossesMany) res.hops row c →
              c res.column.name = none ∨ ∃ d, c res.column.name = some d ∧
                ∀ v ∈ patterns, E.like d (E.datum v res.column.type) = false
          | .any => ∃ c, reaches E db (!res.crossesMany) res.hops row c ∧
              (c res.column.name = none ∨ ∃ d, c res.column.name = some d ∧
                ∃ v ∈ patterns, E.like d (E.datum v res.column.type) = false)) ∧
        (g'.Passes E db m e' row ↔ ¬ g.Passes E db m e row) := by
  have hasks := asks_unlike (Model.unambiguous_build hm) hnaming hpatterns ht hres hnodup hsingle
  obtain ⟨e, g, hgives, hpasses⟩ := (hasks false q).passes origin
  obtain ⟨e', g', hgives', hpasses'⟩ := (hasks true q).passes origin
  have hsimplify : (Predicate.compare path .notLikeOrNull operand q).simplify =
      (Predicate.unlike false path operand q).simplify := by
    rw [Predicate.simplify_unlike, Predicate.simplify, if_pos rfl]
    rfl
  have hreaches : ∀ row c,
      reaches E db (!res.crossesMany) res.hops row c ↔ reaches E db true res.hops row c := by
    intro row c
    cases hmany : res.crossesMany with
    | false => rfl
    | true => exact reaches_extended (Resolution.crossesMany_eq_true.1 hmany)
  refine ⟨_, e, g, e', g', Predicate.invert_notLikeOrNull hpatterns q, ?_, hgives', fun row => ?_⟩
  · rw [Predicate.compile_congr hsimplify]
    exact hgives
  · have htrue := (hpasses row).trans (iff_true_right rfl)
    have hfalse := (hpasses' row).trans (iff_false_right (by decide))
    refine ⟨htrue.trans ?_, hfalse.trans (not_congr htrue.symm)⟩
    simp only [hreaches]
    cases q <;> exact Iff.rfl

namespace Shop

/-- From an order to its customer and on to all lines of the customer's orders. -/
def customerLines (naming : Naming) : List Relationship :=
  let buyer := (model naming).unfold orders
    ⟨"customer", .oneToOne, "Customer", "customer_id", "id", none, []⟩ customer
  let bought := (model naming).unfold buyer.child
    ⟨"orders", .oneToMany, "Order", "id", "customer_id", none, []⟩ order
  [buyer, bought, (model naming).unfold bought.child
    ⟨"lines", .oneToMany, "Line", "id", "order_id", none, []⟩ line]

theorem resolve_customerLines (naming : Naming) :
    (model naming).resolve orders ⟨["customer", "orders", "lines", "sku"]⟩ =
      .ok ⟨customerLines naming, Model.endOf orders (customerLines naming), column "sku"⟩ := by
  rfl

/-- An article of the customer is unknown or neither of two. -/
def otherArticles (q : Quantifier) : Predicate :=
  .compare ⟨["customer", "orders", "lines", "sku"]⟩ .notLikeOrNull
    (.values [.text "nib", .text "pen"]) q

/-- An order of the customer `c`. -/
def orderOf (id : String) : Row String
  | "id" => some id
  | "customer_id" => some "c"
  | _ => none

/-- A customer with two orders: one has a line with a pen, the other a line without an article. -/
def twoOrders : Database String
  | _, "customers" => [fun name => if name = "id" then some "c" else none]
  | _, "orders" => [orderOf "1", orderOf "2"]
  | _, "lines" => [orderLine "a" "pen", fun name => if name = "order_id" then some "2" else none]
  | _, _ => []

theorem reached_twoOrders :
    (reached engine twoOrders false (customerLines plain) (orderOf "1")).map (· "sku") =
      [some "pen", none] := by
  rfl

end Shop

/-- The customer has an article that is unknown, and one that is like a pattern: so with ANY the
condition is true and its negation is not, and with ALL it is the other way round. -/
theorem compile_notLikeOrNull_twoOrders :
    (∃ p e g e' g', (Shop.otherArticles .any).invert = .ok p ∧
      ((Shop.otherArticles .any).compile (Shop.model Shop.plain) .filter).Gives
        ⟨.ofTable (Shop.model Shop.plain) Shop.orders, []⟩ e g ∧
      (p.compile (Shop.model Shop.plain) .filter).Gives
        ⟨.ofTable (Shop.model Shop.plain) Shop.orders, []⟩ e' g' ∧
      g.Passes Shop.engine Shop.twoOrders (Shop.model Shop.plain) e (Shop.orderOf "1") ∧
      ¬ g'.Passes Shop.engine Shop.twoOrders (Shop.model Shop.plain) e' (Shop.orderOf "1")) ∧
    ∃ p e g e' g', (Shop.otherArticles .all).invert = .ok p ∧
      ((Shop.otherArticles .all).compile (Shop.model Shop.plain) .filter).Gives
        ⟨.ofTable (Shop.model Shop.plain) Shop.orders, []⟩ e g ∧
      (p.compile (Shop.model Shop.plain) .filter).Gives
        ⟨.ofTable (Shop.model Shop.plain) Shop.orders, []⟩ e' g' ∧
      ¬ g.Passes Shop.engine Shop.twoOrders (Shop.model Shop.plain) e (Shop.orderOf "1") ∧
      g'.Passes Shop.engine Shop.twoOrders (Shop.model Shop.plain) e' (Shop.orderOf "1") := by
  have hres := Shop.resolve_customerLines Shop.plain
  have hwalk := (Model.walk_of_resolve hres).1
  have hnodup := (hwalk.nodup_labels_iff Shop.faithful_plain
    (.root Shop.derive_plain_ne_orders)).2 (by decide)
  have hsingle : ∀ r ∈ (Shop.customerLines Shop.plain).takeWhile (!·.fansOut),
      ∀ j ∈ r.joins, j.Single Shop.engine Shop.twoOrders := by
    intro r hr
    obtain ⟨u, hu, hrel⟩ := hwalk.relates (Shop.covers_orders _) r
      ((List.takeWhile_sublist _).subset hr)
    have hone : r.fansOut = false := by simpa using List.mem_takeWhile_imp hr
    exact Shop.oneToOne_of_customers Shop.plain Shop.engine Shop.twoOrders
      (fun _ => Nat.le_refl 1) u r hu hrel (r.fansOut_eq_false_iff.1 hone)
  have hwritten := fun q => compile_notLikeOrNull (Shop.build_declarations Shop.plain)
    Shop.faithful_plain.ne_cteName (Shop.covers_orders _) hres hnodup hsingle
    (rfl : (Operand.values [.text "nib", .text "pen"]).listed? = some _) q .filter
  have hfound : ∀ a ∈ [some "pen", none], ∃ c, reaches Shop.engine Shop.twoOrders false
      (Shop.customerLines Shop.plain) (Shop.orderOf "1") c ∧ c "sku" = a := by
    intro a ha
    rw [← Shop.reached_twoOrders] at ha
    obtain ⟨c, hc, hvalue⟩ := List.mem_map.1 ha
    exact ⟨c, mem_reached.1 hc, hvalue⟩
  constructor
  · obtain ⟨p, e, g, e', g', hp, h, h', hpasses⟩ := hwritten .any
    obtain ⟨htrue, hfalse⟩ := hpasses (Shop.orderOf "1")
    obtain ⟨c, hc, hnull⟩ := hfound none (by simp)
    have hpass := htrue.2 ⟨c, hc, .inl hnull⟩
    exact ⟨p, e, g, e', g', hp, h, h', hpass, fun hnot => hfalse.1 hnot hpass⟩
  · obtain ⟨p, e, g, e', g', hp, h, h', hpasses⟩ := hwritten .all
    obtain ⟨htrue, hfalse⟩ := hpasses (Shop.orderOf "1")
    obtain ⟨c, hc, hpen⟩ := hfound (some "pen") (by simp)
    have hfail : ¬ g.Passes Shop.engine Shop.twoOrders (Shop.model Shop.plain) e
        (Shop.orderOf "1") := by
      intro hpass
      rcases htrue.1 hpass c hc with hnull | ⟨d, hd, hunlike⟩
      · cases hpen.symm.trans hnull
      · cases hpen.symm.trans hd
        exact absurd (hunlike (.text "pen") (by simp)) (by decide)
    exact ⟨p, e, g, e', g', hp, h, h', hfail, hfalse.2 hfail⟩

end EntityQuery
