import EntityQuery.Proofs.Graph.Members
import EntityQuery.Proofs.Scope.Joins
import EntityQuery.Proofs.Sql.Conditions

/-!
# The conditions of predicates

Every condition that a predicate is written as fits its place: it can be read back from its tokens.

**Comparisons** fit because a column stands on one side and a parameter or a column on the other.
**Joins** compare columns and add the conditions declared for the relationship. Those have operators
that compare, because the check of declarations accepts no others (`Model.compares_of_build`).
**Groups and CTEs** put conditions together by `combine`.

`Writes.readable` is the induction: writing keeps a frame readable, and what it yields are
conditions.
-/

namespace EntityQuery

open EntityQuery.Sql (Expr Query)

/-! ## Declared conditions -/

/-- The conditions on joined tables compare. -/
def Model.Compares (m : Model) : Prop :=
  ∀ e ∈ m.entities, ∀ rel ∈ e.relations,
    (∀ f ∈ rel.filters, f.op.isLogical = false) ∧
      ∀ link ∈ rel.link, ∀ f ∈ link.filters, f.op.isLogical = false

theorem isLogical_conditionOperator? {text : String} {op : Sql.BinaryOp}
    (h : conditionOperator? text = some op) : op.isLogical = false := by
  simp only [conditionOperator?] at h
  split at h <;> cases h <;> rfl

theorem RelationDecl.mem_filtersAt {join : Nat} {filters : List (Nat × JoinFilter)}
    {f : JoinFilter} (h : f ∈ filtersAt join filters) : ∃ j, (j, f) ∈ filters := by
  obtain ⟨⟨j, f'⟩, hmem, hf⟩ := List.mem_filterMap.1 h
  dsimp only at hf
  split at hf
  · cases hf
    exact ⟨j, hmem⟩
  · cases hf

/-- **The conditions of a built model compare.** -/
theorem Model.compares_of_build {m : Model} {naming : Naming} {schema : Option String}
    {all : List EntityDecl} (h : Model.build naming schema all = .ok m) : m.Compares := by
  intro e he rel hrel
  obtain ⟨d, -, d', -, hcheck⟩ := Model.declared_of_build (t := ⟨e, default, []⟩) h he hrel
  obtain ⟨-, target, left, right, link, filters, -, -, -, -, hfilters, rfl⟩ :=
    RelationDecl.check_eq_ok hcheck
  have hop : ∀ join, ∀ f ∈ RelationDecl.filtersAt join filters, f.op.isLogical = false := by
    intro join f hf
    obtain ⟨j, hmem⟩ := RelationDecl.mem_filtersAt hf
    obtain ⟨c, -, hc⟩ := exists_of_mapM_eq_ok hfilters _ hmem
    obtain ⟨f', hf', hpair⟩ := bind_eq_ok.1 hc
    cases hpair
    exact isLogical_conditionOperator? (RelationDecl.checkCondition_eq_ok hf').2.1
  refine ⟨hop _, fun l hl => ?_⟩
  obtain ⟨decl, -, rfl⟩ := Option.map_eq_some_iff.1 hl
  exact hop 0

/-! ## Conditions of joins -/

section

variable {m : Model} {t : Table} {r : Relationship}

theorem fits_ofTable (table column : String) (place : Sql.Place) :
    (Expr.ofTable table column).Fits place := True.intro

theorem JoinFilter.isCondition_expr {f : JoinFilter} (hop : f.op.isLogical = false)
    (label : String) : (f.expr label).IsCondition := by
  have hcolumn : (Expr.ofTable label f.column).Fits .operand := True.intro
  simp only [expr]
  split
  · exact Expr.isCondition_isNull hcolumn false
  · exact Expr.isCondition_isNull hcolumn true
  · exact Expr.isCondition_compare hop hcolumn True.intro

theorem JoinStep.isCondition_condition (j : JoinStep) : j.condition.IsCondition :=
  Expr.isCondition_compare rfl True.intro True.intro

/-- The relationships of a model add comparisons to their joins. -/
theorem Model.Relates.isCondition_filterExprs (hr : m.Relates t r) (hm : m.Compares)
    (ht : m.Covers t) {j : JoinStep} (hj : j ∈ r.joins) : ∀ e ∈ j.filterExprs, e.IsCondition := by
  intro e he
  obtain ⟨f, hf, rfl⟩ := List.mem_map.1 he
  refine f.isCondition_expr ?_ j.label
  obtain ⟨rel, hrel, target, -, rfl⟩ := hr
  obtain ⟨hfilters, hlink⟩ := hm t.entity ht rel hrel
  cases hl : rel.link with
  | none =>
    simp only [unfold, hl, Relationship.joins, Option.toList_none, List.nil_append,
      List.mem_singleton] at hj
    subst hj
    exact hfilters f hf
  | some link =>
    simp only [unfold, hl, Relationship.joins, Option.toList_some, List.cons_append,
      List.nil_append, List.mem_cons, List.not_mem_nil, or_false] at hj
    rcases hj with rfl | rfl
    · exact hlink link hl f hf
    · exact hfilters f hf

theorem Model.Relates.isCondition_on (hr : m.Relates t r) (hm : m.Compares) (ht : m.Covers t)
    {j : JoinStep} (hj : j ∈ r.joins) : j.on.IsCondition :=
  Expr.isCondition_combine_getD rfl
    (List.forall_mem_cons.2 ⟨j.isCondition_condition, hr.isCondition_filterExprs hm ht hj⟩)
    j.isCondition_condition

end

/-! ## Comparisons -/

theorem Operator.isLogical_binary? {op : Operator} {binary : Sql.BinaryOp}
    (h : op.binary? = some binary) : binary.isLogical = false := by
  cases op <;> cases h <;> rfl

namespace Target

variable {t : Target} {e : Expr}

theorem isCondition_words (ht : t.column.Fits .operand) {op connective : Sql.BinaryOp} {v : Value}
    (hop : op.isLogical = false) (hconnective : connective.isLogical)
    (he : t.words op connective v = .ok e) : e.IsCondition := by
  simp only [words] at he
  split at he
  · contradiction
  · cases he
    refine Expr.isCondition_combine_getD hconnective (fun x hx => ?_) ⟨.and, True.intro⟩
    obtain ⟨s, -, rfl⟩ := List.mem_map.1 hx
    exact Expr.isCondition_compare hop ht True.intro

theorem isCondition_scalar (ht : t.column.Fits .operand) {op : Operator} {v : Value}
    (he : t.scalar op v = .ok e) : e.IsCondition := by
  have hnull := Expr.isCondition_isNull ht
  simp only [scalar] at he
  split at he
  · split at he
    · cases he
      exact hnull false
    · cases he
      exact hnull true
    · contradiction
  · split at he
    · exact isCondition_words ht rfl rfl he
    · exact isCondition_words ht rfl rfl he
    · cases he
      exact Expr.isCondition_combine₂ rfl (hnull false)
        (Expr.isCondition_compare rfl ht True.intro)
    · split at he
      · rename_i hop
        cases he
        exact Expr.isCondition_compare (Operator.isLogical_binary? hop) ht True.intro
      · contradiction

theorem isCondition_inList (ht : t.column.Fits .operand) (vs : List Value) (negated : Bool) :
    (Expr.inList t.column (vs.map t.param) negated).IsCondition :=
  ⟨.and, rfl, ht, Sql.fitAll_iff.2 (List.forall_mem_map.2 fun _ _ => True.intro)⟩

theorem isCondition_list (ht : t.column.Fits .operand) {op : Operator} {vs : List Value}
    {q : Quantifier} (he : t.list op vs q = .ok e) : e.IsCondition := by
  unfold list at he
  split at he
  · cases he
    exact isCondition_inList ht [] _
  · exact isCondition_scalar ht he
  · split at he
    · cases he
      exact isCondition_inList ht vs false
    · cases he
      exact isCondition_inList ht vs true
    · contradiction
    · contradiction
    · obtain ⟨parts, hparts, h⟩ := bind_eq_ok.1 he
      cases h
      refine Expr.isCondition_combine_getD ?_ (fun x hx => ?_) ⟨.and, True.intro⟩
      · split <;> rfl
      · obtain ⟨v, -, hv⟩ := exists_of_mapM_eq_ok hparts x hx
        exact isCondition_scalar ht hv

end Target

theorem isCondition_compareColumns {left right : Target} {op : Operator} {e : Expr}
    (hl : left.column.Fits .operand) (hr : right.column.Fits .operand)
    (he : compareColumns left right op = .ok e) : e.IsCondition := by
  simp only [compareColumns] at he
  split at he
  · cases he
    exact Expr.isCondition_combine₂ rfl (Expr.isCondition_isNull hl false)
      (Expr.isCondition_compare rfl hl hr)
  · split at he
    · rename_i hop
      cases he
      exact Expr.isCondition_compare (Operator.isLogical_binary? hop) hl hr
    · contradiction

/-! ## Frames -/

/-- The conditions that a query over the scope takes from it fit. -/
structure Scope.Readable (s : Scope) : Prop where
  joins : ∀ j ∈ s.joins, j.join.on.IsCondition
  baseJoins : ∀ j ∈ s.baseJoins, j.on.IsCondition
  baseFilters : ∀ e ∈ s.baseFilters, e.IsCondition

namespace Scope.Readable

variable {m : Model} {s s' : Scope}

theorem joinsFor (h : s.Readable) (filterOnly : Bool) :
    ∀ j ∈ s.joinsFor filterOnly, j.on.IsCondition := by
  intro j hj
  rcases mem_joinsFor hj with hj | ⟨i, hi, rfl⟩
  · exact h.baseJoins j hj
  · exact h.joins i hi

/-- A query over the scope is readable if it was before. -/
theorem apply (h : s.Readable) {q : Query} (hq : q.Readable) (filterOnly : Bool) :
    (s.apply q filterOnly).Readable := by
  rw [Query.readable_iff] at hq ⊢
  obtain ⟨hctes, hitems, -, hjoins, hrest⟩ := hq
  refine ⟨hctes, hitems, fun q' label hsource => ?_, ?_, hrest⟩
  · cases hsource
  · exact List.forall_mem_append.2 ⟨hjoins, h.joinsFor filterOnly⟩

theorem joinHops (h : s.Readable) (hm : m.Compares) (hroot : m.Covers s.root)
    {hops : List Relationship} {origin : JoinOrigin} (hwalk : m.Walk s.root hops)
    (hs : s.joinHops hops origin = .ok s') : s'.Readable where
  joins := by
    refine forall_joinHops (P := fun j => j.on.IsCondition) hs h.joins fun r hr j hj => ?_
    obtain ⟨u, hu, hr'⟩ := hwalk.relates hroot r hr
    exact hr'.isCondition_on hm hu hj
  baseJoins := (grows_joinHops hs).baseJoins ▸ h.baseJoins
  baseFilters := (grows_joinHops hs).baseFilters ▸ h.baseFilters

end Scope.Readable

theorem Scope.readable_ofTable (m : Model) (t : Table) : (Scope.ofTable m t).Readable :=
  ⟨List.forall_mem_nil _, List.forall_mem_nil _, List.forall_mem_nil _⟩

theorem Scope.readable_ofRelationship {m : Model} {t : Table} {r : Relationship}
    (hm : m.Compares) (ht : m.Covers t) (hr : m.Relates t r) :
    (Scope.ofRelationship r).Readable where
  joins := List.forall_mem_nil _
  baseJoins := by
    refine List.forall_mem_map.2 fun link hlink => ?_
    have hcondition := r.childJoin.isCondition_condition
    refine Expr.isCondition_combine_getD rfl (List.forall_mem_cons.2 ⟨hcondition, ?_⟩) hcondition
    exact hr.isCondition_filterExprs hm ht (List.mem_append_left _ hlink)
  baseFilters := hr.isCondition_filterExprs hm ht
    (List.mem_append_right _ (List.mem_singleton_self _))

/-- All conditions written so far fit. -/
structure Frame.Readable (m : Model) (f : Frame) : Prop where
  root : m.Covers f.scope.root
  scope : f.scope.Readable
  ctes : ∀ c ∈ f.ctes, c.query.Readable

section

variable {m : Model} {f g : Frame}

theorem Frame.Readable.joinHops (h : f.Readable m) (hm : m.Compares) {hops : List Relationship}
    {origin : JoinOrigin} {s : Scope} (hwalk : m.Walk f.scope.root hops)
    (hs : f.scope.joinHops hops origin = .ok s) : (Frame.mk s f.ctes).Readable m where
  root := by
    rw [(Scope.grows_joinHops hs).root]
    exact h.root
  scope := h.scope.joinHops hm h.root hwalk hs
  ctes := h.ctes

theorem Frame.Readable.joinColumn (h : f.Readable m) (hm : m.Compares) {path : Path}
    {origin : JoinOrigin} {target : Target}
    (htarget : (joinColumn m path origin).Gives f target g) :
    g.Readable m ∧ target.column.Fits .operand := by
  obtain ⟨r, s, hr, -, hs, rfl, rfl⟩ := gives_joinColumn.1 htarget
  exact ⟨h.joinHops hm (Model.walk_of_resolve hr).1 hs, True.intro⟩

theorem Frame.readable_ofTable {t : Table} {ctes : List Sql.Cte} (ht : m.Covers t)
    (hctes : ∀ c ∈ ctes, c.query.Readable) : (Frame.mk (.ofTable m t) ctes).Readable m :=
  ⟨ht, Scope.readable_ofTable m t, hctes⟩

theorem Frame.readable_ofRelationship {t : Table} {r : Relationship} {ctes : List Sql.Cte}
    (hm : m.Compares) (ht : m.Covers t) (hr : m.Relates t r)
    (hctes : ∀ c ∈ ctes, c.query.Readable) : (Frame.mk (.ofRelationship r) ctes).Readable m :=
  ⟨hr.covers_child, Scope.readable_ofRelationship hm ht hr, hctes⟩

end

theorem readable_keysQuery {r : Relationship} {conditions : List Expr}
    {counted : Option (Expr × Nat)} (hconditions : ∀ e ∈ conditions, e.IsCondition)
    (hcounted : ∀ c ∈ counted, c.1.Fits .operand) :
    (keysQuery r.linkKey conditions counted).Readable := by
  have hlink : r.linkKey.Readable := (fits_ofTable _ _ .operand).readable
  have hcondition : ∀ c ∈ Expr.combine .and conditions, c.IsCondition :=
    Expr.isCondition_combine rfl hconditions
  rw [Query.readable_iff]
  cases counted with
  | none =>
    simpa [keysQuery, Query.empty] using ⟨hlink, hcondition⟩
  | some c =>
    have hcount : (Expr.binary (.countDistinct c.1) .gte (.int (Sql.rowCount c.2))).IsCondition :=
      Expr.isCondition_compare rfl ⟨List.cons_ne_nil _ _, hcounted c rfl, True.intro⟩ True.intro
    simpa [keysQuery, Query.empty] using ⟨hlink, hcondition, hlink, hcount⟩

/-- A CTE of keys joined to the scope of its parent. -/
theorem Frame.Readable.withKeys {m : Model} {s : Scope} {ctes : List Sql.Cte} {r : Relationship}
    {keys : Query} {origin : JoinOrigin} (h : (Frame.mk s ctes).Readable m)
    (hkeys : keys.Readable) : (Frame.withKeys s ctes r keys origin).Readable m where
  root := h.root
  scope := by
    refine ⟨Scope.forall_joinCte (P := fun j => j.on.IsCondition) h.scope.joins ?_,
      h.scope.baseJoins, h.scope.baseFilters⟩
    exact Expr.isCondition_compare rfl True.intro True.intro
  ctes := List.forall_mem_append.2 ⟨h.ctes, List.forall_mem_singleton.2 hkeys⟩

/-- The subqueries of filters have the form that IN asks for. -/
theorem fits_subqueryQuery {s : Scope} {column : Expr} {condition : Option Expr} (h : s.Readable)
    (hcolumn : column.Fits .operand) (hcondition : ∀ c ∈ condition, c.IsCondition) :
    (subqueryQuery s column condition).Fits :=
  ⟨⟨rfl, rfl, rfl, rfl, rfl, rfl, rfl, rfl, s.source, rfl⟩, hcolumn,
    Sql.fitJoins_iff.2 (h.joinsFor false), Sql.fitOption_iff.2 hcondition⟩

/-! ## Writing -/

/-- The column that an operand is compared with is one. -/
def Task.TargetFits : Task → Prop
  | .operand target _ _ _ => target.column.Fits .operand
  | _ => True

/-- **Writing keeps a frame readable, and yields conditions.** -/
theorem Writes.readable {m : Model} (hm : m.Compares) {task : Task} {f g : Frame} {es : List Expr}
    (h : Writes m m.Covers task f es g) (hf : f.Readable m) (htask : task.TargetFits) :
    g.Readable m ∧ ∀ e ∈ es, e.IsCondition := by
  induction h with
  | compile _ _ ih => exact ih hf True.intro
  | @group op _ _ _ _ _ _ ih =>
    obtain ⟨hg, hes⟩ := ih hf True.intro
    refine ⟨hg, fun e he => ?_⟩
    have hop : op.binary.isLogical := by cases op <;> rfl
    exact Expr.isCondition_combine hop hes e (Option.mem_toList.1 he)
  | compare htarget _ ih =>
    obtain ⟨hg, hcolumn⟩ := hf.joinColumn hm htarget
    exact ih hg hcolumn
  | columns hl hr he =>
    obtain ⟨hg, hleft⟩ := hf.joinColumn hm hl
    obtain ⟨hh, hright⟩ := hg.joinColumn hm hr
    exact ⟨hh, List.forall_mem_singleton.2 (isCondition_compareColumns hleft hright he)⟩
  | related hroute hs hw hcounted ih =>
    obtain ⟨hwalk, hlast⟩ := Model.walk_of_resolveRelationship hroute
    have hend := hwalk.covers_endOf hf.root
    -- The body is written in a scope of its own, with the CTEs that are there.
    obtain ⟨hg, hes⟩ := ih (Frame.readable_ofRelationship hm hend hlast hf.ctes) True.intro
    obtain ⟨hbody, hcount⟩ :=
      joinThreshold_induction (Q := (·.Fits .operand)) hg hcounted (hg.joinColumn hm)
    have hbefore := hf.joinHops hm hwalk hs
    refine ⟨Frame.Readable.withKeys ⟨hbefore.root, hbefore.scope, hbody.ctes⟩
      (hbody.scope.apply (readable_keysQuery ?_ hcount) false), List.forall_mem_singleton.2 ?_⟩
    · exact List.forall_mem_append.2 ⟨hbody.scope.baseFilters, hes⟩
    · exact Expr.isCondition_isNull (fits_ofTable _ _ _) _
  | value he => exact ⟨hf, List.forall_mem_singleton.2 (Target.isCondition_scalar htask he)⟩
  | values he => exact ⟨hf, List.forall_mem_singleton.2 (Target.isCondition_list htask he)⟩
  | subquery ht _ hselected _ ih =>
    obtain ⟨hg, hcolumn⟩ := (Frame.readable_ofTable ht hf.ctes).joinColumn hm hselected
    obtain ⟨hscope, hes⟩ := ih hg True.intro
    refine ⟨⟨hf.root, hf.scope, hscope.ctes⟩, List.forall_mem_singleton.2 ?_⟩
    refine ⟨.and, rfl, htask, fits_subqueryQuery hscope.scope hcolumn fun c hc => ?_⟩
    exact hes c (List.mem_of_mem_head? hc)
  | nil => exact ⟨hf, List.forall_mem_nil _⟩
  | cons _ _ ih₁ ih₂ =>
    obtain ⟨hg, hes⟩ := ih₁ hf True.intro
    obtain ⟨hh, hrest⟩ := ih₂ hg True.intro
    exact ⟨hh, List.forall_mem_append.2 ⟨hes, hrest⟩⟩
  | noFilter => exact ⟨hf, List.forall_mem_nil _⟩
  | filter _ ih => exact ih hf True.intro

theorem Frame.Readable.compile {m : Model} {f g : Frame} {p : Predicate} {origin : JoinOrigin}
    {e : Option Expr} (h : f.Readable m) (hm : m.Compares) (hp : p.OnTables m.Covers)
    (hw : (p.compile m origin).Gives f e g) : g.Readable m ∧ ∀ c ∈ e, c.IsCondition := by
  obtain ⟨hg, hes⟩ := (writes_compile hp hw).readable hm h True.intro
  exact ⟨hg, by simpa using hes⟩

end EntityQuery
