import EntityQuery.Proofs.Failure
import EntityQuery.Proofs.Predicate.Sound

/-!
# Failing predicates

What a predicate fails with when it is written. An error is about a condition that has no SQL form
(`QueryError.OfCondition`) or about a path that is not found, and of a path only if the predicate is
not sound (`QueryError.Excused`). Each function of the writer has a lemma that says so, and the
recursion of the writer puts them together (`excused_compile`).

So a validated predicate never fails for a path.
-/

namespace EntityQuery

open EntityQuery.Sql (Expr)

variable {m : Model} {t : Table} {e : QueryError} {origin : JoinOrigin} {target : Target}
  {via : Path}

/-! ## Kinds of errors -/

namespace QueryError

/-- The error is about a condition that has no SQL form. -/
def OfCondition : QueryError → Prop
  | notInvertible _ | unsupportedOperator _ | quantifierOutsideMany .. | crossBranch ..
  | wordNotText .. => True
  | _ => False

theorem OfCondition.kind_eq (h : e.OfCondition) : e.kind = .compilation := by
  cases e <;> first | rfl | cases h

/-- The error is about a condition, or about a path of what is not sound. -/
def Excused (sound : Prop) (e : QueryError) : Prop :=
  e.OfCondition ∨ e.kind = .pathResolution ∧ ¬ sound

theorem Excused.imp {a b : Prop} (hab : a → b) (h : e.Excused b) : e.Excused a :=
  h.imp_right fun hpath => ⟨hpath.1, fun ha => hpath.2 (hab ha)⟩

end QueryError

theorem Model.kind_of_resolve {path : Path} (h : m.resolve t path = .error e) :
    e.kind = .pathResolution := by
  simp only [resolve] at h
  split at h
  · split at h
    · cases h
    · split at h <;> cases h <;> rfl
  · cases h
    rfl

theorem Model.kind_of_resolveRelationship {path : Path}
    (h : m.resolveRelationship t path = .error e) : e.kind = .pathResolution := by
  simp only [resolveRelationship] at h
  split at h
  · cases h
  · split at h <;> cases h <;> rfl

/-! ## Comparisons -/

theorem Target.ofCondition_words {op connective : Sql.BinaryOp} {v : Value}
    (h : target.words op connective v = .error e) : e.OfCondition := by
  rw [words] at h
  split at h
  · cases h
    exact ⟨⟩
  · cases h

theorem Target.ofCondition_scalar {op : Operator} {v : Value} (h : target.scalar op v = .error e) :
    e.OfCondition := by
  simp only [scalar] at h
  split at h
  · split at h <;> cases h
    exact ⟨⟩
  · split at h
    · exact ofCondition_words h
    · exact ofCondition_words h
    · cases h
    · split at h <;> cases h
      exact ⟨⟩

theorem Target.ofCondition_list {op : Operator} {vs : List Value} {q : Quantifier}
    (h : target.list op vs q = .error e) : e.OfCondition := by
  unfold list at h
  split at h
  · cases h
  · exact ofCondition_scalar h
  · split at h
    · cases h
    · cases h
    · cases h
      exact ⟨⟩
    · cases h
      exact ⟨⟩
    · rcases bind_eq_error.1 h with h | ⟨_, -, h⟩
      · obtain ⟨v, -, hv⟩ := exists_of_mapM_eq_error h
        exact ofCondition_scalar hv
      · cases h

theorem ofCondition_compareColumns {left right : Target} {op : Operator}
    (h : compareColumns left right op = .error e) : e.OfCondition := by
  unfold compareColumns at h
  split at h
  · cases h
  · split at h <;> cases h
    exact ⟨⟩

theorem ofCondition_subqueryNegated {op : Operator} (h : subqueryNegated op = .error e) :
    e.OfCondition := by
  unfold subqueryNegated at h
  split at h <;> cases h
  exact ⟨⟩

/-! ## Joins -/

/-- A walk that starts in a scope is joined there. -/
theorem Scope.joinHops_ne_error {s : Scope} {hops : List Relationship} (h : m.Walk s.root hops) :
    s.joinHops hops origin ≠ .error e := by
  cases h with
  | nil => simp [joinHops]
  | cons hr _ => simp [joinHops, hr.parent_eq, Table.isAtOrBelow]

/-- A walk that starts in a scope is joined there. -/
theorem Scope.exists_joinHops {s : Scope} {hops : List Relationship} (h : m.Walk s.root hops)
    (origin : JoinOrigin) : ∃ s', s.joinHops hops origin = .ok s' := by
  cases hs : s.joinHops hops origin with
  | ok s' => exact ⟨s', rfl⟩
  | error e => exact absurd hs (joinHops_ne_error h)

variable {f : Frame}

theorem excused_joinColumn {path : Path} (h : (joinColumn m path origin).Throws f e) :
    e.Excused (m.Resolves f.scope.root path) := by
  simp only [joinColumn, Build.throws_bind, Build.not_throws_root, Build.gives_root,
    Build.throws_lift, Build.gives_lift, false_or] at h
  obtain ⟨_, _, ⟨rfl, rfl⟩, hr | ⟨r, _, ⟨hr, rfl⟩, h⟩⟩ := h
  · refine .inr ⟨Model.kind_of_resolve hr, fun hres => ?_⟩
    obtain ⟨r, hr'⟩ := hres
    cases hr.symm.trans hr'
  · split at h
    · simp only [Build.throws_bind, Build.throws_throw, Build.not_gives_throw, false_and,
        exists_false, or_false] at h
      subst h
      exact .inl ⟨⟩
    · simp only [Build.throws_bind, Build.throws_join, Build.not_throws_pure, and_false,
        exists_false, or_false] at h
      exact absurd h (Scope.joinHops_ne_error (Model.walk_of_resolve hr).1)

theorem excused_joinThreshold {threshold : Option Threshold}
    (h : (joinThreshold m threshold).Throws f e) :
    e.Excused (∀ c ∈ threshold, m.Resolves f.scope.root c.column) := by
  cases threshold with
  | none => exact absurd h Build.not_throws_pure
  | some c =>
    simp only [joinThreshold, Build.throws_bind, Build.not_throws_pure, and_false, exists_false,
      or_false] at h
    exact (excused_joinColumn h).imp fun hsound => hsound c rfl

/-! ## Correlation -/

namespace Predicate

variable {op : Operator} {path : Path} {q : Quantifier} {operand : Operand}

theorem ofCondition_invert_compare (h : (compare path op operand q).invert = .error e) :
    e.OfCondition := by
  cases operand with
  | subquery s =>
    simp only [invert] at h
    cases h
    exact ⟨⟩
  | value v => simp [invert] at h
  | values vs => simp [invert] at h

theorem excused_containment {rest : Path} {vs : List Value} {inverted : Bool}
    (h : containment m t path via rest vs inverted = .error e) :
    e.Excused (∃ route, m.resolveRelationship t via = .ok route) := by
  simp only [containment] at h
  split at h
  · rename_i hnone
    cases h
    refine .inr ⟨rfl, fun hroute => ?_⟩
    obtain ⟨route, hroute⟩ := hroute
    simp [Model.relationshipAt?, Model.resolveRelationship_eq_ok hroute, Route.hops] at hnone
  · split at h
    · cases h
      exact .inl ⟨⟩
    · split at h <;> cases h

theorem excused_correlateAt {rest : Path}
    (h : correlateAt m t path via rest op operand q = .error e) :
    e.Excused (∃ route, m.resolveRelationship t via = .ok route) := by
  unfold correlateAt at h
  split at h
  · exact excused_containment h
  · exact excused_containment h
  · cases h
  · rcases bind_eq_error.1 h with h | ⟨_, -, h⟩
    · exact .inl (ofCondition_invert_compare h)
    · cases h

theorem excused_correlateCompare (hm : m.Unambiguous)
    (h : correlateCompare m t path op operand q = .error e) :
    e.Excused (m.Covers t ∧ m.Resolves t path) := by
  simp only [correlateCompare] at h
  split at h
  · cases h
  · rename_i i r hmany
    split at h
    · rename_i hempty
      cases h
      -- A column path goes on behind its fan-out.
      refine .inr ⟨rfl, fun hsound => ?_⟩
      obtain ⟨ht, res, hres⟩ := hsound
      simp [(hm.resolve_split ht hres hmany).1] at hempty
    · refine (excused_correlateAt h).imp fun hsound => ?_
      obtain ⟨ht, res, hres⟩ := hsound
      obtain ⟨-, before, -, hvia, -⟩ := hm.resolve_split ht hres hmany
      exact ⟨_, hvia⟩

theorem ofCondition_correlateColumns {left right : Path}
    (h : correlateColumns m t left op right = .error e) : e.OfCondition := by
  simp only [correlateColumns] at h
  split at h
  · cases h
  · split at h <;> cases h
    exact ⟨⟩
  · cases h
    exact ⟨⟩

mutual

theorem excused_correlate (hm : m.Unambiguous) (p : Predicate) (h : p.correlate m t = .error e) :
    e.Excused (m.Covers t ∧ p.Sound m t) := by
  match p with
  | .group op members =>
    rw [correlate] at h
    rcases bind_eq_error.1 h with h | ⟨_, -, h⟩
    · exact excused_correlateAll hm members h
    · cases h
  | .compare path op operand q =>
    have hcompare : ∀ {op' : Operator} {operand' : Operand},
        correlateCompare m t path op' operand' q = .error e →
        e.Excused (m.Covers t ∧ (Predicate.compare path op operand q).Sound m t) :=
      fun h => (excused_correlateCompare hm h).imp fun hsound => ⟨hsound.1, hsound.2.1⟩
    rw [correlate] at h
    split at h
    · rcases bind_eq_error.1 h with h | ⟨_, -, h⟩
      · exact hcompare h
      · rcases bind_eq_error.1 h with h | ⟨_, -, h⟩
        · exact hcompare h
        · cases h
    · exact hcompare h
  | .columns left op right => exact .inl (ofCondition_correlateColumns h)
  | .related via condition inverted threshold =>
    rw [correlate] at h
    cases h

theorem excused_correlateAll (hm : m.Unambiguous) (ps : List Predicate)
    (h : correlateAll m t ps = .error e) : e.Excused (m.Covers t ∧ SoundAll m t ps) := by
  match ps with
  | [] => cases h
  | p :: ps =>
    rw [correlateAll] at h
    rcases bind_eq_error.1 h with h | ⟨_, -, h⟩
    · exact (excused_correlate hm p h).imp fun hsound => ⟨hsound.1, hsound.2.1⟩
    · rcases bind_eq_error.1 h with h | ⟨_, -, h⟩
      · exact (excused_correlateAll hm ps h).imp fun hsound => ⟨hsound.1, hsound.2.2⟩
      · cases h

end

theorem excused_normal (hm : m.Unambiguous) {p : Predicate} (h : p.normal m t = .error e) :
    e.Excused (m.Covers t ∧ p.Sound m t) := by
  rcases bind_eq_error.1 h with h | ⟨_, -, h⟩
  · exact (excused_correlate hm _ h).imp fun hsound =>
      ⟨hsound.1, (hereditary_sound m).simplify.2 hsound.2⟩
  · cases h

end Predicate

/-! ## Writing -/

theorem throws_compile {p : Predicate} (h : (p.compile m origin).Throws f e) :
    p.normal m f.scope.root = .error e ∨
      ∃ q, p.normal m f.scope.root = .ok q ∧ (q.render m origin).Throws f e := by
  rw [Predicate.compile] at h
  simp only [Build.throws_bind, Build.not_throws_root, Build.gives_root, false_or] at h
  obtain ⟨_, _, ⟨rfl, rfl⟩, h⟩ := h
  split at h
  · rename_i hcorrelate
    cases Build.throws_throw.1 h
    exact .inl (bind_eq_error.2 (.inl hcorrelate))
  · rename_i c hc
    exact .inr ⟨_, Predicate.normal_eq_ok.2 ⟨c, hc, rfl⟩, h⟩

/-- A `related` fails where its path is looked up, or in the scope of the related rows. -/
theorem throws_render_related {condition : Predicate} {inverted : Bool}
    {threshold : Option Threshold}
    (h : ((Predicate.related via condition inverted threshold).render m origin).Throws f e) :
    e.Excused (∃ route, m.resolveRelationship f.scope.root via = .ok route) ∨
      ∃ route, m.resolveRelationship f.scope.root via = .ok route ∧
        ((condition.compile m .filter).Throws ⟨.ofRelationship route.last, f.ctes⟩ e ∨
          ∃ c g, (condition.compile m .filter).Gives ⟨.ofRelationship route.last, f.ctes⟩ c g ∧
            (joinThreshold m threshold).Throws g e) := by
  rw [Predicate.render] at h
  simp only [Build.throws_bind, Build.not_throws_root, Build.gives_root, false_or] at h
  obtain ⟨_, _, ⟨rfl, rfl⟩, h⟩ := h
  split at h
  · cases Build.throws_throw.1 h
    refine .inl (.inr ⟨rfl, fun hroute => ?_⟩)
    obtain ⟨route, hroute⟩ := hroute
    have := Model.length_pos_of_resolveRelationship hroute
    omega
  simp only [Build.throws_bind, Build.throws_lift, Build.gives_lift, Build.throws_join,
    Build.gives_join, Build.throws_within, Build.not_throws_pure, Build.not_throws_addCte,
    Build.not_throws_joinCte, and_false, exists_false, or_false] at h
  obtain h | ⟨route, _, ⟨hroute, rfl⟩, h | ⟨_, _, ⟨s, -, rfl⟩, h⟩⟩ := h
  · refine .inl (.inr ⟨Model.kind_of_resolveRelationship h, fun hroute => ?_⟩)
    obtain ⟨route, hroute⟩ := hroute
    cases h.symm.trans hroute
  · exact absurd h (Scope.joinHops_ne_error (Model.walk_of_resolveRelationship hroute).1)
  · exact .inr ⟨route, hroute, h⟩

mutual

/-- **A predicate fails for a condition, or for a path if it is not sound.** -/
theorem excused_compile (hm : m.Unambiguous) {p : Predicate} {origin : JoinOrigin} {f : Frame}
    (h : (p.compile m origin).Throws f e) :
    e.Excused (m.Covers f.scope.root ∧ p.Sound m f.scope.root) := by
  rcases throws_compile h with h | ⟨q, hq, h⟩
  · exact Predicate.excused_normal hm h
  · exact (excused_render hm h).imp fun hsound =>
      ⟨hsound.1, Predicate.sound_normal hm hsound.1 hsound.2 hq⟩
termination_by (p.depth, 1, 0)
decreasing_by
  have hdepth := Predicate.depth_normal hq
  simp only [Prod.lex_def]
  omega

theorem excused_render (hm : m.Unambiguous) {p : Predicate} {origin : JoinOrigin} {f : Frame}
    (h : (p.render m origin).Throws f e) :
    e.Excused (m.Covers f.scope.root ∧ p.Sound m f.scope.root) := by
  match p with
  | .group op members =>
    rw [Predicate.render] at h
    simp only [Build.throws_bind, Build.not_throws_pure, and_false, exists_false, or_false] at h
    exact excused_renderAll hm h
  | .compare path op operand q =>
    rw [Predicate.render] at h
    simp only [Build.throws_bind, Build.not_throws_pure, and_false, exists_false, or_false] at h
    rcases h with h | ⟨target, g, -, h⟩
    · exact (excused_joinColumn h).imp fun hsound => hsound.2.1
    · exact (excused_operand hm h).imp fun hsound => hsound.2.2
  | .columns left op right =>
    rw [Predicate.render] at h
    simp only [Build.throws_bind, Build.throws_lift, Build.not_throws_pure, and_false, exists_false,
      or_false] at h
    rcases h with h | ⟨l, g, hl, h | ⟨r, g', -, h⟩⟩
    · exact (excused_joinColumn h).imp fun hsound => hsound.2.1
    · refine (excused_joinColumn h).imp fun hsound => ?_
      rw [(grows_joinColumn hl).scope.root]
      exact hsound.2.2.1
    · exact .inl (ofCondition_compareColumns h)
  | .related via condition inverted threshold =>
    rcases throws_render_related h with h | ⟨route, hroute, h⟩
    · exact h.imp fun hsound => hsound.2.imp fun _ => And.left
    have hvia := Model.length_pos_of_resolveRelationship hroute
    -- The condition and the threshold are about the rows behind the relationship.
    have hbody : m.Covers f.scope.root ∧
        (Predicate.related via condition inverted threshold).Sound m f.scope.root →
        m.Covers route.last.child ∧ condition.Sound m route.last.child ∧
          ∀ c ∈ threshold, m.Resolves route.last.child c.column := by
      intro hsound
      obtain ⟨-, route', hroute', hcondition, hthreshold⟩ := hsound
      cases hroute.symm.trans hroute'
      exact ⟨(Model.walk_of_resolveRelationship hroute).2.covers_child, hcondition, hthreshold⟩
    rcases h with h | ⟨c, g, hc, h⟩
    · exact (excused_compile hm h).imp fun hsound => ⟨(hbody hsound).1, (hbody hsound).2.1⟩
    · refine (excused_joinThreshold h).imp fun hsound => ?_
      rw [(grows_compile hc).scope.root]
      exact (hbody hsound).2.2
termination_by (p.depth, 0, sizeOf p)
decreasing_by
  all_goals
    simp only [Prod.lex_def, Predicate.depth, Predicate.group.sizeOf_spec,
      Predicate.compare.sizeOf_spec, true_and]
    omega

theorem excused_operand (hm : m.Unambiguous) {operand : Operand} {target : Target} {op : Operator}
    {q : Quantifier} {f : Frame} (h : (operand.render m target op q).Throws f e) :
    e.Excused (operand.Sound m) := by
  match operand with
  | .value v =>
    rw [Operand.render, Build.throws_lift] at h
    exact .inl (Target.ofCondition_scalar h)
  | .values vs =>
    rw [Operand.render, Build.throws_lift] at h
    exact .inl (Target.ofCondition_list h)
  | .subquery ⟨table, column, filter⟩ =>
    rw [Operand.render] at h
    simp only [Build.throws_bind, Build.throws_lift, Build.throws_within, Build.not_throws_pure,
      and_false, exists_false, or_false] at h
    rcases h with h | ⟨negated, _, -, h | ⟨selected, g, hselected, h⟩⟩
    · exact .inl (ofCondition_subqueryNegated h)
    · exact (excused_joinColumn h).imp fun hsound => hsound.2.1
    · refine (excused_filter hm h).imp fun hsound => ?_
      rw [(grows_joinColumn hselected).scope.root]
      exact ⟨hsound.1, hsound.2.2⟩
termination_by (operand.depth, 0, 0)
decreasing_by
  simp only [Prod.lex_def, Operand.depth, SubQuery.depth]
  omega

theorem excused_renderAll (hm : m.Unambiguous) {ps : List Predicate} {origin : JoinOrigin}
    {f : Frame} (h : (renderAll m ps origin).Throws f e) :
    e.Excused (m.Covers f.scope.root ∧ SoundAll m f.scope.root ps) := by
  match ps with
  | [] =>
    rw [renderAll] at h
    exact absurd h Build.not_throws_pure
  | p :: ps =>
    rw [renderAll] at h
    simp only [Build.throws_bind, Build.not_throws_pure, and_false, exists_false, or_false] at h
    rcases h with h | ⟨e', g, hg, h⟩
    · exact (excused_render hm h).imp fun hsound => ⟨hsound.1, hsound.2.1⟩
    · have hroot := (writes_render p.onTables_true hg).grows.scope.root
      refine (excused_renderAll hm h).imp fun hsound => ?_
      rw [hroot]
      exact ⟨hsound.1, hsound.2.2⟩
termination_by (depthAll ps, 0, sizeOf ps)
decreasing_by
  all_goals
    simp only [Prod.lex_def, depthAll, List.cons.sizeOf_spec, true_and]
    omega

theorem excused_filter (hm : m.Unambiguous) {filter : Option Predicate} {f : Frame}
    (h : (compileFilter m filter).Throws f e) :
    e.Excused (m.Covers f.scope.root ∧ SoundFilter m f.scope.root filter) := by
  match filter with
  | none =>
    rw [compileFilter] at h
    exact absurd h Build.not_throws_pure
  | some p =>
    rw [compileFilter] at h
    exact excused_compile hm h
termination_by (depthFilter filter, 2, 0)

end

/-- **A validated predicate never fails for a path.** In a built model, with paths that the naming
tells apart, it is written or fails for a condition that has no SQL form. -/
theorem compile_validated {naming : Naming} {schema : Option String} {all : List EntityDecl}
    (hm : Model.build naming schema all = .ok m) {p : Predicate} (ht : m.Covers f.scope.root)
    (hp : p.OnTables m.Covers) (hapart : p.TellsApart m f.scope.root)
    (hvalid : p.validate m f.scope.root = .ok ()) (origin : JoinOrigin) :
    (∃ x g, (p.compile m origin).Gives f x g) ∨
      ∃ e, (p.compile m origin).Throws f e ∧ e.OfCondition ∧ e.kind = .compilation := by
  refine (Build.gives_or_throws (p.compile m origin) f).imp_right fun hthrows => ?_
  obtain ⟨e, he⟩ := hthrows
  have hsound := p.sound_of_validate hvalid hp hapart
  obtain hcondition | ⟨-, hunsound⟩ := excused_compile (Model.unambiguous_build hm) he
  · exact ⟨e, he, hcondition, hcondition.kind_eq⟩
  · exact absurd ⟨ht, hsound⟩ hunsound

namespace Shop

/-- Orders with two different articles, a line whose number is its article, a new tag, and a
customer with another order. -/
def bundle : Predicate :=
  .group .and [
    .related ⟨["lines"]⟩ .trivial false (some ⟨⟨["sku"]⟩, 2⟩),
    .columns ⟨["lines", "id"]⟩ .eq ⟨["lines", "sku"]⟩,
    tagged,
    .compare ⟨["customer", "id"]⟩ .eq (.subquery ⟨orders, ⟨["customer_id"]⟩,
      some (.related ⟨["customer", "orders"]⟩ tagged true none)⟩) .any]

theorem onTables_bundle (naming : Naming) : bundle.OnTables (model naming).Covers :=
  ⟨⟨⟩, ⟨⟩, ⟨⟩, ⟨covers_orders naming, onTables_tagged (model naming).Covers⟩, ⟨⟩⟩

theorem validate_bundle (naming : Naming) : bundle.validate (model naming) orders = .ok () := by
  rfl

end Shop

/-- Every form of a predicate, with a threshold, columns behind a fan-out and a filtered
subquery. -/
theorem compile_validated_bundle :
    Shop.bundle.validate (Shop.model Shop.plain) Shop.orders = .ok () ∧
      ((∃ x g, (Shop.bundle.compile (Shop.model Shop.plain) .filter).Gives
          ⟨.ofTable (Shop.model Shop.plain) Shop.orders, []⟩ x g) ∨
        ∃ e, (Shop.bundle.compile (Shop.model Shop.plain) .filter).Throws
          ⟨.ofTable (Shop.model Shop.plain) Shop.orders, []⟩ e ∧ e.OfCondition ∧
            e.kind = .compilation) :=
  ⟨Shop.validate_bundle _, compile_validated (Shop.build_declarations _) (Shop.covers_orders _)
    (Shop.onTables_bundle _) (Predicate.tellsApart_of_injective Shop.faithful_plain.derive _ _)
    (Shop.validate_bundle _) .filter⟩

end EntityQuery
