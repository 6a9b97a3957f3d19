import EntityQuery.Proofs.Predicate.Values
import EntityQuery.Proofs.Scope.Joins
import EntityQuery.Proofs.Sql.Erased

/-!
# The form of a condition

A predicate and the same predicate with other values are written side by side. Under a renaming of
values both are written or none is, and what is written differs in the values of parameters only: in
the condition, and in the CTEs that its relationships become (`Frame.Alike`). The joins are the
same.

So the values of a predicate never reach the text of a statement (`compile_mapValues`).
-/

namespace EntityQuery

open EntityQuery.Sql (Expr Query Dialect erasedAll erasedCtes)

/-! ## Comparisons -/

/-- Values that are written alike: both null or none, both text or none. -/
def Value.Alike (v w : Value) : Prop := v.isNull = w.isNull ∧ v.text?.isSome = w.text?.isSome

theorem Value.Renaming.alike {s s' : Value → Value} (hs : Renaming s) (hs' : Renaming s')
    (v : Value) : (s v).Alike (s' v) :=
  ⟨by rw [hs.isNull, hs'.isNull], by rw [hs.text, hs'.text]⟩

theorem Sql.Expr.erased_getD (o : Option Expr) (e : Expr) :
    (o.getD e).erased = (o.map (·.erased)).getD e.erased := by
  cases o <;> rfl

namespace Target

variable {target : Target} {v w : Value} {op : Operator} {e : Expr}

theorem alike_words {op connective : Sql.BinaryOp} (hv : v.Alike w)
    (h : target.words op connective v = .ok e) :
    ∃ e', target.words op connective w = .ok e' ∧ e'.erased = e.erased := by
  have htext := hv.2
  rw [words] at h ⊢
  cases hword : v.text? with
  | none => simp [hword] at h
  | some word =>
    cases hword' : w.text? with
    | none => simp [hword, hword'] at htext
    | some word' =>
      rw [hword] at h
      cases h
      refine ⟨_, rfl, ?_⟩
      simp [Expr.erased_getD, Expr.erased_combine, wordPatterns, Expr.erased, param]

theorem alike_scalar (hv : v.Alike w) (h : target.scalar op v = .ok e) :
    ∃ e', target.scalar op w = .ok e' ∧ e'.erased = e.erased := by
  cases hnull : v.isNull with
  | true =>
    have hnull' : w.isNull = true := hv.1 ▸ hnull
    simp only [scalar, hnull, hnull', if_true] at h ⊢
    exact ⟨e, h, rfl⟩
  | false =>
    have hnull' : w.isNull = false := hv.1 ▸ hnull
    simp only [scalar, hnull, hnull', Bool.false_eq_true, if_false] at h ⊢
    cases op with
    | wordLike => exact alike_words hv h
    | notWordLike => exact alike_words hv h
    | notLikeOrNull =>
      cases h
      exact ⟨_, rfl, rfl⟩
    | _ =>
      cases h
      exact ⟨_, rfl, rfl⟩

theorem alike_mapM {vs ws : List Value} (hvs : List.Forall₂ Value.Alike vs ws) {es : List Expr}
    (h : vs.mapM (target.scalar op) = .ok es) :
    ∃ es', ws.mapM (target.scalar op) = .ok es' ∧ es'.map (·.erased) = es.map (·.erased) := by
  induction hvs generalizing es with
  | nil => exact ⟨es, h, rfl⟩
  | cons hv _ ih =>
    simp only [List.mapM_cons, bind_eq_ok, pure_eq_ok] at h ⊢
    obtain ⟨e, he, rest, hrest, rfl⟩ := h
    obtain ⟨e', he', heq⟩ := alike_scalar hv he
    obtain ⟨rest', hrest', heqs⟩ := ih hrest
    refine ⟨e' :: rest', ⟨e', he', rest', hrest', rfl⟩, ?_⟩
    rw [List.map_cons, List.map_cons, heq, heqs]

theorem erased_params {vs ws : List Value} (hvs : List.Forall₂ Value.Alike vs ws) :
    erasedAll (ws.map target.param) = erasedAll (vs.map target.param) := by
  induction hvs with
  | nil => rfl
  | cons _ _ ih =>
    rw [List.map_cons, List.map_cons, erasedAll, erasedAll, ih]
    rfl

theorem erased_inList {vs ws : List Value} (hvs : List.Forall₂ Value.Alike vs ws)
    (negated : Bool) :
    (Expr.inList target.column (ws.map target.param) negated).erased =
      (Expr.inList target.column (vs.map target.param) negated).erased := by
  rw [Expr.erased, Expr.erased, erased_params hvs]

theorem alike_list {vs ws : List Value} {q : Quantifier} (hvs : List.Forall₂ Value.Alike vs ws)
    (h : target.list op vs q = .ok e) :
    ∃ e', target.list op ws q = .ok e' ∧ e'.erased = e.erased := by
  cases hvs with
  | nil => exact ⟨e, h, rfl⟩
  | cons hv hrest =>
    cases hrest with
    | nil => exact alike_scalar hv h
    | cons hv' hrest =>
      have hlong := List.Forall₂.cons hv (.cons hv' hrest)
      cases op with
      | eq =>
        cases q with
        | any =>
          cases h
          exact ⟨_, rfl, erased_inList hlong false⟩
        | all => cases h
      | ne =>
        cases q with
        | any => cases h
        | all =>
          cases h
          exact ⟨_, rfl, erased_inList hlong true⟩
      | _ =>
        obtain ⟨parts, hparts, he⟩ := bind_eq_ok.1 h
        obtain ⟨parts', hparts', heq⟩ := alike_mapM hlong hparts
        cases he
        refine ⟨_, bind_eq_ok.2 ⟨parts', hparts', rfl⟩, ?_⟩
        simp only [Expr.erased_getD, Expr.erased_combine, heq]

end Target

/-! ## Frames -/

/-- Frames with the same scope, whose CTEs differ in values only. -/
structure Frame.Alike (f f' : Frame) : Prop where
  scope : f'.scope = f.scope
  ctes : erasedCtes f'.ctes = erasedCtes f.ctes

namespace Frame.Alike

variable {f f' g : Frame} {m : Model}

theorem length_ctes (hf : f.Alike f') : f'.ctes.length = f.ctes.length := by
  rw [← Sql.length_erasedCtes, hf.ctes, Sql.length_erasedCtes]

theorem within (hf : f.Alike f') (s : Scope) : Frame.Alike ⟨s, f.ctes⟩ ⟨s, f'.ctes⟩ :=
  ⟨rfl, hf.ctes⟩

theorem joinColumn {path : Path} {origin : JoinOrigin} {target : Target} (hf : f.Alike f')
    (h : (joinColumn m path origin).Gives f target g) :
    ∃ g', (EntityQuery.joinColumn m path origin).Gives f' target g' ∧ g.Alike g' := by
  obtain ⟨r, s, hr, hmany, hs, rfl, rfl⟩ := gives_joinColumn.1 h
  rw [← hf.scope] at hr hs
  exact ⟨⟨s, f'.ctes⟩, gives_joinColumn.2 ⟨r, s, hr, hmany, hs, rfl, rfl⟩, hf.within s⟩

theorem joinThreshold {threshold : Option Threshold} {counted : Option (Expr × Nat)}
    (hf : f.Alike f') (h : (joinThreshold m threshold).Gives f counted g) :
    ∃ g', (EntityQuery.joinThreshold m threshold).Gives f' counted g' ∧ g.Alike g' := by
  obtain ⟨rfl, rfl, rfl⟩ | ⟨t, target, rfl, htarget, rfl⟩ := gives_joinThreshold.1 h
  · exact ⟨f', gives_joinThreshold.2 (.inl ⟨rfl, rfl, rfl⟩), hf⟩
  · obtain ⟨g', htarget', hg⟩ := hf.joinColumn htarget
    exact ⟨g', gives_joinThreshold.2 (.inr ⟨t, target, rfl, htarget', rfl⟩), hg⟩

end Frame.Alike

theorem Scope.erased_apply (s : Scope) {q q' : Query} (h : q'.erased = q.erased)
    (filterOnly : Bool) : (s.apply q' filterOnly).erased = (s.apply q filterOnly).erased := by
  cases q with
  | mk =>
    cases q' with
    | mk =>
      simp only [Query.erased, Query.mk.injEq] at h
      simp only [Scope.apply, Query.erased, Sql.erasedJoins_append, h]

theorem erased_keysQuery {conditions conditions' : List Expr}
    (h : conditions'.map (·.erased) = conditions.map (·.erased)) (link : Expr)
    (counted : Option (Expr × Nat)) :
    (keysQuery link conditions' counted).erased = (keysQuery link conditions counted).erased := by
  have hcondition : Sql.erasedOption (Expr.combine .and conditions') =
      Sql.erasedOption (Expr.combine .and conditions) := by
    simp only [Sql.erasedOption_eq_map, Expr.erased_combine, h]
  cases counted <;> simp only [keysQuery, Query.empty, Query.erased, hcondition]

theorem erased_subqueryQuery {c c' : Option Expr} (h : c'.map (·.erased) = c.map (·.erased))
    (s : Scope) (selected : Expr) :
    (subqueryQuery s selected c').erased = (subqueryQuery s selected c).erased := by
  refine s.erased_apply ?_ false
  simp only [Query.empty, Query.erased, Sql.erasedOption_eq_map, h]

theorem Frame.alike_withKeys {ctes ctes' : List Sql.Cte} {keys keys' : Query}
    (hctes : erasedCtes ctes' = erasedCtes ctes) (hkeys : keys'.erased = keys.erased) (s : Scope)
    (r : Relationship) (origin : JoinOrigin) :
    (Frame.withKeys s ctes r keys origin).Alike (.withKeys s ctes' r keys' origin) := by
  have hlength : ctes'.length = ctes.length := by
    rw [← Sql.length_erasedCtes, hctes, Sql.length_erasedCtes]
  refine ⟨?_, ?_⟩
  · simp only [withKeys, hlength]
  · simp only [withKeys, Sql.erasedCtes_append, erasedCtes, hctes, hkeys, hlength]

/-! ## Two runs -/

variable {m : Model} {s s' : Value → Value}

mutual

/-- **What one predicate is written as, the other is too**, up to values. -/
theorem alike_compile (hs : Value.Renaming s) (hs' : Value.Renaming s') {p : Predicate}
    {origin : JoinOrigin} {f f' g : Frame} {e : Option Expr} (hf : f.Alike f')
    (h : ((p.mapValues s).compile m origin).Gives f e g) :
    ∃ e' g', ((p.mapValues s').compile m origin).Gives f' e' g' ∧
      e'.map (·.erased) = e.map (·.erased) ∧ g.Alike g' := by
  obtain ⟨q, hq, hrender⟩ := gives_compile.1 h
  rw [Predicate.normal_mapValues hs] at hq
  obtain ⟨c, hc, rfl⟩ := map_eq_ok.1 hq
  obtain ⟨e', g', hrender', he, hg⟩ := alike_render hs hs' hf hrender
  refine ⟨e', g', gives_compile.2 ⟨_, ?_, hrender'⟩, he, hg⟩
  rw [Predicate.normal_mapValues hs', hf.scope, hc]
  rfl
termination_by (p.depth, 1, 0)
decreasing_by
  have hdepth := Predicate.depth_normal hc
  simp only [Prod.lex_def]
  omega

theorem alike_render (hs : Value.Renaming s) (hs' : Value.Renaming s') {p : Predicate}
    {origin : JoinOrigin} {f f' g : Frame} {e : Option Expr} (hf : f.Alike f')
    (h : ((p.mapValues s).render m origin).Gives f e g) :
    ∃ e' g', ((p.mapValues s').render m origin).Gives f' e' g' ∧
      e'.map (·.erased) = e.map (·.erased) ∧ g.Alike g' := by
  match p with
  | .group op members =>
    rw [Predicate.mapValues] at h ⊢
    obtain ⟨parts, hparts, rfl⟩ := gives_render_group.1 h
    obtain ⟨parts', g', hparts', heq, hg⟩ := alike_renderAll hs hs' hf hparts
    refine ⟨_, g', gives_render_group.2 ⟨parts', hparts', rfl⟩, ?_, hg⟩
    rw [Expr.erased_combine, heq, Expr.erased_combine]
  | .compare path op operand q =>
    rw [Predicate.mapValues] at h ⊢
    obtain ⟨target, f₁, x, htarget, hx, rfl⟩ := gives_render_compare.1 h
    obtain ⟨f₁', htarget', hf₁⟩ := hf.joinColumn htarget
    obtain ⟨x', g', hx', heq, hg⟩ := alike_operand hs hs' hf₁ hx
    exact ⟨_, g', gives_render_compare.2 ⟨target, f₁', x', htarget', hx', rfl⟩,
      congrArg some heq, hg⟩
  | .columns left op right =>
    rw [Predicate.mapValues] at h ⊢
    obtain ⟨l, f₁, r, x, hl, hr, hx, rfl⟩ := gives_render_columns.1 h
    obtain ⟨f₁', hl', hf₁⟩ := hf.joinColumn hl
    obtain ⟨g', hr', hg⟩ := hf₁.joinColumn hr
    exact ⟨_, g', gives_render_columns.2 ⟨l, f₁', r, x, hl', hr', hx, rfl⟩, rfl, hg⟩
  | .related via condition inverted threshold =>
    rw [Predicate.mapValues] at h ⊢
    obtain ⟨route, scope, c, f₁, counted, body, ctes, hroute, hscope, hc, hcounted, rfl, rfl⟩ :=
      gives_render_related.1 h
    have hvia := Model.length_pos_of_resolveRelationship hroute
    obtain ⟨c', f₁', hc', heq, hf₁⟩ := alike_compile hs hs' (hf.within _) hc
    obtain ⟨⟨body', ctes'⟩, hcounted', hbody⟩ := hf₁.joinThreshold hcounted
    obtain rfl : body' = body := hbody.scope
    rw [← hf.scope] at hroute hscope
    refine ⟨_, _, gives_render_related.2 ⟨route, scope, c', f₁', counted, body', ctes', hroute,
      hscope, hc', hcounted', rfl, rfl⟩, ?_, ?_⟩
    · rw [hbody.length_ctes]
    · refine Frame.alike_withKeys hbody.ctes (body'.erased_apply (erased_keysQuery ?_ _ _) false)
        scope route.last origin
      rw [List.map_append, List.map_append, ← Option.toList_map, heq, Option.toList_map]
termination_by (p.depth, 0, sizeOf p)
decreasing_by
  all_goals
    simp only [Prod.lex_def, Predicate.depth, Predicate.group.sizeOf_spec,
      Predicate.compare.sizeOf_spec, true_and]
    omega

theorem alike_operand (hs : Value.Renaming s) (hs' : Value.Renaming s') {operand : Operand}
    {target : Target} {op : Operator} {q : Quantifier} {f f' g : Frame} {e : Expr}
    (hf : f.Alike f')
    (h : ((operand.mapValues s).render m target op q).Gives f e g) :
    ∃ e' g', ((operand.mapValues s').render m target op q).Gives f' e' g' ∧
      e'.erased = e.erased ∧ g.Alike g' := by
  match operand with
  | .value v =>
    rw [Operand.mapValues] at h ⊢
    obtain ⟨he, rfl⟩ := gives_render_value.1 h
    obtain ⟨e', he', heq⟩ := Target.alike_scalar (hs.alike hs' v) he
    exact ⟨e', f', gives_render_value.2 ⟨he', rfl⟩, heq, hf⟩
  | .values vs =>
    rw [Operand.mapValues] at h ⊢
    obtain ⟨he, rfl⟩ := gives_render_values.1 h
    have hvs : List.Forall₂ Value.Alike (vs.map s) (vs.map s') := by
      rw [List.forall₂_map_left_iff, List.forall₂_map_right_iff]
      exact List.forall₂_same.2 fun v _ => hs.alike hs' v
    obtain ⟨e', he', heq⟩ := Target.alike_list hvs he
    exact ⟨e', f', gives_render_values.2 ⟨he', rfl⟩, heq, hf⟩
  | .subquery ⟨table, column, filter⟩ =>
    rw [Operand.mapValues, SubQuery.mapValues] at h ⊢
    obtain ⟨negated, selected, f₁, c, scope, ctes, hneg, hselected, hc, rfl, rfl⟩ :=
      gives_render_subquery.1 h
    obtain ⟨f₁', hselected', hf₁⟩ := (hf.within _).joinColumn hselected
    obtain ⟨c', ⟨scope', ctes'⟩, hc', heq, hg⟩ := alike_filter hs hs' hf₁ hc
    obtain rfl : scope' = scope := hg.scope
    refine ⟨_, _, gives_render_subquery.2 ⟨negated, selected, f₁', c', scope', ctes', hneg,
      hselected', hc', rfl, rfl⟩, ?_, hf.scope, hg.ctes⟩
    rw [Expr.erased, Expr.erased, erased_subqueryQuery heq]
termination_by (operand.depth, 0, 0)
decreasing_by
  simp only [Prod.lex_def, Operand.depth, SubQuery.depth]
  omega

theorem alike_renderAll (hs : Value.Renaming s) (hs' : Value.Renaming s') {ps : List Predicate}
    {origin : JoinOrigin} {f f' g : Frame} {es : List Expr} (hf : f.Alike f')
    (h : (renderAll m (mapValuesAll s ps) origin).Gives f es g) :
    ∃ es' g', (renderAll m (mapValuesAll s' ps) origin).Gives f' es' g' ∧
      es'.map (·.erased) = es.map (·.erased) ∧ g.Alike g' := by
  match ps with
  | [] =>
    rw [mapValuesAll] at h ⊢
    obtain ⟨rfl, rfl⟩ := gives_renderAll_nil.1 h
    exact ⟨[], f', gives_renderAll_nil.2 ⟨rfl, rfl⟩, rfl, hf⟩
  | p :: ps =>
    rw [mapValuesAll] at h ⊢
    obtain ⟨e, f₁, rest, he, hrest, rfl⟩ := gives_renderAll_cons.1 h
    obtain ⟨e', f₁', he', heq, hf₁⟩ := alike_render hs hs' hf he
    obtain ⟨rest', g', hrest', heqs, hg⟩ := alike_renderAll hs hs' hf₁ hrest
    refine ⟨_, g', gives_renderAll_cons.2 ⟨e', f₁', rest', he', hrest', rfl⟩, ?_, hg⟩
    rw [List.map_append, List.map_append, ← Option.toList_map, heq, Option.toList_map, heqs]
termination_by (depthAll ps, 0, sizeOf ps)
decreasing_by
  all_goals
    simp only [Prod.lex_def, depthAll, List.cons.sizeOf_spec, true_and]
    omega

theorem alike_filter (hs : Value.Renaming s) (hs' : Value.Renaming s') {filter : Option Predicate}
    {f f' g : Frame} {e : Option Expr} (hf : f.Alike f')
    (h : (compileFilter m (mapValuesFilter s filter)).Gives f e g) :
    ∃ e' g', (compileFilter m (mapValuesFilter s' filter)).Gives f' e' g' ∧
      e'.map (·.erased) = e.map (·.erased) ∧ g.Alike g' := by
  match filter with
  | none =>
    rw [mapValuesFilter] at h ⊢
    rw [compileFilter] at h ⊢
    obtain ⟨rfl, rfl⟩ := Build.gives_pure.1 h
    exact ⟨none, f', Build.gives_pure.2 ⟨rfl, rfl⟩, rfl, hf⟩
  | some p =>
    rw [mapValuesFilter] at h ⊢
    rw [compileFilter] at h ⊢
    exact alike_compile hs hs' hf h
termination_by (depthFilter filter, 2, 0)

end

/-! ## Statements -/

/-- A query over the scope of a frame that selects what `q` does where a condition holds, with the
CTEs of the frame. -/
def Frame.query (f : Frame) (q : Query) (condition : Option Expr) (filterOnly : Bool) : Query :=
  { f.scope.apply { q with condition } filterOnly with ctes := f.ctes }

theorem Frame.Alike.erased_query {f f' : Frame} (hf : f.Alike f') {c c' : Option Expr}
    (h : c'.map (·.erased) = c.map (·.erased)) (q : Query) (filterOnly : Bool) :
    (f'.query q c' filterOnly).erased = (f.query q c filterOnly).erased := by
  have hq : Query.erased { q with condition := c' } = Query.erased { q with condition := c } := by
    simp only [Query.erased, Sql.erasedOption_eq_map, h]
  have happly := f.scope.erased_apply hq filterOnly
  simp only [Query.erased, Query.mk.injEq, Scope.apply] at happly
  simp only [Frame.query, Scope.apply, hf.scope, Query.erased, hf.ctes, happly]

/-- **Values do not reach the text.** A predicate is written exactly if it is with other values that
are a renaming of its own, and then all statements with the two conditions have the same text and
parameters of the same types. -/
theorem compile_mapValues (hs : Value.Renaming s) (m : Model) (t : Table) (p : Predicate)
    (origin : JoinOrigin) :
    ((∃ e g, ((p.mapValues s).compile m origin).Gives ⟨.ofTable m t, []⟩ e g) ↔
      ∃ e g, (p.compile m origin).Gives ⟨.ofTable m t, []⟩ e g) ∧
    ∀ e g e' g', (p.compile m origin).Gives ⟨.ofTable m t, []⟩ e g →
      ((p.mapValues s).compile m origin).Gives ⟨.ofTable m t, []⟩ e' g' →
      ∀ (q : Query) (filterOnly : Bool) (d : Dialect),
        ((g'.query q e' filterOnly).statement d).SameForm
          ((g.query q e filterOnly).statement d) := by
  have hf : Frame.Alike ⟨.ofTable m t, []⟩ ⟨.ofTable m t, []⟩ := ⟨rfl, rfl⟩
  have hforth : ∀ {e g}, (p.compile m origin).Gives ⟨.ofTable m t, []⟩ e g →
      ∃ e' g', ((p.mapValues s).compile m origin).Gives ⟨.ofTable m t, []⟩ e' g' ∧
        e'.map (·.erased) = e.map (·.erased) ∧ g.Alike g' := by
    intro e g h
    rw [← p.mapValues_id] at h
    exact alike_compile Value.renaming_id hs hf h
  have hback : ∀ {e g}, ((p.mapValues s).compile m origin).Gives ⟨.ofTable m t, []⟩ e g →
      ∃ e' g', (p.compile m origin).Gives ⟨.ofTable m t, []⟩ e' g' := by
    intro e g h
    obtain ⟨e', g', h', -⟩ := alike_compile hs Value.renaming_id hf h
    rw [p.mapValues_id] at h'
    exact ⟨e', g', h'⟩
  refine ⟨⟨fun h => ?_, fun h => ?_⟩, fun e g e' g' h h' q filterOnly d => ?_⟩
  · obtain ⟨e, g, h⟩ := h
    exact hback h
  · obtain ⟨e, g, h⟩ := h
    obtain ⟨e', g', h', -⟩ := hforth h
    exact ⟨e', g', h'⟩
  · obtain ⟨e'', g'', h'', he, hg⟩ := hforth h
    cases h'.symm.trans h''
    exact Query.sameForm (hg.erased_query he q filterOnly) d

namespace Shop

/-- Orders with a line for each of two articles, or of a customer who has an order with a name. -/
def restocked : Predicate :=
  .group .or [
    .compare ⟨["lines", "sku"]⟩ .eq (.values [.text "ink", .text "pen", .text "ink"]) .all,
    .compare ⟨["customer", "id"]⟩ .eq (.subquery ⟨orders, ⟨["customer_id"]⟩,
      some (.compare ⟨["customer", "name"]⟩ .wordLike (.value (.text "Ada")) .any)⟩) .any]

theorem compile_restocked (naming : Naming) :
    ∃ e g, (restocked.compile (model naming) .filter).Gives ⟨.ofTable (model naming) orders, []⟩
      e g :=
  ⟨_, _, gives_compile.2 ⟨_, rfl, gives_render_group.2 ⟨_, gives_renderAll_cons.2 ⟨_, _, _,
    gives_render_related.2 ⟨⟨[], _⟩, _, _, _, _, _, _, rfl, rfl,
      gives_compile.2 ⟨_, rfl,
        gives_render_compare.2 ⟨_, _, _, gives_joinColumn.2 ⟨_, _, rfl, rfl, rfl, rfl, rfl⟩,
          gives_render_values.2 ⟨rfl, rfl⟩, rfl⟩⟩,
      gives_joinThreshold.2 (.inr ⟨_, _, rfl, gives_joinColumn.2 ⟨_, _, rfl, rfl, rfl, rfl, rfl⟩,
        rfl⟩), rfl, rfl⟩,
    gives_renderAll_cons.2 ⟨_, _, _,
      gives_render_compare.2 ⟨_, _, _, gives_joinColumn.2 ⟨_, _, rfl, rfl, rfl, rfl, rfl⟩,
        gives_render_subquery.2 ⟨_, _, _, _, _, _, rfl,
          gives_joinColumn.2 ⟨_, _, rfl, rfl, rfl, rfl, rfl⟩,
          gives_compileFilter.2 (.inr ⟨_, rfl, gives_compile.2 ⟨_, rfl,
            gives_render_compare.2 ⟨_, _, _, gives_joinColumn.2 ⟨_, _, rfl, rfl, rfl, rfl, rfl⟩,
              gives_render_value.2 ⟨rfl, rfl⟩, rfl⟩⟩⟩), rfl, rfl⟩, rfl⟩,
      gives_renderAll_nil.2 ⟨rfl, rfl⟩, rfl⟩, rfl⟩, rfl⟩⟩⟩

/-- Texts with a mark at their end. -/
def marked : Value → Value
  | .text x => .text (x ++ "!")
  | v => v

theorem renaming_marked : Value.Renaming marked where
  eqv v w := by
    cases v <;> cases w <;> simp [marked, Value.eqv]
  null := rfl
  text v := by cases v <;> rfl

end Shop

/-- Two articles, a threshold and a word in the filter of a subquery, each with a mark. -/
theorem compile_mapValues_restocked :
    ∃ e g e' g', (Shop.restocked.compile (Shop.model Shop.plain) .filter).Gives
        ⟨.ofTable (Shop.model Shop.plain) Shop.orders, []⟩ e g ∧
      ((Shop.restocked.mapValues Shop.marked).compile (Shop.model Shop.plain) .filter).Gives
        ⟨.ofTable (Shop.model Shop.plain) Shop.orders, []⟩ e' g' ∧
      ∀ q filterOnly d,
        ((g'.query q e' filterOnly).statement d).SameForm
          ((g.query q e filterOnly).statement d) := by
  obtain ⟨e, g, h⟩ := Shop.compile_restocked Shop.plain
  obtain ⟨hiff, hform⟩ := compile_mapValues Shop.renaming_marked (Shop.model Shop.plain) Shop.orders
    Shop.restocked .filter
  obtain ⟨e', g', h'⟩ := hiff.2 ⟨e, g, h⟩
  exact ⟨e, g, e', g', h, h', hform e g e' g' h h'⟩

end EntityQuery
