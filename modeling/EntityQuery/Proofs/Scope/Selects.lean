import EntityQuery.Proofs.Scope.Joins
import EntityQuery.Proofs.Sql.Selects

/-!
# SELECTs over a scope

When a property holds of every SELECT of a query that is written over a scope. The conditions of
joins have no SELECTs in them (`Scope.Plain`), so it is enough that the property holds of the query
itself and of the SELECTs in its other clauses (`forall_selects_apply`). The queries of keys and the
subqueries of filters are cases of this, so a property that SELECTs have over every scope of
predicates is one of all SELECTs of a predicate (`Writes.over`).
-/

namespace EntityQuery

open EntityQuery.Sql (Expr Query)

variable {S : Query → Prop} {s s' : Scope}

theorem selects_ofTable (table column : String) : (Expr.ofTable table column).selects = [] := rfl

/-! ## Conditions of joins -/

/-- No join of the scope has a SELECT in its condition. -/
def Scope.Plain (s : Scope) : Prop := ∀ j ∈ s.joinsFor false, j.on.selects = []

/-- A condition put together from columns has no SELECTs. -/
theorem Expr.kept_noSelects : Expr.Kept fun e => e.selects = [] := by
  simpa only [List.eq_nil_iff_forall_not_mem] using Expr.kept_selects fun _ => False

theorem JoinStep.selects_on (j : JoinStep) : j.on.selects = [] :=
  j.kept_on Expr.kept_noSelects (selects_ofTable _ _) (selects_ofTable _)

theorem JoinStep.selects_filterExprs {j : JoinStep} : ∀ e ∈ j.filterExprs, e.selects = [] := by
  intro e he
  obtain ⟨filter, -, rfl⟩ := List.mem_map.1 he
  exact filter.kept_expr Expr.kept_noSelects (selects_ofTable _ _)

namespace Scope.Plain

theorem joins (h : s.Plain) : ∀ i ∈ s.joins, i.join.on.selects = [] :=
  fun i hi => h i.join (by simpa [joinsFor_false] using .inr ⟨i, hi, rfl⟩)

theorem of_grows (h : s.Plain) (hgrows : s.Grows s')
    (hjoins : ∀ i ∈ s'.joins, i.join.on.selects = []) : s'.Plain := by
  intro j hj
  rcases mem_joinsFor hj with hj | ⟨i, hi, rfl⟩
  · exact h j (List.mem_append_left _ (hgrows.baseJoins ▸ hj))
  · exact hjoins i hi

theorem joinHops {hops : List Relationship} {origin : JoinOrigin} (h : s.Plain)
    (hs : s.joinHops hops origin = .ok s') : s'.Plain :=
  h.of_grows (grows_joinHops hs) (forall_joinHops (P := fun j => j.on.selects = []) hs h.joins
    fun _ _ j _ => j.selects_on)

theorem joinCte {name : String} {on : Expr} {origin : JoinOrigin} (h : s.Plain)
    (hon : on.selects = []) : (s.joinCte name on origin).Plain :=
  h.of_grows (grows_addJoin _ _) (forall_joinCte (P := fun j => j.on.selects = []) h.joins hon)

end Scope.Plain

theorem Scope.plain_ofTable (m : Model) (t : Table) : (Scope.ofTable m t).Plain := by
  simp [Plain, joinsFor, ofTable]

theorem Scope.plain_ofRelationship (r : Relationship) : (Scope.ofRelationship r).Plain := by
  intro j hj
  rcases mem_joinsFor hj with hj | ⟨i, hi, -⟩
  · obtain ⟨link, -, rfl⟩ := List.mem_map.1 hj
    have hcondition : r.childJoin.condition.selects = [] := rfl
    dsimp only
    refine Expr.kept_noSelects.combine_getD (fun e he => ?_) hcondition
    rcases List.mem_cons.1 he with rfl | he
    · exact hcondition
    · exact JoinStep.selects_filterExprs e he
  · simp [ofRelationship] at hi

/-! ## Queries -/

/-- The SELECTs of a query over a scope are the query itself and those of its clauses. -/
theorem forall_selects_apply {q : Query} (h : s.Plain) (hjoins : q.joins = [])
    (hself : S (s.apply q false))
    (hrest : ∀ x ∈ Sql.selectsCtes q.ctes ++ Sql.selectsItems q.items ++
      Sql.selectsOption q.condition ++ Sql.selectsAll q.groupBy ++ Sql.selectsOption q.having ++
      Sql.selectsOrder q.orderBy, S x) :
    ∀ x ∈ (s.apply q false).selects, S x := by
  have happly : (s.apply q false).joins = s.joinsFor false := by
    simp [Scope.apply, hjoins]
  intro x hx
  rw [Sql.Query.selects_eq, happly] at hx
  simp only [List.mem_cons, List.mem_append, Scope.apply, Sql.selectsSource,
    Sql.mem_selectsJoins, List.not_mem_nil, or_false] at hx hrest
  rcases hx with rfl | hx
  · exact hself
  · have hon : ¬ ∃ j ∈ s.joinsFor false, x ∈ j.on.selects := by
      intro hex
      obtain ⟨j, hj, hxj⟩ := hex
      rw [h j hj] at hxj
      exact List.not_mem_nil hxj
    simp only [hon, or_false] at hx
    exact hrest x hx

theorem forall_selects_combine {op : Sql.BinaryOp} {es : List Expr}
    (h : ∀ e ∈ es, ∀ q ∈ e.selects, S q) :
    ∀ q ∈ Sql.selectsOption (Expr.combine op es), S q := by
  cases hc : Expr.combine op es with
  | none => simp [Sql.selectsOption]
  | some e => exact (Expr.kept_selects S).combine h e hc

theorem joins_keysQuery (link : Expr) (conditions : List Expr) (counted : Option (Expr × Nat)) :
    (keysQuery link conditions counted).joins = [] := by
  cases counted <;> rfl

theorem forall_selects_keysQuery {r : Relationship} {conditions : List Expr}
    {counted : Option (Expr × Nat)} (h : s.Plain)
    (hself : S (s.apply (keysQuery r.linkKey conditions counted) false))
    (hconditions : ∀ e ∈ conditions, ∀ q ∈ e.selects, S q)
    (hcounted : ∀ c ∈ counted, c.1.selects = []) :
    ∀ q ∈ (s.apply (keysQuery r.linkKey conditions counted) false).selects, S q := by
  have hcondition : ∀ q ∈ Sql.selectsOption (Expr.combine .and conditions), S q :=
    forall_selects_combine hconditions
  cases counted with
  | none =>
    refine forall_selects_apply h rfl hself ?_
    simpa [keysQuery, Query.empty, Sql.selectsCtes, Sql.selectsItems, Sql.selectsAll,
      Sql.selectsOrder, Sql.selectsOption, Relationship.linkKey, selects_ofTable] using hcondition
  | some c =>
    have hnone : c.1.selects = [] := hcounted c rfl
    refine forall_selects_apply h rfl hself ?_
    simpa [keysQuery, Query.empty, Sql.selectsCtes, Sql.selectsItems, Sql.selectsAll,
      Sql.selectsOrder, Sql.selectsOption, Relationship.linkKey, selects_ofTable,
      Expr.countDistinct, Expr.int, Sql.Expr.selects, hnone] using hcondition

theorem forall_selects_subqueryQuery {column : Expr} {es : List Expr} (h : s.Plain)
    (hself : S (subqueryQuery s column es.head?)) (hcolumn : column.selects = [])
    (hes : ∀ e ∈ es, ∀ q ∈ e.selects, S q) :
    ∀ q ∈ (subqueryQuery s column es.head?).selects, S q := by
  refine forall_selects_apply h rfl hself ?_
  simp only [Query.empty, Sql.selectsCtes, Sql.selectsItems, hcolumn, Sql.selectsAll,
    Sql.selectsOrder, Sql.selectsOption, List.append_nil, List.nil_append]
  cases es with
  | nil => simp [Sql.selectsOption]
  | cons e es => exact hes e List.mem_cons_self

/-! ## Predicates -/

/-- The column of a comparison has no SELECT. -/
def Task.Plain : Task → Prop
  | .operand target _ _ _ => target.column.selects = []
  | _ => True

/-- A property `I` that new scopes have and joins keep, and a property `S` of all SELECTs over such
scopes that take all rows. -/
structure SelectsOver (m : Model) (P : Table → Prop) (I : Scope → Prop) (S : Query → Prop) :
    Prop where
  plain : ∀ {s}, I s → s.Plain
  select : ∀ {s q}, I s → q.joins = [] → q.top = none → q.window = none → S (s.apply q false)
  ofTable : ∀ {t}, P t → I (.ofTable m t)
  ofRelationship : ∀ {s hops r}, I s → m.Walk s.root hops →
    m.Relates (Model.endOf s.root hops) r → I (.ofRelationship r)
  joinHops : ∀ {s s' hops origin}, I s → m.Walk s.root hops →
    s.joinHops hops origin = .ok s' → I s'
  withKeys : ∀ {s ctes r keys origin}, I s → I (Frame.withKeys s ctes r keys origin).scope

/-- The scope has the first property, and every SELECT of the CTEs the second. -/
structure Frame.Over (I : Scope → Prop) (S : Query → Prop) (f : Frame) : Prop where
  scope : I f.scope
  ctes : ∀ c ∈ f.ctes, ∀ q ∈ c.query.selects, S q

section

variable {m : Model} {P : Table → Prop} {I : Scope → Prop} {f g : Frame}

theorem SelectsOver.joinColumn {path : Path} {origin : JoinOrigin} {target : Target}
    (hI : SelectsOver m P I S) (hf : f.Over I S)
    (htarget : (joinColumn m path origin).Gives f target g) :
    g.Over I S ∧ target.column.selects = [] := by
  obtain ⟨r, s, hr, -, hs, rfl, rfl⟩ := gives_joinColumn.1 htarget
  exact ⟨⟨hI.joinHops hf.scope (Model.walk_of_resolve hr).1 hs, hf.ctes⟩, rfl⟩

/-- **Writing keeps the property of scopes, and every SELECT that is written has the other.** -/
theorem Writes.over {task : Task} {es : List Expr} (h : Writes m P task f es g)
    (hI : SelectsOver m P I S) (hf : f.Over I S) (hplain : task.Plain) :
    g.Over I S ∧ ∀ e ∈ es, ∀ q ∈ e.selects, S q := by
  have hkept := Expr.kept_selects S
  induction h with
  | compile _ _ ih => exact ih hf ⟨⟩
  | group _ ih =>
    obtain ⟨hg, hes⟩ := ih hf ⟨⟩
    exact ⟨hg, fun e he => hkept.combine hes e (Option.mem_toList.1 he)⟩
  | compare htarget _ ih =>
    obtain ⟨hg, hcolumn⟩ := hI.joinColumn hf htarget
    exact ih hg hcolumn
  | columns hl hr he =>
    obtain ⟨hg, hleft⟩ := hI.joinColumn hf hl
    obtain ⟨hh, hright⟩ := hI.joinColumn hg hr
    refine ⟨hh, ?_⟩
    rw [List.forall_mem_singleton]
    exact kept_compareColumns hkept (by simp [hleft]) (by simp [hright]) he
  | @related via condition inverted threshold origin route s body counted f g' ctes es hroute hs hw
      hcounted ih =>
    obtain ⟨hwalk, hlast⟩ := Model.walk_of_resolveRelationship hroute
    obtain ⟨hg, hes⟩ := ih ⟨hI.ofRelationship hf.scope hwalk hlast, hf.ctes⟩ ⟨⟩
    obtain ⟨hbody, hnone⟩ :=
      joinThreshold_induction (Q := (·.selects = [])) hg hcounted (hI.joinColumn hg)
    have hgrows := hw.grows.trans (grows_joinThreshold hcounted)
    refine ⟨⟨hI.withKeys (hI.joinHops hf.scope hwalk hs), fun c hc => ?_⟩,
      by simp [Sql.Expr.selects, selects_ofTable]⟩
    rcases List.mem_append.1 hc with hc | hc
    · exact hbody.ctes c hc
    · cases List.mem_singleton.1 hc
      refine forall_selects_keysQuery (hI.plain hbody.scope)
        (hI.select hbody.scope (joins_keysQuery _ _ _) ?_ ?_) (fun e he => ?_) hnone
      · cases counted <;> rfl
      · cases counted <;> rfl
      · rcases List.mem_append.1 he with he | he
        · rw [hgrows.scope.baseFilters] at he
          simp [JoinStep.selects_filterExprs e he]
        · exact hes e he
  | value he =>
    refine ⟨hf, ?_⟩
    rw [List.forall_mem_singleton]
    exact Target.kept_scalar hkept (by simp [show _ = [] from hplain]) he
  | values he =>
    refine ⟨hf, ?_⟩
    rw [List.forall_mem_singleton]
    exact Target.kept_list hkept (by simp [show _ = [] from hplain]) he
  | subquery ht _ hselected hw ih =>
    obtain ⟨hg, hcolumn⟩ := hI.joinColumn (f := ⟨.ofTable m _, _⟩) ⟨hI.ofTable ht, hf.ctes⟩
      hselected
    obtain ⟨hscope, hes⟩ := ih hg ⟨⟩
    refine ⟨⟨hf.scope, hscope.ctes⟩, ?_⟩
    rw [List.forall_mem_singleton]
    intro q hq
    simp only [Sql.Expr.selects, show _ = [] from hplain, List.nil_append] at hq
    exact forall_selects_subqueryQuery (hI.plain hscope.scope)
      (hI.select hscope.scope rfl rfl rfl) hcolumn hes q hq
  | nil => exact ⟨hf, by simp⟩
  | cons _ _ ih₁ ih₂ =>
    obtain ⟨hg, hes⟩ := ih₁ hf ⟨⟩
    obtain ⟨hh, hrest⟩ := ih₂ hg ⟨⟩
    exact ⟨hh, List.forall_mem_append.2 ⟨hes, hrest⟩⟩
  | noFilter => exact ⟨hf, by simp⟩
  | filter _ ih => exact ih hf ⟨⟩

end

end EntityQuery
