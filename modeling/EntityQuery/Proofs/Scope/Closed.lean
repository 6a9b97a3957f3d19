import EntityQuery.Proofs.Scope.Joins
import EntityQuery.Proofs.Sql.Closed

/-!
# Closed scopes

A scope is closed if its joins see what they name: each in its turn sees the FROM item and the
joins before it, and joins only CTEs that are registered (`Frame.Closed`). The rows of the root
have its alias, and a join has the name of its key, so that a join that was found under its key
can be used in place of a new one.

**Steps.** Joining a relationship needs the alias of its parent and provides that of its child, so
a walk that starts at a visible table can be joined and makes its last table visible
(`Frame.Closed.joinHops`).

**Runs.** Writing a predicate keeps the frame closed, and what is written is closed in it
(`Writes.closed`). The body of a CTE has a scope of its own and so sees no row around it.
-/

namespace EntityQuery

open EntityQuery.Sql (Expr Query Join Cte)

/-- The alias of a join with the key. -/
def JoinKey.name (m : Model) : JoinKey → String
  | .table identity => m.naming.tableAlias identity
  | .cte name => name

/-- The aliases of a scope in order. -/
def Scope.boundNames (s : Scope) : List String :=
  s.source.boundName ::
    (s.baseJoins.map (·.table.boundName) ++ s.joins.map (·.join.table.boundName))

/-- The names of the CTEs in order. -/
def cteNames (ctes : List Cte) : List String := ctes.map (·.name)

structure Frame.Closed (m : Model) (f : Frame) : Prop where
  source : f.scope.source.label = some (m.aliasOf f.scope.root)
  joins : Sql.ClosedJoins (cteNames f.ctes) [f.scope.source.boundName] (f.scope.joinsFor false)
  keyed : ∀ j ∈ f.scope.joins, j.join.table.boundName = j.key.name m
  baseFilters : ∀ e ∈ f.scope.baseFilters, e.Closed (cteNames f.ctes) f.scope.boundNames
  ctes : Sql.ClosedCtes f.ctes

variable {m : Model} {P : Table → Prop} {f g : Frame} {ctes : List Cte} {origin : JoinOrigin}
  {s : Scope} {r : Relationship} {t : Table}

/-! ## Visible aliases -/

theorem Scope.boundNames_apply (s : Scope) {q : Query} (hjoins : q.joins = []) :
    (s.apply q false).boundNames = s.boundNames := by
  simp [Query.boundNames, apply, hjoins, joinsFor_false, boundNames, Sql.sourceNames]

theorem Scope.Grows.boundNames_subset {s' : Scope} (h : s.Grows s') :
    s.boundNames ⊆ s'.boundNames := by
  intro name hname
  have hsub := h.joins.subset
  simp only [boundNames, h.source, h.baseJoins, List.mem_cons, List.mem_append] at hname ⊢
  refine hname.imp_right (.imp_right fun hname => ?_)
  obtain ⟨j, hj, rfl⟩ := List.mem_map.1 hname
  obtain ⟨j', hj', heq⟩ := List.mem_map.1 (hsub (List.mem_map_of_mem hj))
  exact List.mem_map.2 ⟨j', hj', by rw [heq]⟩

theorem Frame.Grows.cteNames_subset (h : f.Grows g) : cteNames f.ctes ⊆ cteNames g.ctes :=
  List.map_subset _ h.ctes.subset

theorem Frame.Closed.root_mem (h : f.Closed m) : m.aliasOf f.scope.root ∈ f.scope.boundNames := by
  simp [Scope.boundNames, Sql.TableRef.boundName, h.source]

/-- An expression that is closed in a frame is closed in every later one. -/
theorem Frame.Grows.closed (h : f.Grows g) {e : Expr}
    (he : e.Closed (cteNames f.ctes) f.scope.boundNames) :
    e.Closed (cteNames g.ctes) g.scope.boundNames :=
  Expr.Closed.mono h.cteNames_subset h.scope.boundNames_subset e he

/-! ## One join -/

/-- A join that sees what it names can be added, and makes its alias visible. -/
theorem Frame.Closed.addJoin {new : ScopedJoin} (h : f.Closed m)
    (hkey : new.join.table.boundName = new.key.name m)
    (hknown : new.join.table.Known (cteNames f.ctes))
    (hon : new.join.on.Closed (cteNames f.ctes) (new.join.table.boundName :: f.scope.boundNames)) :
    (Frame.mk (f.scope.addJoin new) f.ctes).Closed m ∧
      new.join.table.boundName ∈ (f.scope.addJoin new).boundNames := by
  have hgrows : f.Grows ⟨f.scope.addJoin new, f.ctes⟩ :=
    ⟨Scope.grows_addJoin _ _, List.prefix_rfl⟩
  have hkeyed : ∀ j ∈ (f.scope.addJoin new).joins, j.join.table.boundName = j.key.name m := by
    intro j hj
    rcases Scope.mem_addTo hj with ⟨i, hi, hik, hij⟩ | rfl
    · rw [← hik, ← hij]
      exact h.keyed i hi
    · exact hkey
  refine ⟨⟨h.source, ?_, hkeyed, fun e he => hgrows.closed (h.baseFilters e he), h.ctes⟩, ?_⟩
  · have hjoins := h.joins
    rw [Scope.joinsFor_false] at hjoins ⊢
    simp only [Scope.addJoin, Scope.map_join_addTo]
    split
    · exact hjoins
    · rw [← List.append_assoc, Sql.closedJoins_append]
      refine ⟨hjoins, Sql.closedJoins_cons.2 ⟨hknown, ?_, ⟨⟩⟩⟩
      refine Expr.Closed.mono (List.Subset.refl _) ?_ _ hon
      intro name hname
      simp only [Scope.boundNames, List.mem_cons, List.mem_append, List.mem_reverse,
        List.map_append, List.map_map, Function.comp_def] at hname ⊢
      tauto
  · by_cases hmem : new.key ∈ f.scope.joins.map (·.key)
    · -- The join with this key has the alias already.
      obtain ⟨i, hi, hik⟩ := List.mem_map.1 hmem
      refine hgrows.scope.boundNames_subset ?_
      rw [hkey, ← hik, ← h.keyed i hi]
      simp only [Scope.boundNames, List.mem_cons, List.mem_append, List.mem_map]
      exact .inr (.inr ⟨i, hi, rfl⟩)
    · have hmap := @Scope.map_join_addTo new f.scope.joins
      rw [if_neg hmem] at hmap
      have hnames := congrArg (List.map (·.table.boundName)) hmap
      simp only [List.map_map, List.map_append, Function.comp_def] at hnames
      simp [Scope.boundNames, Scope.addJoin, hnames]

/-! ## Walks -/

/-- A step joins a stored table. -/
theorem JoinStep.tableRef_known (j : JoinStep) (ctes : List String) : j.tableRef.Known ctes := by
  intro hnone
  cases hnone

/-- A step of a relationship needs the alias on its left and provides its own. -/
theorem Frame.Closed.addStep {j : JoinStep} (h : f.Closed m) (origin : JoinOrigin)
    (hlabel : j.label = m.naming.tableAlias j.identity) (hleft : j.left ∈ f.scope.boundNames) :
    let s := f.scope.addJoin ⟨.table j.identity, ⟨.left, j.tableRef, j.on⟩, origin⟩
    (Frame.mk s f.ctes).Closed m ∧ j.label ∈ s.boundNames := by
  refine h.addJoin hlabel (j.tableRef_known _) ?_
  refine j.kept_on (Expr.kept_closed _ _) ?_ fun column => ?_
  · exact List.mem_cons_of_mem _ hleft
  · exact List.mem_cons_self

/-- A relationship needs the alias of its parent and provides that of its child. -/
theorem Frame.Closed.addSteps (h : f.Closed m) (origin : JoinOrigin) (hr : m.Relates t r)
    (ht : m.aliasOf t ∈ f.scope.boundNames) :
    let s := (Scope.joinsOf origin r).foldl Scope.addJoin f.scope
    (Frame.mk s f.ctes).Closed m ∧ m.aliasOf r.child ∈ s.boundNames := by
  have hchild := hr.label_eq (j := r.childJoin) (by simp [Relationship.joins])
  have hleft := hr.childJoin_left
  rw [← hr.childJoin_label]
  cases hlink : r.linkJoin with
  | none =>
    rw [hlink] at hleft
    simpa [Scope.joinsOf, Relationship.joins, hlink] using
      h.addStep origin hchild (hleft ▸ ht)
  | some link =>
    rw [hlink] at hleft
    obtain ⟨h₁, hmem⟩ := h.addStep origin (hr.linkJoin_label hlink)
      (hr.linkJoin_left hlink ▸ ht)
    have h₂ := h₁.addStep origin hchild (by rw [hleft]; exact hmem)
    simpa [Scope.joinsOf, Relationship.joins, hlink] using h₂

theorem Frame.Closed.joinWalk {hops : List Relationship} (h : f.Closed m) (origin : JoinOrigin)
    (hwalk : m.Walk t hops) (ht : m.aliasOf t ∈ f.scope.boundNames) :
    let s := (hops.flatMap (Scope.joinsOf origin)).foldl Scope.addJoin f.scope
    (Frame.mk s f.ctes).Closed m ∧ m.aliasOf (Model.endOf t hops) ∈ s.boundNames := by
  induction hwalk generalizing f with
  | nil => exact ⟨h, ht⟩
  | cons hr hrest ih =>
    obtain ⟨h₁, hchild⟩ := h.addSteps origin hr ht
    rw [List.flatMap_cons, List.foldl_append, Model.endOf_cons]
    exact ih h₁ hchild

/-- A walk from the root can be joined, and its end becomes visible. -/
theorem Frame.Closed.joinHops {hops : List Relationship} (h : f.Closed m)
    (hwalk : m.Walk f.scope.root hops) (hs : f.scope.joinHops hops origin = .ok s) :
    (Frame.mk s f.ctes).Closed m ∧ m.aliasOf (Model.endOf f.scope.root hops) ∈ s.boundNames := by
  rw [Scope.joinHops_eq_ok hs]
  exact h.joinWalk origin hwalk h.root_mem

theorem Frame.Closed.joinColumn {path : Path} {target : Target} (h : f.Closed m)
    (htarget : (joinColumn m path origin).Gives f target g) :
    g.Closed m ∧ target.column.Closed (cteNames g.ctes) g.scope.boundNames := by
  obtain ⟨r, s, hr, -, hs, rfl, rfl⟩ := gives_joinColumn.1 htarget
  obtain ⟨hwalk, htable⟩ := Model.walk_of_resolve hr
  obtain ⟨hclosed, hend⟩ := h.joinHops hwalk hs
  exact ⟨hclosed, by rwa [← htable] at hend⟩

/-! ## New scopes -/

theorem Frame.closed_ofTable (hctes : Sql.ClosedCtes ctes) :
    (Frame.mk (.ofTable m t) ctes).Closed m :=
  ⟨rfl, ⟨⟩, by simp [Scope.ofTable], by simp [Scope.ofTable], hctes⟩

/-- The scope on the far side of a relationship sees the child and the link table. -/
theorem Frame.closed_ofRelationship (hr : m.Relates t r) (hctes : Sql.ClosedCtes ctes) :
    (Frame.mk (.ofRelationship r) ctes).Closed m := by
  have hkept := Expr.kept_closed (cteNames ctes)
  refine ⟨?_, ?_, by simp [Scope.ofRelationship], fun e he => ?_, hctes⟩
  · show some r.childJoin.label = _
    rw [hr.childJoin_label]
    rfl
  · rw [Scope.joinsFor_false]
    have hleft := hr.childJoin_left
    cases hlink : r.linkJoin with
    | none => simp [Scope.ofRelationship, hlink, Sql.ClosedJoins]
    | some link =>
      rw [hlink] at hleft
      simp only [Scope.ofRelationship, hlink, Option.toList_some, List.map_cons, List.map_nil,
        List.append_nil, Sql.closedJoins_cons]
      refine ⟨link.tableRef_known _, ?_, ⟨⟩⟩
      have hcondition : r.childJoin.condition.Closed (cteNames ctes)
          [link.tableRef.boundName, r.childJoin.tableRef.boundName] := by
        refine ⟨?_, ?_⟩
        · show r.childJoin.left ∈ _
          rw [hleft]
          exact List.mem_cons_self
        · exact List.mem_cons_of_mem _ List.mem_cons_self
      refine (hkept _).combine_getD (fun e he => ?_) hcondition
      rcases List.mem_cons.1 he with rfl | he
      · exact hcondition
      · obtain ⟨filter, -, rfl⟩ := List.mem_map.1 he
        exact filter.kept_expr (hkept _) List.mem_cons_self
  · obtain ⟨filter, -, rfl⟩ := List.mem_map.1 he
    exact filter.kept_expr (hkept _) List.mem_cons_self

/-- The column that refers to the parent is visible on the far side. -/
theorem linkKey_closed (r : Relationship) (ctes : List String) :
    r.linkKey.Closed ctes (Scope.ofRelationship r).boundNames := by
  show r.firstJoin.label ∈ _
  cases hlink : r.linkJoin with
  | none => simp [Relationship.firstJoin, Scope.boundNames, Scope.ofRelationship, hlink,
      JoinStep.tableRef, Sql.TableRef.boundName]
  | some link => simp [Relationship.firstJoin, Scope.boundNames, Scope.ofRelationship, hlink,
      JoinStep.tableRef, Sql.TableRef.boundName]

/-! ## Queries over a scope -/

/-- A query over a closed scope is closed if its clauses are; it may see rows around it. -/
theorem Frame.Closed.apply {vis : List String} {q : Query} (h : (Frame.mk s ctes).Closed m)
    (hctes : q.ctes = []) (hjoins : q.joins = [])
    (hitems : Sql.ClosedItems (cteNames ctes) (s.boundNames ++ vis) q.items)
    (hcondition : Sql.ClosedOption (cteNames ctes) (s.boundNames ++ vis) q.condition)
    (hgroup : Sql.ClosedAll (cteNames ctes) (s.boundNames ++ vis) q.groupBy)
    (hhaving : Sql.ClosedOption (cteNames ctes) (s.boundNames ++ vis) q.having)
    (horder : Sql.ClosedOrder (cteNames ctes) (s.boundNames ++ vis) q.orderBy) :
    (s.apply q false).Closed (cteNames ctes) vis := by
  rw [Sql.Query.closed_iff, s.boundNames_apply hjoins]
  refine ⟨hctes, ?_, ?_, hitems, hcondition, hgroup, hhaving, horder⟩
  · intro hnone
    exact absurd (hnone.symm.trans h.source) (by simp)
  · have hseen : [s.source.boundName] ⊆ Sql.sourceNames (s.apply q false).source ++ vis := by
      simp [Scope.apply, Sql.sourceNames]
    have hall : (s.apply q false).joins = s.joinsFor false := by simp [Scope.apply, hjoins]
    rw [hall]
    exact Sql.ClosedJoins.mono (List.Subset.refl _) hseen _ h.joins

/-- An expression of the scope in a place that sees further rows. -/
theorem Sql.Expr.Closed.beside {e : Expr} {ctes names vis : List String}
    (h : e.Closed ctes names) : e.Closed ctes (names ++ vis) :=
  Expr.Closed.mono (List.Subset.refl _) (List.subset_append_left _ _) e h

theorem Frame.Closed.keysQuery {link : Expr} {conditions : List Expr}
    {counted : Option (Expr × Nat)} (h : (Frame.mk s ctes).Closed m)
    (hlink : link.Closed (cteNames ctes) s.boundNames)
    (hconditions : ∀ e ∈ conditions, e.Closed (cteNames ctes) s.boundNames)
    (hcounted : ∀ c ∈ counted, c.1.Closed (cteNames ctes) s.boundNames) :
    (s.apply (keysQuery link conditions counted) false).Closed (cteNames ctes) [] := by
  have hcondition : Sql.ClosedOption (cteNames ctes) (s.boundNames ++ [])
      (Expr.combine .and conditions) :=
    Sql.closedOption_iff.2 ((Expr.kept_closed _ _).combine fun e he => (hconditions e he).beside)
  cases counted with
  | none => exact h.apply rfl rfl ⟨hlink.beside, ⟨⟩⟩ hcondition ⟨⟩ ⟨⟩ ⟨⟩
  | some c =>
    exact h.apply rfl rfl ⟨hlink.beside, ⟨⟩⟩ hcondition ⟨hlink.beside, ⟨⟩⟩
      ⟨⟨(hcounted c rfl).beside, ⟨⟩⟩, ⟨⟩⟩ ⟨⟩

theorem Frame.Closed.subqueryQuery {column : Expr} {es : List Expr} (h : (Frame.mk s ctes).Closed m)
    (hcolumn : column.Closed (cteNames ctes) s.boundNames)
    (hes : ∀ e ∈ es, e.Closed (cteNames ctes) s.boundNames) :
    (subqueryQuery s column es.head?).Closed (cteNames ctes) [] := by
  refine h.apply rfl rfl ⟨hcolumn.beside, ⟨⟩⟩ (Sql.closedOption_iff.2 fun e he => ?_) ⟨⟩ ⟨⟩ ⟨⟩
  exact (hes e (List.mem_of_mem_head? he)).beside

theorem closedCtes_append {c : Cte} (h : Sql.ClosedCtes ctes)
    (hc : c.query.Closed (cteNames ctes) []) : Sql.ClosedCtes (ctes ++ [c]) := by
  intro before d after heq
  rcases List.append_eq_append_iff.1 heq with ⟨rest, rfl, hrest⟩ | ⟨rest, rfl, hrest⟩
  · cases rest with
    | nil =>
      cases hrest
      simpa [cteNames] using hc
    | cons x rest => cases rest <;> cases hrest
  · cases rest with
    | nil =>
      cases hrest
      simpa [cteNames] using hc
    | cons x rest =>
      cases hrest
      exact h before d rest rfl

/-- A closed frame stays so among further CTEs. -/
theorem Frame.Closed.withCtes {ctes' : List Cte} (h : (Frame.mk s ctes).Closed m)
    (hsub : ctes <+: ctes') (hctes : Sql.ClosedCtes ctes') : (Frame.mk s ctes').Closed m := by
  have hgrows : (Frame.mk s ctes).Grows ⟨s, ctes'⟩ := ⟨.refl s, hsub⟩
  exact ⟨h.source, Sql.ClosedJoins.mono hgrows.cteNames_subset (List.Subset.refl _) _ h.joins,
    h.keyed, fun e he => hgrows.closed (h.baseFilters e he), hctes⟩

/-- A CTE of keys joined at its parent. -/
theorem Frame.Closed.withKeys {keys : Query} (h : (Frame.mk s ctes).Closed m) (hr : m.Relates t r)
    (ht : m.aliasOf t ∈ s.boundNames) (hkeys : keys.Closed (cteNames ctes) []) :
    let name := Build.cteName ctes.length
    (Frame.withKeys s ctes r keys origin).Closed m ∧
      name ∈ (Frame.withKeys s ctes r keys origin).scope.boundNames := by
  intro name
  have hadded : (Frame.mk s (ctes ++ [⟨name, keys⟩])).Closed m :=
    h.withCtes (List.prefix_append _ _) (closedCtes_append h.ctes hkeys)
  refine hadded.addJoin rfl (fun _ => ?_) ⟨List.mem_cons_self, ?_⟩
  · simp [cteNames, name]
  · show r.firstJoin.left ∈ _
    rw [hr.firstJoin_left]
    exact List.mem_cons_of_mem _ ht

/-! ## Writing predicates -/

/-- The column of a comparison is visible. -/
def Task.Sees (ctes names : List String) : Task → Prop
  | .operand target _ _ _ => target.column.Closed ctes names
  | _ => True

/-- **What a predicate is written as is closed.** -/
theorem Writes.closed {task : Task} {es : List Expr} (h : Writes m P task f es g) (hf : f.Closed m)
    (hsees : task.Sees (cteNames f.ctes) f.scope.boundNames) :
    g.Closed m ∧ ∀ e ∈ es, e.Closed (cteNames g.ctes) g.scope.boundNames := by
  induction h with
  | compile _ _ ih => exact ih hf ⟨⟩
  | group _ ih =>
    obtain ⟨hg, hes⟩ := ih hf ⟨⟩
    refine ⟨hg, fun e he => ?_⟩
    exact (Expr.kept_closed _ _).combine hes e (Option.mem_toList.1 he)
  | compare htarget _ ih =>
    obtain ⟨hg, hcolumn⟩ := hf.joinColumn htarget
    exact ih hg hcolumn
  | columns hl hr he =>
    obtain ⟨hg, hleft⟩ := hf.joinColumn hl
    obtain ⟨hh, hright⟩ := hg.joinColumn hr
    refine ⟨hh, ?_⟩
    rw [List.forall_mem_singleton]
    exact kept_compareColumns (Expr.kept_closed _ _) ((grows_joinColumn hr).closed hleft) hright he
  | related hroute hs hw hcounted ih =>
    obtain ⟨hwalk, hlast⟩ := Model.walk_of_resolveRelationship hroute
    obtain ⟨hbefore, hparent⟩ := hf.joinHops hwalk hs
    obtain ⟨hg, hes⟩ := ih (Frame.closed_ofRelationship hlast hf.ctes) ⟨⟩
    obtain ⟨hbody, hcolumn⟩ := joinThreshold_induction hg hcounted hg.joinColumn
    have hgrows := hw.grows.trans (grows_joinThreshold hcounted)
    have hkeys := hbody.keysQuery (hgrows.closed (linkKey_closed _ _)) (fun e he => by
      rcases List.mem_append.1 he with he | he
      · exact hbody.baseFilters e he
      · exact (grows_joinThreshold hcounted).closed (hes e he)) hcolumn
    -- The CTEs of the body are there when its own is added and joined.
    obtain ⟨hall, hname⟩ :=
      (hbefore.withCtes hgrows.ctes hbody.ctes).withKeys hlast hparent hkeys
    refine ⟨hall, ?_⟩
    rw [List.forall_mem_singleton]
    exact hname
  | value he =>
    refine ⟨hf, ?_⟩
    rw [List.forall_mem_singleton]
    exact Target.kept_scalar (Expr.kept_closed _ _) hsees he
  | values he =>
    refine ⟨hf, ?_⟩
    rw [List.forall_mem_singleton]
    exact Target.kept_list (Expr.kept_closed _ _) hsees he
  | subquery _ _ hselected hw ih =>
    obtain ⟨hg, hcolumn⟩ := (Frame.closed_ofTable hf.ctes).joinColumn hselected
    obtain ⟨hscope, hes⟩ := ih hg ⟨⟩
    have hgrows := (grows_joinColumn hselected).trans hw.grows
    refine ⟨hf.withCtes hgrows.ctes hscope.ctes, ?_⟩
    rw [List.forall_mem_singleton]
    refine ⟨Expr.Closed.mono hgrows.cteNames_subset (List.Subset.refl _) _ hsees, ?_⟩
    exact Sql.Query.Closed.mono (List.Subset.refl _) (List.nil_subset _) _
      (hscope.subqueryQuery (hw.grows.closed hcolumn) hes)
  | nil => exact ⟨hf, by simp⟩
  | cons hw hrest ih₁ ih₂ =>
    obtain ⟨hg, hes⟩ := ih₁ hf ⟨⟩
    obtain ⟨hh, hrest'⟩ := ih₂ hg ⟨⟩
    refine ⟨hh, fun e he => ?_⟩
    rcases List.mem_append.1 he with he | he
    · exact hrest.grows.closed (hes e he)
    · exact hrest' e he
  | noFilter => exact ⟨hf, by simp⟩
  | filter _ ih => exact ih hf ⟨⟩

end EntityQuery
