import EntityQuery.Proofs.Graph.Members
import EntityQuery.Proofs.Graph.Reach
import EntityQuery.Proofs.Scope.Selects

/-!
# Filters do not multiply rows

A filter reaches rows through relationships that fan out, but none of its joins does.

**Joins.** A filter joins the steps of one-to-one relationships and the CTEs that it generated,
each on its link (`FilterJoin`). The only other joins are those that bring the link table of a
relationship into the body of a CTE (`LinkJoin`).

**CTEs.** A CTE selects the link and nothing else, each link once: by DISTINCT, or because it is
grouped by the link (`SelectsKeys`).

**Why.** A `related` that is written fans out at most in the last member of its path, and this one
is not joined but becomes the body of a CTE. The condition of the `related` is compiled anew in that
body, so the argument repeats there; `Writes.safe` is the induction.

**What follows.** In a database where a step of a one-to-one relationship finds at most one row,
every row of the root table has exactly one row in the FROM clause of the filter.
-/

namespace EntityQuery

open EntityQuery.Sql (Expr Query Join)

variable {es : List Expr} {q : Query}

/-! ## The joins of a filter -/

/-- The joins that a filter has: steps of one-to-one relationships, and generated CTEs by their
link. -/
inductive FilterJoin (m : Model) (ctes : List Sql.Cte) : Join → Prop
  | step {t : Table} {r : Relationship} {j : JoinStep} :
      m.Covers t → m.Relates t r → r.cardinality = .oneToOne → j ∈ r.joins →
      FilterJoin m ctes ⟨.left, j.tableRef, j.on⟩
  | keys {t : Table} {r : Relationship} {c : Sql.Cte} :
      m.Covers t → m.Relates t r → c ∈ ctes →
      FilterJoin m ctes
        ⟨.left, ⟨none, c.name, none⟩, .eq (.ofTable c.name linkColumn) r.parentKey⟩

/-- The join that brings the link table of a relationship into the scope of its child. -/
def LinkJoin (m : Model) (j : Join) : Prop :=
  ∃ t r, m.Covers t ∧ m.Relates t r ∧ j ∈ (Scope.ofRelationship r).baseJoins

/-- A SELECT of a filter. -/
def FilterSelect (m : Model) (ctes : List Sql.Cte) (q : Query) : Prop :=
  ∀ j ∈ q.joins, FilterJoin m ctes j ∨ LinkJoin m j

/-- A query that selects one column under the name of the link, each value once. -/
def SelectsKeys (q : Query) : Prop :=
  ∃ table column, q.items = [⟨.ofTable table column, some linkColumn⟩] ∧
    (q.distinct = true ∧ q.groupBy = [] ∧ q.having = none ∨
      q.distinct = false ∧ q.groupBy = [.ofTable table column])

/-- The CTEs of filters. -/
def SafeCtes (m : Model) (ctes : List Sql.Cte) : Prop :=
  ∀ c ∈ ctes, (∀ q ∈ c.query.selects, FilterSelect m ctes q) ∧ SelectsKeys c.query

/-- All that has been written so far is a filter's. -/
structure Frame.Safe (m : Model) (f : Frame) : Prop where
  root : m.Covers f.scope.root
  joins : ∀ j ∈ f.scope.joins, FilterJoin m f.ctes j.join
  baseJoins : ∀ j ∈ f.scope.baseJoins, LinkJoin m j
  ctes : SafeCtes m f.ctes

section

variable {m : Model} {ctes ctes' : List Sql.Cte} {f g : Frame} {origin : JoinOrigin}
  {r : Relationship} {j : Join} {s : Scope} {t : Table}

theorem FilterJoin.mono (hsub : ctes ⊆ ctes') (h : FilterJoin m ctes j) : FilterJoin m ctes' j := by
  cases h with
  | step ht hr hone hj => exact .step ht hr hone hj
  | keys ht hr hc => exact .keys ht hr (hsub hc)

theorem FilterSelect.mono (hsub : ctes ⊆ ctes') (h : FilterSelect m ctes q) :
    FilterSelect m ctes' q :=
  fun j hj => (h j hj).imp_left (.mono hsub)

theorem FilterJoin.selects_on (h : FilterJoin m ctes j) : j.on.selects = [] := by
  cases h with
  | step _ _ _ _ => exact JoinStep.selects_on _
  | keys _ _ _ => rfl

theorem LinkJoin.selects_on (h : LinkJoin m j) : j.on.selects = [] := by
  obtain ⟨t, r, -, -, hj⟩ := h
  exact Scope.plain_ofRelationship r j (List.mem_append_left _ hj)

/-- The joins of a query over a safe scope. -/
theorem Frame.Safe.joinsFor (h : f.Safe m) :
    ∀ j ∈ f.scope.joinsFor false, FilterJoin m f.ctes j ∨ LinkJoin m j := by
  intro j hj
  rcases Scope.mem_joinsFor hj with hj | ⟨i, hi, rfl⟩
  · exact .inr (h.baseJoins j hj)
  · exact .inl (h.joins i hi)

theorem Frame.Safe.plain (h : f.Safe m) : f.scope.Plain :=
  fun j hj => (h.joinsFor j hj).elim (·.selects_on) (·.selects_on)

/-- A query over a safe scope has the joins of a filter. -/
theorem Frame.Safe.filterSelect (h : f.Safe m) (hjoins : q.joins = []) :
    FilterSelect m f.ctes (f.scope.apply q false) := by
  intro j hj
  rw [Scope.apply, hjoins] at hj
  exact h.joinsFor j hj

/-! ## What writing preserves -/

/-- What was written before is safe among further CTEs. -/
theorem Frame.Safe.mono (h : (Frame.mk s ctes).Safe m) (hsub : ctes ⊆ ctes')
    (hctes : SafeCtes m ctes') : (Frame.mk s ctes').Safe m :=
  ⟨h.root, fun j hj => (h.joins j hj).mono hsub, h.baseJoins, hctes⟩

/-- A walk without a fan-out can be joined. -/
theorem Frame.Safe.joinHops {hops : List Relationship} (h : f.Safe m)
    (hwalk : m.Walk f.scope.root hops) (hone : ∀ r ∈ hops, r.fansOut = false)
    (hs : f.scope.joinHops hops origin = .ok s) : (Frame.mk s f.ctes).Safe m := by
  refine ⟨?_, Scope.forall_joinHops hs h.joins fun r hr j hj => ?_, ?_, h.ctes⟩
  · rw [(Scope.grows_joinHops hs).root]
    exact h.root
  · obtain ⟨u, hu, hr'⟩ := hwalk.relates h.root r hr
    exact .step hu hr' (r.fansOut_eq_false_iff.1 (hone r hr)) hj
  · rw [(Scope.grows_joinHops hs).baseJoins]
    exact h.baseJoins

theorem Frame.Safe.joinColumn {path : Path} {target : Target} (h : f.Safe m)
    (htarget : (joinColumn m path origin).Gives f target g) :
    g.Safe m ∧ target.column.selects = [] := by
  obtain ⟨r, s, hr, hmany, hs, rfl, rfl⟩ := gives_joinColumn.1 htarget
  have hone := Resolution.crossesMany_eq_false.1 hmany
  exact ⟨h.joinHops (Model.walk_of_resolve hr).1 hone hs, rfl⟩

theorem Frame.safe_ofTable (ht : m.Covers t) (hctes : SafeCtes m ctes) :
    (Frame.mk (.ofTable m t) ctes).Safe m :=
  ⟨ht, by simp [Scope.ofTable], by simp [Scope.ofTable], hctes⟩

theorem Frame.safe_ofRelationship (ht : m.Covers t) (hr : m.Relates t r) (hctes : SafeCtes m ctes) :
    (Frame.mk (.ofRelationship r) ctes).Safe m :=
  ⟨hr.covers_child, by simp [Scope.ofRelationship], fun _ hj => ⟨t, r, ht, hr, hj⟩, hctes⟩

theorem selectsKeys_keysQuery (r : Relationship) (conditions : List Expr)
    (counted : Option (Expr × Nat)) (s : Scope) :
    SelectsKeys (s.apply (keysQuery r.linkKey conditions counted) false) := by
  refine ⟨r.firstJoin.label, r.firstJoin.rightColumn, ?_⟩
  cases counted with
  | none => exact ⟨rfl, .inl ⟨rfl, rfl, rfl⟩⟩
  | some c => exact ⟨rfl, .inr ⟨rfl, rfl⟩⟩

/-- A CTE of keys behind those that are there. -/
theorem SafeCtes.append {keys : Query} (h : SafeCtes m ctes)
    (hkeys : ∀ q ∈ keys.selects, FilterSelect m ctes q) (hone : SelectsKeys keys) (name : String) :
    SafeCtes m (ctes ++ [⟨name, keys⟩]) := by
  have hsub : ctes ⊆ ctes ++ [⟨name, keys⟩] := List.subset_append_left _ _
  intro c hc
  rcases List.mem_append.1 hc with hc | hc
  · exact ⟨fun q hq => ((h c hc).1 q hq).mono hsub, (h c hc).2⟩
  · cases List.mem_singleton.1 hc
    exact ⟨fun q hq => (hkeys q hq).mono hsub, hone⟩

/-- A CTE of keys joined to the scope of its parent. -/
theorem Frame.Safe.withKeys {keys : Query} (h : (Frame.mk s ctes).Safe m) (ht : m.Covers t)
    (hr : m.Relates t r) (hkeys : ∀ q ∈ keys.selects, FilterSelect m ctes q)
    (hone : SelectsKeys keys) : (Frame.withKeys s ctes r keys origin).Safe m := by
  have hsub : ctes ⊆ ctes ++ [⟨Build.cteName ctes.length, keys⟩] := List.subset_append_left _ _
  refine ⟨h.root, Scope.forall_joinCte (fun j hj => (h.joins j hj).mono hsub) ?_, h.baseJoins,
    h.ctes.append hkeys hone _⟩
  exact .keys (c := ⟨Build.cteName ctes.length, keys⟩) ht hr (by simp [Frame.withKeys])

/-- The body of a CTE, once its condition has been written. -/
theorem safe_keysQuery {threshold : Option Threshold} {counted : Option (Expr × Nat)} {body : Scope}
    (h : f.Safe m) (hfilters : f.scope.baseFilters = r.childJoin.filterExprs)
    (hes : ∀ e ∈ es, ∀ q ∈ e.selects, FilterSelect m f.ctes q)
    (hcounted : (joinThreshold m threshold).Gives f counted ⟨body, ctes⟩) :
    (Frame.mk body ctes).Safe m ∧
      ∀ q ∈ (body.apply (keysQuery r.linkKey (body.baseFilters ++ es) counted) false).selects,
        FilterSelect m ctes q := by
  obtain ⟨hbody, hnone⟩ :=
    joinThreshold_induction (Q := (·.selects = [])) h hcounted h.joinColumn
  have hgrows := grows_joinThreshold hcounted
  refine ⟨hbody, forall_selects_keysQuery hbody.plain (hbody.filterSelect (joins_keysQuery _ _ _))
    (fun e he => ?_) hnone⟩
  rcases List.mem_append.1 he with he | he
  · rw [hgrows.scope.baseFilters, hfilters] at he
    simp [JoinStep.selects_filterExprs e he]
  · exact fun q hq => (hes e he q hq).mono hgrows.ctes.subset

end

/-! ## Writing -/

namespace Predicate

variable {m : Model} {t : Table}

theorem fansOutLast_take {path : Path} {i : Nat} {r : Relationship}
    (h : m.firstMany? t path = some (i, r)) :
    (fansOutLast m t).related (path.take (i + 1)) := by
  intro j s hj
  rw [Model.firstMany?_take h] at hj
  cases hj
  have := Model.firstMany?_lt h
  rw [Path.length_take]
  omega

/-- **Correlation leaves a fan-out at most at the end of a path.** -/
theorem Correlates.fansOutLast {p c : Predicate} (h : Correlates m t p c) :
    c.OnLeaves (fansOutLast m t) := by
  induction h with
  | kept hp => exact hp
  | cons _ _ ih₁ ih₂ => exact ⟨ih₁, ih₂⟩
  | unlike _ _ ih₁ ih₂ => exact ⟨ih₁, ih₂, ⟨⟩⟩
  | across hmany _ | columns hmany _ _ | nested hmany _ => exact fansOutLast_take hmany

theorem fansOutLast_normal {p q : Predicate} (h : p.normal m t = .ok q) :
    q.OnLeaves (fansOutLast m t) := by
  obtain ⟨c, hc, rfl⟩ := normal_eq_ok.1 h
  have hself : (EntityQuery.fansOutLast m t).Expands (EntityQuery.fansOutLast m t) :=
    LeafTest.expands_self fun _ _ _ => rfl
  exact onLeaves_simplify hself c (correlates_of_ok p.simplify hc).fansOutLast

end Predicate

/-- What is joined before the last relationship of such a path is one-to-one. -/
theorem fansOut_before {m : Model} {t : Table} {via : Path} {route : Route}
    (hvia : (fansOutLast m t).related via) (h : m.resolveRelationship t via = .ok route) :
    ∀ r ∈ route.before, r.fansOut = false := by
  have hwalk := Model.resolveRelationship_eq_ok h
  have hlast := Model.fansOut_dropLast hwalk fun i r hi => by
    rw [Nat.zero_add]
    exact hvia i r hi
  rwa [Route.hops, List.dropLast_concat] at hlast

/-- The paths of what is to be written fan out at their ends only. -/
def Task.Ready (m : Model) (t : Table) : Task → Prop
  | .compile _ _ | .filter _ => True
  | .render p _ => p.OnLeaves (fansOutLast m t)
  | .renderAll ps _ => Predicate.OnLeavesAll (fansOutLast m t) ps
  | .operand target _ _ _ => target.column.selects = []

/-- **Writing keeps a frame safe.** -/
theorem Writes.safe {m : Model} {task : Task} {f g : Frame} (h : Writes m m.Covers task f es g)
    (hf : f.Safe m) (hready : task.Ready m f.scope.root) :
    g.Safe m ∧ ∀ e ∈ es, ∀ q ∈ e.selects, FilterSelect m g.ctes q := by
  induction h with
  | compile hq _ ih => exact ih hf (Predicate.fansOutLast_normal hq)
  | group _ ih =>
    obtain ⟨hg, hes⟩ := ih hf hready
    refine ⟨hg, fun e he => ?_⟩
    exact (Expr.kept_selects _).combine hes e (Option.mem_toList.1 he)
  | compare htarget _ ih =>
    obtain ⟨hg, hcolumn⟩ := hf.joinColumn htarget
    exact ih hg hcolumn
  | columns hl hr he =>
    obtain ⟨hg, hleft⟩ := hf.joinColumn hl
    obtain ⟨hh, hright⟩ := hg.joinColumn hr
    refine ⟨hh, ?_⟩
    rw [List.forall_mem_singleton]
    exact kept_compareColumns (Expr.kept_selects _) (by simp [hleft]) (by simp [hright]) he
  | related hroute hs hw hcounted ih =>
    obtain ⟨hwalk, hlast⟩ := Model.walk_of_resolveRelationship hroute
    have hbefore := hf.joinHops hwalk (fansOut_before hready hroute) hs
    have hend := hwalk.covers_endOf hf.root
    -- The body starts anew, with the CTEs that are there.
    obtain ⟨hg, hes⟩ := ih (Frame.safe_ofRelationship hend hlast hf.ctes) True.intro
    obtain ⟨hbody, hkeys⟩ := safe_keysQuery hg hw.grows.scope.baseFilters hes hcounted
    have hgrows := hw.grows.trans (grows_joinThreshold hcounted)
    exact ⟨(hbefore.mono hgrows.ctes.subset hbody.ctes).withKeys hend hlast hkeys
      (selectsKeys_keysQuery _ _ _ _), by simp [Sql.Expr.selects, selects_ofTable]⟩
  | value he =>
    refine ⟨hf, ?_⟩
    rw [List.forall_mem_singleton]
    exact Target.kept_scalar (Expr.kept_selects _) (by simp [show _ = [] from hready]) he
  | values he =>
    refine ⟨hf, ?_⟩
    rw [List.forall_mem_singleton]
    exact Target.kept_list (Expr.kept_selects _) (by simp [show _ = [] from hready]) he
  | subquery ht _ hselected hw ih =>
    obtain ⟨hg, hcolumn⟩ := (Frame.safe_ofTable ht hf.ctes).joinColumn hselected
    obtain ⟨hscope, hes⟩ := ih hg True.intro
    have hsub := ((grows_joinColumn hselected).trans hw.grows).ctes.subset
    refine ⟨hf.mono hsub hscope.ctes, ?_⟩
    rw [List.forall_mem_singleton]
    intro q hq
    simp only [Sql.Expr.selects, show _ = [] from hready, List.nil_append] at hq
    exact forall_selects_subqueryQuery hscope.plain (hscope.filterSelect rfl) hcolumn hes q hq
  | nil => exact ⟨hf, by simp⟩
  | cons hw hrest ih₁ ih₂ =>
    obtain ⟨hg, hes⟩ := ih₁ hf hready.1
    obtain ⟨hh, hrest'⟩ := ih₂ hg (by rw [hw.grows.scope.root]; exact hready.2)
    refine ⟨hh, fun e he => ?_⟩
    rcases List.mem_append.1 he with he | he
    · exact fun q hq => (hes e he q hq).mono hrest.grows.ctes.subset
    · exact hrest' e he
  | noFilter => exact ⟨hf, by simp⟩
  | filter _ ih => exact ih hf True.intro

/-- The CTEs of a predicate are those of filters wherever it stands, whatever has been joined
there. -/
theorem Writes.safeCtes {m : Model} {task : Task} {f g : Frame} (h : Writes m m.Covers task f es g)
    (hroot : m.Covers f.scope.root) (hf : SafeCtes m f.ctes) : SafeCtes m g.ctes := by
  induction h with
  | compile _ _ ih => exact ih hroot hf
  | group _ ih => exact ih hroot hf
  | compare htarget _ ih =>
    rw [← (grows_joinColumn htarget).scope.root] at hroot
    rw [← ctes_joinColumn htarget] at hf
    exact ih hroot hf
  | columns hl hr _ => rwa [ctes_joinColumn hr, ctes_joinColumn hl]
  | related hroute hs hw hcounted _ =>
    obtain ⟨hwalk, hlast⟩ := Model.walk_of_resolveRelationship hroute
    have hend := hwalk.covers_endOf hroot
    -- Its body is written in a scope of its own.
    obtain ⟨hg, hes⟩ := hw.safe (Frame.safe_ofRelationship hend hlast hf) True.intro
    obtain ⟨hbody, hkeys⟩ := safe_keysQuery hg hw.grows.scope.baseFilters hes hcounted
    exact hbody.ctes.append hkeys (selectsKeys_keysQuery _ _ _ _) _
  | value _ => exact hf
  | values _ => exact hf
  | subquery ht _ hselected hw _ =>
    obtain ⟨hg, -⟩ := (Frame.safe_ofTable ht hf).joinColumn hselected
    exact (hw.safe hg True.intro).1.ctes
  | nil => exact hf
  | cons hw _ ih₁ ih₂ => exact ih₂ (hw.grows.scope.root ▸ hroot) (ih₁ hroot hf)
  | noFilter => exact hf
  | filter _ ih => exact ih hroot hf

/-! ## The rows of keys -/

section

open EntityQuery.Sql (Engine Database Ctes Env Record joinFound joinAll bindCtes groupsBy)

variable {D : Type} [DecidableEq D] (E : Engine D) (db : Database D) {m : Model} {rows : Ctes D}

/-- The environments of a group agree with its key. -/
theorem key_headD_filter {key : Env D → List (Option D)} {envs : List (Env D)}
    {k : List (Option D)} (hk : k ∈ (envs.map key).dedup) (env : Env D) :
    key ((envs.filter fun row => key row = k).headD env) = k := by
  obtain ⟨row, hrow, hkey⟩ := List.mem_map.1 (List.mem_dedup.1 hk)
  cases hf : envs.filter fun row => key row = k with
  | nil => exact absurd hkey (by simpa using List.filter_eq_nil_iff.1 hf row hrow)
  | cons first rest =>
    have hmem : first ∈ envs.filter fun row => key row = k := hf ▸ List.mem_cons_self
    exact of_decide_eq_true (List.mem_filter.1 hmem).2

/-- The results of a query that selects keys: of every group, the key of its first row. -/
theorem results_keys {table column : String}
    (hitems : q.items = [⟨.ofTable table column, some linkColumn⟩]) (ctes : Ctes D) (env : Env D) :
    ∃ groups : List (List (Env D)), groups.Sublist (q.groups E db ctes env) ∧
      q.results E db ctes env =
        groups.map fun group =>
          [(some linkColumn, group.headD (env.clear q.boundNames) table column)] := by
  refine ⟨(q.groups E db ctes env).filter fun group =>
    Sql.holdsOption E db ctes group (group.headD (env.clear q.boundNames)) q.having,
    List.filter_sublist, ?_⟩
  rw [Query.results, hitems]
  simp only [Sql.evalItems, Expr.ofTable, Expr.eval]

/-- **A query that selects keys has at most one row for each key.** -/
theorem SelectsKeys.nodup (h : SelectsKeys q) (ctes : Ctes D) (env : Env D) :
    ((q.records E db ctes env).map fun r => r.row linkColumn).Nodup := by
  obtain ⟨table, column, hitems, hcase⟩ := h
  obtain ⟨groups, hsub, hresults⟩ := results_keys E db hitems (bindCtes E db ctes q.ctes) env
  rw [Query.records_eq]
  rcases hcase with ⟨hdistinct, -, -⟩ | ⟨hdistinct, hgroup⟩
  · -- Different records differ in their only value.
    simp only [hdistinct, if_true, hresults]
    refine List.Nodup.map_on ?_ (List.nodup_dedup _)
    intro a ha b hb hab
    obtain ⟨g₁, -, rfl⟩ := List.mem_map.1 (List.mem_dedup.1 ha)
    obtain ⟨g₂, -, rfl⟩ := List.mem_map.1 (List.mem_dedup.1 hb)
    simp only [Record.row_singleton] at hab
    rw [hab]
  · -- Different groups differ in their key, which is the value.
    simp only [hdistinct, Bool.false_eq_true, if_false, hresults, List.map_map]
    have hgroups : (q.groups E db (bindCtes E db ctes q.ctes) env) =
        groupsBy (fun row => [row table column]) (q.kept E db (bindCtes E db ctes q.ctes) env) := by
      rw [Query.groups, hgroup]
      rfl
    refine List.Nodup.sublist (hsub.map _) ?_
    rw [hgroups, groupsBy, List.map_map]
    refine List.Nodup.map_on ?_ (List.nodup_dedup _)
    intro k₁ h₁ k₂ h₂ heq
    rw [← key_headD_filter h₁ (env.clear q.boundNames),
      ← key_headD_filter h₂ (env.clear q.boundNames)]
    simp only [Function.comp_apply, Record.row_singleton] at heq
    simpa using heq

theorem nodup_bindCtes {ctes : List Sql.Cte} (h : ∀ c ∈ ctes, SelectsKeys c.query)
    (hrows : ∀ name, ((rows name).map fun row => row linkColumn).Nodup) (name : String) :
    ((bindCtes E db rows ctes name).map fun row => row linkColumn).Nodup := by
  induction ctes generalizing rows with
  | nil =>
    rw [bindCtes]
    exact hrows name
  | cons c ctes ih =>
    rw [List.forall_mem_cons] at h
    cases c
    rw [bindCtes]
    refine ih h.2 fun n => ?_
    split
    · rw [List.map_map]
      exact h.1.nodup E db rows Env.empty
    · exact hrows n

/-! ## Filters do not multiply rows -/

variable {E db}

/-- Rows with different keys match a value at most once. -/
theorem length_joinFound_keys {name parent column : String}
    (hrows : ((rows name).map fun row => row linkColumn).Nodup) (hne : parent ≠ name)
    (env : Env D) :
    (joinFound E db rows ⟨.left, ⟨none, name, none⟩,
      .eq (.ofTable name linkColumn) (.ofTable parent column)⟩ env).length ≤ 1 := by
  set P : Sql.Row D → Bool := fun row =>
    E.truth (E.binary .eq (row linkColumn) (env parent column)) = some true with hP
  have hfound : (joinFound E db rows ⟨.left, ⟨none, name, none⟩,
      .eq (.ofTable name linkColumn) (.ofTable parent column)⟩ env) =
      ((rows name).filter P).map (env.bind name) := by
    rw [joinFound, List.filter_map]
    congr 1
    refine List.filter_congr fun row _ => ?_
    simp only [Function.comp_apply, Sql.TableRef.boundName, Option.getD_none, Expr.eq, Expr.ofTable,
      Expr.eval, Env.bind_self, Env.bind_of_ne hne, hP]
  have hnodup : (((rows name).filter P).map fun row => row linkColumn).Nodup :=
    hrows.sublist (List.filter_sublist.map _)
  rw [hfound, List.length_map]
  rcases hf : (rows name).filter P with _ | ⟨a, _ | ⟨b, rest⟩⟩
  · simp
  · simp
  · have hmem : ∀ x ∈ a :: b :: rest, x linkColumn = env parent column := by
      intro x hx
      rw [← hf, List.mem_filter] at hx
      have htrue : E.truth (E.binary .eq (x linkColumn) (env parent column)) = some true :=
        of_decide_eq_true hx.2
      obtain ⟨v, hx, hv⟩ := E.truth_binary_eq.1 htrue
      rw [hx, hv]
    rw [hf] at hnodup
    simp [hmem a (by simp), hmem b (by simp)] at hnodup

/-- A join of a filter finds at most one row. -/
theorem FilterJoin.length_joinFound {ctes : List Sql.Cte} {j : Join} (h : FilterJoin m ctes j)
    (hdb : m.OneToOne E db) (hnumbered : Numbered ctes) (hnaming : m.naming.AvoidsCtes)
    (hrows : ∀ name, ((rows name).map fun row => row linkColumn).Nodup) (env : Env D) :
    j.kind = .left ∧ (joinFound E db rows j env).length ≤ 1 := by
  cases h with
  | step ht hr hone hj => exact ⟨rfl, hdb _ _ ht hr hone _ hj rows env⟩
  | keys _ hr hc =>
    obtain ⟨i, -, hname⟩ := hnumbered.name_eq hc
    refine ⟨rfl, length_joinFound_keys (hrows _) ?_ env⟩
    rw [hr.firstJoin_left, hname]
    exact hnaming _ _

/-- So does every join of a safe frame. -/
theorem Frame.Safe.length_joinFound {f : Frame} (h : f.Safe m) (hdb : m.OneToOne E db)
    (hnumbered : Numbered f.ctes) (hnaming : m.naming.AvoidsCtes) {j : ScopedJoin}
    (hj : j ∈ f.scope.joins) (env : Env D) :
    j.join.kind = .left ∧
      (joinFound E db (bindCtes E db (fun _ => []) f.ctes) j.join env).length ≤ 1 :=
  have hrows := nodup_bindCtes E db (fun c hc => (h.ctes c hc).2) (by simp)
  (h.joins j hj).length_joinFound hdb hnumbered hnaming hrows env

/-- The joins of a filter keep the number of rows. -/
theorem Frame.Safe.length_joinAll {f : Frame} (h : f.Safe m) (hbase : f.scope.baseJoins = [])
    (hdb : m.OneToOne E db) (hnumbered : Numbered f.ctes) (hnaming : m.naming.AvoidsCtes)
    (filterOnly : Bool) (envs : List (Env D)) :
    (joinAll E db (bindCtes E db (fun _ => []) f.ctes) (f.scope.joinsFor filterOnly) envs).length =
      envs.length := by
  set rows := bindCtes E db (fun _ => []) f.ctes
  have hjoins : ∀ j ∈ f.scope.joinsFor filterOnly, ∀ env,
      j.kind = .left ∧ (joinFound E db rows j env).length ≤ 1 := by
    intro j hj env
    rcases Scope.mem_joinsFor hj with hj | ⟨i, hi, rfl⟩
    · simp [hbase] at hj
    · exact h.length_joinFound hdb hnumbered hnaming hi env
  rw [Sql.joinAll_flatMap, List.length_flatMap]
  have hone : ∀ env, (joinAll E db rows (f.scope.joinsFor filterOnly) [env]).length = 1 := by
    intro env
    obtain ⟨env', h'⟩ := Sql.joinAll_left E db (fun j hj => (hjoins j hj env).1)
      (fun j hj env => (hjoins j hj env).2) env
    rw [h', List.length_singleton]
  simp [hone]

end

namespace Shop

/-- The tags of a line become a CTE inside the one of the lines. -/
theorem compile_tagged (naming : Naming) :
    ∃ e g, (tagged.compile (model naming) .filter).Gives ⟨.ofTable (model naming) orders, []⟩ e g ∧
      g.ctes.length = 2 :=
  ⟨_, _, gives_compile.2 ⟨_, rfl,
    gives_render_related.2 ⟨⟨[], _⟩, _, _, _, _, _, _, rfl, rfl,
      gives_compile.2 ⟨_, rfl,
        gives_render_related.2 ⟨⟨[], _⟩, _, _, _, _, _, _, rfl, rfl,
          gives_compile.2 ⟨_, rfl,
            gives_render_compare.2 ⟨_, _, _, gives_joinColumn.2 ⟨_, _, rfl, rfl, rfl, rfl, rfl⟩,
              gives_render_value.2 ⟨rfl, rfl⟩, rfl⟩⟩,
          gives_joinThreshold.2 (.inl ⟨rfl, rfl, rfl⟩), rfl, rfl⟩⟩,
      gives_joinThreshold.2 (.inl ⟨rfl, rfl, rfl⟩), rfl, rfl⟩⟩, rfl⟩

/-- A database of texts. -/
def engine : Sql.Engine String where
  less a b := a < b
  like a b := a == b
  datum v _ := v.text?.getD v.display
  ofInt n := toString n
  ofText s := s
  ofBool b := if b then "t" else "f"
  holds s := s == "t"
  holds_ofBool b := by cases b <;> rfl
  function _ _ := none
  isAggregate name := name == "COUNT"
  aggregate _ _ rows := some (toString rows.length)

/-- A row with these values. -/
def rowOf (values : List (String × String)) : Sql.Row String := fun column => values.lookup column

end Shop

/-- **A filter does not multiply the rows of its query.** Its joins, those of the bodies of its
CTEs and those of its subqueries are LEFT JOINs of one-to-one steps and of CTEs by their link, apart
from the joins of link tables; a CTE selects every link once; and so the FROM clause of the query
has as many rows with the joins of the filter as without them. -/
theorem compile_multiplies_no_rows {schema : Option String} {all : List EntityDecl} {m : Model}
    (hm : Model.build .hashed schema all = .ok m) {t : Table} (ht : m.Covers t) {p : Predicate}
    (hp : p.OnTables m.Covers) {origin : JoinOrigin} {e : Option Expr} {g : Frame}
    (h : (p.compile m origin).Gives ⟨.ofTable m t, []⟩ e g) :
    (∀ filterOnly, ∀ j ∈ g.scope.joinsFor filterOnly, FilterJoin m g.ctes j) ∧
      (∀ x ∈ e, ∀ q ∈ x.selects, FilterSelect m g.ctes q) ∧
      (∀ c ∈ g.ctes, (∀ q ∈ c.query.selects, FilterSelect m g.ctes q) ∧ SelectsKeys c.query) ∧
      ∀ (D : Type) [DecidableEq D] (E : Sql.Engine D) (db : Sql.Database D), m.OneToOne E db →
        (∀ c ∈ g.ctes, ∀ ctes env,
          ((c.query.records E db ctes env).map fun r => r.row linkColumn).Nodup) ∧
        ∀ filterOnly envs,
          (Sql.joinAll E db (Sql.bindCtes E db (fun _ => []) g.ctes)
            (g.scope.joinsFor filterOnly) envs).length = envs.length := by
  have hw := writes_compile hp h
  obtain ⟨hsafe, hes⟩ := hw.safe (Frame.safe_ofTable ht (by simp [SafeCtes])) True.intro
  have hbase : g.scope.baseJoins = [] := hw.grows.scope.baseJoins
  refine ⟨fun filterOnly j hj => ?_, fun x hx => hes x (Option.mem_toList.2 hx), hsafe.ctes, ?_⟩
  · rcases Scope.mem_joinsFor hj with hj | ⟨i, hi, rfl⟩
    · simp [hbase] at hj
    · exact hsafe.joins i hi
  · intro D _ E db hdb
    refine ⟨fun c hc ctes env => (hsafe.ctes c hc).2.nodup E db ctes env, fun filterOnly envs => ?_⟩
    have hnaming : ∀ id i, m.naming.tableAlias id ≠ Build.cteName i := by
      obtain ⟨-, _, -, rfl⟩ := Model.build_eq_ok.1 hm
      exact tableAlias_ne_cteName
    exact hsafe.length_joinAll hbase hdb (hw.numbered numbered_nil) hnaming filterOnly envs

/-- Two orders stay two orders beside one line and one tag. -/
theorem compile_tagged_multiplies_no_rows :
    ∃ e g, (Shop.tagged.compile (Shop.model .hashed) .filter).Gives
        ⟨.ofTable (Shop.model .hashed) Shop.orders, []⟩ e g ∧ g.ctes.length = 2 ∧
      (∀ c ∈ g.ctes, SelectsKeys c.query) ∧
      ∀ a b, (Sql.joinAll Shop.engine (fun _ _ => [fun column => some column])
        (Sql.bindCtes Shop.engine (fun _ _ => [fun column => some column]) (fun _ => []) g.ctes)
        (g.scope.joinsFor false) [a, b]).length = 2 := by
  obtain ⟨e, g, h, hlen⟩ := Shop.compile_tagged .hashed
  obtain ⟨-, -, hctes, hrows⟩ :=
    compile_multiplies_no_rows (Shop.build_declarations .hashed) (Shop.covers_orders _)
      (Shop.onTables_tagged _) h
  have hone : (Shop.model .hashed).OneToOne Shop.engine fun _ _ => [fun column => some column] :=
    Model.oneToOne_of_length _ _ _ fun _ _ => Nat.le_refl 1
  exact ⟨e, g, h, hlen, fun c hc => (hctes c hc).2,
    fun a b => (hrows String Shop.engine _ hone).2 false [a, b]⟩

end EntityQuery
