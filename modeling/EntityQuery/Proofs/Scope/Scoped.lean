import EntityQuery.Proofs.Scope.Aliases
import EntityQuery.Proofs.Sql.Free

/-!
# Well-scoped statements

A part of a statement is *scoped* if it is closed and no SELECT in it gives an alias twice. What is
put together from scoped parts over a scoped frame is scoped again: the expressions of a select
list, a query over a scope (`Frame.Scoped.apply`), and what predicates are written as
(`Frame.Scoped.compile`).
-/

namespace EntityQuery

open EntityQuery.Sql (Expr Query Cte)

/-- The frame is closed and, given `A`, layered; its CTEs are numbered, and there is no SELECT in
the filters of its FROM item. -/
structure Frame.Scoped (m : Model) (A : Prop) (f : Frame) : Prop where
  closed : f.Closed m
  layered : f.Layered m A
  numbered : Numbered f.ctes
  filters : ∀ e ∈ f.scope.baseFilters, e.selects = []

structure Sql.Query.Scoped (m : Model) (A : Prop) (ctes : List Cte) (vis : List String)
    (q : Query) : Prop where
  closed : q.Closed (cteNames ctes) vis
  aliases : ∀ x ∈ q.selects, AliasesDiffer m A x

structure Sql.Expr.Scoped (m : Model) (A : Prop) (ctes : List Cte) (vis : List String)
    (e : Expr) : Prop where
  closed : e.Closed (cteNames ctes) vis
  aliases : ∀ x ∈ e.selects, AliasesDiffer m A x

variable {m : Model} {A : Prop} {f g : Frame} {ctes ctes' : List Cte} {vis vis' : List String}

/-! ## Expressions -/

namespace Sql.Expr

theorem kept_scoped (m : Model) (A : Prop) (ctes : List Cte) (vis : List String) :
    Expr.Kept (Expr.Scoped m A ctes vis) := by
  have hclosed := Expr.kept_closed (cteNames ctes) vis
  have haliases := Expr.kept_selects (AliasesDiffer m A)
  constructor
  · exact fun l => ⟨hclosed.literal l, haliases.literal l⟩
  · exact fun v type => ⟨hclosed.param v type, haliases.param v type⟩
  · exact fun op ha hb => ⟨hclosed.binary op ha.closed hb.closed,
      haliases.binary op ha.aliases hb.aliases⟩
  · exact fun negated he hvs => ⟨hclosed.inList negated he.closed fun e h => (hvs e h).closed,
      haliases.inList negated he.aliases fun e h => (hvs e h).aliases⟩
  · exact fun negated he => ⟨hclosed.isNull negated he.closed, haliases.isNull negated he.aliases⟩
  · exact fun he => ⟨hclosed.paren he.closed, haliases.paren he.aliases⟩

theorem Scoped.mono {e : Expr} (h : e.Scoped m A ctes vis) (hctes : ctes <+: ctes')
    (hvis : vis ⊆ vis') : e.Scoped m A ctes' vis' :=
  ⟨Expr.Closed.mono (List.map_subset _ hctes.subset) hvis e h.closed, h.aliases⟩

/-- In a place that sees further rows. -/
theorem Scoped.beside {e : Expr} (h : e.Scoped m A ctes vis) : e.Scoped m A ctes (vis ++ vis') :=
  h.mono List.prefix_rfl (List.subset_append_left _ _)

theorem scoped_ofTable {table : String} (column : String) (h : table ∈ vis) :
    (Expr.ofTable table column).Scoped m A ctes vis :=
  ⟨h, by simp [selects_ofTable]⟩

/-- A column of a result has no table. -/
theorem scoped_label (label : String) : (Expr.column ⟨none, label⟩).Scoped m A ctes vis :=
  ⟨⟨⟩, by simp [selects]⟩

theorem scoped_star : (Expr.star none).Scoped m A ctes vis := ⟨⟨⟩, by simp [selects]⟩

theorem scoped_call {name : String} {args : List Expr} {distinct : Bool}
    (h : ∀ e ∈ args, e.Scoped m A ctes vis) :
    (Expr.call name args distinct).Scoped m A ctes vis := by
  refine ⟨Sql.closedAll_iff.2 fun e he => (h e he).closed, fun x hx => ?_⟩
  rw [selects, Sql.mem_selectsAll] at hx
  obtain ⟨e, he, hx⟩ := hx
  exact (h e he).aliases x hx

theorem scoped_case {branches : List (Expr × Expr)} {otherwise : Option Expr}
    (h : ∀ b ∈ branches, b.1.Scoped m A ctes vis ∧ b.2.Scoped m A ctes vis)
    (hotherwise : ∀ e ∈ otherwise, e.Scoped m A ctes vis) :
    (Expr.case branches otherwise).Scoped m A ctes vis := by
  refine ⟨⟨Sql.closedBranches_iff.2 fun b hb => ⟨(h b hb).1.closed, (h b hb).2.closed⟩,
    Sql.closedOption_iff.2 fun e he => (hotherwise e he).closed⟩, fun x hx => ?_⟩
  rw [selects, List.mem_append, Sql.mem_selectsBranches, Sql.mem_selectsOption] at hx
  rcases hx with ⟨b, hb, hx | hx⟩ | ⟨e, he, hx⟩
  · exact (h b hb).1.aliases x hx
  · exact (h b hb).2.aliases x hx
  · exact (hotherwise e he).aliases x hx

theorem scoped_subquery {q : Query} (h : q.Scoped m A ctes vis) :
    (Expr.subquery q).Scoped m A ctes vis :=
  ⟨h.closed, h.aliases⟩

/-- What the rows are grouped by. -/
theorem Scoped.columns {e : Expr} (h : e.Scoped m A ctes vis) :
    ∀ c ∈ e.columns, (Expr.column c).Scoped m A ctes vis := by
  intro c hc
  refine ⟨h.closed.columnsRead c ?_, by simp [selects]⟩
  rwa [Expr.columns, List.mem_eraseDups] at hc

end Sql.Expr

/-- How many rows are taken, and in which form, does not matter. -/
theorem Sql.Query.Scoped.reshape {q : Query} (h : q.Scoped m A ctes vis) (top : Option Nat)
    (window : Option Sql.Window) (forJson : Option Sql.ForJson) :
    { q with top, window, forJson }.Scoped m A ctes vis := by
  have hclosed := Sql.Query.closed_iff.1 h.closed
  have haliases := h.aliases
  refine ⟨Sql.Query.closed_iff.2 hclosed, fun x hx => ?_⟩
  rw [Sql.Query.selects_eq] at hx haliases
  rcases List.mem_cons.1 hx with rfl | hx
  · exact haliases q List.mem_cons_self
  · exact haliases x (List.mem_cons_of_mem q hx)

/-! ## Frames -/

namespace Frame.Scoped

theorem baseFilters (h : f.Scoped m A) :
    ∀ e ∈ f.scope.baseFilters, e.Scoped m A f.ctes f.scope.boundNames :=
  fun e he => ⟨h.closed.baseFilters e he, by simp [h.filters e he]⟩

/-- A walk from the root can be joined, and its end becomes visible. -/
theorem joinHops {hops : List Relationship} {origin : JoinOrigin} {s : Scope} (h : f.Scoped m A)
    (hwalk : m.Walk f.scope.root hops) (hs : f.scope.joinHops hops origin = .ok s) :
    (Frame.mk s f.ctes).Scoped m A ∧
      m.aliasOf (Model.endOf f.scope.root hops) ∈ s.boundNames :=
  have ⟨hclosed, hend⟩ := h.closed.joinHops hwalk hs
  have hfilters := (Scope.grows_joinHops hs).baseFilters
  ⟨⟨hclosed, h.layered.joinHops hwalk hs, h.numbered, fun e he => h.filters e (hfilters ▸ he)⟩,
    hend⟩

theorem ofTable {t : Table} (ht : A → m.Position t) : (Frame.mk (.ofTable m t) []).Scoped m A :=
  ⟨Frame.closed_ofTable Sql.closedCtes_nil,
    ⟨Scope.plain_ofTable m t, fun hA => Scope.layered_ofTable (ht hA), by simp⟩, numbered_nil,
    by simp [Scope.ofTable]⟩

/-- The far side of a relationship, among the CTEs that are there. -/
theorem ofRelationship {t : Table} {r : Relationship} (h : f.Scoped m A) (ht : A → m.Position t)
    (hr : m.Relates t r) : (Frame.mk (.ofRelationship r) f.ctes).Scoped m A :=
  ⟨Frame.closed_ofRelationship hr h.closed.ctes,
    ⟨Scope.plain_ofRelationship r, fun hA => Scope.layered_ofRelationship (ht hA) hr,
      h.layered.ctes⟩, h.numbered, fun _ => JoinStep.selects_filterExprs _⟩

/-- Back in a scope after CTEs were added elsewhere. -/
theorem withCtes {s : Scope} (h : f.Scoped m A) (hinner : (Frame.mk s ctes).Scoped m A)
    (hsub : f.ctes <+: ctes) : (Frame.mk f.scope ctes).Scoped m A :=
  ⟨h.closed.withCtes hsub hinner.closed.ctes,
    ⟨h.layered.plain, h.layered.scope, hinner.layered.ctes⟩, hinner.numbered, h.filters⟩

theorem compile {P : Table → Prop} {p : Predicate} {origin : JoinOrigin} {e : Option Expr}
    (h : f.Scoped m A) (hP : A → ∀ t, P t → m.Position t) (hp : p.OnTables P)
    (hc : (p.compile m origin).Gives f e g) :
    g.Scoped m A ∧ ∀ x ∈ e, x.Scoped m A g.ctes g.scope.boundNames := by
  have hw := writes_compile hp hc
  obtain ⟨hclosed, hes⟩ := hw.closed h.closed ⟨⟩
  obtain ⟨hlayered, haliases⟩ := hw.layered hP h.layered ⟨⟩
  have hfilters := hw.grows.scope.baseFilters
  refine ⟨⟨hclosed, hlayered, hw.numbered h.numbered, fun e he => h.filters e (hfilters ▸ he)⟩,
    fun x hx => ?_⟩
  exact ⟨hes x (Option.mem_toList.2 hx), haliases x (Option.mem_toList.2 hx)⟩

/-- **A query over a scoped frame is scoped if its clauses are.** -/
theorem apply {s : Scope} {q : Query} (h : (Frame.mk s ctes).Scoped m A) (hctes : q.ctes = [])
    (hjoins : q.joins = []) (hhaving : q.having = none)
    (hitems : ∀ i ∈ q.items, i.expr.Scoped m A ctes (s.boundNames ++ vis))
    (hcondition : ∀ e ∈ q.condition, e.Scoped m A ctes (s.boundNames ++ vis))
    (hgroup : ∀ e ∈ q.groupBy, e.Scoped m A ctes (s.boundNames ++ vis))
    (horder : ∀ o ∈ q.orderBy, o.expr.Scoped m A ctes (s.boundNames ++ vis)) :
    (s.apply q false).Scoped m A ctes vis := by
  constructor
  · refine h.closed.apply hctes hjoins (Sql.closedItems_iff.2 fun i hi => (hitems i hi).closed)
      (Sql.closedOption_iff.2 fun e he => (hcondition e he).closed)
      (Sql.closedAll_iff.2 fun e he => (hgroup e he).closed) ?_
      (Sql.closedOrder_iff.2 fun o ho => (horder o ho).closed)
    rw [hhaving]
    exact ⟨⟩
  · refine forall_selects_apply h.layered.plain hjoins
      (Scope.Layered.aliasesDiffer h.layered.scope hjoins) fun x hx => ?_
    simp only [hctes, hhaving, List.mem_append, Sql.mem_selectsItems, Sql.mem_selectsOption,
      Sql.mem_selectsAll, Sql.mem_selectsOrder, Sql.selectsCtes, List.not_mem_nil, false_or,
      Option.not_mem_none, false_and, exists_false, or_false] at hx
    rcases hx with ((⟨i, hi, hx⟩ | ⟨e, he, hx⟩) | ⟨e, he, hx⟩) | ⟨o, ho, hx⟩
    · exact (hitems i hi).aliases x hx
    · exact (hcondition e he).aliases x hx
    · exact (hgroup e he).aliases x hx
    · exact (horder o ho).aliases x hx

end Frame.Scoped

end EntityQuery
