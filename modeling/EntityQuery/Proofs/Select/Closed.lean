import EntityQuery.Proofs.Select.Level
import EntityQuery.Proofs.Select.Values
import Mathlib

/-!
# Closed statements

A statement that a selection compiles to refers to nothing that is not there. Every column names a
table of its own SELECT or of one around it, a join condition only what stands before it, a CTE no
row around it and only CTEs with a smaller number; and no SELECT gives an alias twice, unless it
starts on the far side of a relationship whose link table has the identity of its child.

Each step of an assembly only adds joins and CTEs to the frame, keeps it scoped, and leaves what is
scoped there (`admission_scoped`). So the level of a query is scoped
(`SelectQuery.scoped_assemble`). A nested query runs in a scope of its own; its level sees the row
that it is tied to, and becomes a value of that row.
-/

namespace EntityQuery

open Build
open EntityQuery.Sql (Expr Query Cte Dialect)

variable {m : Model} {A : Prop} {P : Table → Prop} {d : Dialect} {f g : Frame}

/-- The expression is scoped in the frame. -/
def Frame.Admits (m : Model) (A : Prop) (f : Frame) (e : Expr) : Prop :=
  e.Scoped m A f.ctes f.scope.boundNames

theorem Frame.Grows.admits (h : f.Grows g) {e : Expr} (he : f.Admits m A e) : g.Admits m A e :=
  he.mono h.ctes h.scope.boundNames_subset

/-! ## Orders -/

section

variable {t : Table} {r : Relationship} {ctes : List Cte} {inner outer : List String}

theorem Model.Relates.scoped_parentKey (hr : m.Relates t r) (ht : m.aliasOf t ∈ outer) :
    r.parentKey.Scoped m A ctes outer := by
  refine Expr.scoped_ofTable r.firstJoin.leftColumn ?_
  rw [hr.firstJoin_left]
  exact ht

/-- The row on the far side is tied to a row around it. -/
theorem Model.Relates.scoped_correlation (hr : m.Relates t r) (ht : m.aliasOf t ∈ outer)
    (hinner : (Scope.ofRelationship r).boundNames ⊆ inner) :
    r.correlation.Scoped m A ctes (inner ++ outer) := by
  refine (Expr.kept_scoped m A _ _).binary _ ?_ (hr.scoped_parentKey (List.mem_append_right _ ht))
  exact Expr.scoped_ofTable _ (List.mem_append_left _ (hinner (linkKey_closed r [])))

end

theorem scoped_extremeQuery {t : Table} {many : Relationship} {after : List Relationship}
    {r : Resolution} {dir : Sql.SortDir} {q : Query} (h : f.Scoped m A) (ht : A → m.Position t)
    (hmany : m.Relates t many) (hafter : m.Walk many.child after)
    (hvisible : m.aliasOf t ∈ f.scope.boundNames) (htable : r.table = Model.endOf many.child after)
    (hq : extremeQuery m many after r dir = .ok q) :
    q.Scoped m A f.ctes f.scope.boundNames := by
  obtain ⟨body, hbody, hq⟩ := bind_eq_ok.1 hq
  cases hq
  obtain ⟨hscoped, hend⟩ := (h.ofRelationship ht hmany).joinHops hafter hbody
  have hgrows := Scope.grows_joinHops hbody
  refine hscoped.apply rfl rfl rfl (List.forall_mem_singleton.2 ?_) ?_ (by simp [Query.empty])
    (by simp [Query.empty])
  · refine Expr.scoped_call (List.forall_mem_singleton.2 (Expr.scoped_ofTable _ ?_))
    rw [htable]
    exact List.mem_append_left _ hend
  · refine (Expr.kept_scoped m A _ _).combine (List.forall_mem_append.2 ⟨fun e he => ?_, ?_⟩)
    · exact (hscoped.baseFilters e he).beside
    · exact List.forall_mem_singleton.2
        (hmany.scoped_correlation hvisible hgrows.boundNames_subset)

/-! ## Levels -/

/-- **What is found for a level is scoped** in the frame that is left, beside the rows that the
correlation refers to. -/
theorem Level.Admitted.scoped {l : Level} {correlation : Option Expr} {vis : List String}
    (h : l.Admitted (Frame.Scoped m A) (Frame.Admits m A) (Frame.Admits m A) f correlation g)
    (hcorrelation : ∀ e ∈ correlation, e.Scoped m A f.ctes (f.scope.boundNames ++ vis)) :
    l.Scoped m A g.ctes vis := by
  have hscope := h.scope
  obtain ⟨s, ctes⟩ := g
  subst hscope
  refine ⟨h.frame, fun e he => ?_, ?_, fun c hc => ?_, fun o ho => (h.orderBy o ho).beside⟩
  · rcases h.conditions e he with he | he | he
    · exact (h.frame.baseFilters e he).beside
    · refine (hcorrelation e he).mono h.grows.ctes ?_
      exact List.append_subset.2 ⟨List.subset_append_of_subset_left _
        h.grows.scope.boundNames_subset, List.subset_append_right _ _⟩
    · exact he.beside
  · exact List.forall_mem_append.2 ⟨List.forall_mem_map.2 fun i hi => (h.items i hi).beside,
      List.forall_mem_map.2 fun n hn => (h.nested n hn).beside⟩
  · rcases h.groupBy c hc with ⟨i, hi, hc⟩ | hc
    · exact ((h.items i hi).columns c hc).beside
    · exact hc.beside

/-- Everything in a level is scoped. -/
theorem admission_scoped (hP : A → ∀ t, P t → m.Position t) :
    LevelAdmission m d P (Frame.Scoped m A) (Frame.Admits m A) (Frame.Admits m A) where
  grows hgrows he := hgrows.admits he
  growsCondition hgrows he := hgrows.admits he
  param _ v := (Expr.kept_scoped _ _ _ _).param v none
  star _ := Expr.scoped_star
  call := Expr.scoped_call
  case := Expr.scoped_case
  always _ := by
    have hkept {ctes : List Cte} {vis : List String} := Expr.kept_scoped m A ctes vis
    exact hkept.binary _ (hkept.literal _) (hkept.literal _)
  joinHops hf hwalk hs := (hf.joinHops hwalk hs).1
  column hf hr hs := by
    obtain ⟨hwalk, htable⟩ := Model.walk_of_resolve hr
    refine Expr.scoped_ofTable _ ?_
    rw [htable]
    exact (hf.joinHops hwalk hs).2
  condition hp origin f e g hf he := by
    obtain ⟨hg, hes⟩ := hf.compile hP hp he
    exact ⟨grows_compile he, hg, hes⟩
  parentColumn hf hr := hr.relates.scoped_parentKey (hf.joinHops hr.walk hr.joins).2
  extreme hf hmany hafter htable hq := by
    obtain ⟨hscoped, hend⟩ := hf.joinHops hmany.walk hmany.joins
    exact Expr.scoped_subquery (scoped_extremeQuery hscoped
      (fun hA => (hf.layered.scope hA).root.endOf hmany.walk) hmany.relates hafter hend htable hq)
  ofRelationship hf hr := hf.ofRelationship
    (fun hA => (hf.layered.scope hA).root.endOf hr.walk) hr.relates
  nested hf hr hlevel := by
    obtain ⟨hf₁, hend⟩ := hf.joinHops hr.walk hr.joins
    -- The nested level sees the row it is tied to.
    have hscoped := hlevel.scoped fun e he =>
      Option.some.inj he ▸ hr.relates.scoped_correlation hend (List.Subset.refl _)
    exact ⟨hf₁.withCtes hscoped.frame hlevel.grows.ctes, hscoped.carries.nestedExpr _ d⟩

/-- **The level of a query is scoped.** -/
theorem SelectQuery.scoped_assemble (q : SelectQuery) {correlation : Option Expr} {l : Level}
    {vis : List String} (hP : A → ∀ t, P t → m.Position t) (hf : f.Scoped m A)
    (hq : q.Placed m P f.scope.root)
    (hcorrelation : ∀ e ∈ correlation, e.Scoped m A f.ctes (f.scope.boundNames ++ vis))
    (h : (q.assemble m d correlation).Gives f l g) :
    f.Grows ⟨l.scope, g.ctes⟩ ∧ l.Scoped m A g.ctes vis := by
  have hlevel := (admission_scoped hP).query q hf hq h
  refine ⟨?_, hlevel.scoped hcorrelation⟩
  rw [hlevel.scope]
  exact hlevel.grows

/-! ## Statements -/

/-- A scoped query among the CTEs of its frame. -/
theorem Frame.Scoped.statement {s : Scope} {ctes : List Cte} {q : Query}
    (h : (Frame.mk s ctes).Scoped m A) (hq : q.Scoped m A ctes []) :
    { q with ctes }.ClosedStatement ∧ ∀ x ∈ { q with ctes }.selects, AliasesDiffer m A x := by
  have hclosed := Sql.Query.closed_iff.1 hq.closed
  refine ⟨⟨h.numbered.nodup, h.closed.ctes, Sql.Query.closed_iff.2 ⟨rfl, hclosed.2⟩⟩, ?_⟩
  intro x hx
  have haliases := hq.aliases
  rw [Sql.Query.selects_eq] at hx haliases
  rw [hclosed.1] at haliases
  rcases List.mem_cons.1 hx with rfl | hx
  · exact haliases q List.mem_cons_self
  · simp only [List.append_assoc] at hx haliases
    rcases List.mem_append.1 hx with hx | hx
    · obtain ⟨c, hc, hx⟩ := Sql.mem_selectsCtes.1 hx
      exact h.layered.ctes c hc x hx
    · exact haliases x (List.mem_cons_of_mem q hx)

/-- **Every compiled query is closed**, whatever tables it and its subqueries start from. If these
are positions of the model, no SELECT gives an alias twice, with a naming without collisions and
apart from doubled links. -/
theorem compile_closedStatement {t : Table} {q : SelectQuery} {c : CompiledQuery} (ht : P t)
    (hq : SelectQuery.Builds m P (.ofTable t) q) (h : q.compile m d = .ok c) :
    c.query.ClosedStatement ∧ Numbered c.query.ctes ∧
      ((∀ u, P u → m.Position u) → m.naming.Faithful →
        ∀ s ∈ c.query.selects, s.boundNames.Nodup ↔ ¬ m.Doubles s) := by
  have hplaced := hq.placed (SelectQuery.placed_ofTable t)
  obtain ⟨hroot, -, -⟩ := SelectQuery.placed_iff.1 hplaced
  rw [SelectQuery.compile, hroot] at h
  split at h
  · contradiction
  · rename_i level frame hlevel
    cases h
    obtain ⟨-, hscoped⟩ := q.scoped_assemble (A := ∀ u, P u → m.Position u) id
      (Frame.Scoped.ofTable fun hP => hP t ht) hplaced
      (by simp : ∀ e ∈ (none : Option Expr), e.Scoped m _ _ (_ ++ [])) hlevel
    obtain ⟨hclosed, haliases⟩ := hscoped.frame.statement (hscoped.carries.shaped d)
    exact ⟨hclosed, hscoped.frame.numbered, fun hP hn s hs => haliases s hs hP hn⟩

namespace Shop

theorem position_orders : (model plain).Position orders :=
  ⟨covers_orders plain, 0, .root derive_plain_ne_orders⟩

/-- Orders with a certain tag, with their customers and all their tags, by their last line. -/
def report : Except QueryError SelectQuery := do
  let q ← (SelectQuery.ofTable orders).select (model plain) ⟨["customer", "name"]⟩
  let q ← q.select (model plain) ⟨["lines", "tags", "label"]⟩
  let q ← q.addFilter (model plain) tagged
  q.addOrder (model plain) ⟨["lines", "sku"]⟩ .desc

theorem builds_report {q : SelectQuery} {P : Table → Prop} (h : report = .ok q) :
    SelectQuery.Builds (model plain) P (.ofTable orders) q := by
  obtain ⟨q₁, h₁, h⟩ := bind_eq_ok.1 h
  obtain ⟨q₂, h₂, h⟩ := bind_eq_ok.1 h
  obtain ⟨q₃, h₃, h₄⟩ := bind_eq_ok.1 h
  exact .order (.filter (.select (.select (.refl _) h₁) h₂) (onTables_tagged P) h₃) h₄

end Shop

/-- The SELECTs are the statement, two CTEs, two for each of the nested levels, and the order. -/
theorem compile_report_closedStatement :
    ∃ q c, Shop.report = .ok q ∧ q.compile (Shop.model Shop.plain) .mySql = .ok c ∧
      c.query.ClosedStatement ∧ c.query.selects.length = 8 ∧
      ∀ s ∈ c.query.selects, s.boundNames.Nodup := by
  have hcompile : (Shop.report >>= fun q =>
      (q.compile (Shop.model Shop.plain) .mySql).map (·.query.selects.length)) = .ok 8 := by
    -- As in `Shop.basket_paths`, all of Mathlib is imported for this step.
    cbv
  obtain ⟨q, hq, hc⟩ := bind_eq_ok.1 hcompile
  obtain ⟨c, hc, hlength⟩ := map_eq_ok.1 hc
  obtain ⟨hclosed, -, hnodup⟩ :=
    compile_closedStatement Shop.position_orders (Shop.builds_report hq) hc
  exact ⟨q, c, hq, hc, hclosed, hlength, fun s hs =>
    (hnodup (fun _ => id) Shop.faithful_plain s hs).2 (not_doubles_of_names (by decide))⟩

end EntityQuery
