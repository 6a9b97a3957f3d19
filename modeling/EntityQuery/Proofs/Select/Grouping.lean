import EntityQuery.Proofs.Select.Count

/-!
# Grouped levels

Beside an aggregate, what is read of a single row must be the same in all rows of a group: the rows
are grouped by it. Which columns those are is found in four places: the values that are no
aggregates, the columns that nested levels are tied to, the columns of the order, and those that
the related rows of an order are tied to.

**Conditions** read the row that they are written for and nothing else of it in their subqueries
(`Writes.direct`), so the columns of a CASE are those that stand in it.

**Nested levels** read one column of the rows around them, the one that they are tied to
(`Level.Tied.carries`).

**Levels.** A level with an aggregate and another value is grouped by everything that it reads for
a group (`Level.Grouped`), whatever is selected, nested and ordered by. With aggregates only there
is one group, and nothing to group by. An order inside a nested document is never grouped by
(`Ordered.groupColumns_foldlM`).
-/

namespace EntityQuery

open Build
open EntityQuery.Sql (Expr Query Column Cte SelectItem OrderItem Dialect)

variable {m : Model} {P : Table → Prop} {d : Dialect} {f g : Frame} {c : Column}
  {names : List String} {i : FlatItem} {e : Expr}

/-! ## Conditions -/

/-- What the expression reads of rows stands outside its subqueries. -/
def Sql.Expr.Direct (e : Expr) : Prop := e.Takes fun c => c.Visible [] ∨ c ∈ e.columnsRead

namespace Sql.Expr

theorem Direct.of_subset {e' : Expr} (h : e.Direct) (hsub : e.columnsRead ⊆ e'.columnsRead) :
    e.Takes fun c => c.Visible [] ∨ c ∈ e'.columnsRead :=
  h.mono fun _ hc => hc.imp_right fun hc => hsub hc

theorem direct_column (c : Column) : (Expr.column c).Direct :=
  takes_column.2 (.inr List.mem_cons_self)

theorem mem_columnsReadAll {es : List Expr} :
    c ∈ columnsReadAll es ↔ ∃ e ∈ es, c ∈ e.columnsRead := by
  induction es with
  | nil => simp [columnsReadAll]
  | cons e es ih => simp [columnsReadAll, ih]

theorem mem_columnsReadBranches {branches : List (Expr × Expr)} :
    c ∈ columnsReadBranches branches ↔
      ∃ b ∈ branches, c ∈ b.1.columnsRead ∨ c ∈ b.2.columnsRead := by
  induction branches with
  | nil => simp [columnsReadBranches]
  | cons b branches ih =>
    cases b
    simp [columnsReadBranches, ih, or_assoc]

theorem direct_call {name : String} {args : List Expr} {distinct : Bool}
    (h : ∀ e ∈ args, e.Direct) : (Expr.call name args distinct).Direct :=
  takes_call fun e he => (h e he).of_subset fun _ hc => mem_columnsReadAll.2 ⟨e, he, hc⟩

theorem direct_case {branches : List (Expr × Expr)} {otherwise : Option Expr}
    (h : ∀ b ∈ branches, b.1.Direct ∧ b.2.Direct) (hotherwise : ∀ e ∈ otherwise, e.Direct) :
    (Expr.case branches otherwise).Direct := by
  have hbranch : ∀ b ∈ branches, ∀ c, c ∈ b.1.columnsRead ∨ c ∈ b.2.columnsRead →
      c ∈ (Expr.case branches otherwise).columnsRead := fun b hb c hc =>
    List.mem_append_left _ (mem_columnsReadBranches.2 ⟨b, hb, hc⟩)
  refine takes_case (fun b hb => ⟨?_, ?_⟩) fun e he => (hotherwise e he).of_subset fun c hc => ?_
  · exact (h b hb).1.of_subset fun c hc => hbranch b hb c (.inl hc)
  · exact (h b hb).2.of_subset fun c hc => hbranch b hb c (.inr hc)
  · cases he
    exact List.mem_append_right _ hc

theorem kept_direct : Expr.Kept Direct where
  literal _ := by simp [Direct, Takes, free]
  param _ _ := by simp [Direct, Takes, free]
  binary op ha hb := (kept_takes _).binary op (ha.of_subset (List.subset_append_left _ _))
    (hb.of_subset (List.subset_append_right _ _))
  inList negated he hvs := (kept_takes _).inList negated
    (he.of_subset (List.subset_append_left _ _)) fun v hv => (hvs v hv).of_subset fun _ hc =>
      List.mem_append_right _ (mem_columnsReadAll.2 ⟨v, hv, hc⟩)
  isNull negated he := (kept_takes _).isNull negated he
  paren he := (kept_takes _).paren he

end Sql.Expr

/-- The column of a comparison is direct. -/
def Task.OnColumn : Task → Prop
  | .operand target _ _ _ => target.column.Direct
  | _ => True

/-- **The subqueries of a condition read no row around them.** -/
theorem Writes.direct {task : Task} {es : List Expr} (h : Writes m P task f es g)
    (hf : f.Closed m) (hcolumn : task.OnColumn) : ∀ e ∈ es, e.Direct := by
  have hkept := Expr.kept_direct
  have htarget {path : Path} {origin : JoinOrigin} {target : Target} {f g : Frame}
      (h : (joinColumn m path origin).Gives f target g) : target.column.Direct := by
    obtain ⟨r, s, -, -, -, rfl, -⟩ := gives_joinColumn.1 h
    exact Expr.direct_column _
  induction h with
  | compile _ _ ih => exact ih hf ⟨⟩
  | group _ ih => exact fun e he => hkept.combine (ih hf ⟨⟩) e (Option.mem_toList.1 he)
  | compare hjoin _ ih => exact ih (hf.joinColumn hjoin).1 (htarget hjoin)
  | columns hl hr he =>
    rw [List.forall_mem_singleton]
    exact kept_compareColumns hkept (htarget hl) (htarget hr) he
  | related _ _ _ _ _ =>
    rw [List.forall_mem_singleton]
    exact hkept.isNull _ (Expr.direct_column _)
  | value he =>
    rw [List.forall_mem_singleton]
    exact Target.kept_scalar hkept hcolumn he
  | values he =>
    rw [List.forall_mem_singleton]
    exact Target.kept_list hkept hcolumn he
  | subquery _ _ hselected hw _ =>
    rw [List.forall_mem_singleton]
    obtain ⟨hg, hselects⟩ := (Frame.closed_ofTable hf.ctes).joinColumn hselected
    obtain ⟨hscope, hes⟩ := hw.closed hg ⟨⟩
    have hquery := hscope.subqueryQuery (hw.grows.closed hselects) hes
    intro c hc
    rw [Expr.free, List.mem_append] at hc
    exact hc.elim (hcolumn c) fun hc => .inl (Sql.Query.Closed.visible _ hquery c hc)
  | nil => simp
  | cons hw _ ih₁ ih₂ =>
    exact List.forall_mem_append.2 ⟨ih₁ hf ⟨⟩, ih₂ (hw.closed hf ⟨⟩).1 ⟨⟩⟩
  | noFilter => simp
  | filter _ ih => exact ih hf ⟨⟩

/-! ## Tied levels -/

/-- The column is visible, or one of those that a query is tied to. -/
def Sql.Column.Tied (vis : List String) (keys : List Column) (c : Column) : Prop :=
  c.Visible vis ∨ c ∈ keys

section

variable {ctes : List Cte} {vis vis' : List String} {keys keys' : List Column}

theorem Sql.Column.Tied.mono (hvis : vis ⊆ vis') (hkeys : keys ⊆ keys') (h : c.Tied vis keys) :
    c.Tied vis' keys' :=
  h.imp (fun h => h.mono hvis) fun h => hkeys h

theorem Sql.Column.Tied.isOf (h : c.Tied vis keys) : c.isOf vis = true ∨ c.Tied [] keys := by
  rcases h with h | h
  · have hvisible : c.Visible (vis ++ []) := by rwa [List.append_nil]
    exact hvisible.isOf.imp_right .inl
  · exact .inr (.inr h)

/-- **A query over a closed scope takes from outside what its clauses are tied to.** -/
theorem Frame.Closed.tied_apply {s : Scope} {q : Query} (h : (Frame.mk s ctes).Closed m)
    (hctes : q.ctes = []) (hjoins : q.joins = []) (hhaving : q.having = none)
    (hitems : ∀ i ∈ q.items, i.expr.Takes (Column.Tied s.boundNames keys))
    (hcondition : ∀ e ∈ q.condition, e.Takes (Column.Tied s.boundNames keys))
    (hgroup : ∀ e ∈ q.groupBy, e.Takes (Column.Tied s.boundNames keys))
    (horder : ∀ o ∈ q.orderBy, o.expr.Takes (Column.Tied s.boundNames keys)) :
    (s.apply q false).Takes (Column.Tied [] keys) := by
  have hnames := s.boundNames_apply hjoins
  have hown {e : Expr} (he : e.Takes (Column.Tied s.boundNames keys)) :
      e.Takes fun c => c.isOf (s.apply q false).boundNames = true ∨ c.Tied [] keys := by
    rw [hnames]
    exact he.mono fun c hc => hc.isOf
  refine Sql.Query.takes_of_clauses hctes (by simp [Scope.apply, Sql.freeSource])
    (fun j hj => hown ?_) (fun i hi => hown (hitems i hi)) (fun e he => hown (hcondition e he))
    (fun e he => hown (hgroup e he)) (fun e he => ?_) fun o ho => hown (horder o ho)
  · have hall : (s.apply q false).joins = s.joinsFor false := by simp [Scope.apply, hjoins]
    rw [hall] at hj
    refine (Sql.ClosedJoins.visible _ h.joins j hj).mono fun c hc => .inl (hc.mono ?_)
    intro name hname
    simpa [Scope.boundNames, Scope.joinsFor_false, or_comm, or_assoc, or_left_comm] using hname
  · simp [Scope.apply, hhaving] at he

theorem Sql.Query.free_reshape (q : Query) (top : Option Nat) (window : Option Sql.Window)
    (forJson : Option Sql.ForJson) : { q with top, window, forJson }.free = q.free := by
  cases q
  rfl

/-- Everything found for the level is of its own tables, or a column that the level is tied to. -/
structure Level.Tied (m : Model) (ctes : List Cte) (keys : List Column) (l : Level) : Prop where
  frame : (Frame.mk l.scope ctes).Closed m
  conditions : ∀ e ∈ l.conditions, e.Takes (Column.Tied l.scope.boundNames keys)
  entries : ∀ x ∈ l.entries, x.2.Takes (Column.Tied l.scope.boundNames keys)
  groupBy : ∀ c ∈ l.groupBy, c.Tied l.scope.boundNames keys
  orderBy : ∀ o ∈ l.orderBy, o.expr.Takes (Column.Tied l.scope.boundNames keys)

namespace Level

variable {l : Level}

theorem groupBy_query (l : Level) (items : List SelectItem) :
    (l.query items).groupBy = l.groupBy.map .column := by
  obtain ⟨items', orderBy, top, window, hquery, -⟩ :=
    l.exists_covered (P := fun _ => True) (fun _ => ⟨⟩) (fun x (_ : x ∈ items) => ⟨⟩) fun _ _ => ⟨⟩
  rw [hquery]
  rfl

/-- The rows of a query as one array. -/
theorem takes_array {rows : Query} (h : rows.Takes (Column.Tied [] keys)) (function : String) :
    ({ Query.empty with
      items := [⟨.apply function [.ofTable "s" jsonColumn], none⟩]
      source := some (.derived rows "s") } : Query).Takes (Column.Tied [] keys) := by
  refine Sql.Query.takes_of_clauses rfl h (by simp [Query.empty])
    (List.forall_mem_singleton.2 ?_) (by simp [Query.empty]) (by simp [Query.empty])
    (by simp [Query.empty]) (by simp [Query.empty])
  refine Expr.takes_call (List.forall_mem_singleton.2 (Expr.takes_column.2 (.inl ?_)))
  simp [Column.isOf, Query.boundNames, Sql.sourceNames]

/-- **A level that is tied to columns** reads them of the row above it and nothing else. -/
theorem Tied.carries (h : l.Tied m ctes keys) :
    l.Carries (Expr.Takes (Column.Tied l.scope.boundNames keys)) (Expr.Takes (Column.Tied [] keys))
      (Query.Takes (Column.Tied [] keys)) where
  inner := ⟨(Expr.kept_takes _).literal, Expr.takes_call⟩
  outer := ⟨(Expr.kept_takes _).literal, Expr.takes_call⟩
  label _ := Expr.takes_column.2 (.inl (by simp [Column.Visible]))
  entries := h.entries
  orderBy := h.orderBy
  select top window hitems horder := by
    refine h.frame.tied_apply rfl rfl rfl hitems (fun e he => ?_) (fun e he => ?_) horder
    · exact (Expr.kept_takes _).combine h.conditions e he
    · obtain ⟨c, hc, rfl⟩ := List.mem_map.1 he
      exact Expr.takes_column.2 (h.groupBy c hc)
  reshape {q} top window forJson hq := by
    rw [Query.Takes, Sql.Query.free_reshape]
    exact hq
  array function hrows := takes_array hrows function
  subquery hq := Expr.takes_subquery.2 hq

end Level

end

/-! ## Values -/

/-- The expression reads the tables of the frame, outside its subqueries. -/
structure Frame.Reads (f : Frame) (e : Expr) : Prop where
  visible : e.Takes (Column.Visible f.scope.boundNames)
  direct : e.Direct

theorem Frame.Reads.grows (h : f.Reads e) (hgrows : f.Grows g) : g.Reads e :=
  ⟨h.visible.mono fun _ hc => hc.mono hgrows.scope.boundNames_subset, h.direct⟩

theorem Frame.reads_ofTable {table : String} (column : String)
    (h : table ∈ f.scope.boundNames) : f.Reads (.ofTable table column) := by
  refine ⟨Expr.takes_column.2 fun x hx => ?_, Expr.direct_column _⟩
  cases hx
  exact h

theorem Frame.Closed.joinResolved {path : Path} {r : Resolution} {s : Scope} (h : f.Closed m)
    (hr : m.resolve f.scope.root path = .ok r) (hs : f.scope.joinHops r.hops .select = .ok s) :
    f.Grows ⟨s, f.ctes⟩ ∧ (Frame.mk s f.ctes).Closed m ∧
      (Frame.mk s f.ctes).Reads (m.columnExpr r.table r.column) := by
  obtain ⟨hwalk, htable⟩ := Model.walk_of_resolve hr
  obtain ⟨hclosed, hend⟩ := h.joinHops hwalk hs
  rw [← htable] at hend
  exact ⟨⟨Scope.grows_joinHops hs, List.prefix_rfl⟩, hclosed, Frame.reads_ofTable _ hend⟩

/-- Values and conditions read the tables of the frame, outside their subqueries. -/
theorem admission_reads : Admission m P (Frame.Closed m) Frame.Reads Frame.Reads where
  grows hgrows he := he.grows hgrows
  growsCondition hgrows he := he.grows hgrows
  param _ v := ⟨(Expr.kept_takes _).param v none, Expr.kept_direct.param v none⟩
  star _ := ⟨by simp [Expr.Takes, Expr.free], by simp [Expr.Direct, Expr.Takes, Expr.free]⟩
  call h := ⟨Expr.takes_call fun e he => (h e he).visible,
    Expr.direct_call fun e he => (h e he).direct⟩
  case h hotherwise :=
    ⟨Expr.takes_case (fun b hb => ⟨(h b hb).1.visible, (h b hb).2.visible⟩)
        fun e he => (hotherwise e he).visible,
      Expr.direct_case (fun b hb => ⟨(h b hb).1.direct, (h b hb).2.direct⟩)
        fun e he => (hotherwise e he).direct⟩
  always f := by
    have hkept := Expr.kept_takes (Column.Visible f.scope.boundNames)
    have hdirect := Expr.kept_direct
    exact ⟨hkept.binary _ (hkept.literal _) (hkept.literal _),
      hdirect.binary _ (hdirect.literal _) (hdirect.literal _)⟩
  joinHops hf hwalk hs := (hf.joinHops hwalk hs).1
  column hf hr hs := (hf.joinResolved hr hs).2.2
  condition hp origin f e g hf he := by
    have hw := writes_compile hp he
    obtain ⟨hg, hes⟩ := hw.closed hf ⟨⟩
    refine ⟨grows_compile he, hg, fun x hx => ⟨?_, ?_⟩⟩
    · exact Sql.Expr.Closed.visible x (hes x (Option.mem_toList.2 hx))
    · exact hw.direct hf ⟨⟩ x (Option.mem_toList.2 hx)

/-! ## Order -/

section

variable {t : Table} {r : Relationship}

theorem Model.Relates.visible_parentColumn (hr : m.Relates t r) (ht : m.aliasOf t ∈ names) :
    r.parentColumn.Visible names := by
  intro table htable
  cases htable
  rw [hr.firstJoin_left]
  exact ht

/-- The row on the far side is tied to a column of the row around it. -/
theorem Relationship.tied_correlation (hnames : (Scope.ofRelationship r).boundNames ⊆ names) :
    r.correlation.Takes (Column.Tied names [r.parentColumn]) := by
  refine (Expr.kept_takes _).binary _ (Expr.takes_column.2 (.inl ?_))
    (Expr.takes_column.2 (.inr List.mem_cons_self))
  intro table htable
  cases htable
  exact hnames (linkKey_closed r [])

theorem Relationship.tied_some_correlation : ∀ e ∈ some r.correlation,
    e.Takes (Column.Tied (Scope.ofRelationship r).boundNames [r.parentColumn]) := by
  intro e he
  cases he
  exact Relationship.tied_correlation (List.Subset.refl _)

end

/-- The extreme of the related rows reads one column of the row that they are related to. -/
theorem tied_extremeQuery {t : Table} {many : Relationship} {after : List Relationship}
    {r : Resolution} {dir : Sql.SortDir} {q : Query} {ctes : List Cte}
    (hctes : Sql.ClosedCtes ctes) (hmany : m.Relates t many) (hafter : m.Walk many.child after)
    (htable : r.table = Model.endOf many.child after)
    (hq : extremeQuery m many after r dir = .ok q) :
    q.Takes (Column.Tied [] [many.parentColumn]) := by
  obtain ⟨body, hbody, hq⟩ := bind_eq_ok.1 hq
  cases hq
  obtain ⟨hclosed, hend⟩ := (Frame.closed_ofRelationship hmany hctes).joinHops hafter hbody
  have hgrows := Scope.grows_joinHops hbody
  have hvisible : m.aliasOf r.table ∈ body.boundNames := by
    rw [htable]
    exact hend
  refine hclosed.tied_apply rfl rfl rfl (List.forall_mem_singleton.2 ?_) ?_ (by simp [Query.empty])
    (by simp [Query.empty])
  · refine Expr.takes_call (List.forall_mem_singleton.2 ?_)
    exact (Frame.reads_ofTable (f := ⟨body, ctes⟩) _ hvisible).visible.mono fun _ => .inl
  · refine (Expr.kept_takes _).combine (List.forall_mem_append.2 ⟨fun e he => ?_, ?_⟩)
    · exact (Sql.Expr.Closed.visible e (hclosed.baseFilters e he)).mono fun _ => .inl
    · exact List.forall_mem_singleton.2
        (Relationship.tied_correlation hgrows.boundNames_subset)

/-- The value is read from the frame, as a key or in an aggregate. -/
structure FlatItem.Groups (f : Frame) (i : FlatItem) : Prop where
  reads : f.Reads i.expr
  grouping : i.grouping = .key ∨ i.grouping = .aggregate ∧ ∀ c, i.expr ≠ .column c

/-- What an order reads: the column that related rows are tied to, or a column that is selected
unless it belongs to a document. -/
inductive Ordered.Covers (f : Frame) (nested : List NestedItem) (acc : Ordered) (o : OrderBy)
    (x : OrderItem) : Prop
  | related {q : Query} (hx : x.expr = .subquery q) (hq : q.Takes (Column.Tied [] acc.keys))
  | column {c : Column} (hx : x.expr = .column c) (hc : c.Visible f.scope.boundNames)
    (hitem : nested.any (o.path.startsWith ·.key) = false → ∃ i ∈ acc.items, i.expr = .column c)

/-- What was found so far, with the orders that it was found for. -/
structure Ordered.Groups (f : Frame) (nested : List NestedItem) (orders : List OrderBy)
    (acc : Ordered) : Prop where
  items : ∀ i ∈ acc.items, i.Groups f
  keys : ∀ c ∈ acc.keys, c.Visible f.scope.boundNames
  orderBy : List.Forall₂ (Ordered.Covers f nested acc) orders acc.orderBy

theorem FlatItem.Groups.grows (h : i.Groups f) (hgrows : f.Grows g) : i.Groups g :=
  ⟨h.reads.grows hgrows, h.grouping⟩

namespace Ordered

variable {nested : List NestedItem} {orders : List OrderBy} {acc acc' : Ordered} {o : OrderBy}

theorem Covers.mono {x : OrderItem} (h : acc.Covers f nested o x) (hgrows : f.Grows g)
    (hitems : acc.items ⊆ acc'.items) (hkeys : acc.keys ⊆ acc'.keys) :
    acc'.Covers g nested o x := by
  cases h with
  | related hx hq => exact .related hx fun c hc => (hq c hc).mono (List.Subset.refl _) hkeys
  | column hx hc hitem =>
    refine .column hx (hc.mono hgrows.scope.boundNames_subset) fun hout => ?_
    obtain ⟨i, hi, hexpr⟩ := hitem hout
    exact ⟨i, hitems hi, hexpr⟩

theorem eq_of_eqv_column (h : e.eqv (.column c) = true) : e = .column c := by
  cases e <;> simp_all [Expr.eqv]

/-- **One order** is covered, and what was found before it still is. -/
theorem Groups.add (h : acc.Groups f nested orders) (hf : f.Closed m)
    (hadd : (acc.add m nested o).Gives f acc' g) :
    f.Grows g ∧ g.Closed m ∧ acc'.Groups g nested (orders ++ [o]) ∧ acc.keys ⊆ acc'.keys := by
  obtain ⟨r, s, hresolve, rfl, ⟨-, hs, rfl⟩ | ⟨before, many, after, q, hhops, -, -, hs, hq, rfl⟩⟩ :=
    gives_add hadd
  · obtain ⟨hgrows, hclosed, hcolumn⟩ := hf.joinResolved hresolve hs
    refine ⟨hgrows, hclosed, ⟨?_, fun c hc => ?_, ?_⟩, List.Subset.refl _⟩
    · refine List.forall_mem_append.2 ⟨fun i hi => (h.items i hi).grows hgrows, fun i hi => ?_⟩
      split at hi
      · rw [List.mem_singleton.1 hi]
        exact ⟨hcolumn, .inl rfl⟩
      · simp at hi
    · exact (h.keys c hc).mono hgrows.scope.boundNames_subset
    · refine List.rel_append (h.orderBy.imp fun _ _ hx => hx.mono hgrows
        (List.subset_append_left _ _) (List.Subset.refl _)) (.cons ?_ .nil)
      refine .column rfl (Expr.takes_column.1 hcolumn.visible) fun hout => ?_
      by_cases hany : acc.items.any (·.expr.eqv (m.columnExpr r.table r.column)) = true
      · obtain ⟨i, hi, heqv⟩ := List.any_eq_true.1 hany
        exact ⟨i, List.mem_append_left _ hi, eq_of_eqv_column heqv⟩
      · dsimp only
        rw [if_pos (by simp [hout, hany])]
        exact ⟨_, List.mem_append_right _ List.mem_cons_self, rfl⟩
  · obtain ⟨hwalk, htable⟩ := Model.walk_of_resolve hresolve
    rw [hhops] at hwalk htable
    obtain ⟨hbefore, _ | ⟨hmany, hafter⟩⟩ := Model.walk_append.1 hwalk
    rw [Model.endOf_append, Model.endOf_cons] at htable
    obtain ⟨hclosed, hend⟩ := hf.joinHops hbefore hs
    have hgrows : f.Grows ⟨s, f.ctes⟩ := ⟨Scope.grows_joinHops hs, List.prefix_rfl⟩
    refine ⟨hgrows, hclosed, ⟨fun i hi => (h.items i hi).grows hgrows, ?_, ?_⟩,
      List.subset_append_left _ _⟩
    · exact List.forall_mem_append.2
        ⟨fun c hc => (h.keys c hc).mono hgrows.scope.boundNames_subset,
          List.forall_mem_singleton.2 (hmany.visible_parentColumn hend)⟩
    · refine List.rel_append (h.orderBy.imp fun _ _ hx => hx.mono hgrows (List.Subset.refl _)
        (List.subset_append_left _ _)) (.cons (.related rfl fun c hc => ?_) .nil)
      exact (tied_extremeQuery hf.ctes hmany hafter htable hq c hc).mono (List.Subset.refl _)
        (List.subset_append_right _ _)

/-- **All orders** are covered. -/
theorem Groups.foldlM {rest : List OrderBy} (h : acc.Groups f nested orders) (hf : f.Closed m)
    (hfold : (rest.foldlM (Ordered.add m nested) acc).Gives f acc' g) :
    f.Grows g ∧ g.Closed m ∧ acc'.Groups g nested (orders ++ rest) ∧ acc.keys ⊆ acc'.keys := by
  induction rest generalizing f acc orders with
  | nil =>
    obtain ⟨rfl, rfl⟩ := gives_pure.1 hfold
    exact ⟨.refl _, hf, by rwa [List.append_nil], List.Subset.refl _⟩
  | cons o rest ih =>
    rw [List.foldlM_cons, gives_bind] at hfold
    obtain ⟨acc₁, f₁, hadd, hrest⟩ := hfold
    obtain ⟨hgrows, hf₁, hgroups, hkeys⟩ := h.add hf hadd
    obtain ⟨hgrows₁, hg, hgroups₁, hkeys₁⟩ := ih hgroups hf₁ hrest
    refine ⟨hgrows.trans hgrows₁, hg, ?_, List.Subset.trans hkeys hkeys₁⟩
    rwa [List.append_assoc, List.singleton_append] at hgroups₁

end Ordered

/-! ## Nodes -/

/-- What the nodes contribute: nested levels read nothing but the keys. -/
structure Parts.Groups (f : Frame) (parts : Parts) : Prop where
  items : ∀ i ∈ parts.items, i.Groups f
  nested : ∀ n ∈ parts.nested, n.expr.Takes (Column.Tied [] parts.keys)
  keys : ∀ c ∈ parts.keys, c.Visible f.scope.boundNames

theorem Parts.groups_ofItem {item : FlatItem} (h : item.Groups f) (fansOut : Bool) :
    { Parts.ofItem item with fansOut }.Groups f :=
  ⟨List.forall_mem_singleton.2 h, by simp [ofItem, empty], by simp [ofItem, empty]⟩

theorem Parts.Groups.append {a b : Parts} (ha : a.Groups f) (hb : b.Groups f) :
    (a ++ b).Groups f := by
  refine ⟨List.forall_mem_append.2 ⟨ha.items, hb.items⟩, ?_,
    List.forall_mem_append.2 ⟨ha.keys, hb.keys⟩⟩
  refine List.forall_mem_append.2 ⟨fun n hn c hc => ?_, fun n hn c hc => ?_⟩
  · exact (ha.nested n hn c hc).mono (List.Subset.refl _) (List.subset_append_left _ _)
  · exact (hb.nested n hn c hc).mono (List.Subset.refl _) (List.subset_append_right _ _)

theorem Parts.Groups.grows {parts : Parts} (h : parts.Groups f) (hgrows : f.Grows g) :
    parts.Groups g :=
  ⟨fun i hi => (h.items i hi).grows hgrows, h.nested,
    fun c hc => (h.keys c hc).mono hgrows.scope.boundNames_subset⟩

/-! ## Levels -/

theorem Sql.Column.not_visible_of_isOf (h : c.isOf names = true) : ¬ c.Visible [] := by
  obtain ⟨table, name⟩ := c
  cases table with
  | none => cases h
  | some table => exact fun hvisible => absurd (hvisible table rfl) (List.not_mem_nil)

theorem mem_groupColumns {items : List FlatItem} {keys : List Column}
    (haggregate : items.any (·.grouping == .aggregate) = true)
    (hkey : ∃ i ∈ items, i.grouping = .key) :
    c ∈ groupColumns items keys ↔
      (∃ i ∈ items, i.grouping = .key ∧ c ∈ i.expr.columnsRead) ∨ c ∈ keys := by
  obtain ⟨i, hi, hgrouping⟩ := hkey
  have hmem : i ∈ items.filter (·.grouping == .key) := List.mem_filter.2 ⟨hi, by simp [hgrouping]⟩
  have hne : (items.filter (·.grouping == .key)).isEmpty = false := by
    rw [List.isEmpty_eq_false_iff]
    exact List.ne_nil_of_mem hmem
  simp [groupColumns, haggregate, hne, List.mem_eraseDups, Expr.columns, and_assoc]

theorem groupColumns_eq_nil {items : List FlatItem} {keys : List Column}
    (h : ∀ i ∈ items, i.grouping = .aggregate) : groupColumns items keys = [] := by
  have hkeys : items.filter (·.grouping == .key) = [] :=
    List.filter_eq_nil_iff.2 fun i hi => by simp [h i hi]
  simp [groupColumns, hkeys]

/-- What a level reads for each group: in values that are no aggregates, in nested levels, in the
related rows of an order, and in an order by a column that belongs to no nested document. -/
inductive Level.PerGroup (orders : List OrderBy) (l : Level) (c : Column) : Prop
  | item {i : FlatItem} (hi : i ∈ l.items) (hgrouping : i.grouping ≠ .aggregate)
    (hc : c ∈ i.expr.free)
  | nested {n : NestedItem} (hn : n ∈ l.nested) (hc : c ∈ n.expr.free)
  | related {x : OrderItem} {q : Query} (hx : x ∈ l.orderBy) (hq : x.expr = .subquery q)
    (hc : c ∈ q.free)
  | order {o : OrderBy} {x : OrderItem} (hx : (o, x) ∈ orders.zip l.orderBy)
    (hout : ∀ n ∈ l.nested, o.path.startsWith n.key = false) (hc : c ∈ x.expr.free)

/-- Each order is written. Aggregates alone are of one group. Beside another value, the level is
grouped by what it reads of its own tables for each group. -/
structure Level.Grouped (orders : List OrderBy) (l : Level) : Prop where
  length : orders.length = l.orderBy.length
  single : (∀ i ∈ l.items, i.grouping = .aggregate) → l.groupBy = []
  keys : l.hasAggregate = true → (∃ i ∈ l.items, i.grouping ≠ .aggregate) →
    ∀ c, c.isOf l.scope.boundNames = true → l.PerGroup orders c → c ∈ l.groupBy

/-- A value that is no aggregate is a key. -/
theorem FlatItem.Groups.eq_key (h : i.Groups f) (hi : i.grouping ≠ .aggregate) :
    i.grouping = .key :=
  h.grouping.resolve_right fun h => hi h.1

/-- And so is one that is a column. -/
theorem FlatItem.Groups.key_of_column (h : i.Groups f) (hi : i.expr = .column c) :
    i.grouping = .key :=
  h.grouping.resolve_right fun h => h.2 c hi

namespace Ordered

variable {nested : List NestedItem} {orders : List OrderBy} {acc : Ordered} {l : Level}

theorem Groups.exists_covers (h : acc.Groups f nested orders) {x : OrderItem}
    (hx : x ∈ acc.orderBy) : ∃ o, acc.Covers f nested o x := by
  obtain ⟨i, rfl⟩ := List.mem_iff_get.1 hx
  have hlt : i < orders.length := by
    rw [h.orderBy.length_eq]
    exact i.isLt
  exact ⟨_, h.orderBy.get hlt i.isLt⟩

/-- What an order reads is visible. -/
theorem Groups.visible_orderBy (h : acc.Groups f nested orders) :
    ∀ x ∈ acc.orderBy, x.expr.Takes (Column.Visible f.scope.boundNames) := by
  intro x hx
  obtain ⟨o, hcovers⟩ := h.exists_covers hx
  cases hcovers with
  | related hx hq =>
    rw [hx, Expr.takes_subquery]
    exact fun c hc => (hq c hc).elim (fun hc => hc.mono (List.nil_subset _)) (h.keys c)
  | column hx hc =>
    rw [hx, Expr.takes_column]
    exact hc

theorem Groups.visible_groupColumns (h : acc.Groups f nested orders) :
    ∀ c ∈ groupColumns acc.items acc.keys, c.Visible f.scope.boundNames := by
  intro c hc
  rw [groupColumns] at hc
  split at hc
  · simp only [List.mem_eraseDups, List.mem_append, List.mem_flatMap, Expr.columns] at hc
    rcases hc with ⟨i, hi, hc⟩ | hc
    · have hitem := h.items i (List.mem_filter.1 hi).1
      exact hitem.reads.visible c (i.expr.columnsRead_sublist.subset hc)
    · exact h.keys c hc
  · simp at hc

/-- **The level of what was found is grouped.** -/
theorem Groups.grouped (h : acc.Groups f nested orders)
    (hnested : ∀ n ∈ nested, n.expr.Takes (Column.Tied [] acc.keys)) (hitems : l.items = acc.items)
    (hn : l.nested = nested) (horder : l.orderBy = acc.orderBy)
    (hgroup : l.groupBy = groupColumns acc.items acc.keys) : l.Grouped orders := by
  refine ⟨horder ▸ h.orderBy.length_eq,
    fun hall => hgroup.trans (groupColumns_eq_nil (hitems ▸ hall)), ?_⟩
  intro haggregate hother c hown hread
  have hnot := Sql.Column.not_visible_of_isOf hown
  obtain ⟨i, hi, hne⟩ := hother
  rw [hitems] at hi
  rw [Level.hasAggregate, hitems] at haggregate
  rw [hgroup, mem_groupColumns haggregate ⟨i, hi, (h.items i hi).eq_key hne⟩]
  -- A column that is selected, and the columns that a subquery is tied to.
  have hcolumn : ∀ i ∈ acc.items, i.expr = .column c →
      ∃ i ∈ acc.items, i.grouping = .key ∧ c ∈ i.expr.columnsRead := fun i hi hexpr =>
    ⟨i, hi, (h.items i hi).key_of_column hexpr, by simp [hexpr, Expr.columnsRead]⟩
  have hsubquery : ∀ {q : Query}, q.Takes (Column.Tied [] acc.keys) → c ∈ q.free → c ∈ acc.keys :=
    fun hq hc => (hq c hc).resolve_left hnot
  cases hread with
  | item hi hne hc =>
    rw [hitems] at hi
    have hitem := h.items _ hi
    exact .inl ⟨_, hi, hitem.eq_key hne, (hitem.reads.direct c hc).resolve_left hnot⟩
  | nested hmem hc =>
    rw [hn] at hmem
    exact .inr ((hnested _ hmem c hc).resolve_left hnot)
  | related hx hsub hc =>
    rw [horder] at hx
    obtain ⟨o, hcovers⟩ := h.exists_covers hx
    cases hcovers with
    | related hx hq =>
      cases hsub.symm.trans hx
      exact .inr (hsubquery hq hc)
    | column hx => cases hsub.symm.trans hx
  | order hx hout hc =>
    rw [horder] at hx
    rw [hn] at hout
    cases (List.forall₂_iff_zip.1 h.orderBy).2 hx with
    | related hx hq =>
      rw [hx, Expr.free] at hc
      exact .inr (hsubquery hq hc)
    | column hx _ hitem =>
      rw [hx, Expr.free, List.mem_singleton] at hc
      subst hc
      obtain ⟨i, hi, hexpr⟩ := hitem (List.any_eq_false.2 fun n hn => by simp [hout n hn])
      exact .inl (hcolumn i hi hexpr)

end Ordered

mutual

/-- **What a node contributes** is read from the frame that is left. -/
theorem SelectNode.groups_assemble (node : SelectNode) {parts : Parts} {f g : Frame}
    (hf : f.Closed m) (hnode : node.Placed m P f.scope.root)
    (h : (node.assemble m d).Gives f parts g) : f.Grows g ∧ g.Closed m ∧ parts.Groups g := by
  match node with
  | .column .. | .function .. | .case .. =>
    obtain ⟨hgrows, hg, item, fansOut, rfl, hitem⟩ :=
      admission_reads.assemble (by simp) hnode hf h
    exact ⟨hgrows, hg, Parts.groups_ofItem ⟨hitem.1, hitem.2⟩ fansOut⟩
  | .nested path r query =>
    rw [SelectNode.Placed] at hnode
    obtain ⟨⟨before, hroute⟩, hquery⟩ := hnode
    obtain ⟨route, s, level, inner, hroute', hs, hassemble, rfl, rfl⟩ := gives_assemble_nested h
    cases hroute.symm.trans hroute'
    obtain ⟨hbefore, hr⟩ := Model.walk_of_resolveRelationship hroute
    obtain ⟨hf₁, hend⟩ := hf.joinHops hbefore hs
    -- The nested level is tied to one column of the row above it.
    obtain ⟨hgrows, hlevel, -⟩ := query.groups_assemble
      (Frame.closed_ofRelationship hr hf.ctes) hquery Relationship.tied_some_correlation hassemble
    exact ⟨⟨Scope.grows_joinHops hs, hgrows.ctes⟩, hf₁.withCtes hgrows.ctes hlevel.frame.ctes,
      by simp [Parts.empty], List.forall_mem_singleton.2 (hlevel.carries.nestedExpr _ d),
      List.forall_mem_singleton.2 (hr.visible_parentColumn hend)⟩

theorem groups_assembleAll (nodes : List SelectNode) {parts : Parts} {f g : Frame}
    (hf : f.Closed m) (hnodes : PlacedAll m P f.scope.root nodes)
    (h : (assembleAll m d nodes).Gives f parts g) : f.Grows g ∧ g.Closed m ∧ parts.Groups g := by
  match nodes with
  | [] =>
    rw [assembleAll] at h
    obtain ⟨rfl, rfl⟩ := gives_pure.1 h
    exact ⟨.refl _, hf, by simp [Parts.empty], by simp [Parts.empty], by simp [Parts.empty]⟩
  | node :: rest =>
    obtain ⟨part, f₁, parts, hpart, hparts, rfl⟩ := gives_assembleAll_cons h
    obtain ⟨hgrows₁, hf₁, hpart⟩ := node.groups_assemble hf hnodes.1 hpart
    obtain ⟨hgrows₂, hf₂, hparts⟩ :=
      groups_assembleAll rest hf₁ (hgrows₁.scope.root ▸ hnodes.2) hparts
    exact ⟨hgrows₁.trans hgrows₂, hf₂, (hpart.grows hgrows₂).append hparts⟩

/-- **The level of a query** is tied to what its correlation is tied to, and grouped. -/
theorem SelectQuery.groups_assemble (q : SelectQuery) {correlation : Option Expr} {l : Level}
    {keys : List Column} {f g : Frame} (hf : f.Closed m) (hq : q.Placed m P f.scope.root)
    (hcorrelation : ∀ e ∈ correlation, e.Takes (Column.Tied f.scope.boundNames keys))
    (h : (q.assemble m d correlation).Gives f l g) :
    f.Grows ⟨l.scope, g.ctes⟩ ∧ l.Tied m g.ctes keys ∧
      ∃ orders, ordersOf f.scope.root q.order q.paging = .ok orders ∧ l.Grouped orders := by
  match q with
  | ⟨root, nodes, filter, order, paging, distinct, eagerDepth, ancestors⟩ =>
    rw [SelectQuery.Placed] at hq
    obtain ⟨-, hnodes, hfilter⟩ := hq
    obtain ⟨condition, f₁, parts, f₂, orders, ordered, hcondition, hparts, horders, hordered, -,
      rfl⟩ := SelectQuery.gives_assemble h
    obtain ⟨hgrows₁, hf₁, hcondition⟩ := admission_reads.filter hfilter hf hcondition
    obtain ⟨hgrows₂, hf₂, hparts⟩ :=
      groups_assembleAll nodes hf₁ (hgrows₁.scope.root ▸ hnodes) hparts
    have hstart : Ordered.Groups f₂ parts.nested [] ⟨parts.items, parts.keys, []⟩ :=
      ⟨hparts.items, hparts.keys, .nil⟩
    obtain ⟨hgrows₃, hg, hordered, hkeys⟩ := hstart.foldlM hf₂ hordered
    have hgrows := hgrows₁.trans (hgrows₂.trans hgrows₃)
    have hnested : ∀ n ∈ parts.nested, n.expr.Takes (Column.Tied [] ordered.keys) :=
      fun n hn c hc => (hparts.nested n hn c hc).mono (List.Subset.refl _) hkeys
    refine ⟨hgrows, ⟨hg, ?_, ?_, ?_, ?_⟩, orders, horders, ?_⟩
    · rw [List.forall_mem_append, List.forall_mem_append]
      refine ⟨⟨fun e he => ?_, fun e he => ?_⟩, fun e he => ?_⟩
      · exact (Sql.Expr.Closed.visible e (hg.baseFilters e he)).mono fun _ => .inl
      · exact (hcorrelation e (Option.mem_toList.1 he)).mono fun _ hc =>
          hc.mono hgrows.scope.boundNames_subset (List.Subset.refl _)
      · have hreads := (hcondition e (Option.mem_toList.1 he)).grows (hgrows₂.trans hgrows₃)
        exact hreads.visible.mono fun _ => .inl
    · refine List.forall_mem_append.2 ⟨List.forall_mem_map.2 fun i hi => ?_,
        List.forall_mem_map.2 fun n hn c hc => .inl ?_⟩
      · exact (hordered.items i hi).reads.visible.mono fun _ => .inl
      · exact (hnested n hn c hc).elim (fun hc => hc.mono (List.nil_subset _)) (hordered.keys c)
    · exact fun c hc => .inl (hordered.visible_groupColumns c hc)
    · exact fun x hx => (hordered.visible_orderBy x hx).mono fun _ => .inl
    · exact hordered.grouped hnested rfl rfl rfl rfl

end

/-! ## Statements -/

/-- The levels that are written for a query: its own, and those of its nested queries, each after
what stands before it. -/
inductive SelectQuery.HasLevel (m : Model) (d : Dialect) :
    SelectQuery → Option Expr → Frame → SelectQuery → Level → Prop
  | here {q : SelectQuery} {correlation : Option Expr} {f g : Frame} {l : Level}
    (h : (q.assemble m d correlation).Gives f l g) : HasLevel m d q correlation f q l
  | nested {q inner y : SelectQuery} {correlation condition : Option Expr} {f f₁ f₂ : Frame}
    {l : Level} {before after : List SelectNode} {parts : Parts} {path : Path} {r : Relationship}
    (hnodes : q.nodes = before ++ .nested path r inner :: after)
    (hcondition : (compileFilter m q.filter).Gives f condition f₁)
    (hbefore : (assembleAll m d before).Gives f₁ parts f₂)
    (h : HasLevel m d inner (some r.correlation) ⟨.ofRelationship r, f₂.ctes⟩ y l) :
    HasLevel m d q correlation f y l

/-- What comes before a node is assembled before it, and what the node nests is kept. -/
theorem exists_of_assembleAll {nodes : List SelectNode} {node : SelectNode} {parts : Parts}
    (h : (assembleAll m d nodes).Gives f parts g) (hnode : node ∈ nodes) :
    ∃ before after parts₁ f₁ part f₂, nodes = before ++ node :: after ∧
      (assembleAll m d before).Gives f parts₁ f₁ ∧ (node.assemble m d).Gives f₁ part f₂ ∧
      part.nested ⊆ parts.nested := by
  induction nodes generalizing f parts with
  | nil => cases hnode
  | cons first rest ih =>
    obtain ⟨part, f₁, parts, hpart, hparts, rfl⟩ := gives_assembleAll_cons h
    rcases List.mem_cons.1 hnode with rfl | hnode
    · exact ⟨[], rest, .empty, f, part, f₁, rfl, by simp [assembleAll, gives_pure], hpart,
        List.subset_append_left _ _⟩
    · obtain ⟨before, after, parts₁, f₂, part₁, f₃, rfl, hbefore, hnode, hsub⟩ := ih hparts hnode
      refine ⟨first :: before, after, part ++ parts₁, f₂, part₁, f₃, rfl, ?_, hnode,
        List.Subset.trans hsub (List.subset_append_right _ _)⟩
      simp only [assembleAll, gives_bind, gives_pure]
      exact ⟨part, f₁, hpart, parts₁, f₂, hbefore, rfl, rfl⟩

namespace SelectQuery

variable {q y : SelectQuery} {correlation : Option Expr} {l : Level}

/-- A nested query of a written one is written, and its rows are a value of the other. -/
theorem HasLevel.nested_level (h : q.HasLevel m d correlation f y l) {path : Path}
    {r : Relationship} {inner : SelectQuery} (hnode : .nested path r inner ∈ y.nodes) :
    ∃ l', q.HasLevel m d correlation f inner l' ∧
      ⟨path, l'.nestedExpr (!r.fansOut) d⟩ ∈ l.nested := by
  induction h with
  | here h =>
    obtain ⟨condition, f₁, parts, f₂, _, _, hcondition, hparts, -, -, -, rfl⟩ := gives_assemble h
    obtain ⟨before, after, parts₁, f₃, part, f₄, hnodes, hbefore, hpart, hsub⟩ :=
      exists_of_assembleAll hparts hnode
    obtain ⟨_, _, l', g', -, -, hinner, -, rfl⟩ := gives_assemble_nested hpart
    exact ⟨l', .nested hnodes hcondition hbefore (.here hinner), hsub List.mem_cons_self⟩
  | nested hnodes hcondition hbefore _ ih =>
    obtain ⟨l', hl', hmem⟩ := ih hnode
    exact ⟨l', .nested hnodes hcondition hbefore hl', hmem⟩

/-- **Every level that is written is grouped.** -/
theorem HasLevel.grouped {keys : List Column} (h : q.HasLevel m d correlation f y l)
    (hf : f.Closed m) (hq : q.Placed m P f.scope.root)
    (hcorrelation : ∀ e ∈ correlation, e.Takes (Column.Tied f.scope.boundNames keys)) :
    ∃ orders, ordersOf y.root y.order y.paging = .ok orders ∧ l.Grouped orders := by
  induction h generalizing keys with
  | here h =>
    obtain ⟨-, -, hgrouped⟩ := groups_assemble _ hf hq hcorrelation h
    rwa [← (placed_iff.1 hq).1] at hgrouped
  | nested hnodes hcondition hbefore _ ih =>
    obtain ⟨-, hplaced, hfilter⟩ := placed_iff.1 hq
    rw [hnodes, List.forall_mem_append, List.forall_mem_cons, SelectNode.Placed] at hplaced
    obtain ⟨hbeforePlaced, ⟨⟨hops, hroute⟩, hinner⟩, -⟩ := hplaced
    obtain ⟨hgrows, hf₁, -⟩ := admission_reads.filter hfilter hf hcondition
    obtain ⟨-, hf₂, -⟩ := groups_assembleAll _ hf₁
      (placedAll_iff.2 (hgrows.scope.root ▸ hbeforePlaced)) hbefore
    obtain ⟨-, hr⟩ := Model.walk_of_resolveRelationship hroute
    exact ih (Frame.closed_ofRelationship hr hf₂.ctes) hinner Relationship.tied_some_correlation

end SelectQuery

/-- The outermost level. -/
def SelectQuery.level (m : Model) (q : SelectQuery) (d : Dialect) : Except QueryError Level :=
  (StateT.run (q.assemble m d none) (Frame.mk (Scope.ofTable m q.root) [])).1

/-- A query whose level is known compiles to it. -/
theorem SelectQuery.exists_level {α : Type} {built : Except QueryError SelectQuery}
    {view : Level → α} {a : α} (h : (built >>= fun q => (q.level m d).map view) = .ok a) :
    ∃ q c l, built = .ok q ∧ q.compile m d = .ok c ∧
      q.HasLevel m d none ⟨.ofTable m q.root, []⟩ q l ∧ view l = a := by
  obtain ⟨q, hq, h⟩ := bind_eq_ok.1 h
  obtain ⟨l, hl, hview⟩ := map_eq_ok.1 h
  have hrun : (q.assemble m d none).Gives ⟨.ofTable m q.root, []⟩ l _ := Prod.ext hl rfl
  exact ⟨q, _, l, hq, by rw [compile, hrun], .here hrun, hview⟩

/-- What the expressions read of the tables of the level. -/
def Level.ownColumns (l : Level) (es : List Expr) : List Column :=
  (es.flatMap Expr.free).filter (·.isOf l.scope.boundNames)

namespace Shop

/-- How many orders there are for each name of a customer, with their lines. -/
def namesCounted : Except QueryError SelectQuery := do
  let q ← (SelectQuery.ofTable orders).select (model plain) ⟨["customer", "name"]⟩
  let q ← q.addFunction (model plain) "COUNT" [.star] false true "n"
  q.includeRelated (model plain) ⟨["lines"]⟩

theorem builds_namesCounted {q : SelectQuery} (h : namesCounted = .ok q) :
    SelectQuery.Builds (model plain) P (.ofTable orders) q := by
  obtain ⟨q₁, h₁, h⟩ := bind_eq_ok.1 h
  obtain ⟨q₂, h₂, h₃⟩ := bind_eq_ok.1 h
  exact .includeRelated (.function (.select (.refl _) h₁) h₂) h₃

def orderKey : Column := ⟨some ((model plain).aliasOf orders), "id"⟩

/-- How many orders there are, with their lines, by their last line. -/
def allCounted : Except QueryError SelectQuery := do
  let q ← (SelectQuery.ofTable orders).addFunction (model plain) "COUNT" [.star] false true "n"
  let q ← q.includeRelated (model plain) ⟨["lines"]⟩
  q.addOrder (model plain) ⟨["lines", "sku"]⟩ .desc

end Shop

/-- **Grouping of the levels of a statement**: the statement is written from the level of the query,
and each nested query from a level whose rows are a value of the one around it. Each level has the
GROUP BY that it needs. -/
theorem compile_levels_grouped {t : Table} {q : SelectQuery} {c : CompiledQuery}
    (hq : SelectQuery.Builds m P (.ofTable t) q) (hc : q.compile m d = .ok c) :
    (∃ l ctes, q.HasLevel m d none ⟨.ofTable m t, []⟩ q l ∧
      c.query = { (l.shaped d).1 with ctes }) ∧
    ∀ y l, q.HasLevel m d none ⟨.ofTable m t, []⟩ y l →
      (∀ path r inner, .nested path r inner ∈ y.nodes →
        ∃ l', q.HasLevel m d none ⟨.ofTable m t, []⟩ inner l' ∧
          ⟨path, l'.nestedExpr (!r.fansOut) d⟩ ∈ l.nested) ∧
      (∀ items, (l.query items).groupBy = l.groupBy.map .column) ∧
      ∃ orders, ordersOf y.root y.order y.paging = .ok orders ∧ l.Grouped orders := by
  have hplaced := hq.placed (SelectQuery.placed_ofTable t)
  obtain ⟨hroot, -, -⟩ := SelectQuery.placed_iff.1 hplaced
  obtain ⟨l, g, hassemble, rfl⟩ := SelectQuery.compile_eq_ok hc
  rw [hroot] at hassemble
  refine ⟨⟨l, g.ctes, .here hassemble, rfl⟩, fun y l hl => ⟨fun _ _ _ => hl.nested_level,
    l.groupBy_query, ?_⟩⟩
  exact hl.grouped (Frame.closed_ofTable Sql.closedCtes_nil) hplaced
    (by simp : ∀ e ∈ none, Expr.Takes (Column.Tied (Scope.ofTable m t).boundNames []) e)

/-- The names are grouped by, and the keys that the lines are tied to. -/
theorem compile_namesCounted_grouped :
    ∃ q c l, Shop.namesCounted = .ok q ∧ q.compile (Shop.model Shop.plain) .postgreSql = .ok c ∧
      q.HasLevel (Shop.model Shop.plain) .postgreSql none
        ⟨.ofTable (Shop.model Shop.plain) q.root, []⟩ q l ∧
      l.items.map (·.grouping) = [.key, .aggregate] ∧
      Shop.orderKey ∈ l.ownColumns (l.nested.map (·.expr)) ∧ Shop.orderKey ∈ l.groupBy := by
  have hview : (Shop.namesCounted >>= fun q => (q.level (Shop.model Shop.plain) .postgreSql).map
      fun l => (l.items.map (·.grouping), l.ownColumns (l.nested.map (·.expr)))) =
        .ok ([.key, .aggregate], [Shop.orderKey]) := by
    cbv
  obtain ⟨q, c, l, hq, hc, hl, hview⟩ := SelectQuery.exists_level hview
  obtain ⟨hitems, hnested⟩ := Prod.mk.inj hview
  have hbuilds : SelectQuery.Builds _ (fun _ => True) _ q := Shop.builds_namesCounted hq
  have hroot : q.root = Shop.orders :=
    (SelectQuery.placed_iff.1 (hbuilds.placed (SelectQuery.placed_ofTable _))).1
  obtain ⟨-, hlevels⟩ := compile_levels_grouped hbuilds hc
  obtain ⟨-, -, orders, -, hgrouped⟩ := hlevels q l (hroot ▸ hl)
  have hkey : Grouping.key ∈ l.items.map (·.grouping) := by simp [hitems]
  have haggregate : Grouping.aggregate ∈ l.items.map (·.grouping) := by simp [hitems]
  have hown : Shop.orderKey ∈ l.ownColumns (l.nested.map (·.expr)) := by simp [hnested]
  obtain ⟨i, hi, hikey⟩ := List.mem_map.1 hkey
  obtain ⟨j, hj, hjaggregate⟩ := List.mem_map.1 haggregate
  obtain ⟨hread, hisOf⟩ := List.mem_filter.1 hown
  obtain ⟨e, he, hread⟩ := List.mem_flatMap.1 hread
  obtain ⟨n, hn, rfl⟩ := List.mem_map.1 he
  refine ⟨q, c, l, hq, hc, hl, hitems, hown, ?_⟩
  exact hgrouped.keys (List.any_eq_true.2 ⟨j, hj, by simp [hjaggregate]⟩) ⟨i, hi, by simp [hikey]⟩
    _ hisOf (.nested hn hread)

/-- Aggregates alone are of one group, and so the keys that the lines are tied to, in the document
and in the order, are not those of a group. -/
theorem compile_allCounted_ungrouped :
    ∃ q c l, Shop.allCounted = .ok q ∧ q.compile (Shop.model Shop.plain) .postgreSql = .ok c ∧
      q.HasLevel (Shop.model Shop.plain) .postgreSql none
        ⟨.ofTable (Shop.model Shop.plain) q.root, []⟩ q l ∧
      l.hasAggregate = true ∧ Shop.orderKey ∈ l.ownColumns (l.nested.map (·.expr)) ∧
      Shop.orderKey ∈ l.ownColumns (l.orderBy.map (·.expr)) ∧ Shop.orderKey ∉ l.groupBy := by
  have hview : (Shop.allCounted >>= fun q => (q.level (Shop.model Shop.plain) .postgreSql).map
      fun l => (l.hasAggregate, l.ownColumns (l.nested.map (·.expr)),
        l.ownColumns (l.orderBy.map (·.expr)), l.groupBy)) =
          .ok (true, [Shop.orderKey], [Shop.orderKey], []) := by
    cbv
  obtain ⟨q, c, l, hq, hc, hl, hview⟩ := SelectQuery.exists_level hview
  simp only [Prod.mk.injEq] at hview
  obtain ⟨haggregate, hnested, horder, hgroup⟩ := hview
  exact ⟨q, c, l, hq, hc, hl, haggregate, by simp [hnested], by simp [horder], by simp [hgroup]⟩

/-! ## Orders inside documents

An order by a column of a nested document is left out of what a level reads for a group. -/

namespace Ordered

variable {nested : List NestedItem} {orders : List OrderBy} {acc acc' : Ordered} {o : OrderBy}

theorem add_inside (hin : nested.any (o.path.startsWith ·.key) = true)
    (hnarrow : m.Narrow f.scope.root o.path) (h : (acc.add m nested o).Gives f acc' g) :
    g.scope.root = f.scope.root ∧ acc'.items = acc.items ∧ acc'.keys = acc.keys := by
  obtain ⟨r, s, hresolve, rfl, ⟨-, hs, rfl⟩ | ⟨before, many, after, q, hhops, hmany, -⟩⟩ :=
    gives_add h
  · exact ⟨(Scope.grows_joinHops hs).root, by simp [hin], rfl⟩
  · have hone := Resolution.crossesMany_eq_false.1 (hnarrow r hresolve) many (by simp [hhops])
    cases hmany.symm.trans hone

/-- **Orders inside documents leave the grouping.** -/
theorem groupColumns_foldlM (hin : ∀ o ∈ orders, nested.any (o.path.startsWith ·.key) = true)
    (hnarrow : ∀ o ∈ orders, m.Narrow f.scope.root o.path)
    (h : (orders.foldlM (Ordered.add m nested) acc).Gives f acc' g) :
    groupColumns acc'.items acc'.keys = groupColumns acc.items acc.keys := by
  have hinv := foldlM_induction
    (fun g x => g.scope.root = f.scope.root ∧ x.items = acc.items ∧ x.keys = acc.keys)
    (fun o ho f₁ acc₁ g acc₂ hinv hadd => ?_) ⟨rfl, rfl, rfl⟩ h
  · rw [hinv.2.1, hinv.2.2]
  · obtain ⟨hroot, hitems, hkeys⟩ := hinv
    obtain ⟨hroot', hitems', hkeys'⟩ := add_inside (hin o ho) (hroot ▸ hnarrow o ho) hadd
    exact ⟨hroot'.trans hroot, hitems'.trans hitems, hkeys'.trans hkeys⟩

end Ordered

/-- How many orders there are for each key, with their customers, by the name of the customer. -/
def Shop.buyersCounted : Except QueryError SelectQuery := do
  let q ← (SelectQuery.ofTable orders).select (model plain) ⟨["id"]⟩
  let q ← q.addFunction (model plain) "COUNT" [.star] false true "n"
  let q ← q.includeRelated (model plain) ⟨["customer"]⟩
  q.addOrder (model plain) ⟨["customer", "name"]⟩ .asc

/-- Beside a key and an aggregate, the name that the rows are ordered by is not grouped by. -/
theorem compile_buyersCounted_ungrouped :
    ∃ q c l, Shop.buyersCounted = .ok q ∧ q.compile (Shop.model Shop.plain) .postgreSql = .ok c ∧
      q.HasLevel (Shop.model Shop.plain) .postgreSql none
        ⟨.ofTable (Shop.model Shop.plain) q.root, []⟩ q l ∧
      l.items.map (·.grouping) = [.key, .aggregate] ∧
      ∃ name ∈ l.ownColumns (l.orderBy.map (·.expr)), name ∉ l.groupBy := by
  have hview : (Shop.buyersCounted >>= fun q => (q.level (Shop.model Shop.plain) .postgreSql).map
      fun l => (l.items.map (·.grouping),
        (l.ownColumns (l.orderBy.map (·.expr))).all (l.groupBy.contains ·))) =
          .ok ([.key, .aggregate], false) := by
    cbv
  obtain ⟨q, c, l, hq, hc, hl, hview⟩ := SelectQuery.exists_level hview
  obtain ⟨hitems, hall⟩ := Prod.mk.inj hview
  obtain ⟨name, hname, hgroup⟩ := List.all_eq_false.1 hall
  exact ⟨q, c, l, hq, hc, hl, hitems, name, hname, by simpa using hgroup⟩

end EntityQuery
