import EntityQuery.Proofs.Select.Count

/-!
# What a plain count keeps

The count over the FROM clause leaves out what only the select list needs. It tells the joins of
the filter by their marks and the CTEs of the filter by their number, after everything has been
written. This module says what is left: the FROM clause that the filter has if it is written alone.

**Steps.** Whatever is assembled after the filter adds joins with the mark of the select list and
CTEs behind those that are there (`Frame.Adds`). This needs nothing of the query: it holds for every
node that is assembled at all.

**The count.** So the joins with the mark of the filter are those that it left, and its CTEs are the
first ones. A filter that is written alone refers to nothing but its own joins and CTEs
(`Writes.closed`), and neither does the count (`compile_count_filter`).
-/

namespace EntityQuery

open Build
open EntityQuery.Sql (Expr Query SelectItem Dialect)

variable {m : Model} {d : Dialect} {f g k : Frame} {α β : Type}

/-- From `f` to `g` only joins of the select list and CTEs are added. -/
structure Frame.Adds (f g : Frame) : Prop where
  grows : f.Grows g
  joins : f.scope.Extends .select g.scope

namespace Frame.Adds

theorem refl (f : Frame) : f.Adds f := ⟨.refl f, .refl f.scope⟩

theorem trans (h : f.Adds g) (h' : g.Adds k) : f.Adds k :=
  ⟨h.grows.trans h'.grows, h.joins.trans h'.joins⟩

theorem joinHops {hops : List Relationship} {s : Scope}
    (h : f.scope.joinHops hops .select = .ok s) : f.Adds ⟨s, f.ctes⟩ :=
  ⟨⟨Scope.grows_joinHops h, List.prefix_rfl⟩, Scope.extends_joinHops (Scope.settled_select _) h⟩

theorem mapM {act : α → Build β} (hact : ∀ x f y g, (act x).Gives f y g → f.Adds g) {xs : List α}
    {ys : List β} (h : (xs.mapM act).Gives f ys g) : f.Adds g :=
  mapM_induction (fun g _ => f.Adds g) (fun x _ f₁ _ y g hadds hy => hadds.trans (hact x f₁ y g hy))
    (refl f) h

end Frame.Adds

/-! ## Values -/

theorem adds_joinSelected {path : Path} {r : Resolution}
    (h : (joinSelected m path).Gives f r g) : f.Adds g := by
  obtain ⟨-, s, hs, rfl⟩ := gives_joinSelected h
  exact .joinHops hs

theorem FunctionArg.adds_assemble (arg : FunctionArg) {x : Expr × Bool}
    (h : (arg.assemble m).Gives f x g) : f.Adds g := by
  cases arg with
  | column path =>
    simp only [assemble, gives_bind, gives_pure] at h
    obtain ⟨r, _, hr, -, rfl⟩ := h
    exact adds_joinSelected hr
  | value v =>
    obtain ⟨-, rfl⟩ := gives_pure.1 h
    exact .refl g
  | star =>
    obtain ⟨-, rfl⟩ := gives_pure.1 h
    exact .refl g

theorem adds_assembleBranch {branch : Predicate × Value} {x : Expr × Expr}
    (h : (assembleBranch m branch).Gives f x g) : f.Adds g := by
  obtain ⟨e, he, -⟩ := gives_assembleBranch h
  have hw := writes_compile branch.1.onTables_true he
  exact ⟨hw.grows, hw.extends rfl (Scope.settled_select _)⟩

theorem Ordered.adds_add {acc acc' : Ordered} {nested : List NestedItem} {o : OrderBy}
    (h : (acc.add m nested o).Gives f acc' g) : f.Adds g := by
  obtain ⟨r, s, -, rfl, ⟨-, hs, -⟩ | ⟨before, many, after, q, -, -, -, hs, -⟩⟩ := gives_add h
  · exact .joinHops hs
  · exact .joinHops hs

theorem Ordered.adds_foldlM {acc acc' : Ordered} {nested : List NestedItem}
    {orders : List OrderBy} (h : (orders.foldlM (Ordered.add m nested) acc).Gives f acc' g) :
    f.Adds g :=
  foldlM_induction (fun g _ => f.Adds g) (fun _ _ _ _ _ _ hadds hadd => hadds.trans (adds_add hadd))
    (.refl f) h

/-! ## Nodes -/

mutual

theorem SelectNode.adds_assemble (node : SelectNode) {f g : Frame} {parts : Parts}
    (h : (node.assemble m d).Gives f parts g) : f.Adds g := by
  match node with
  | .column path label =>
    obtain ⟨r, hr, -⟩ := gives_assemble_column h
    exact adds_joinSelected hr
  | .function name args distinct aggregate label =>
    obtain ⟨-, values, hvalues, -⟩ := gives_assemble_function h
    exact .mapM (fun arg _ _ _ => arg.adds_assemble) hvalues
  | .case branches otherwise label =>
    obtain ⟨written, hwritten, -⟩ := gives_assemble_case h
    exact .mapM (fun _ _ _ _ => adds_assembleBranch) hwritten
  | .nested path r query =>
    -- The joins of a nested query stay in its own scope, but its CTEs do not.
    obtain ⟨route, s, level, inner, -, hs, hassemble, rfl, -⟩ := gives_assemble_nested h
    have hjoin : f.Adds ⟨s, f.ctes⟩ := .joinHops hs
    have hctes := (query.grows_assemble hassemble).ctes
    exact ⟨⟨hjoin.grows.scope, hctes⟩, hjoin.joins⟩

theorem adds_assembleAll (nodes : List SelectNode) {f g : Frame} {parts : Parts}
    (h : (assembleAll m d nodes).Gives f parts g) : f.Adds g := by
  match nodes with
  | [] =>
    rw [assembleAll] at h
    obtain ⟨-, rfl⟩ := gives_pure.1 h
    exact .refl g
  | node :: rest =>
    obtain ⟨part, f₁, parts, hpart, hparts, -⟩ := gives_assembleAll_cons h
    exact (node.adds_assemble hpart).trans (adds_assembleAll rest hparts)

theorem SelectQuery.grows_assemble (q : SelectQuery) {f g : Frame} {correlation : Option Expr}
    {l : Level} (h : (q.assemble m d correlation).Gives f l g) : f.Grows g := by
  match q with
  | ⟨root, nodes, filter, order, paging, distinct, eagerDepth, ancestors⟩ =>
    obtain ⟨condition, f₁, parts, f₂, orders, ordered, hcondition, hparts, -, hordered, -, -⟩ :=
      SelectQuery.gives_assemble h
    have hfilter := (writes_filter (onTablesFilter_true filter) hcondition).grows
    have hnodes := (adds_assembleAll nodes hparts).grows
    exact hfilter.trans (hnodes.trans (Ordered.adds_foldlM hordered).grows)

end

/-- A nested document is at the path of a relationship. -/
theorem routes_assembleAll {nodes : List SelectNode} {parts : Parts}
    (h : (assembleAll m d nodes).Gives f parts g) :
    ∀ n ∈ parts.nested, ∃ route, m.resolveRelationship f.scope.root n.key = .ok route := by
  induction nodes generalizing f parts with
  | nil =>
    rw [assembleAll] at h
    obtain ⟨rfl, -⟩ := gives_pure.1 h
    simp [Parts.empty]
  | cons node nodes ih =>
    obtain ⟨part, f₁, rest, hpart, hrest, rfl⟩ := gives_assembleAll_cons h
    have hroot := (node.adds_assemble hpart).grows.scope.root
    refine List.forall_mem_append.2 ⟨?_, hroot ▸ ih hrest⟩
    cases node with
    | column path label =>
      obtain ⟨r, -, rfl⟩ := gives_assemble_column hpart
      simp [Parts.ofItem, Parts.empty]
    | function name args distinct aggregate label =>
      obtain ⟨-, values, -, rfl⟩ := gives_assemble_function hpart
      simp [Parts.ofItem, Parts.empty]
    | case branches otherwise label =>
      obtain ⟨written, -, rfl⟩ := gives_assemble_case hpart
      simp [Parts.ofItem, Parts.empty]
    | nested path r query =>
      obtain ⟨route, s, level, inner, hroute, -, -, -, rfl⟩ := gives_assemble_nested hpart
      exact List.forall_mem_singleton.2 ⟨route, hroute⟩

theorem any_aggregate_assembleAll {nodes : List SelectNode} {parts : Parts}
    (h : (assembleAll m d nodes).Gives f parts g) :
    parts.items.any (·.grouping == .aggregate) = nodes.any (·.grouping == .aggregate) := by
  induction nodes generalizing f parts with
  | nil =>
    rw [assembleAll] at h
    obtain ⟨rfl, -⟩ := gives_pure.1 h
    rfl
  | cons node nodes ih =>
    obtain ⟨part, f₁, rest, hpart, hrest, rfl⟩ := gives_assembleAll_cons h
    have hreads : part.Reads m d (fun _ => false) f.scope.root [node] :=
      SelectNode.reads_assemble hpart
    show (part.items ++ rest.items).any _ = _
    rw [List.any_append, hreads.aggregate, ih hrest]
    simp

/-- An order adds no aggregate. -/
theorem SelectQuery.hasAggregate_assemble {q : SelectQuery} {correlation : Option Expr} {l : Level}
    (h : (q.assemble m d correlation).Gives f l g) : l.hasAggregate = q.hasAggregate := by
  obtain ⟨condition, f₁, parts, f₂, orders, ordered, -, hparts, -, hordered, -, rfl⟩ :=
    gives_assemble h
  obtain ⟨new, hitems, hnew⟩ := Ordered.items_foldlM (fun _ => false) hordered
  have hnone : new.any (·.grouping == .aggregate) = false :=
    List.any_eq_false.2 fun i hi => by simp [(hnew i hi).1]
  show ordered.items.any _ = _
  rw [hitems, List.any_append, hnone, Bool.or_false]
  exact any_aggregate_assembleAll hparts

/-! ## The count -/

/-- The statement of a level is a select list over its FROM clause, up to its order, its window and
its form. -/
theorem Level.exists_from (l : Level) (d : Dialect) :
    ∃ items orderBy top window forJson,
      (l.shaped d).1 =
        { l.scope.apply (l.base items) false with orderBy, top, window, forJson } := by
  obtain ⟨items, forJson, hshaped, -⟩ := l.exists_shaped (fun _ => false) d
  obtain ⟨items', orderBy, hquery⟩ : ∃ items' orderBy, l.query items =
      l.scope.apply (l.paging.elim { l.base items' with orderBy }
        (·.apply { l.base items' with orderBy })) false := ⟨_, _, rfl⟩
  obtain ⟨top, window, hpaging⟩ := exists_paging l.paging { l.base items' with orderBy }
  refine ⟨items', orderBy, top, window, forJson, ?_⟩
  rw [hshaped, hquery, hpaging]
  rfl

/-- A frame that a filter has left, with the condition that it has become. -/
structure Frame.Filtered (m : Model) (f : Frame) (e : Option Expr) : Prop where
  closed : f.Closed m
  condition : ∀ x ∈ e, x.Closed (cteNames f.ctes) f.scope.boundNames
  marks : ∀ j ∈ f.scope.joins, j.origin = .filter
  numbered : Numbered f.ctes

theorem filtered_compileFilter {t : Table} {filter : Option Predicate} {e : Option Expr}
    (h : (compileFilter m filter).Gives ⟨.ofTable m t, []⟩ e f) : f.Filtered m e := by
  have hw := writes_filter (onTablesFilter_true filter) h
  have hstart : (Scope.ofTable m t).Settled .filter := by simp [Scope.Settled, Scope.ofTable]
  obtain ⟨hclosed, hes⟩ := hw.closed (Frame.closed_ofTable Sql.closedCtes_nil) ⟨⟩
  exact ⟨hclosed, fun x hx => hes x (Option.mem_toList.2 hx),
    (hw.extends rfl hstart).settled hstart rfl, hw.numbered numbered_nil⟩

/-- The rows that a condition keeps, counted. -/
def countWhere (e : Option Expr) : Query :=
  { Query.empty with
    items := [Level.countItem]
    condition := Expr.combine .and e.toList }

/-- The rows that a filter keeps, counted over what it has left. -/
def Frame.countFiltered (f : Frame) (e : Option Expr) : Query :=
  { f.scope.apply (countWhere e) false with ctes := f.ctes }

/-- **It needs nothing but what the filter has joined and referred to.** -/
theorem Frame.Filtered.closedStatement {e : Option Expr} (h : f.Filtered m e) :
    (f.countFiltered e).ClosedStatement := by
  have hcondition : Sql.ClosedOption (cteNames f.ctes) (f.scope.boundNames ++ [])
      (Expr.combine .and e.toList) :=
    Sql.closedOption_iff.2 ((Expr.kept_closed _ _).combine fun x hx =>
      (h.condition x (Option.mem_toList.1 hx)).beside)
  have hclosed : (f.scope.apply (countWhere e) false).Closed (cteNames f.ctes) [] :=
    h.closed.apply rfl rfl ⟨⟨⟨⟩, ⟨⟩⟩, ⟨⟩⟩ hcondition ⟨⟩ ⟨⟩ ⟨⟩
  exact ⟨h.numbered.nodup, h.closed.ctes, hclosed⟩

/-- The plain count of a level tells the part of the filter by marks and by a number. -/
theorem Frame.Filtered.countQuery {e : Option Expr} {l : Level} (h : f.Filtered m e)
    (hadds : f.Adds g) (hplain : l.isPlain = true) (hscope : l.scope = g.scope)
    (hconditions : l.conditions = e.toList) (hctes : l.filterCtes = f.ctes.length) :
    l.countQuery g.ctes = f.countFiltered e := by
  have hjoins : g.scope.joinsFor true = f.scope.joinsFor false :=
    hadds.joins.joinsFor_true hadds.grows.scope.baseJoins h.marks
  have htake : g.ctes.take f.ctes.length = f.ctes :=
    (List.prefix_iff_eq_take.1 hadds.grows.ctes).symm
  rw [Level.countQuery, if_pos hplain, Frame.countFiltered, countWhere, hscope, hconditions, hctes,
    htake, Scope.apply, Scope.apply, hjoins, hadds.grows.scope.source]

/-- The count is over what the filter keeps, and over nothing else. -/
structure CompiledQuery.CountsFilter (m : Model) (q : SelectQuery) (c : CompiledQuery) : Prop where
  source : c.count.source = c.query.source
  condition : c.count.condition = c.query.condition
  joins : c.count.joins <+: c.query.joins
  ctes : c.count.ctes <+: c.query.ctes
  /-- What the filter joins and refers to if it is written alone. -/
  filter : ∃ e f, (compileFilter m q.filter).Gives ⟨.ofTable m q.root, []⟩ e f ∧
    c.count.joins = f.scope.joins.map (·.join) ∧ c.count.ctes = f.ctes ∧
    c.count.condition = Expr.combine .and e.toList
  closed : c.count.ClosedStatement
  orderBy : c.count.orderBy = []
  top : c.count.top = none
  window : c.count.window = none

/-- **A plain count keeps exactly the filter.** -/
theorem compile_count_filter {q : SelectQuery} {c : CompiledQuery} (h : q.compile m d = .ok c)
    (hdistinct : c.query.distinct = false) (hgroup : c.query.groupBy = [])
    (haggregate : q.hasAggregate = false) : c.CountsFilter m q := by
  obtain ⟨l, g, hassemble, rfl⟩ := SelectQuery.compile_eq_ok h
  obtain ⟨items, orderBy, top, window, forJson, hshaped⟩ := l.exists_from d
  have hplain : l.isPlain = true := by
    rw [hshaped] at hdistinct hgroup
    refine Level.isPlain_iff.2 ⟨hdistinct, List.map_eq_nil_iff.1 hgroup, ?_⟩
    rw [SelectQuery.hasAggregate_assemble hassemble, haggregate]
  obtain ⟨e, f, parts, f₂, orders, ordered, hfilter, hparts, -, hordered, -, hl⟩ :=
    SelectQuery.gives_assemble hassemble
  have hfiltered := filtered_compileFilter hfilter
  have hgrows := (writes_filter (onTablesFilter_true q.filter) hfilter).grows
  have hadds := (adds_assembleAll q.nodes hparts).trans (Ordered.adds_foldlM hordered)
  have hscope : l.scope = g.scope := by rw [hl]
  have hbase : g.scope.baseFilters = [] :=
    hadds.grows.scope.baseFilters.trans hgrows.scope.baseFilters
  have hconditions : l.conditions = e.toList := by simp [hl, hbase]
  have hcount := hfiltered.countQuery hadds hplain hscope hconditions (by rw [hl])
  have hjoins : f.scope.joinsFor false = f.scope.joins.map (·.join) := by
    rw [Scope.joinsFor_false, hgrows.scope.baseJoins]
    rfl
  obtain ⟨new, hnew, -⟩ := hadds.joins
  constructor
  · rw [hcount, hshaped]
    show some (Sql.Source.table f.scope.source) = some (.table l.scope.source)
    rw [hscope, hadds.grows.scope.source]
  · rw [hcount, hshaped]
    show Expr.combine .and e.toList = Expr.combine .and l.conditions
    rw [hconditions]
  · rw [hcount, hshaped]
    show f.scope.joinsFor false <+: l.scope.joinsFor false
    rw [hscope, hjoins, Scope.joinsFor_false, hadds.grows.scope.baseJoins,
      hgrows.scope.baseJoins, hnew, List.map_append]
    exact List.prefix_append _ _
  · rw [hcount]
    exact hadds.grows.ctes
  · exact ⟨e, f, hfilter, by rw [hcount]; exact hjoins, by rw [hcount]; rfl, by rw [hcount]; rfl⟩
  · rw [hcount]
    exact hfiltered.closedStatement
  · rw [hcount]
    rfl
  · rw [hcount]
    rfl
  · rw [hcount]
    rfl

namespace Shop

/-- A page of the orders with a certain tag, marked where they have a line for ink. -/
def markedPage : Except QueryError SelectQuery := do
  let q ← taggedPage
  let ink := .compare ⟨["lines", "sku"]⟩ .eq (.value (.text "ink")) .any
  q.addCase (model plain) [(ink, .bool true)] none "ink"

end Shop

/-- The customer is joined and the lines for ink are looked up for the select list only. -/
theorem compile_markedPage_count_filter :
    ∃ q c, Shop.markedPage = .ok q ∧ q.compile (Shop.model Shop.plain) .mySql = .ok c ∧
      c.CountsFilter (Shop.model Shop.plain) q ∧
      (c.query.joins.length, c.count.joins.length) = (3, 1) ∧
      (c.query.ctes.length, c.count.ctes.length) = (3, 2) := by
  have hcompile : (Shop.markedPage >>= fun q =>
      (q.compile (Shop.model Shop.plain) .mySql).map fun c =>
        ((c.query.distinct, c.query.groupBy.isEmpty, q.hasAggregate),
          (c.query.joins.length, c.count.joins.length),
          (c.query.ctes.length, c.count.ctes.length))) =
      .ok ((false, true, false), (3, 1), (3, 2)) := by
    cbv
  obtain ⟨q, hq, hc⟩ := bind_eq_ok.1 hcompile
  obtain ⟨c, hc, hview⟩ := map_eq_ok.1 hc
  simp only [Prod.mk.injEq, List.isEmpty_iff] at hview
  obtain ⟨⟨hdistinct, hgroup, haggregate⟩, ⟨hjoins, hcountJoins⟩, hctes, hcountCtes⟩ := hview
  exact ⟨q, c, hq, hc, compile_count_filter hc hdistinct hgroup haggregate,
    by rw [hjoins, hcountJoins], by rw [hctes, hcountCtes]⟩

end EntityQuery
