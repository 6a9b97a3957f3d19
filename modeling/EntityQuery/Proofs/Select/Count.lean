import EntityQuery.Proofs.Predicate.Columns
import EntityQuery.Proofs.Select.Aggregates
import EntityQuery.Proofs.Select.Closed
import EntityQuery.Proofs.Sql.Counting

/-!
# Counting the rows of a statement

Beside its statement a query has one that counts the rows before the window is taken. It is put
together in one of two ways.

**Rows of the FROM clause.** Where every row of the FROM clause is a row of the result, those are
counted, and the joins that only the select list needs are left out. The condition sees the same
rows without them (`Frame.Selects.length_kept`), and they add no row: they are left joins that find
at most one. This is where a function whose argument fans out would be missed, so such a query has
to drop equal rows or to group them.

**Rows of the result.** Otherwise the rows of the statement itself are counted, with the values of
the level as the select list (`Level.length_counted`). For a query that drops equal rows these must
be the values that the statement selects, so it has no nested document and no order that would be
added to its select list.

`compile_count_rows` puts both together.
-/

namespace EntityQuery

open Build
open EntityQuery.Sql (Expr Query SelectItem Dialect Engine Database Ctes Env Join joinFound joinAll
  sourceEnvs bindCtes AgreeAll)

variable {m : Model} {d : Dialect} {f g : Frame} {D : Type} [DecidableEq D] {E : Engine D}
  {db : Database D} {c : CompiledQuery} {narrow : Prop}

/-! ## Rows of the FROM clause -/

/-- The joins of the select list follow those of the filter. -/
theorem Frame.Selects.exists_dropped (h : f.Selects m narrow g) :
    ∃ dropped : List Join, g.scope.joinsFor false = f.scope.joinsFor false ++ dropped ∧
      g.scope.boundNames = f.scope.boundNames ++ dropped.map (·.table.boundName) ∧
      ∀ j ∈ dropped, ∃ i ∈ g.scope.joins, i.join = j := by
  obtain ⟨new, hjoins, -⟩ := h.joins
  refine ⟨new.map (·.join), ?_, ?_, ?_⟩
  · rw [Scope.joinsFor_false, Scope.joinsFor_false, h.grows.scope.baseJoins, hjoins,
      List.map_append, List.append_assoc]
  · rw [Scope.boundNames, Scope.boundNames, h.grows.scope.source, h.grows.scope.baseJoins, hjoins]
    simp
  · rw [List.forall_mem_map]
    intro i hi
    exact ⟨i, by simp [hjoins, hi], rfl⟩

/-- The environments of a closed FROM clause depend only on the CTEs that it sees. -/
theorem Frame.Closed.agreeAll (h : f.Closed m) {few rows : Ctes D}
    (hrows : few.AgreeOn (cteNames f.ctes) rows) (env : Env D) :
    AgreeAll f.scope.boundNames
      (joinAll E db few (f.scope.joinsFor false)
        (sourceEnvs E db few env (some (.table f.scope.source))))
      (joinAll E db rows (f.scope.joinsFor false)
        (sourceEnvs E db rows env (some (.table f.scope.source)))) := by
  have hknown : Sql.ClosedSource (cteNames f.ctes) [] (some (.table f.scope.source)) := by
    intro hlabel
    rw [h.source] at hlabel
    cases hlabel
  have henv : env.AgreeOn [] env := fun _ _ => rfl
  have hsource : AgreeAll [f.scope.source.boundName]
      (sourceEnvs E db few env (some (.table f.scope.source)))
      (sourceEnvs E db rows env (some (.table f.scope.source))) :=
    Sql.sourceEnvs_congr hrows henv _ hknown
  refine (Sql.joinAll_congr hrows hsource _ h.joins).mono fun name hname => ?_
  rw [Scope.boundNames, List.mem_cons] at hname
  rw [Scope.joinsFor_false, List.map_append, List.map_map, List.mem_append, List.mem_reverse,
    List.mem_singleton]
  exact hname.symm

/-- **The joins of the select list can be left out** as far as the filter goes. -/
theorem Frame.Selects.agreeAll (h : f.Selects m narrow g) (hsafe : g.Safe m) (hclosed : f.Closed m)
    (hdb : m.OneToOne E db) (hcte : ∀ id i, m.naming.tableAlias id ≠ cteName i)
    (hnames : g.scope.boundNames.Nodup) {few : Ctes D}
    (hrows : few.AgreeOn (cteNames f.ctes) (bindCtes E db (fun _ => []) g.ctes)) (env : Env D) :
    AgreeAll f.scope.boundNames
      (joinAll E db few (f.scope.joinsFor false)
        (sourceEnvs E db few env (some (.table g.scope.source))))
      (joinAll E db (bindCtes E db (fun _ => []) g.ctes) (g.scope.joinsFor false)
        (sourceEnvs E db (bindCtes E db (fun _ => []) g.ctes) env
          (some (.table g.scope.source)))) := by
  obtain ⟨dropped, hdropped, hbound, hfrom⟩ := h.exists_dropped
  rw [hdropped, Sql.joinAll_append, h.grows.scope.source]
  refine (hclosed.agreeAll hrows env).trans (AgreeAll.joinAll_left (fun j hj env => ?_) ?_ _)
  · obtain ⟨i, hi, rfl⟩ := hfrom j hj
    exact hsafe.length_joinFound hdb h.keyed.numbered hcte hi env
  · -- Their aliases are new.
    intro j hj hmem
    rw [hbound, List.nodup_append'] at hnames
    exact hnames.2.2 hmem (List.mem_map_of_mem hj)

/-- So the condition keeps as many rows without them. -/
theorem Frame.Selects.length_kept (h : f.Selects m narrow g) (hsafe : g.Safe m)
    (hclosed : f.Closed m) (hfilter : ∀ j ∈ f.scope.joins, j.origin = .filter)
    (hdb : m.OneToOne E db) (hcte : ∀ id i, m.naming.tableAlias id ≠ cteName i)
    (hnames : g.scope.boundNames.Nodup) {q q' : Query}
    (hsource : q.source = some (.table g.scope.source)) (hsource' : q'.source = q.source)
    (hjoins : q.joins = g.scope.joinsFor false) (hjoins' : q'.joins = g.scope.joinsFor true)
    (hcondition : q'.condition = q.condition)
    (hsees : Sql.ClosedOption (cteNames f.ctes) f.scope.boundNames q.condition) (env : Env D) :
    (q'.kept E db (bindCtes E db (fun _ => []) f.ctes) env).length =
      (q.kept E db (bindCtes E db (fun _ => []) g.ctes) env).length := by
  -- The CTEs of the filter are the first ones.
  have hrows : (bindCtes E db (fun _ => []) f.ctes).AgreeOn (cteNames f.ctes)
      (bindCtes E db (fun _ => []) g.ctes) := by
    obtain ⟨rest, hrest⟩ := h.grows.ctes
    have hnodup := h.keyed.numbered.nodup
    rw [← hrest] at hnodup ⊢
    exact Sql.agreeOn_bindCtes hnodup
  have henvs := h.agreeAll hsafe hclosed hdb hcte hnames hrows env
  rw [Query.kept, Query.kept, hsource', hsource, hjoins', hjoins, hcondition,
    h.joins.joinsFor_true h.grows.scope.baseJoins hfilter]
  refine (henvs.filter fun row row' hrow => ?_).length_eq
  exact Sql.holdsOption_congr ⟨hrows, .cons hrow .nil, hrow⟩ q.condition hsees

/-! ## Rows of the result -/

namespace Level

variable {l : Level} {items : List SelectItem}

theorem isPlain_iff : l.isPlain = true ↔
    l.distinct = false ∧ l.groupBy = [] ∧ l.hasAggregate = false := by
  simp [isPlain, and_assoc]

/-- Orders by selected values are not added. -/
theorem coverOrder_eq {orderBy : List Sql.OrderItem} (i : Nat)
    (h : ∀ o ∈ orderBy, items.any (·.expr.eqv o.expr) = true) :
    coverOrder i items orderBy = (items, orderBy) := by
  induction orderBy generalizing i with
  | nil => rfl
  | cons o orderBy ih =>
    rw [List.forall_mem_cons] at h
    rw [coverOrder, if_pos h.1, ih (i + 1) h.2]

/-- The query of a level, up to its window. -/
theorem exists_query
    (h : l.distinct = true → ∀ o ∈ l.orderBy, items.any (·.expr.eqv o.expr) = true) :
    ∃ top window, l.query items =
      { l.scope.apply (l.base items) false with orderBy := l.orderBy, top, window } := by
  have hcover : (if l.distinct then coverOrder 0 items l.orderBy else (items, l.orderBy)) =
      (items, l.orderBy) := by
    by_cases hdistinct : l.distinct = true
    · rw [if_pos hdistinct, coverOrder_eq 0 (h hdistinct)]
    · rw [if_neg hdistinct]
  obtain ⟨top, window, hpaging⟩ :=
    exists_paging l.paging { l.base items with orderBy := l.orderBy }
  refine ⟨top, window, ?_⟩
  rw [query, hcover]
  exact congrArg (l.scope.apply · false) hpaging

theorem boundNames_query (l : Level) (items : List SelectItem) :
    (l.query items).boundNames = l.scope.boundNames := by
  rw [query]
  refine l.scope.boundNames_apply ?_
  obtain ⟨top, window, hpaging⟩ := exists_paging l.paging _
  rw [hpaging]
  rfl

theorem boundNames_shaped (l : Level) (d : Dialect) :
    (l.shaped d).1.boundNames = l.scope.boundNames := by
  obtain ⟨items, forJson, hshaped, -⟩ := l.exists_shaped (fun _ => false) d
  rw [hshaped]
  exact l.boundNames_query items

theorem map_expr_countedItems (h : l.items ≠ []) :
    l.countedItems.map (·.expr) = l.items.map (·.expr) := by
  have hzip : l.items.map (·.expr) = (l.items.zipIdx.map Prod.fst).map (·.expr) := by
    rw [List.zipIdx_map_fst]
  rw [countedItems, if_neg (by simpa using h), hzip, List.map_map, List.map_map]
  rfl

theorem any_aggregates_countedItems (isAggregate : String → Bool) :
    l.countedItems.any (·.expr.aggregates isAggregate) =
      l.items.any (·.expr.aggregates isAggregate) := by
  by_cases h : l.items = []
  · simp [countedItems, h, Expr.int, Expr.aggregates]
  · have hexprs := congrArg (List.any · (·.aggregates isAggregate)) (map_expr_countedItems h)
    simpa only [List.any_map, Function.comp_def] using hexprs

/-- **The rows of the result, counted over the values of the level.** -/
theorem length_counted (haggregates : items.any (·.expr.aggregates E.isAggregate) =
      l.items.any (·.expr.aggregates E.isAggregate))
    (hitems : l.distinct = true → items.map (·.expr) = l.items.map (·.expr)) (rows : Ctes D)
    (env : Env D) :
    ((l.scope.apply (l.base l.countedItems) false).records E db rows env).length =
      ((l.scope.apply (l.base items) false).records E db rows env).length := by
  refine Query.length_records_items (q := l.scope.apply (l.base items) false) l.countedItems rfl
    ?_ ?_
  · rw [any_aggregates_countedItems]
    exact haggregates.symm
  · intro hdistinct ctes group group' env env'
    have hexprs : (l.scope.apply (l.base items) false).items.map (·.expr) =
        l.items.map (·.expr) := hitems hdistinct
    rw [hexprs]
    by_cases h : l.items = []
    · simp [countedItems, h, Expr.int, Expr.eval]
    · rw [map_expr_countedItems h]

/-- The count over the rows of the result. -/
theorem records_countQuery (hE : E.CountsRows) (hplain : l.isPlain = false)
    (haggregates : items.any (·.expr.aggregates E.isAggregate) =
      l.items.any (·.expr.aggregates E.isAggregate))
    (hitems : l.distinct = true → items.map (·.expr) = l.items.map (·.expr)) (ctes : List Sql.Cte) :
    (l.countQuery ctes).records E db (fun _ => []) Env.empty =
      [[(some "count", some (E.ofInt ({ l.scope.apply (l.base items) false with ctes }.records E db
        (fun _ => []) Env.empty).length))]] := by
  rw [countQuery, if_neg (by simp [hplain]), Query.records_count hE rfl rfl rfl rfl,
    Query.records_withCtes rfl, ← length_counted haggregates hitems, Query.kept]
  simp [Query.empty, Sql.joinAll_nil, sourceEnvs, Sql.holdsOption]

/-- The count over the FROM clause. -/
theorem records_countQuery_plain (h : f.Selects m narrow g) (hsafe : g.Safe m)
    (hclosed : f.Closed m) (hfilter : ∀ j ∈ f.scope.joins, j.origin = .filter)
    (hdb : m.OneToOne E db) (hcte : ∀ id i, m.naming.tableAlias id ≠ cteName i)
    (hnames : g.scope.boundNames.Nodup) (hE : E.CountsRows) (hplain : l.isPlain = true)
    (hscope : l.scope = g.scope) (hctes : l.filterCtes = f.ctes.length)
    (hsees : Sql.ClosedOption (cteNames f.ctes) f.scope.boundNames (Expr.combine .and l.conditions))
    (hitems : items.any (·.expr.aggregates E.isAggregate) = false) :
    (l.countQuery g.ctes).records E db (fun _ => []) Env.empty =
      [[(some "count", some (E.ofInt ({ l.scope.apply (l.base items) false with
        ctes := g.ctes }.records E db (fun _ => []) Env.empty).length))]] := by
  obtain ⟨hdistinct, hgroup, -⟩ := isPlain_iff.1 hplain
  have htake : g.ctes.take l.filterCtes = f.ctes := by
    rw [hctes, ← List.prefix_iff_eq_take.1 h.grows.ctes]
  rw [countQuery, if_pos hplain, Query.records_count hE rfl rfl rfl rfl,
    Query.length_records_plain hdistinct (by simp [Scope.apply, base, hgroup]) rfl hitems]
  congr 6
  show (Query.kept E db (bindCtes E db (fun _ => []) (g.ctes.take l.filterCtes)) _ _).length = _
  rw [htake]
  refine h.length_kept hsafe hclosed hfilter hdb hcte hnames ?_ ?_ ?_ ?_ ?_ ?_ Env.empty
  · show some (Sql.Source.table l.scope.source) = _
    rw [hscope]
  · rfl
  · show l.scope.joinsFor false = _
    rw [hscope]
  · show l.scope.joinsFor true = _
    rw [hscope]
  · rfl
  · exact hsees

end Level

/-! ## Statements -/

theorem SelectQuery.compile_eq_ok {q : SelectQuery} (h : q.compile m d = .ok c) :
    ∃ l g, (q.assemble m d none).Gives ⟨.ofTable m q.root, []⟩ l g ∧
      c = ⟨d, { (l.shaped d).1 with ctes := g.ctes }, l.countQuery g.ctes, (l.shaped d).2⟩ := by
  rw [compile] at h
  split at h
  · contradiction
  · rename_i level frame hlevel
    cases h
    exact ⟨level, frame, hlevel, rfl⟩

/-- A selection that was built and written, from what is seen of the result. -/
theorem SelectQuery.exists_compile {α : Type} {built : Except QueryError SelectQuery}
    {view : CompiledQuery → α} {a : α}
    (h : (built >>= fun q => (q.compile m d).map view) = .ok a) :
    ∃ q c, built = .ok q ∧ q.compile m d = .ok c ∧ view c = a := by
  obtain ⟨q, hq, h⟩ := bind_eq_ok.1 h
  obtain ⟨c, hc, hview⟩ := map_eq_ok.1 h
  exact ⟨q, c, hq, hc, hview⟩

/-- **The filter of a query comes first**, and the select list follows it. -/
theorem SelectQuery.exists_filter {q : SelectQuery} {l : Level} (ht : m.Covers q.root)
    (hq : q.Placed m m.Covers q.root)
    (h : (q.assemble m d none).Gives ⟨.ofTable m q.root, []⟩ l g) :
    l.scope = g.scope ∧ ∃ f : Frame,
      f.Selects m (∀ node ∈ q.nodes, node.Direct m q.root ∧ node.fansOut m q.root = false) g ∧
      f.Safe m ∧ f.Closed m ∧ (∀ j ∈ f.scope.joins, j.origin = .filter) ∧
      l.filterCtes = f.ctes.length ∧
      Sql.ClosedOption (cteNames f.ctes) f.scope.boundNames (Expr.combine .and l.conditions) := by
  obtain ⟨-, hnodes, hfilter⟩ := placed_iff.1 hq
  obtain ⟨condition, f, parts, f₂, orders, ordered, hcondition, hparts, -, hordered, -, rfl⟩ :=
    gives_assemble h
  have hw := writes_filter hfilter hcondition
  obtain ⟨-, hf⟩ := (Frame.keyed_ofTable ht).compileFilter hfilter hcondition
  have hroot : f.scope.root = q.root := hw.grows.scope.root
  have hvalues := selecting_assembleAll q.nodes (placedAll_iff.2 hnodes) hroot hf hparts
  have horders := Ordered.selecting_foldlM rfl hvalues.keyed hordered
  have hselects := hvalues.trans horders
  obtain ⟨hclosed, hes⟩ := hw.closed (Frame.closed_ofTable Sql.closedCtes_nil) ⟨⟩
  have hstart : (Scope.ofTable m q.root).Settled .filter := by simp [Scope.Settled, Scope.ofTable]
  refine ⟨rfl, f, hselects.imp fun hnarrow => ⟨hnarrow, ⟨⟩⟩, ?_, hclosed, ?_, rfl, ?_⟩
  · exact (hw.safe (Frame.safe_ofTable ht (by simp [SafeCtes])) True.intro).1
  · exact (hw.extends rfl hstart).settled hstart rfl
  · have hbase : g.scope.baseFilters = [] :=
      hselects.grows.scope.baseFilters.trans hw.grows.scope.baseFilters
    rw [hbase]
    exact Sql.closedOption_iff.2 ((Expr.kept_closed _ _).combine hes)

/-- **A naming without collisions gives no alias twice** in the FROM clause of a statement. -/
theorem SelectQuery.nodup_boundNames {t : Table} {q : SelectQuery} (hn : m.naming.Faithful)
    (ht : m.Position t) (hq : SelectQuery.Builds m m.Position (.ofTable t) q)
    (h : q.compile m d = .ok c) : c.query.boundNames.Nodup := by
  have hplaced := hq.placed (SelectQuery.placed_ofTable t)
  obtain ⟨rfl, -, -⟩ := SelectQuery.placed_iff.1 hplaced
  obtain ⟨l, g, hassemble, rfl⟩ := SelectQuery.compile_eq_ok h
  obtain ⟨hgrows, hscoped⟩ := q.scoped_assemble (A := True) (fun _ _ => id)
    (Frame.Scoped.ofTable fun _ => ht) hplaced
    (by simp : ∀ e ∈ (none : Option Expr), e.Scoped m _ _ (_ ++ [])) hassemble
  have hnames : l.scope.baseNames.Nodup := by
    rw [Scope.baseNames, hgrows.scope.baseJoins]
    exact List.nodup_singleton _
  show (l.shaped d).1.boundNames.Nodup
  rw [Level.boundNames_shaped]
  exact (hscoped.frame.layered.scope ⟨⟩).nodup hn hnames

/-- What a query must be like for its count to be right. -/
structure SelectQuery.Countable (m : Model) (q : SelectQuery) : Prop where
  /-- All rows are asked for only if no function multiplies them, or an aggregate gathers them. -/
  plain : q.distinct = some false → q.hasAggregate = false → q.fansOut m = false
  /-- Documents are not compared. -/
  flat : q.isDistinct m = true → ∀ node ∈ q.nodes, node.isNested = false
  /-- Nor is what a related row is ordered by. -/
  orders : q.isDistinct m = true → q.OrdersNarrow m

/-- Where all rows are kept one by one, none is multiplied. -/
theorem SelectQuery.Countable.fansOut {q : SelectQuery} (h : q.Countable m)
    (hdistinct : q.isDistinct m = false) (haggregate : q.hasAggregate = false) :
    ∀ node ∈ q.nodes, node.fansOut m q.root = false := by
  have hnone : q.fansOut m = false := by
    cases hsaid : q.distinct with
    | none => simpa [isDistinct, hsaid, haggregate] using hdistinct
    | some said =>
      cases said with
      | true => simp [isDistinct, hsaid] at hdistinct
      | false => exact h.plain hsaid haggregate
  exact fun node hnode => by simpa using List.any_eq_false.1 hnone node hnode

namespace CompiledQuery

/-- The count is over the FROM clause of the statement without joins that add no row. -/
def CountsFrom (E : Engine D) (db : Database D) (c : CompiledQuery) : Prop :=
  c.count.source = c.query.source ∧ ∃ dropped : List Join,
    c.query.joins = c.count.joins ++ dropped ∧ ∀ j ∈ dropped, ∀ env, j.kind = .left ∧
      (joinFound E db (bindCtes E db (fun _ => []) c.query.ctes) j env).length ≤ 1

/-- The count is over the statement itself, with the same expressions if equal rows are dropped. -/
def CountsResult (c : CompiledQuery) : Prop :=
  ∃ counted, c.count.source = some (.derived counted "counted") ∧
    counted.source = c.query.source ∧ counted.joins = c.query.joins ∧
    counted.distinct = c.query.distinct ∧
    (c.query.distinct = true → c.query.items ≠ [] →
      counted.items.map (·.expr) = c.query.items.map (·.expr))

end CompiledQuery

/-- In the plain case the joins of the select list are left out. -/
theorem Frame.Selects.countsFrom {l : Level} (h : f.Selects m narrow g) (hsafe : g.Safe m)
    (hfilter : ∀ j ∈ f.scope.joins, j.origin = .filter) (hdb : m.OneToOne E db)
    (hcte : ∀ id i, m.naming.tableAlias id ≠ cteName i) (hplain : l.isPlain = true)
    (hscope : l.scope = g.scope) (hctes : c.query.ctes = g.ctes)
    (hsource : c.query.source = some (.table l.scope.source))
    (hjoins : c.query.joins = l.scope.joinsFor false) (hcount : c.count = l.countQuery g.ctes) :
    c.CountsFrom E db := by
  obtain ⟨dropped, hdropped, -, hfrom⟩ := h.exists_dropped
  rw [CompiledQuery.CountsFrom, hcount, Level.countQuery, if_pos hplain, hsource, hjoins, hctes]
  refine ⟨rfl, dropped, ?_, fun j hj env => ?_⟩
  · show l.scope.joinsFor false = l.scope.joinsFor true ++ dropped
    rw [hscope, h.joins.joinsFor_true h.grows.scope.baseJoins hfilter]
    exact hdropped
  · obtain ⟨i, hi, rfl⟩ := hfrom j hj
    exact hsafe.length_joinFound hdb h.keyed.numbered hcte hi env

/-- Otherwise the rows of the statement are counted. -/
theorem Level.countsResult {l : Level} {items : List SelectItem} {ctes : List Sql.Cte}
    (hplain : l.isPlain = false)
    (hitems : l.distinct = true → items.map (·.expr) = l.items.map (·.expr))
    (hsource : c.query.source = some (.table l.scope.source))
    (hjoins : c.query.joins = l.scope.joinsFor false) (hdistinct : c.query.distinct = l.distinct)
    (hselected : c.query.items = items) (hcount : c.count = l.countQuery ctes) :
    c.CountsResult := by
  rw [CompiledQuery.CountsResult, hcount, Level.countQuery, if_neg (by simp [hplain]), hsource,
    hjoins, hdistinct, hselected]
  refine ⟨l.scope.apply (l.base l.countedItems) false, rfl, rfl, rfl, rfl, fun hd hne => ?_⟩
  have hexprs := hitems hd
  have hvalues : l.items ≠ [] := by
    intro hnil
    rw [hnil, List.map_nil, List.map_eq_nil_iff] at hexprs
    exact hne hexprs
  exact (Level.map_expr_countedItems hvalues).trans hexprs.symm

/-- The statement of such a query, up to its order, its window and its form: a select list over the
FROM clause of its level. -/
theorem Level.Reads.exists_statement {q : SelectQuery} {l : Level} {isAggregate : String → Bool}
    (h : l.Reads m d isAggregate q) (hcountable : q.Countable m)
    (hdocuments : ∀ name ∈ d.documentFunctions, isAggregate name = false) :
    ∃ items orderBy top window forJson,
      (l.shaped d).1 = { l.scope.apply (l.base items) false with orderBy, top, window, forJson } ∧
      items.any (·.expr.aggregates isAggregate) = l.items.any (·.expr.aggregates isAggregate) ∧
      (l.distinct = true → items.map (·.expr) = l.items.map (·.expr)) := by
  obtain ⟨items, forJson, hshaped, hflat, haggregates⟩ := l.exists_shaped isAggregate d
  -- Equal rows are dropped only where the values of the level are selected themselves.
  have hnested : l.distinct = true → l.nested = [] := fun hdistinct =>
    h.nested.2 (hcountable.flat (h.distinct ▸ hdistinct))
  have hcovered : l.distinct = true → ∀ o ∈ l.orderBy, items.any (·.expr.eqv o.expr) = true := by
    intro hdistinct o ho
    have hexprs := congrArg (List.any · (·.eqv o.expr)) (hflat (hnested hdistinct))
    simp only [List.any_map, Function.comp_def] at hexprs
    rw [hexprs]
    exact h.covered (hnested hdistinct) (hcountable.orders (h.distinct ▸ hdistinct)) o ho
  obtain ⟨top, window, hquery⟩ := exists_query hcovered
  rw [hquery] at hshaped
  exact ⟨items, l.orderBy, top, window, forJson, hshaped,
    haggregates hdocuments h.keys (h.documents hdocuments), fun hd => hflat (hnested hd)⟩

/-- A value that is not marked as an aggregate has none. -/
theorem Level.Reads.any_aggregates {q : SelectQuery} {l : Level} {isAggregate : String → Bool}
    (h : l.Reads m d isAggregate q) (hmarks : MarksAggregates isAggregate q.nodes)
    (haggregate : l.hasAggregate = false) :
    l.items.any (·.expr.aggregates isAggregate) = false := by
  rw [List.any_eq_false]
  intro i hi
  have hkey : i.grouping ≠ .aggregate := by
    simpa using List.any_eq_false.1 haggregate i hi
  simp [h.items hmarks i hi hkey]

/-- **The count is the number of rows** of the statement without its window, for every countable
query that was built and compiles. It is taken over the FROM clause without joins that add no row,
or over the rows themselves, which are told apart by the same values where equal ones are dropped.
The FROM clause gives no alias twice (as with every naming without collisions,
`SelectQuery.nodup_boundNames`), and what is not marked as an aggregate is none. -/
theorem compile_count_rows {t : Table} {q : SelectQuery} {c : CompiledQuery}
    (hcte : ∀ id i, m.naming.tableAlias id ≠ cteName i) (hm : m.MembersDiffer) (ht : m.Covers t)
    (hq : SelectQuery.Builds m m.Covers (.ofTable t) q) (hcountable : q.Countable m)
    (h : q.compile m d = .ok c) (hnames : c.query.boundNames.Nodup) (hE : E.CountsRows)
    (hmarks : MarksAggregates E.isAggregate q.nodes)
    (hdocuments : ∀ name ∈ d.documentFunctions, E.isAggregate name = false)
    (hdb : m.OneToOne E db) :
    c.count.records E db (fun _ => []) Env.empty =
        [[(some "count", some (E.ofInt ({ c.query with top := none, window := none }.records E db
          (fun _ => []) Env.empty).length))]] ∧
      (c.query.distinct = false ∧ c.CountsFrom E db ∨ c.CountsResult) := by
  have hplaced := hq.placed (SelectQuery.placed_ofTable t)
  have hdirect := hq.direct hm ht (SelectQuery.direct_ofTable t)
  obtain ⟨rfl, -, -⟩ := SelectQuery.placed_iff.1 hplaced
  obtain ⟨l, g, hassemble, rfl⟩ := SelectQuery.compile_eq_ok h
  have hreads : l.Reads m d E.isAggregate q :=
    SelectQuery.reads_assemble (Frame.keyed_ofTable ht) rfl hplaced hassemble
  obtain ⟨items, orderBy, top, window, forJson, hstatement, haggregates, hitems⟩ :=
    hreads.exists_statement hcountable hdocuments
  simp only [hstatement] at hnames ⊢
  rw [show Query.records E db _ _ _ = _ from
    Query.records_reshape { l.scope.apply (l.base items) false with ctes := g.ctes } orderBy none
      none forJson]
  by_cases hplain : l.isPlain = true
  · obtain ⟨hscope, f, hselects, hsafe, hclosed, hfilter, hctes, hsees⟩ :=
      SelectQuery.exists_filter ht hplaced hassemble
    obtain ⟨hdistinct, -, haggregate⟩ := Level.isPlain_iff.1 hplain
    have hfansOut := hcountable.fansOut (hreads.distinct ▸ hdistinct)
      (hreads.hasAggregate ▸ haggregate)
    have hsafe := hselects.safe
      (fun node hnode => ⟨hdirect.nodes node hnode, hfansOut node hnode⟩) hsafe
    have hbound : g.scope.boundNames.Nodup := by
      rw [← hscope, ← l.scope.boundNames_apply (q := l.base items) rfl]
      exact hnames
    have hnone := haggregates.trans (hreads.any_aggregates hmarks haggregate)
    exact ⟨Level.records_countQuery_plain hselects hsafe hclosed hfilter hdb hcte hbound hE hplain
      hscope hctes hsees hnone,
      .inl ⟨hdistinct, hselects.countsFrom hsafe hfilter hdb hcte hplain hscope rfl rfl rfl rfl⟩⟩
  · have hplain : l.isPlain = false := by simpa using hplain
    exact ⟨Level.records_countQuery hE hplain haggregates hitems g.ctes,
      .inr (Level.countsResult hplain hitems rfl rfl rfl rfl rfl)⟩

namespace Shop

variable {q : SelectQuery}

/-- Two orders of one customer. The first has two lines with the tag, the second has none. -/
def sold : Database String
  | _, "orders" => [rowOf [("id", "1"), ("customer_id", "7")],
      rowOf [("id", "2"), ("customer_id", "7")]]
  | _, "customers" => [rowOf [("id", "7"), ("name", "Ada")]]
  | _, "lines" => [orderLine "a" "ink", orderLine "b" "pen"]
  | _, "line_tags" => [rowOf [("line_id", "a"), ("tag_id", "n")],
      rowOf [("line_id", "b"), ("tag_id", "n")]]
  | _, "tags" => [rowOf [("id", "n"), ("label", "new")]]
  | _, _ => []

theorem countsRows_engine : engine.CountsRows where
  isAggregate := rfl
  count n := by
    show some (toString (List.replicate n _).length) = some (toString (n : Int))
    rw [List.length_replicate]
    rfl

/-- A page of the orders with a certain tag, with the names of their customers. -/
def taggedPage : Except QueryError SelectQuery := do
  let q ← (SelectQuery.ofTable orders).select (model plain) ⟨["customer", "name"]⟩
  let q ← q.addFilter (model plain) tagged
  q.withPaging (.page 1 10)

theorem builds_taggedPage {P : Table → Prop} (h : taggedPage = .ok q) :
    SelectQuery.Builds (model plain) P (.ofTable orders) q := by
  obtain ⟨q₁, h₁, h⟩ := bind_eq_ok.1 h
  obtain ⟨q₂, h₂, h₃⟩ := bind_eq_ok.1 h
  exact .paging (.filter (.select (.refl _) h₁) (onTables_tagged P) h₂) h₃

/-- It selects one column, and there is no reason to drop equal rows. -/
theorem taggedPage_eq_ok (h : taggedPage = .ok q) :
    q.nodes = [.column ⟨["customer", "name"]⟩ none] ∧ q.isDistinct (model plain) = false := by
  have hpage : taggedPage.map (fun q => (q.nodes, q.isDistinct (model plain))) =
      .ok ([.column ⟨["customer", "name"]⟩ none], false) := by
    cbv
  rw [h] at hpage
  exact Prod.mk.inj (Except.ok.inj hpage)

theorem countable_taggedPage (h : taggedPage = .ok q) : q.Countable (model plain) := by
  obtain ⟨hnodes, hdistinct⟩ := taggedPage_eq_ok h
  refine ⟨fun _ _ => ?_, fun htrue => ?_, fun htrue => ?_⟩
  · rw [SelectQuery.fansOut, hnodes]
    rfl
  · simp [hdistinct] at htrue
  · simp [hdistinct] at htrue

/-- All orders, each beside the articles on its lines. -/
def lineSkus : Except QueryError SelectQuery := do
  let q ← (SelectQuery.ofTable orders).select (model plain) ⟨["id"]⟩
  let q ← q.addFunction (model plain) "UPPER" [.column ⟨["lines", "sku"]⟩] false false "sku"
  return { q with distinct := some false }

end Shop

/-- One of two orders is counted, and once, although two of its lines have the tag; its customer is
not looked up for that. -/
theorem compile_taggedPage_count_rows :
    ∃ q c, Shop.taggedPage = .ok q ∧ q.compile (Shop.model Shop.plain) .mySql = .ok c ∧
      c.count.records Shop.engine Shop.sold (fun _ => []) Env.empty =
        [[(some "count", some "1")]] ∧
      c.query.joins.length = 2 ∧ c.count.joins.length = 1 := by
  have hcompile : (Shop.taggedPage >>= fun q =>
      (q.compile (Shop.model Shop.plain) .mySql).map fun c =>
        (({ c.query with top := none, window := none }.records Shop.engine Shop.sold (fun _ => [])
          Env.empty).length, c.query.joins.length, c.count.joins.length)) = .ok (1, 2, 1) := by
    cbv
  obtain ⟨q, c, hq, hc, hview⟩ := SelectQuery.exists_compile hcompile
  simp only [Prod.mk.injEq] at hview
  obtain ⟨hrows, hjoins, hcountJoins⟩ := hview
  obtain ⟨hcount, -⟩ := compile_count_rows Shop.faithful_plain.ne_cteName
    (Shop.membersDiffer_model _) (Shop.covers_orders _) (Shop.builds_taggedPage hq)
    (Shop.countable_taggedPage hq) hc
    (SelectQuery.nodup_boundNames Shop.faithful_plain Shop.position_orders
      (Shop.builds_taggedPage hq) hc)
    Shop.countsRows_engine (by simp [MarksAggregates, (Shop.taggedPage_eq_ok hq).1])
    (by decide) (Shop.oneToOne_of_customers _ _ Shop.sold fun _ => Nat.le_refl 1)
  rw [hrows] at hcount
  exact ⟨q, c, hq, hc, hcount, hjoins, hcountJoins⟩

/-- Where all rows are asked for, the lines of an order multiply it, and are not counted. -/
theorem compile_lineSkus_miscounts :
    (Shop.lineSkus >>= fun q => (q.compile (Shop.model Shop.plain) .postgreSql).map fun c =>
      (c.count.records Shop.engine Shop.sold (fun _ => []) Env.empty,
        ({ c.query with top := none, window := none }.records Shop.engine Shop.sold (fun _ => [])
          Env.empty).length)) = .ok ([[(some "count", some "2")]], 3) := by
  cbv

end EntityQuery
