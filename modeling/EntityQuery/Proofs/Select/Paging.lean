import EntityQuery.Proofs.Select.Filtered
import EntityQuery.Proofs.Select.Grouping

/-!
# What a window changes

A page or a limit is a window on the rows of a statement, and a window needs an order. A query that
has an order gets the window and nothing else (`Level.shaped_withPaging`). A query without one is
ordered by its primary key, or by its first column, and this order is more than an ORDER BY: its
column also becomes a value of the row.

**One order** adds one value at most, or one key (`Ordered.OrdersBy`), so what a level is grouped by
can grow by one column. It does so beside an aggregate, unless the column was there
(`OrdersBy.perm_groupColumns`). Aggregates alone are of one group, and with the column beside them
of as many as it has values.

**Rows.** With the same grouping a statement has the same groups of rows
(`Sql.Query.groups_congr`), and its records are those without the window, with one more value at
most (`Sql.Query.cutRecords_eq`).

`compile_withPaging` puts this together, and `compile_ordersCounted_regrouped` is a page that is not
one of the rows without it.
-/

namespace EntityQuery

open Build
open EntityQuery.Sql (Expr Query Column SelectItem OrderItem Dialect Engine Database Ctes Env
  Record)

/-! ## Rows -/

namespace Sql

variable {D : Type} [DecidableEq D] {E : Engine D} {db : Database D} {rows : Ctes D} {env : Env D}

theorem evalAll_eq_iff {group group' : List (Env D)} {env' : Env D} {es : List Expr} :
    evalAll E db rows group env es = evalAll E db rows group' env' es ↔
      ∀ e ∈ es, e.eval E db rows group env = e.eval E db rows group' env' := by
  induction es with
  | nil => simp [evalAll]
  | cons e es ih => simp [evalAll, ih]

theorem evalItems_append (group : List (Env D)) (xs ys : List SelectItem) :
    evalItems E db rows group env (xs ++ ys) =
      evalItems E db rows group env xs ++ evalItems E db rows group env ys := by
  induction xs with
  | nil => simp [evalItems]
  | cons x xs ih =>
    cases x
    simp [evalItems, ih]

theorem length_evalItems (group : List (Env D)) (items : List SelectItem) :
    (evalItems E db rows group env items).length = items.length := by
  induction items with
  | nil => simp [evalItems]
  | cons x items ih =>
    cases x
    simp [evalItems, ih]

/-- Keys that tell the same rows apart make the same groups. -/
theorem groupsBy_congr {key key' : Env D → List (Option D)} {envs : List (Env D)}
    (h : ∀ a ∈ envs, ∀ b ∈ envs, key a = key b ↔ key' a = key' b) :
    groupsBy key envs = groupsBy key' envs := by
  refine map_dedup_map h fun a ha => List.filter_congr fun b hb => ?_
  rw [decide_eq_decide]
  exact h b hb a ha

theorem dedup_map_dedup {α β : Type} [DecidableEq α] [DecidableEq β] (f : α → β) (l : List α) :
    (l.dedup.map f).dedup = (l.map f).dedup := by
  induction l with
  | nil => rfl
  | cons a l ih =>
    by_cases ha : a ∈ l
    · rw [List.dedup_cons_of_mem ha, List.map_cons,
        List.dedup_cons_of_mem (List.mem_map_of_mem ha), ih]
    · rw [List.dedup_cons_of_notMem ha, List.map_cons, List.map_cons]
      by_cases hfa : f a ∈ l.map f
      · rw [List.dedup_cons_of_mem hfa, List.dedup_cons_of_mem (by simpa using hfa), ih]
      · rw [List.dedup_cons_of_notMem hfa, List.dedup_cons_of_notMem (by simpa using hfa), ih]

namespace Query

variable {q q' : Query}

/-- **The same rows in the same groups**, if the grouping is by the same columns. -/
theorem groups_congr (hsource : q'.source = q.source) (hjoins : q'.joins = q.joins)
    (hcondition : q'.condition = q.condition) (hhaving : q'.having = q.having)
    (hgroupBy : q'.groupBy.Perm q.groupBy)
    (hitems : q'.items.any (·.expr.aggregates E.isAggregate) =
      q.items.any (·.expr.aggregates E.isAggregate)) :
    q'.groups E db rows env = q.groups E db rows env := by
  have hkept : q'.kept E db rows env = q.kept E db rows env := by
    rw [kept, kept, hsource, hjoins, hcondition]
  have hempty : q'.groupBy.isEmpty = q.groupBy.isEmpty := by
    rw [Bool.eq_iff_iff, List.isEmpty_iff, List.isEmpty_iff]
    exact ⟨fun h => (h ▸ hgroupBy).symm.eq_nil, fun h => (h ▸ hgroupBy).eq_nil⟩
  have hgroups : groupsBy (fun row => evalAll E db rows [row] row q'.groupBy)
      (q.kept E db rows env) =
        groupsBy (fun row => evalAll E db rows [row] row q.groupBy) (q.kept E db rows env) := by
    refine groupsBy_congr fun a _ b _ => ?_
    rw [evalAll_eq_iff, evalAll_eq_iff]
    simp only [hgroupBy.mem_iff]
  rw [groups, groups, hempty, hkept, hgroups, hhaving, hitems]

/-- The records with their first `n` values only. A query that drops equal records drops those that
became equal. -/
def cutRecords (E : Engine D) (db : Database D) (ctes : Ctes D) (env : Env D) (n : Nat)
    (q : Query) : List (Record D) :=
  let cut := (q.records E db ctes env).map (·.take n)
  if q.distinct then cut.dedup else cut

/-- **A longer select list over the same groups gives longer records.** -/
theorem cutRecords_eq {extra : List SelectItem} (hitems : q'.items = q.items ++ extra)
    (hctes : q'.ctes = q.ctes) (hdistinct : q'.distinct = q.distinct) (hhaving : q.having = none)
    (hhaving' : q'.having = none) (hnames : q'.boundNames = q.boundNames)
    (hgroups : ∀ rows, q'.groups E db rows env = q.groups E db rows env) :
    q'.cutRecords E db rows env q.items.length = q.records E db rows env := by
  have hresults (rows : Ctes D) :
      (q'.results E db rows env).map (·.take q.items.length) = q.results E db rows env := by
    rw [results_of_having hhaving, results_of_having hhaving', hgroups, hnames, List.map_map]
    refine List.map_congr_left fun group _ => ?_
    rw [Function.comp_apply, hitems, evalItems_append]
    exact List.take_left' (length_evalItems group q.items)
  rw [cutRecords, records_eq, records_eq, hctes, hdistinct]
  dsimp only
  split
  · rw [dedup_map_dedup, hresults]
  · exact hresults _

end Query

end Sql

variable {m : Model} {d : Dialect} {f g : Frame}

/-! ## One more order -/

/-- The column of the row that an order reads: the column itself, or the one that the related rows
are tied to. -/
def Resolution.orderColumn (m : Model) (r : Resolution) : Column :=
  ((r.hops.find? (·.fansOut)).map (·.parentColumn)).getD ⟨some (m.aliasOf r.table), r.column.name⟩

theorem Resolution.orderColumn_of_one {r : Resolution} (h : ∀ hop ∈ r.hops, hop.fansOut = false) :
    Expr.column (r.orderColumn m) = m.columnExpr r.table r.column := by
  have hnone : r.hops.find? (·.fansOut) = none := by simpa using h
  rw [orderColumn, hnone]
  rfl

theorem Resolution.orderColumn_of_many {r : Resolution} {before after : List Relationship}
    {many : Relationship} (hhops : r.hops = before ++ many :: after)
    (hmany : many.fansOut = true) (hone : ∀ hop ∈ before, hop.fansOut = false) :
    r.orderColumn m = many.parentColumn := by
  have hnone : before.find? (·.fansOut) = none := by simpa using hone
  rw [orderColumn, hhops, List.find?_append, hnone, Option.none_or, List.find?_cons_of_pos hmany]
  rfl

/-- What an order by the column `k` adds: at most one value, that column, or else a key; and the
value is there afterwards, unless it belongs to a document or is that of related rows. -/
structure Ordered.OrdersBy (k : Column) (nested : List NestedItem) (acc acc' : Ordered) : Prop where
  items : ∃ new, acc'.items = acc.items ++ new ∧ new.length ≤ 1 ∧
    ∀ i ∈ new, i.expr = .column k ∧ i.grouping = .key
  keys : ∃ new, acc'.keys = acc.keys ++ new ∧ ∀ c ∈ new, c = k
  orderBy : ∃ x, acc'.orderBy = acc.orderBy ++ [x] ∧
    (∀ isAggregate, x.expr.aggregates isAggregate = false) ∧
    (nested = [] → acc'.items.any (·.expr.eqv x.expr) = false → acc'.items = acc.items)

theorem Ordered.ordersBy_add {acc acc' : Ordered} {nested : List NestedItem} {o : OrderBy}
    (h : (acc.add m nested o).Gives f acc' g) :
    ∃ r, m.resolve f.scope.root o.path = .ok r ∧ f.scope.Grows g.scope ∧ g.ctes = f.ctes ∧
      acc.OrdersBy (r.orderColumn m) nested acc' ∧
      (r.hops = [] → g = f ∧ (nested.any (o.path.startsWith ·.key) = false →
        ∃ i ∈ acc'.items, i.expr = .column (r.orderColumn m))) := by
  obtain ⟨r, s, hresolve, rfl, ⟨hone, hs, rfl⟩ |
    ⟨before, many, after, q, hhops, hmany, hone, hs, hq, rfl⟩⟩ := gives_add h
  · have hcolumn := Resolution.orderColumn_of_one (m := m) hone
    rw [← hcolumn]
    -- The column is among the values, as one that was there or as the new one.
    have hitem : nested.any (o.path.startsWith ·.key) = false →
        ∃ i ∈ acc.items ++ if !nested.any (o.path.startsWith ·.key) &&
            !acc.items.any (·.expr.eqv (.column (r.orderColumn m))) then
            [⟨.column (r.orderColumn m), m.columnAlias r.table r.column, o.path, .key⟩] else [],
          i.expr = .column (r.orderColumn m) := by
      intro hout
      by_cases hany : acc.items.any (·.expr.eqv (.column (r.orderColumn m))) = true
      · obtain ⟨i, hi, heqv⟩ := List.any_eq_true.1 hany
        exact ⟨i, List.mem_append_left _ hi, eq_of_eqv_column heqv⟩
      · rw [if_pos (by simp [hout, hany])]
        exact ⟨_, List.mem_append_right _ List.mem_cons_self, rfl⟩
    refine ⟨r, hresolve, Scope.grows_joinHops hs, rfl,
      ⟨⟨_, rfl, ?_, fun i hi => ?_⟩, ⟨[], by simp, by simp⟩, ⟨_, rfl, fun _ => rfl, ?_⟩⟩,
      fun hnil => ⟨?_, hitem⟩⟩
    · split <;> simp
    · split at hi
      · rw [List.mem_singleton.1 hi]
        exact ⟨rfl, rfl⟩
      · simp at hi
    · intro hnested hnone
      obtain ⟨i, hi, hexpr⟩ := hitem (by simp [hnested])
      exact absurd hexpr fun hexpr => List.any_eq_false.1 hnone i hi (by simp [hexpr, Expr.eqv])
    · rw [hnil] at hs
      cases hs
      rfl
  · have hcolumn := Resolution.orderColumn_of_many (m := m) hhops hmany hone
    refine ⟨r, hresolve, Scope.grows_joinHops hs, rfl,
      ⟨⟨[], by simp, by simp, by simp⟩, ⟨_, rfl, by simp [hcolumn]⟩,
        ⟨_, rfl, fun _ => rfl, fun _ _ => rfl⟩⟩, fun hnil => ?_⟩
    simp [hnil] at hhops

/-! ## Grouping -/

theorem nodup_eraseDups {α : Type} [BEq α] [LawfulBEq α] (l : List α) : l.eraseDups.Nodup := by
  induction l using List.reverseRecOn with
  | nil => simp
  | append_singleton l a ih =>
    rw [List.eraseDups_append]
    by_cases ha : a ∈ l
    · have hdrop : [a].removeAll l = [] := by simpa [List.removeAll] using ha
      rwa [hdrop, List.eraseDups_nil, List.append_nil]
    · have hkeep : [a].removeAll l = [a] := by simpa [List.removeAll] using ha
      rw [hkeep]
      exact List.concat_eq_append ▸ ih.concat (by rwa [List.mem_eraseDups])

theorem nodup_groupColumns (items : List FlatItem) (keys : List Column) :
    (groupColumns items keys).Nodup := by
  rw [groupColumns]
  split
  · exact nodup_eraseDups _
  · exact List.nodup_nil

/-- There is something to group by only beside an aggregate. -/
theorem exists_of_mem_groupColumns {items : List FlatItem} {keys : List Column} {c : Column}
    (h : c ∈ groupColumns items keys) :
    items.any (·.grouping == .aggregate) = true ∧ ∃ i ∈ items, i.grouping = .key := by
  rw [groupColumns] at h
  split at h
  · rename_i hgrouped
    rw [Bool.and_eq_true] at hgrouped
    exact ⟨hgrouped.1, by simpa using hgrouped.2⟩
  · cases h

namespace Ordered.OrdersBy

variable {k c : Column} {nested : List NestedItem} {acc acc' : Ordered}

theorem any_aggregate (h : acc.OrdersBy k nested acc') :
    acc'.items.any (·.grouping == .aggregate) = acc.items.any (·.grouping == .aggregate) := by
  obtain ⟨new, hitems, -, hnew⟩ := h.items
  have hnone : new.any (·.grouping == .aggregate) = false :=
    List.any_eq_false.2 fun i hi => by simp [(hnew i hi).2]
  rw [hitems, List.any_append, hnone, Bool.or_false]

/-- What was grouped by still is. -/
theorem groupColumns_subset (h : acc.OrdersBy k nested acc') :
    groupColumns acc.items acc.keys ⊆ groupColumns acc'.items acc'.keys := by
  intro c hc
  obtain ⟨haggregate, hkey⟩ := exists_of_mem_groupColumns hc
  obtain ⟨new, hitems, -⟩ := h.items
  obtain ⟨more, hkeys, -⟩ := h.keys
  rw [mem_groupColumns haggregate hkey] at hc
  obtain ⟨i, hi, hikey⟩ := hkey
  rw [mem_groupColumns (h.any_aggregate ▸ haggregate) ⟨i, by simp [hitems, hi], hikey⟩]
  rcases hc with ⟨j, hj, hread⟩ | hc
  · exact .inl ⟨j, by simp [hitems, hj], hread⟩
  · exact .inr (by simp [hkeys, hc])

/-- Where there was a grouping, only the column of the order is new in it. -/
theorem eq_of_mem_groupColumns (h : acc.OrdersBy k nested acc')
    (hne : groupColumns acc.items acc.keys ≠ []) (hc : c ∈ groupColumns acc'.items acc'.keys) :
    c ∈ groupColumns acc.items acc.keys ∨ c = k := by
  obtain ⟨first, hfirst⟩ := List.exists_mem_of_ne_nil _ hne
  obtain ⟨haggregate, hkey⟩ := exists_of_mem_groupColumns hfirst
  obtain ⟨new, hitems, -, hnew⟩ := h.items
  obtain ⟨more, hkeys, hmore⟩ := h.keys
  have hkey' := (exists_of_mem_groupColumns hc).2
  rw [mem_groupColumns (h.any_aggregate ▸ haggregate) hkey'] at hc
  rw [mem_groupColumns haggregate hkey]
  rw [hitems, hkeys, List.mem_append] at hc
  rcases hc with ⟨i, hi, hread⟩ | hc | hc
  · rcases List.mem_append.1 hi with hi | hi
    · exact .inl (.inl ⟨i, hi, hread⟩)
    · rw [(hnew i hi).1] at hread
      exact .inr (List.mem_singleton.1 hread.2)
  · exact .inl (.inr hc)
  · exact .inr (hmore c hc)

/-- **The grouping is the same** without an aggregate, and where it has the column of the order. -/
theorem perm_groupColumns (h : acc.OrdersBy k nested acc')
    (hk : acc.items.any (·.grouping == .aggregate) = false ∨
      k ∈ groupColumns acc.items acc.keys) :
    (groupColumns acc'.items acc'.keys).Perm (groupColumns acc.items acc.keys) := by
  refine (List.perm_ext_iff_of_nodup (nodup_groupColumns _ _) (nodup_groupColumns _ _)).2
    fun c => ⟨fun hc => ?_, fun hc => h.groupColumns_subset hc⟩
  rcases hk with hk | hk
  · have haggregate := (exists_of_mem_groupColumns hc).1
    rw [h.any_aggregate, hk] at haggregate
    cases haggregate
  · rcases h.eq_of_mem_groupColumns (List.ne_nil_of_mem hk) hc with hc | rfl
    · exact hc
    · exact hk

end Ordered.OrdersBy

/-! ## Levels -/

theorem Scope.Grows.prefix_joinsFor {s s' : Scope} (h : s.Grows s') :
    s.joinsFor false <+: s'.joinsFor false := by
  rw [joinsFor_false, joinsFor_false, h.baseJoins]
  exact (List.prefix_append_right_inj _).2 h.joins

/-- A window changes no other clause. -/
theorem Paging.apply_withCtes (w : Paging) (q : Query) (ctes : List Sql.Cte) :
    w.apply { q with ctes } = { w.apply q with ctes } := by
  rcases w with n | ⟨number, size⟩ | ⟨n, _ | offset⟩ <;> rfl

theorem Paging.apply_withForJson (w : Paging) (q : Query) (forJson : Option Sql.ForJson) :
    w.apply { q with forJson } = { w.apply q with forJson } := by
  rcases w with n | ⟨number, size⟩ | ⟨n, _ | offset⟩ <;> rfl

/-- The query selects from the rows of the level. -/
structure Level.Clauses (l : Level) (q : Query) : Prop where
  source : q.source = some (.table l.scope.source)
  joins : q.joins = l.scope.joinsFor false
  condition : q.condition = Expr.combine .and l.conditions
  distinct : q.distinct = l.distinct
  groupBy : q.groupBy = l.groupBy.map .column
  having : q.having = none

namespace Level

variable {l lw : Level} {k : Column}

theorem clauses_query (l : Level) (items : List SelectItem) : l.Clauses (l.query items) := by
  obtain ⟨items', orderBy, top, window, hquery, -⟩ :=
    l.exists_covered (P := fun _ => True) (fun _ => ⟨⟩) (fun x (_ : x ∈ items) => ⟨⟩) fun _ _ => ⟨⟩
  rw [hquery]
  exact ⟨rfl, rfl, rfl, rfl, rfl, rfl⟩

theorem clauses_shaped (l : Level) (d : Dialect) (ctes : List Sql.Cte) :
    l.Clauses { (l.shaped d).1 with ctes } := by
  obtain ⟨items, forJson, hshaped, -⟩ := l.exists_shaped (fun _ => false) d
  have h := l.clauses_query items
  rw [hshaped]
  exact ⟨h.source, h.joins, h.condition, h.distinct, h.groupBy, h.having⟩

theorem items_query (l : Level) (items : List SelectItem) :
    (l.query items).items = if l.distinct then (coverOrder 0 items l.orderBy).1 else items := by
  obtain ⟨covered, hcovered⟩ : ∃ covered, covered =
      if l.distinct then coverOrder 0 items l.orderBy else (items, l.orderBy) := ⟨_, rfl⟩
  obtain ⟨top, window, hpaging⟩ :=
    exists_paging l.paging { l.base covered.1 with orderBy := covered.2 }
  have hitems : (l.query items).items = covered.1 := by
    rw [query, ← hcovered]
    exact congrArg (·.items) (congrArg (l.scope.apply · false) hpaging)
  rw [hitems, hcovered]
  split <;> rfl

/-- The select list of a query is the one that is asked for, with orders at its end. -/
theorem exists_items_query {P : Expr → Prop} (hlabel : ∀ label, P (.column ⟨none, label⟩))
    (horder : ∀ o ∈ l.orderBy, P o.expr) (items : List SelectItem) :
    ∃ added, (l.query items).items = items ++ added ∧ (∀ x ∈ added, P x.expr) ∧
      added.length ≤ l.orderBy.length ∧
      ((∀ o ∈ l.orderBy, items.any (·.expr.eqv o.expr) = true) → added = []) := by
  rw [items_query]
  split
  · obtain ⟨added, hcover, hadded, -, hle, -⟩ := exists_coverOrder hlabel 0 items horder
    refine ⟨added, hcover, hadded, hle, fun hall => ?_⟩
    rw [coverOrder_eq 0 hall] at hcover
    simpa using hcover
  · exact ⟨[], by simp, by simp, by simp, fun _ => rfl⟩

theorem query_withPaging (h : l.paging = none) (w : Paging) (items : List SelectItem) :
    { l with paging := some w }.query items = w.apply (l.query items) := by
  cases l
  cases h
  rcases w with n | ⟨number, size⟩ | ⟨n, _ | offset⟩ <;> rfl

/-- **A window of a level is one of its statement**, whatever the shape of the rows. -/
theorem shaped_withPaging (h : l.paging = none) (w : Paging) (d : Dialect) :
    { l with paging := some w }.shaped d = (w.apply (l.shaped d).1, (l.shaped d).2) := by
  rw [shaped, shaped]
  split
  · rw [query_withPaging h]
  · cases d.jsonFunctions? with
    | some functions =>
      dsimp only
      rw [query_withPaging h]
      rfl
    | none =>
      dsimp only
      rw [query_withPaging h, Paging.apply_withForJson]
      rfl

/-- The select list has an aggregate if the values of the level do. -/
theorem Reads.any_aggregates_shaped {q : SelectQuery} {isAggregate : String → Bool}
    (h : l.Reads m d isAggregate q)
    (hdocuments : ∀ name ∈ d.documentFunctions, isAggregate name = false)
    (horder : ∀ o ∈ l.orderBy, o.expr.aggregates isAggregate = false) :
    (l.shaped d).1.items.any (·.expr.aggregates isAggregate) =
      l.items.any (·.expr.aggregates isAggregate) := by
  obtain ⟨items, forJson, hshaped, -, haggregates⟩ := l.exists_shaped isAggregate d
  obtain ⟨added, hitems, hadded, -⟩ := exists_items_query (l := l)
    (P := fun e => e.aggregates isAggregate = false) (fun _ => rfl) horder items
  have hnone : added.any (·.expr.aggregates isAggregate) = false :=
    List.any_eq_false.2 fun x hx => by simp [hadded x hx]
  rw [hshaped, ← haggregates hdocuments h.keys (h.documents hdocuments)]
  show (l.query items).items.any _ = _
  rw [hitems, List.any_append, hnone, Bool.or_false]

theorem nested_of_shaped_flat {columns : List OutputColumn} (h : (l.shaped d).2 = .flat columns) :
    l.nested = [] := by
  rw [shaped] at h
  split at h
  · rename_i hnested
    simpa using hnested
  · cases hfunctions : d.jsonFunctions? <;> simp [hfunctions] at h

/-- The second level has the rows of the first, up to joins, and the same documents in them. -/
structure Follows (l lw : Level) : Prop where
  scope : l.scope.Grows lw.scope
  conditions : lw.conditions = l.conditions
  nested : lw.nested = l.nested
  distinct : lw.distinct = l.distinct

theorem Follows.clauses {q qw : Query} (h : l.Follows lw) (hq : l.Clauses q)
    (hqw : lw.Clauses qw) : qw.condition = q.condition ∧ qw.distinct = q.distinct ∧
      qw.source = q.source ∧ q.joins <+: qw.joins := by
  rw [hq.condition, hq.distinct, hq.source, hq.joins, hqw.condition, hqw.distinct, hqw.source,
    hqw.joins, h.conditions, h.distinct, h.scope.source]
  exact ⟨rfl, rfl, rfl, h.scope.prefix_joinsFor⟩

/-- The second level is the first with one order, by the column `k`. -/
structure Extends (k : Column) (l lw : Level) : Prop extends l.Follows lw where
  items : ∃ new, lw.items = l.items ++ new ∧ new.length ≤ 1 ∧
    ∀ i ∈ new, i.expr = .column k ∧ i.grouping = .key
  subset : l.groupBy ⊆ lw.groupBy
  new : l.groupBy ≠ [] → ∀ c ∈ lw.groupBy, c ∈ l.groupBy ∨ c = k
  same : l.hasAggregate = false ∨ k ∈ l.groupBy → lw.groupBy.Perm l.groupBy
  unordered : l.orderBy = []
  ordered : ∃ x, lw.orderBy = [x] ∧ (∀ isAggregate, x.expr.aggregates isAggregate = false) ∧
    (l.nested = [] → lw.items.any (·.expr.eqv x.expr) = false → lw.items = l.items)

namespace Extends

theorem any_aggregates (h : l.Extends k lw) (isAggregate : String → Bool) :
    lw.items.any (·.expr.aggregates isAggregate) =
      l.items.any (·.expr.aggregates isAggregate) := by
  obtain ⟨new, hitems, -, hnew⟩ := h.items
  have hnone : new.any (·.expr.aggregates isAggregate) = false :=
    List.any_eq_false.2 fun i hi => by simp [(hnew i hi).1, Expr.aggregates]
  rw [hitems, List.any_append, hnone, Bool.or_false]

/-- A flat select list is longer by one column at most: the value of the order, or the extreme of
related rows. -/
theorem items_shaped (h : l.Extends k lw) (hnested : l.nested = []) :
    ∃ extra, (lw.shaped d).1.items = (l.shaped d).1.items ++ extra ∧ extra.length ≤ 1 := by
  obtain ⟨new, hitems, hlength, -⟩ := h.items
  obtain ⟨x, hx, -, hcovered⟩ := h.ordered
  have hflat (l : Level) (hnested : l.nested = []) :
      ∃ added, (l.shaped d).1.items = l.items.map (fun i => ⟨i.expr, some i.label⟩) ++ added ∧
        added.length ≤ l.orderBy.length ∧
        ((∀ o ∈ l.orderBy, l.items.any (·.expr.eqv o.expr) = true) → added = []) := by
    rw [shaped, if_pos (by simp [hnested])]
    obtain ⟨added, hadded, -, hle, hnone⟩ := exists_items_query (l := l) (P := fun _ => True)
      (fun _ => ⟨⟩) (fun _ _ => ⟨⟩) (l.items.map fun i => ⟨i.expr, some i.label⟩)
    exact ⟨added, hadded, hle, fun hall => hnone (by simpa using hall)⟩
  obtain ⟨added, hadded, hle, -⟩ := hflat l hnested
  obtain ⟨added', hadded', hle', hnone'⟩ := hflat lw (h.nested.trans hnested)
  rw [h.unordered, List.length_nil, Nat.le_zero, List.length_eq_zero_iff] at hle
  rw [hle, List.append_nil] at hadded
  rw [hx] at hle' hnone'
  rw [hadded, hadded', hitems, List.map_append, List.append_assoc]
  refine ⟨_, rfl, ?_⟩
  cases hany : lw.items.any (·.expr.eqv x.expr) with
  | true =>
    rw [hnone' (List.forall_mem_singleton.2 hany), List.append_nil, List.length_map]
    exact hlength
  | false =>
    have hnew : new = [] := by simpa [hitems] using hcovered hnested hany
    simpa [hnew] using hle'

/-- What is grouped by, in the statements. -/
theorem grouping {q qw : Query} (h : l.Extends k lw) (hq : l.Clauses q) (hqw : lw.Clauses qw) :
    q.groupBy ⊆ qw.groupBy ∧
      (q.groupBy ≠ [] → ∀ e ∈ qw.groupBy, e ∈ q.groupBy ∨ e = .column k) ∧
      (l.hasAggregate = false ∨ .column k ∈ q.groupBy → qw.groupBy.Perm q.groupBy) := by
  rw [hq.groupBy, hqw.groupBy]
  refine ⟨List.map_subset _ h.subset, fun hne e he => ?_, fun hk => ?_⟩
  · obtain ⟨c, hc, rfl⟩ := List.mem_map.1 he
    exact (h.new (by simpa using hne) c hc).imp List.mem_map_of_mem (congrArg _)
  · exact (h.same (by simpa using hk)).map _

end Extends

end Level

/-! ## Windows -/

/-- A column of the table itself belongs to no nested document. -/
theorem Model.Unambiguous.startsWith_of_hops {t : Table} {path via : Path} {r : Resolution}
    {route : Route} (hm : m.Unambiguous) (ht : m.Covers t) (h : m.resolve t path = .ok r)
    (hhops : r.hops = []) (hvia : m.resolveRelationship t via = .ok route) :
    path.startsWith via = false := by
  rw [Bool.eq_false_iff]
  intro hstarts
  have hlength := length_hops_resolve h
  have hpos := length_pos_of_resolveRelationship hvia
  rw [hhops, List.length_nil, Path.length] at hlength
  rw [Path.length] at hpos
  rw [Path.startsWith, List.isPrefixOf_iff_prefix] at hstarts
  obtain rfl : via = path := congrArg Path.mk (hstarts.eq_of_length_le (by omega))
  cases (hm.walk?_eq_none ht h).symm.trans (resolveRelationship_eq_ok hvia)

/-- **Assembling a query with a window and without one.** If there is an order, the window is all
that differs. Otherwise one order is added; where it is by a column of the table itself, nothing is
joined for it, and beside an aggregate the rows are grouped by it. -/
theorem SelectQuery.assemble_window {P : Table → Prop} {q : SelectQuery} {w : Paging}
    {correlation : Option Expr} {l lw : Level} {gw : Frame} (hm : m.Unambiguous)
    (ht : m.Covers f.scope.root) (hf : f.Closed m) (hq : q.Placed m P f.scope.root)
    (hpaging : q.paging = none) (hw : w.isWindow = true)
    (h : (q.assemble m d correlation).Gives f l g)
    (hwindow : ({ q with paging := some w }.assemble m d correlation).Gives f lw gw) :
    gw.ctes = g.ctes ∧
      (q.order ≠ [] ∧ l.paging = none ∧ lw = { l with paging := some w } ∨
        q.order = [] ∧ ∃ o r, fallbackOrder f.scope.root = .ok o ∧
          m.resolve f.scope.root o.path = .ok r ∧ l.Extends (r.orderColumn m) lw ∧
          (r.hops = [] → lw.scope = l.scope ∧
            (l.hasAggregate = true → r.orderColumn m ∈ lw.groupBy))) := by
  obtain ⟨-, hnodes, hfilter⟩ := placed_iff.1 hq
  obtain ⟨condition, f₁, parts, f₂, orders, ordered, hcondition, hparts, horders, hordered, -,
    rfl⟩ := gives_assemble h
  obtain ⟨_, _, _, _, orders', ordered', hcondition', hparts', horders', hordered', -, rfl⟩ :=
    gives_assemble hwindow
  obtain ⟨rfl, rfl⟩ := hcondition'.unique hcondition
  obtain ⟨rfl, rfl⟩ := hparts'.unique hparts
  obtain rfl : q.order = orders := by simpa [ordersOf, hpaging] using horders
  rcases ordersOf_window hw horders' with ⟨horder, rfl⟩ | ⟨horder, o, hfallback, rfl⟩
  · obtain ⟨rfl, rfl⟩ := hordered'.unique hordered
    exact ⟨rfl, .inl ⟨horder, hpaging, rfl⟩⟩
  obtain ⟨hgrows₁, hf₁, -⟩ := admission_reads.filter hfilter hf hcondition
  have hroot₁ : f₁.scope.root = f.scope.root := hgrows₁.scope.root
  rw [← placedAll_iff, ← hroot₁] at hnodes
  obtain ⟨hgrows₂, -, hgroups⟩ := groups_assembleAll q.nodes hf₁ hnodes hparts
  rw [horder, List.foldlM_nil, gives_pure] at hordered
  obtain ⟨rfl, rfl⟩ := hordered
  rw [List.foldlM_cons, gives_bind] at hordered'
  obtain ⟨_, _, hadd, hnil⟩ := hordered'
  obtain ⟨rfl, rfl⟩ := gives_pure.1 hnil
  obtain ⟨r, hresolve, hgrows, hctes, horders, hplain⟩ := Ordered.ordersBy_add hadd
  rw [hgrows₂.scope.root, hroot₁] at hresolve
  refine ⟨hctes, .inr ⟨horder, o, r, hfallback, hresolve, ?_, fun hhops => ?_⟩⟩
  · obtain ⟨x, hx, hscalar, hcovered⟩ := horders.orderBy
    refine ⟨⟨hgrows, ?_, rfl, ?_⟩, horders.items, horders.groupColumns_subset,
      fun hne c hc => horders.eq_of_mem_groupColumns hne hc, horders.perm_groupColumns, rfl,
      x, hx, hscalar, hcovered⟩
    · rw [hgrows.baseFilters]
    · rw [horders.any_aggregate]
  · obtain ⟨hsame, hitem⟩ := hplain hhops
    refine ⟨congrArg (·.scope) hsame, fun haggregate => ?_⟩
    obtain ⟨i, hi, hexpr⟩ := hitem (List.any_eq_false.2 fun n hn => by
      obtain ⟨route, hroute⟩ := routes_assembleAll hparts n hn
      simp [hm.startsWith_of_hops ht hresolve hhops (hroot₁ ▸ hroute)])
    obtain ⟨new, hitems, -, hnew⟩ := horders.items
    have hkey : i.grouping = .key := by
      rw [hitems] at hi
      rcases List.mem_append.1 hi with hi | hi
      · exact (hgroups.items i hi).key_of_column hexpr
      · exact (hnew i hi).2
    refine (mem_groupColumns (horders.any_aggregate.trans haggregate) ⟨i, hi, hkey⟩).2 (.inl ?_)
    exact ⟨i, hi, hkey, by simp [hexpr, Expr.columnsRead]⟩

/-! ## Statements -/

theorem SelectQuery.level_eq_ok {q : SelectQuery} {l : Level}
    (h : (q.assemble m d none).Gives ⟨.ofTable m q.root, []⟩ l g) : q.level m d = .ok l := by
  rw [Gives] at h
  rw [level, h]

/-- The clauses that a window leaves. -/
structure CompiledQuery.KeepsClauses (c cw : CompiledQuery) : Prop where
  ctes : cw.query.ctes = c.query.ctes
  condition : cw.query.condition = c.query.condition
  distinct : cw.query.distinct = c.query.distinct
  source : cw.query.source = c.query.source
  joins : c.query.joins <+: cw.query.joins

/-- What the order of a window changes where there was none. It is by the primary key or the first
column of the table, which is the column `k` of the statement. -/
structure SelectQuery.FallsBack (m : Model) (d : Dialect) (t : Table) (q qw : SelectQuery)
    (c cw : CompiledQuery) (column : EntityColumn) (k : Column) : Prop where
  chosen : t.primaryKey?.or t.entity.columns.head? = some column
  found : ∃ r, m.resolve t (Path.parse column.member) = .ok r ∧ r.orderColumn m = k
  /-- The column becomes a value, if it was none. -/
  values : ∃ l lw, q.level m d = .ok l ∧ qw.level m d = .ok lw ∧ lw.nested = l.nested ∧
    ∃ new, lw.items = l.items ++ new ∧ new.length ≤ 1 ∧ ∀ i ∈ new, i.expr = .column k
  subset : c.query.groupBy ⊆ cw.query.groupBy
  new : c.query.groupBy ≠ [] → ∀ e ∈ cw.query.groupBy, e ∈ c.query.groupBy ∨ e = .column k
  same : q.hasAggregate = false ∨ .column k ∈ c.query.groupBy →
    cw.query.groupBy.Perm c.query.groupBy
  /-- A column of the table itself. -/
  own : Path.parse column.member = ⟨[column.member]⟩ → cw.query.joins = c.query.joins ∧
    (cw.query.groupBy.Perm c.query.groupBy → q.hasAggregate = false ∨ .column k ∈ c.query.groupBy)

/-- The window is over the same rows, and where they are flat they have one more value at most. -/
structure CompiledQuery.SameRows {D : Type} [DecidableEq D] (E : Engine D) (db : Database D)
    (rows : Ctes D) (env : Env D) (c cw : CompiledQuery) : Prop where
  groups : cw.query.groups E db rows env = c.query.groups E db rows env
  length : ∀ columns, c.shape = .flat columns →
    cw.query.items.length ≤ c.query.items.length + 1
  records : ∀ columns, c.shape = .flat columns →
    cw.query.cutRecords E db rows env c.query.items.length = c.query.records E db rows env

/-- **What a window changes**, for every query that compiles with it and without it. The CTEs, the
condition, DISTINCT and the FROM clause stay. A query with an order gets the window and nothing
else. A query without one is ordered by its primary key or first column, which becomes a value of
its rows: so beside an aggregate the rows are grouped by it too, and the grouping is the same only
if there is no aggregate or the column was in it. With the same grouping the window is over the
same rows, and they have one more value at most. -/
theorem compile_withPaging {D : Type} [DecidableEq D] {naming : Naming} {schema : Option String}
    {all : List EntityDecl} {t : Table} {q qw : SelectQuery} {w : Paging} {c cw : CompiledQuery}
    (hm : Model.build naming schema all = .ok m) (ht : m.Covers t)
    (hq : SelectQuery.Builds m m.Covers (.ofTable t) q) (hpaging : q.paging = none)
    (hw : w.isWindow = true) (hqw : q.withPaging w = .ok qw) (hc : q.compile m d = .ok c)
    (hcw : qw.compile m d = .ok cw) :
    c.KeepsClauses cw ∧
    (q.order ≠ [] → cw.query = w.apply c.query ∧ cw.count = c.count ∧ cw.shape = c.shape) ∧
    (q.order = [] → ∃ column k, q.FallsBack m d t qw c cw column k) ∧
    (cw.query.joins = c.query.joins → cw.query.groupBy.Perm c.query.groupBy →
      ∀ E : Engine D, (∀ name ∈ d.documentFunctions, E.isAggregate name = false) →
      ∀ (db : Database D) (rows : Ctes D) (env : Env D), c.SameRows E db rows env cw) := by
  have hplaced := hq.placed (SelectQuery.placed_ofTable t)
  have hplacedw := (hq.paging hqw).placed (SelectQuery.placed_ofTable t)
  obtain ⟨rfl, -, -⟩ := SelectQuery.placed_iff.1 hplaced
  obtain rfl := SelectQuery.withPaging_eq_ok hqw
  obtain ⟨l, g, hassemble, hc⟩ := SelectQuery.compile_eq_ok hc
  obtain ⟨lw, gw, hassemblew, hcw⟩ := SelectQuery.compile_eq_ok hcw
  have hl : l.Clauses c.query := hc ▸ l.clauses_shaped d g.ctes
  have hlw : lw.Clauses cw.query := hcw ▸ lw.clauses_shaped d gw.ctes
  have hreads (isAggregate : String → Bool) : l.Reads m d isAggregate q :=
    SelectQuery.reads_assemble (Frame.keyed_ofTable ht) rfl hplaced hassemble
  have hreadsw (isAggregate : String → Bool) :
      lw.Reads m d isAggregate { q with paging := some w } :=
    SelectQuery.reads_assemble (Frame.keyed_ofTable ht) rfl hplacedw hassemblew
  have haggregate := (hreads fun _ => false).hasAggregate
  obtain ⟨hframe, hcases⟩ := SelectQuery.assemble_window (Model.unambiguous_build hm) ht
    (Frame.closed_ofTable Sql.closedCtes_nil) hplaced hpaging hw hassemble hassemblew
  have hctes : cw.query.ctes = c.query.ctes := by
    rw [hc, hcw]
    exact hframe
  -- In both cases the select list is the other one, or the other one with the order.
  have hsame : l.Follows lw ∧
      (∀ isAggregate, (∀ name ∈ d.documentFunctions, isAggregate name = false) →
        cw.query.items.any (·.expr.aggregates isAggregate) =
          c.query.items.any (·.expr.aggregates isAggregate)) ∧
      (l.nested = [] → ∃ extra, cw.query.items = c.query.items ++ extra ∧ extra.length ≤ 1) := by
    rw [hc, hcw]
    rcases hcases with ⟨-, hnone, rfl⟩ | ⟨-, o, r, -, -, hext, -⟩
    · have hitems : ({ l with paging := some w }.shaped d).1.items = (l.shaped d).1.items := by
        obtain ⟨top, window, hwindow⟩ := Level.exists_paging (some w) (l.shaped d).1
        rw [Level.shaped_withPaging hnone]
        exact congrArg (·.items) hwindow
      exact ⟨⟨.refl _, rfl, rfl, rfl⟩, fun _ _ => by simp only [hitems],
        fun _ => ⟨[], by simp [hitems]⟩⟩
    · obtain ⟨x, hx, hscalar, -⟩ := hext.ordered
      refine ⟨hext.toFollows, fun isAggregate hdocuments => ?_, hext.items_shaped⟩
      dsimp only
      rw [(hreadsw isAggregate).any_aggregates_shaped hdocuments (by simp [hx, hscalar]),
        (hreads isAggregate).any_aggregates_shaped hdocuments (by simp [hext.unordered]),
        hext.any_aggregates]
  obtain ⟨hfollows, hany, hextra⟩ := hsame
  obtain ⟨hcondition, hdistinct, hsource, hjoins⟩ := hfollows.clauses hl hlw
  refine ⟨⟨hctes, hcondition, hdistinct, hsource, hjoins⟩, fun horder => ?_, fun horder => ?_,
    fun hjoins hgroup E hdocuments db rows env => ?_⟩
  · rcases hcases with ⟨-, hnone, rfl⟩ | ⟨hnil, -⟩
    · rw [hc, hcw, hframe, Level.shaped_withPaging hnone]
      exact ⟨(w.apply_withCtes _ _).symm, rfl, rfl⟩
    · exact absurd hnil horder
  · rcases hcases with ⟨hne, -⟩ | ⟨-, o, r, hfallback, hresolve, hext, hplain⟩
    · exact absurd horder hne
    · obtain ⟨column, hcolumn, hpath⟩ := fallbackOrder_eq_ok hfallback
      rw [hpath] at hresolve
      obtain ⟨new, hitems, hlength, hnew⟩ := hext.items
      obtain ⟨hsubset, hgrouped, hsame⟩ := hext.grouping hl hlw
      rw [haggregate] at hsame
      refine ⟨column, r.orderColumn m, hcolumn, ⟨r, hresolve, rfl⟩,
        ⟨l, lw, SelectQuery.level_eq_ok hassemble, SelectQuery.level_eq_ok hassemblew, hext.nested,
          new, hitems, hlength, fun i hi => (hnew i hi).1⟩,
        hsubset, hgrouped, hsame, fun hmember => ?_⟩
      have hhops := Model.length_hops_resolve hresolve
      rw [hmember, Path.length, List.length_singleton, Nat.add_eq_right,
        List.length_eq_zero_iff] at hhops
      obtain ⟨hscope, hkey⟩ := hplain hhops
      refine ⟨by rw [hlw.joins, hl.joins, hscope], fun hperm => ?_⟩
      cases htrue : q.hasAggregate with
      | false => exact .inl rfl
      | true =>
        refine .inr (hperm.subset ?_)
        rw [hlw.groupBy]
        exact List.mem_map_of_mem (hkey (haggregate.trans htrue))
  · have hgroups (rows : Ctes D) : cw.query.groups E db rows env = c.query.groups E db rows env :=
      Query.groups_congr hsource hjoins hcondition (hlw.having.trans hl.having.symm) hgroup
        (hany E.isAggregate hdocuments)
    have hflat {columns} (hshape : c.shape = .flat columns) :
        ∃ extra, cw.query.items = c.query.items ++ extra ∧ extra.length ≤ 1 := by
      rw [hc] at hshape
      exact hextra (Level.nested_of_shaped_flat hshape)
    refine ⟨hgroups rows, fun columns hshape => ?_, fun columns hshape => ?_⟩
    · obtain ⟨extra, hitems, hlength⟩ := hflat hshape
      rw [hitems, List.length_append]
      omega
    · obtain ⟨extra, hitems, hlength⟩ := hflat hshape
      refine Query.cutRecords_eq hitems hctes hdistinct hl.having hlw.having ?_ hgroups
      rw [Query.boundNames, Query.boundNames, hsource, hjoins]

/-- Names that are counted beside the lines of the orders are grouped by the keys of the orders, for
the lines are tied to them. So a page is over the same groups. -/
theorem compile_namesCounted_withPaging :
    ∃ q qw c cw, Shop.namesCounted = .ok q ∧ q.withPaging (.page 1 10) = .ok qw ∧
      q.compile (Shop.model Shop.plain) .postgreSql = .ok c ∧
      qw.compile (Shop.model Shop.plain) .postgreSql = .ok cw ∧
      Expr.column Shop.orderKey ∈ c.query.groupBy ∧ cw.query.groupBy.Perm c.query.groupBy ∧
      cw.query.groups Shop.engine Shop.sold (fun _ => []) Env.empty =
        c.query.groups Shop.engine Shop.sold (fun _ => []) Env.empty := by
  have hview : (Shop.namesCounted >>= fun q => q.withPaging (.page 1 10) >>= fun qw =>
      q.compile (Shop.model Shop.plain) .postgreSql >>= fun c =>
        qw.compile (Shop.model Shop.plain) .postgreSql >>= fun cw =>
          pure (q.paging.isNone, q.order.isEmpty, c.query.groupBy.tail)) =
        .ok (true, true, [.column Shop.orderKey]) := by
    cbv
  obtain ⟨q, hq, hview⟩ := bind_eq_ok.1 hview
  obtain ⟨qw, hqw, hview⟩ := bind_eq_ok.1 hview
  obtain ⟨c, hc, hview⟩ := bind_eq_ok.1 hview
  obtain ⟨cw, hcw, hview⟩ := bind_eq_ok.1 hview
  simp only [pure_eq_ok, Prod.mk.injEq] at hview
  obtain ⟨hpaging, horder, hgroup⟩ := hview
  obtain ⟨-, -, hfallback, hrows⟩ := compile_withPaging (D := String)
    (Shop.build_declarations Shop.plain) (Shop.covers_orders Shop.plain)
    (Shop.builds_namesCounted hq) (by simpa using hpaging.symm) rfl hqw hc hcw
  obtain ⟨column, k, hfalls⟩ := hfallback (by simpa using horder.symm)
  have hcolumn := hfalls.chosen
  obtain ⟨r, hresolve, rfl⟩ := hfalls.found
  have hparse : Path.parse column.member = ⟨[column.member]⟩ := by
    cases hcolumn
    decide
  have hkey : r.orderColumn (Shop.model Shop.plain) = Shop.orderKey := by
    rw [hparse] at hresolve
    cases hcolumn
    cases hresolve
    rfl
  have hmem : Expr.column Shop.orderKey ∈ c.query.groupBy :=
    List.mem_of_mem_tail (by simp [← hgroup])
  have hperm := hfalls.same (.inr (hkey ▸ hmem))
  obtain ⟨hjoins, -⟩ := hfalls.own hparse
  exact ⟨q, qw, c, cw, hq, hqw, hc, hcw, hmem, hperm,
    (hrows hjoins hperm Shop.engine (by decide) Shop.sold (fun _ => []) Env.empty).groups⟩

/-- All orders, counted. -/
def Shop.ordersCounted : Except QueryError SelectQuery :=
  (SelectQuery.ofTable Shop.orders).addFunction (Shop.model Shop.plain) "COUNT" [.star] false true
    "n"

/-- **A page of a single number** is one of as many numbers as there are rows: the key that orders
it is grouped by. -/
theorem compile_ordersCounted_regrouped :
    (Shop.ordersCounted >>= fun q => q.withPaging (.page 1 10) >>= fun qw =>
      q.compile (Shop.model Shop.plain) .postgreSql >>= fun c =>
        qw.compile (Shop.model Shop.plain) .postgreSql >>= fun cw =>
          pure (c.query.groupBy, cw.query.groupBy,
            c.query.records Shop.engine Shop.sold (fun _ => []) Env.empty,
            (cw.query.records Shop.engine Shop.sold (fun _ => []) Env.empty).map (·.take 1))) =
      .ok ([], [.column Shop.orderKey], [[(some "n", some "2")]],
        [[(some "n", some "1")], [(some "n", some "1")]]) := by
  cbv

end EntityQuery
