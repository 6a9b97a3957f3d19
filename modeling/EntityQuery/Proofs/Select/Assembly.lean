import EntityQuery.Proofs.Predicate.Writing
import EntityQuery.Select.Assembly
import Mathlib.Data.List.TakeDrop
import Mathlib.Data.List.TakeWhile

/-!
# Steps of an assembly

What each step of an assembly does to the frame and what it leaves: the kinds of nodes, an order,
and a whole query. Results about assembled selections are proved from these and do not open the
definitions again.
-/

namespace EntityQuery

open Build
open EntityQuery.Sql (Expr Dialect)

variable {m : Model} {d : Dialect} {f g : Frame}

/-! ## Values -/

theorem gives_joinSelected {path : Path} {r : Resolution}
    (h : (joinSelected m path).Gives f r g) :
    m.resolve f.scope.root path = .ok r ∧
      ∃ s, f.scope.joinHops r.hops .select = .ok s ∧ g = ⟨s, f.ctes⟩ := by
  simp only [joinSelected, gives_bind, gives_root, gives_lift, gives_join, gives_pure] at h
  obtain ⟨_, _, ⟨rfl, rfl⟩, r', _, ⟨hresolve, rfl⟩, _, _, ⟨s, hs, rfl⟩, rfl, rfl⟩ := h
  exact ⟨hresolve, s, hs, rfl⟩

theorem gives_assembleBranch {branch : Predicate × Value} {x : Expr × Expr}
    (h : (assembleBranch m branch).Gives f x g) :
    ∃ e, (branch.1.compile m .select).Gives f e g ∧
      x = (e.getD (.eq (.int 1) (.int 1)), .param branch.2 none) := by
  simp only [assembleBranch, gives_bind, gives_pure] at h
  obtain ⟨e, _, he, rfl, rfl⟩ := h
  exact ⟨e, he, rfl⟩

/-! ## Nodes -/

section

variable {parts : Parts} {label : String}

theorem gives_assemble_column {path : Path} {label : Option String}
    (h : ((SelectNode.column path label).assemble m d).Gives f parts g) :
    ∃ r, (joinSelected m path).Gives f r g ∧
      parts = .ofItem ⟨m.columnExpr r.table r.column,
        label.getD (m.columnAlias r.table r.column), (label.map Path.parse).getD path, .key⟩ := by
  simp only [SelectNode.assemble, gives_bind, gives_pure] at h
  obtain ⟨r, _, hr, rfl, rfl⟩ := h
  exact ⟨r, hr, rfl⟩

theorem gives_assemble_function {name : String} {args : List FunctionArg}
    {distinct aggregate : Bool}
    (h : ((SelectNode.function name args distinct aggregate label).assemble m d).Gives f parts g) :
    (distinct = true → 1 < args.length → d.hasWideDistinct = true) ∧
      ∃ values : List (Expr × Bool), (args.mapM (FunctionArg.assemble m)).Gives f values g ∧
        parts = { Parts.ofItem ⟨.call name (values.map (·.1)) distinct, label, Path.parse label,
          if aggregate then .aggregate else .key⟩ with fansOut := values.any (·.2) } := by
  rw [SelectNode.assemble] at h
  split at h
  · exact absurd h not_gives_throw
  · rename_i hwide
    simp only [gives_bind, gives_pure] at h
    obtain ⟨values, _, hvalues, rfl, rfl⟩ := h
    exact ⟨by simpa using hwide, values, hvalues, rfl⟩

theorem gives_assemble_case {branches : List (Predicate × Value)} {otherwise : Option Value}
    (h : ((SelectNode.case branches otherwise label).assemble m d).Gives f parts g) :
    ∃ written, (branches.mapM (assembleBranch m)).Gives f written g ∧
      parts = .ofItem ⟨.case written (otherwise.map (.param · none)), label, Path.parse label,
        .key⟩ := by
  simp only [SelectNode.assemble, gives_bind, gives_pure] at h
  obtain ⟨written, _, hwritten, rfl, rfl⟩ := h
  exact ⟨written, hwritten, rfl⟩

/-- A nested query is assembled in a scope of its own. -/
theorem gives_assemble_nested {path : Path} {r : Relationship} {query : SelectQuery}
    (h : ((SelectNode.nested path r query).assemble m d).Gives f parts g) :
    ∃ route s level inner, m.resolveRelationship f.scope.root path = .ok route ∧
      f.scope.joinHops route.before .select = .ok s ∧
      (query.assemble m d (some r.correlation)).Gives ⟨.ofRelationship r, f.ctes⟩ level inner ∧
      g = ⟨s, inner.ctes⟩ ∧
      parts = { Parts.empty with
        nested := [⟨path, level.nestedExpr (!r.fansOut) d⟩]
        keys := [r.parentColumn] } := by
  simp only [SelectNode.assemble, gives_bind, gives_root, gives_lift, gives_join, gives_pure] at h
  obtain ⟨_, _, ⟨rfl, rfl⟩, route, _, ⟨hroute, rfl⟩, _, _, ⟨s, hs, rfl⟩, ⟨level, scope⟩, _,
    hwithin, rfl, rfl⟩ := h
  obtain ⟨ctes, hassemble, rfl⟩ := gives_within.1 hwithin
  exact ⟨route, s, level, ⟨scope, ctes⟩, hroute, hs, hassemble, rfl, rfl⟩

theorem gives_assembleAll_cons {node : SelectNode} {nodes : List SelectNode}
    (h : (assembleAll m d (node :: nodes)).Gives f parts g) :
    ∃ part f₁ rest, (node.assemble m d).Gives f part f₁ ∧
      (assembleAll m d nodes).Gives f₁ rest g ∧ parts = part ++ rest := by
  simp only [assembleAll, gives_bind, gives_pure] at h
  obtain ⟨part, f₁, hpart, rest, _, hrest, rfl, rfl⟩ := h
  exact ⟨part, f₁, rest, hpart, hrest, rfl⟩

end

/-! ## Order -/

theorem fallbackOrder_eq_ok {t : Table} {o : OrderBy} (h : fallbackOrder t = .ok o) :
    ∃ column, t.primaryKey?.or t.entity.columns.head? = some column ∧
      o.path = Path.parse column.member := by
  rw [fallbackOrder] at h
  split at h
  · rename_i column hcolumn
    cases h
    exact ⟨column, hcolumn, rfl⟩
  · cases h

/-- The order of a window. -/
theorem ordersOf_window {t : Table} {order orders : List OrderBy} {w : Paging}
    (hw : w.isWindow = true) (h : ordersOf t order (some w) = .ok orders) :
    order ≠ [] ∧ orders = order ∨ order = [] ∧ ∃ o, fallbackOrder t = .ok o ∧ orders = [o] := by
  rw [ordersOf, Option.any_some, hw, Bool.and_true] at h
  split at h
  · rename_i hempty
    refine .inr ⟨by simpa using hempty, ?_⟩
    obtain ⟨o, ho, rfl⟩ := map_eq_ok.1 h
    exact ⟨o, ho, rfl⟩
  · rename_i hempty
    cases h
    exact .inl ⟨by simpa using hempty, rfl⟩

/-- A path fans out nowhere, or is parted at the first relationship that does. -/
theorem Resolution.splitMany?_cases (r : Resolution) :
    (r.splitMany? = none ∧ ∀ hop ∈ r.hops, hop.fansOut = false) ∨
      ∃ before many after, r.splitMany? = some (before, many, after) ∧
        r.hops = before ++ many :: after ∧ many.fansOut = true ∧
        ∀ hop ∈ before, hop.fansOut = false := by
  have hbefore : ∀ hop ∈ r.hops.takeWhile (!·.fansOut), hop.fansOut = false := by
    intro hop hhop
    simpa using List.mem_takeWhile_imp hhop
  have hhops := List.takeWhile_append_dropWhile (p := (!·.fansOut)) (l := r.hops)
  rw [splitMany?, List.span_eq_takeWhile_dropWhile]
  cases hdrop : r.hops.dropWhile (!·.fansOut) with
  | nil =>
    rw [hdrop, List.append_nil] at hhops
    exact .inl ⟨rfl, hhops ▸ hbefore⟩
  | cons many after =>
    rw [hdrop] at hhops
    have hne : r.hops.dropWhile (!·.fansOut) ≠ [] := by simp [hdrop]
    have hmany := List.head_dropWhile_not (fun hop : Relationship => !hop.fansOut) hne
    simp only [hdrop, List.head_cons, Bool.not_eq_false'] at hmany
    exact .inr ⟨_, many, after, rfl, hhops.symm, hmany, hbefore⟩

/-- **One order**: by a column, selected with the others unless it is already, or by the extreme of
the related rows. -/
theorem Ordered.gives_add {acc acc' : Ordered} {nested : List NestedItem} {o : OrderBy}
    (h : (acc.add m nested o).Gives f acc' g) :
    ∃ r s, m.resolve f.scope.root o.path = .ok r ∧ g = ⟨s, f.ctes⟩ ∧
      (((∀ hop ∈ r.hops, hop.fansOut = false) ∧ f.scope.joinHops r.hops .select = .ok s ∧
          acc' = { acc with
            items := acc.items ++
              if !nested.any (o.path.startsWith ·.key) &&
                !acc.items.any (·.expr.eqv (m.columnExpr r.table r.column)) then
                [⟨m.columnExpr r.table r.column, m.columnAlias r.table r.column, o.path, .key⟩]
              else []
            orderBy := acc.orderBy ++ [⟨m.columnExpr r.table r.column, o.dir⟩] }) ∨
        ∃ before many after q, r.hops = before ++ many :: after ∧ many.fansOut = true ∧
          (∀ hop ∈ before, hop.fansOut = false) ∧ f.scope.joinHops before .select = .ok s ∧
          extremeQuery m many after r o.dir = .ok q ∧
          acc' = { acc with
            keys := acc.keys ++ [many.parentColumn]
            orderBy := acc.orderBy ++ [⟨.subquery q, o.dir⟩] }) := by
  simp only [Ordered.add, gives_bind, gives_root, gives_lift] at h
  obtain ⟨_, _, ⟨rfl, rfl⟩, r, _, ⟨hresolve, rfl⟩, h⟩ := h
  rcases r.splitMany?_cases with ⟨hsplit, hone⟩ | ⟨before, many, after, hsplit, hhops, hmany, hone⟩
  · simp only [hsplit, gives_bind, gives_join, gives_pure] at h
    obtain ⟨_, _, ⟨s, hs, rfl⟩, rfl, rfl⟩ := h
    exact ⟨r, s, hresolve, rfl, .inl ⟨hone, hs, rfl⟩⟩
  · simp only [hsplit, gives_bind, gives_join, gives_lift, gives_pure] at h
    obtain ⟨_, _, ⟨s, hs, rfl⟩, q, _, ⟨hq, rfl⟩, rfl, rfl⟩ := h
    exact ⟨r, s, hresolve, rfl, .inr ⟨before, many, after, q, hhops, hmany, hone, hs, hq, rfl⟩⟩

/-! ## Queries -/

/-- **The steps of an assembly**, and the level that it gives. -/
theorem SelectQuery.gives_assemble {q : SelectQuery} {correlation : Option Expr} {l : Level}
    (h : (q.assemble m d correlation).Gives f l g) :
    ∃ condition f₁ parts f₂ orders ordered,
      (compileFilter m q.filter).Gives f condition f₁ ∧
      (assembleAll m d q.nodes).Gives f₁ parts f₂ ∧
      ordersOf f.scope.root q.order q.paging = .ok orders ∧
      (orders.foldlM (Ordered.add m parts.nested) ⟨parts.items, parts.keys, []⟩).Gives f₂ ordered
        g ∧
      (parts.nested ≠ [] → checkKeys ordered.items parts.nested = .ok ()) ∧
      l = {
        scope := g.scope
        conditions := g.scope.baseFilters ++ correlation.toList ++ condition.toList
        items := ordered.items
        nested := parts.nested
        groupBy := groupColumns ordered.items ordered.keys
        orderBy := ordered.orderBy
        paging := q.paging
        distinct := q.distinct.getD
          (parts.fansOut && !ordered.items.any (·.grouping == .aggregate))
        filterCtes := f₁.ctes.length } := by
  cases q with
  | mk root nodes filter order paging distinct eagerDepth ancestors =>
    simp only [SelectQuery.assemble, gives_bind, gives_root, gives_get, gives_lift, gives_pure] at h
    obtain ⟨_, _, ⟨rfl, rfl⟩, condition, _, hcondition, _, _, ⟨rfl, rfl⟩, parts, _, hparts,
      orders, _, ⟨horders, rfl⟩, ordered, _, hordered, _, _, ⟨hkeys, rfl⟩, _, _, ⟨rfl, rfl⟩, rfl,
      rfl⟩ := h
    refine ⟨condition, _, parts, _, orders, ordered, hcondition, hparts, horders, hordered,
      fun hnested => ?_, rfl⟩
    rwa [if_pos (by simp [hnested])] at hkeys

end EntityQuery
