import EntityQuery.Proofs.Predicate.FanOut
import EntityQuery.Proofs.Scope.Origins
import EntityQuery.Proofs.Select.Assembly
import EntityQuery.Proofs.Select.Direct

/-!
# What a select list joins

The filter of a query is written first. What is assembled afterwards, values and orders, only adds
joins that are marked as those of the select list, behind the joins of the filter.

**Steps.** `Selecting m t narrow act` says so of a computation in a scope with the root `t`: the
joins of the scope stay, those that follow have the mark of the select list, and the CTEs stay
numbered and those of filters. If nothing that is read fans out (`narrow`), the joins are of the
kind that filters have (`FilterJoin`), which add no row. An order never fans out: where its path
does, the order is a subquery.

**Runs.** By induction over nodes and queries (`SelectNode.selecting_assemble`). A nested query runs
in a scope of its own, so it adds nothing but CTEs.
-/

namespace EntityQuery

open Build
open EntityQuery.Sql (Expr Dialect)

variable {m : Model} {d : Dialect} {f g : Frame} {t : Table} {α β : Type}

/-- The CTEs are numbered, and those of filters. -/
structure Frame.Keyed (m : Model) (f : Frame) : Prop where
  root : m.Covers f.scope.root
  ctes : SafeCtes m f.ctes
  numbered : Numbered f.ctes

theorem Frame.keyed_ofTable (ht : m.Covers t) : (Frame.mk (.ofTable m t) []).Keyed m :=
  ⟨ht, by simp [SafeCtes], numbered_nil⟩

/-- From `f` to `g` only joins of the select list are added. -/
structure Frame.Selects (m : Model) (narrow : Prop) (f g : Frame) : Prop where
  grows : f.Grows g
  joins : f.scope.Extends .select g.scope
  keyed : g.Keyed m
  safe : narrow → f.Safe m → g.Safe m

theorem Frame.Selects.imp {p q : Prop} (h : f.Selects m p g) (hqp : q → p) : f.Selects m q g :=
  ⟨h.grows, h.joins, h.keyed, fun hq => h.safe (hqp hq)⟩

theorem Frame.Selects.trans {p q : Prop} {k : Frame} (h : f.Selects m p g)
    (h' : g.Selects m q k) : f.Selects m (p ∧ q) k :=
  ⟨h.grows.trans h'.grows, h.joins.trans h'.joins, h'.keyed,
    fun hpq hf => h'.safe hpq.2 (h.safe hpq.1 hf)⟩

theorem Frame.Keyed.selects (h : f.Keyed m) (narrow : Prop) : f.Selects m narrow f :=
  ⟨.refl f, .refl _, h, fun _ hf => hf⟩

/-- In a scope with the root `t` the computation only adds joins of the select list; they add no
row if it is narrow. -/
def Selecting (m : Model) (t : Table) (narrow : Prop) (act : Build α) : Prop :=
  ∀ ⦃f a g⦄, f.scope.root = t → f.Keyed m → act.Gives f a g → f.Selects m narrow g

theorem selecting_mapM {k : α → Build β} {narrow : α → Prop} {xs : List α}
    (h : ∀ x ∈ xs, Selecting m t (narrow x) (k x)) :
    Selecting m t (∀ x ∈ xs, narrow x) (xs.mapM k) := by
  intro f ys g hroot hf hys
  refine mapM_induction (fun g _ => f.Selects m (∀ x ∈ xs, narrow x) g)
    (fun x hx f₁ _ y g hsel hy => ?_) (hf.selects _) hys
  have hstep := h x hx (hsel.grows.scope.root.trans hroot) hsel.keyed hy
  exact (hsel.trans hstep).imp fun hall => ⟨hall, hall x hx⟩

/-! ## Values -/

theorem Frame.Keyed.joinHops {hops : List Relationship} {s : Scope} (h : f.Keyed m)
    (hwalk : m.Walk f.scope.root hops) (hs : f.scope.joinHops hops .select = .ok s) :
    f.Selects m (∀ r ∈ hops, r.fansOut = false) ⟨s, f.ctes⟩ := by
  have hgrows := Scope.grows_joinHops hs
  refine ⟨⟨hgrows, List.prefix_rfl⟩, Scope.extends_joinHops (Scope.settled_select _) hs, ?_, ?_⟩
  · exact ⟨hgrows.root ▸ h.root, h.ctes, h.numbered⟩
  · exact fun hone hf => hf.joinHops hwalk hone hs

theorem selecting_joinSelected (path : Path) :
    Selecting m t (m.Narrow t path) (joinSelected m path) := by
  intro f r g hroot hf h
  obtain ⟨hresolve, s, hs, rfl⟩ := gives_joinSelected h
  refine (hf.joinHops (Model.walk_of_resolve hresolve).1 hs).imp fun hnarrow => ?_
  rw [hroot] at hresolve
  exact Resolution.crossesMany_eq_false.1 (hnarrow r hresolve)

theorem FunctionArg.selecting_assemble (arg : FunctionArg) :
    Selecting m t (arg.fansOut m t = false) (arg.assemble m) := by
  intro f x g hroot hf hx
  cases arg with
  | column path =>
    simp only [assemble, gives_bind, gives_pure] at hx
    obtain ⟨r, _, hr, rfl, rfl⟩ := hx
    refine (selecting_joinSelected path hroot hf hr).imp fun hone r' hr' => ?_
    simpa only [fansOut, hr'] using hone
  | value v =>
    obtain ⟨rfl, rfl⟩ := gives_pure.1 hx
    exact hf.selects _
  | star =>
    obtain ⟨rfl, rfl⟩ := gives_pure.1 hx
    exact hf.selects _

/-- A condition inside a value joins no more than one in a filter does. -/
theorem selecting_assembleBranch {branch : Predicate × Value} (hp : branch.1.OnTables m.Covers) :
    Selecting m t True (assembleBranch m branch) := by
  intro f x g hroot hf hx
  obtain ⟨e, he, rfl⟩ := gives_assembleBranch hx
  have hw := writes_compile hp he
  refine ⟨hw.grows, hw.extends rfl (Scope.settled_select _), ?_, fun _ hf' => ?_⟩
  · exact ⟨hw.grows.scope.root ▸ hf.root, hw.safeCtes hf.root hf.ctes, hw.numbered hf.numbered⟩
  · exact (hw.safe hf' True.intro).1

/-! ## Order -/

theorem Ordered.selecting_add (acc : Ordered) (nested : List NestedItem) (o : OrderBy) :
    Selecting m t True (acc.add m nested o) := by
  intro f acc' g hroot hf h
  obtain ⟨r, s, hresolve, rfl, ⟨hone, hs, -⟩ | ⟨before, many, after, -, hhops, -, hone, hs, -⟩⟩ :=
    Ordered.gives_add h
  · exact (hf.joinHops (Model.walk_of_resolve hresolve).1 hs).imp fun _ => hone
  · obtain ⟨hwalk, -⟩ := Model.walk_of_resolve hresolve
    rw [hhops] at hwalk
    exact (hf.joinHops (Model.walk_append.1 hwalk).1 hs).imp fun _ => hone

theorem Ordered.selecting_foldlM {acc : Ordered} {nested : List NestedItem}
    {orders : List OrderBy} :
    Selecting m t True (orders.foldlM (Ordered.add m nested) acc) := by
  intro f acc' g hroot hf h
  refine foldlM_induction (fun g _ => f.Selects m True g)
    (fun o _ f₁ acc₁ g _ hsel hadd => ?_) (hf.selects _) h
  have hstep := acc₁.selecting_add nested o (hsel.grows.scope.root.trans hroot) hsel.keyed hadd
  exact (hsel.trans hstep).imp fun _ => ⟨⟨⟩, ⟨⟩⟩

/-! ## Queries -/

/-- A filter is compiled in a scope that has only joins of filters. -/
theorem Frame.Keyed.compileFilter {filter : Option Predicate} {e : Option Expr} (hf : f.Keyed m)
    (hfilter : OnTablesFilter m.Covers filter)
    (h : (EntityQuery.compileFilter m filter).Gives f e g) : f.Grows g ∧ g.Keyed m := by
  have hw := writes_filter hfilter h
  exact ⟨hw.grows, hw.grows.scope.root ▸ hf.root, hw.safeCtes hf.root hf.ctes,
    hw.numbered hf.numbered⟩

mutual

/-- **What the values of a node join.** -/
theorem SelectNode.selecting_assemble (node : SelectNode) {t : Table}
    (hnode : node.Placed m m.Covers t) :
    Selecting m t (node.Direct m t ∧ node.fansOut m t = false) (node.assemble m d) := by
  intro f parts g hroot hf h
  match node with
  | .column path label =>
    obtain ⟨r, hr, -⟩ := gives_assemble_column h
    exact (selecting_joinSelected path hroot hf hr).imp And.left
  | .function name args distinct aggregate label =>
    obtain ⟨-, values, hvalues, -⟩ := gives_assemble_function h
    refine (selecting_mapM (fun arg _ => arg.selecting_assemble) hroot hf hvalues).imp ?_
    intro hnarrow arg harg
    simpa using List.any_eq_false.1 hnarrow.2 arg harg
  | .case branches otherwise label =>
    rw [SelectNode.Placed] at hnode
    obtain ⟨written, hwritten, -⟩ := gives_assemble_case h
    exact (selecting_mapM (fun b hb => selecting_assembleBranch (hnode b hb)) hroot hf
      hwritten).imp fun _ _ _ => ⟨⟩
  | .nested path r query =>
    rw [SelectNode.Placed] at hnode
    obtain ⟨⟨before, hroute⟩, hquery⟩ := hnode
    rw [← hroot] at hroute
    obtain ⟨route, s, level, inner, hroute', hs, hassemble, rfl, -⟩ := gives_assemble_nested h
    cases hroute.symm.trans hroute'
    obtain ⟨hbefore, hr⟩ := Model.walk_of_resolveRelationship hroute
    have hjoin := hf.joinHops hbefore hs
    -- The nested query starts on the far side, among the CTEs that are there.
    have hstart : (Frame.mk (.ofRelationship r) _).Keyed m :=
      ⟨hr.covers_child, hf.ctes, hf.numbered⟩
    obtain ⟨hgrows, hinner⟩ := query.keyed_assemble hquery hstart hassemble
    refine ⟨⟨hjoin.grows.scope, hgrows.ctes⟩, hjoin.joins,
      ⟨hjoin.keyed.root, hinner.ctes, hinner.numbered⟩, fun hnarrow hsafe => ?_⟩
    have hbeforeSafe := hjoin.safe (hnarrow.1 _ (hroot ▸ hroute)) hsafe
    exact hbeforeSafe.mono hgrows.ctes.subset hinner.ctes

theorem selecting_assembleAll (nodes : List SelectNode) {t : Table}
    (hnodes : PlacedAll m m.Covers t nodes) :
    Selecting m t (∀ node ∈ nodes, node.Direct m t ∧ node.fansOut m t = false)
      (assembleAll m d nodes) := by
  intro f parts g hroot hf h
  match nodes with
  | [] =>
    rw [assembleAll] at h
    obtain ⟨rfl, rfl⟩ := gives_pure.1 h
    exact hf.selects _
  | node :: rest =>
    obtain ⟨part, f₁, parts, hpart, hparts, -⟩ := gives_assembleAll_cons h
    have hnode := node.selecting_assemble hnodes.1 hroot hf hpart
    have hrest := selecting_assembleAll rest hnodes.2 (hnode.grows.scope.root.trans hroot)
      hnode.keyed hparts
    exact (hnode.trans hrest).imp List.forall_mem_cons.1

/-- **A query keeps the CTEs of its statement in order.** -/
theorem SelectQuery.keyed_assemble (q : SelectQuery) {correlation : Option Expr} {l : Level}
    {f g : Frame} (hq : q.Placed m m.Covers f.scope.root) (hf : f.Keyed m)
    (h : (q.assemble m d correlation).Gives f l g) : f.Grows g ∧ g.Keyed m := by
  match q with
  | ⟨root, nodes, filter, order, paging, distinct, eagerDepth, ancestors⟩ =>
    rw [SelectQuery.Placed] at hq
    obtain ⟨-, hnodes, hfilter⟩ := hq
    obtain ⟨condition, f₁, parts, f₂, orders, ordered, hcondition, hparts, -, hordered, -, -⟩ :=
      SelectQuery.gives_assemble h
    obtain ⟨hgrows₁, hf₁⟩ := hf.compileFilter hfilter hcondition
    have hroot₁ : f₁.scope.root = f.scope.root := hgrows₁.scope.root
    have h₂ := selecting_assembleAll nodes hnodes hroot₁ hf₁ hparts
    have h₃ := Ordered.selecting_foldlM rfl h₂.keyed hordered
    exact ⟨hgrows₁.trans (h₂.grows.trans h₃.grows), h₃.keyed⟩

end

end EntityQuery
