import EntityQuery.Proofs.Predicate.Tables
import EntityQuery.Proofs.Select.Operations

/-!
# Built selections

What every selection has that was put together by the operations on selections. A nested query
keeps the relationship it was opened for, and it is opened once and may be moved below another
nested query later. `SelectQuery.Placed` says that the relationship is still the one that the path
of the node leads to from the query around it, and that the nested query starts at its child.

**Steps and runs.** `SelectQuery.Builds` has a rule for each operation, where a nested query is
changed by operations of its own. Every operation keeps a query placed (`Builds.placed`).
-/

namespace EntityQuery

open SelectQuery (putNested isBelow rebase)

variable {m : Model} {P : Table → Prop} {t : Table}

/-! ## Placed queries -/

mutual

/-- The nested queries of a node stand where their relationships lead from `t`, and the tables of
subqueries have the property. -/
def SelectNode.Placed (m : Model) (P : Table → Prop) (t : Table) : SelectNode → Prop
  | .column .. | .function .. => True
  | .case branches _ _ => ∀ b ∈ branches, b.1.OnTables P
  | .nested path r query =>
    (∃ before, m.resolveRelationship t path = .ok ⟨before, r⟩) ∧ query.Placed m P r.child

def PlacedAll (m : Model) (P : Table → Prop) (t : Table) : List SelectNode → Prop
  | [] => True
  | node :: rest => node.Placed m P t ∧ PlacedAll m P t rest

/-- The query starts at `t`. -/
def SelectQuery.Placed (m : Model) (P : Table → Prop) (t : Table) : SelectQuery → Prop
  | ⟨root, nodes, filter, _, _, _, _, _⟩ =>
    root = t ∧ PlacedAll m P t nodes ∧ OnTablesFilter P filter

end

theorem placedAll_iff {nodes : List SelectNode} :
    PlacedAll m P t nodes ↔ ∀ node ∈ nodes, node.Placed m P t := by
  induction nodes with
  | nil => simp [PlacedAll]
  | cons node nodes ih => simp [PlacedAll, ih]

namespace SelectQuery

variable {q q' inner : SelectQuery} {path via : Path} {route : Route}

theorem placed_iff : q.Placed m P t ↔
    q.root = t ∧ (∀ node ∈ q.nodes, node.Placed m P t) ∧ OnTablesFilter P q.filter := by
  cases q
  rw [Placed, placedAll_iff]

theorem placed_ofTable (t : Table) : (ofTable t).Placed m P t :=
  placed_iff.2 ⟨rfl, by simp [ofTable], ⟨⟩⟩

/-- Only the root, the nodes and the filter matter. -/
theorem Placed.congr (h : q.Placed m P t) (hroot : q'.root = q.root) (hnodes : q'.nodes = q.nodes)
    (hfilter : q'.filter = q.filter) : q'.Placed m P t := by
  rw [placed_iff, hroot, hnodes, hfilter, ← placed_iff]
  exact h

theorem Placed.withNodes (h : q.Placed m P t) {nodes : List SelectNode}
    (hnodes : ∀ node ∈ nodes, node.Placed m P t) : { q with nodes }.Placed m P t :=
  have ⟨hroot, _, hfilter⟩ := placed_iff.1 h
  placed_iff.2 ⟨hroot, hnodes, hfilter⟩

theorem Placed.concat (h : q.Placed m P t) {node : SelectNode} (hnode : node.Placed m P t) :
    { q with nodes := q.nodes ++ [node] }.Placed m P t := by
  refine h.withNodes fun x hx => ?_
  rcases List.mem_append.1 hx with hx | hx
  · exact (placed_iff.1 h).2.1 x hx
  · rw [List.mem_singleton.1 hx]
    exact hnode

/-! ## Nested queries -/

/-- The query may stand behind a relationship path from `t`. -/
def Fits (m : Model) (P : Table → Prop) (t : Table) (via : Path) (inner : SelectQuery) : Prop :=
  ∃ route, m.resolveRelationship t via = .ok route ∧ inner.Placed m P route.last.child

theorem Placed.nestedAt? (h : q.Placed m P t) (hinner : q.nestedAt? via = some inner) :
    inner.Fits m P t via := by
  obtain ⟨node, hmem, hnode⟩ := List.exists_of_findSome?_eq_some hinner
  have hplaced := (placed_iff.1 h).2.1 node hmem
  cases node with
  | nested path r query =>
    rw [SelectNode.nestedAt?] at hnode
    split at hnode
    · rename_i hvia
      subst hvia
      cases hnode
      rw [SelectNode.Placed] at hplaced
      obtain ⟨⟨before, hroute⟩, hquery⟩ := hplaced
      exact ⟨_, hroute, hquery⟩
    · contradiction
  | column => contradiction
  | function => contradiction
  | case => contradiction

theorem Fits.put (h : inner.Fits m P t via) {nodes : List SelectNode}
    (hnodes : ∀ node ∈ nodes, node.Placed m P t) :
    ∀ node ∈ putNested via inner nodes, node.Placed m P t := by
  fun_induction putNested via inner nodes with
  | case1 => exact hnodes
  | case2 r query rest =>
    rw [List.forall_mem_cons] at hnodes ⊢
    refine ⟨?_, hnodes.2⟩
    obtain ⟨⟨before, hvia⟩, -⟩ := by simpa only [SelectNode.Placed] using hnodes.1
    obtain ⟨route, hroute, hinner⟩ := h
    cases hvia.symm.trans hroute
    rw [SelectNode.Placed]
    exact ⟨⟨before, hvia⟩, hinner⟩
  | case3 path r query rest _ ih =>
    rw [List.forall_mem_cons] at hnodes ⊢
    exact ⟨hnodes.1, ih hnodes.2⟩
  | case4 node rest _ ih =>
    rw [List.forall_mem_cons] at hnodes ⊢
    exact ⟨hnodes.1, ih hnodes.2⟩

theorem Placed.setNested (h : q.Placed m P t) (hinner : inner.Fits m P t via) :
    (q.setNested via inner).Placed m P t :=
  h.withNodes (hinner.put (placed_iff.1 h).2.1)

theorem placed_rebase {node : SelectNode} (hvia : m.resolveRelationship t via = .ok route)
    (hnode : node.Placed m P t) (hbelow : isBelow via node = true) :
    (rebase via node).Placed m P route.last.child := by
  cases node with
  | column => simp [rebase, SelectNode.Placed]
  | nested path r query =>
    rw [SelectNode.Placed] at hnode
    obtain ⟨⟨before, hpath⟩, hquery⟩ := hnode
    have hcontinues : path.continues via = true := by
      simpa [isBelow, SelectNode.path?] using hbelow
    rw [rebase, SelectNode.Placed]
    obtain ⟨before, hdrop, -⟩ := Model.resolveRelationship_drop hvia hpath hcontinues
    exact ⟨⟨before, hdrop⟩, hquery⟩
  | function => simp [isBelow, SelectNode.path?] at hbelow
  | case => simp [isBelow, SelectNode.path?] at hbelow

/-- What opens takes what lies below it along. -/
theorem Placed.openedAt (h : q.Placed m P t) (hroute : m.resolveRelationship t via = .ok route) :
    (q.openedAt via route.last).Placed m P route.last.child := by
  refine placed_iff.2 ⟨rfl, fun x hx => ?_, ⟨⟩⟩
  obtain ⟨y, hy, rfl⟩ := List.mem_map.1 hx
  obtain ⟨hy, hbelow⟩ := List.mem_filter.1 hy
  exact placed_rebase hroute ((placed_iff.1 h).2.1 y hy) hbelow

theorem Placed.openNested (h : q.Placed m P t) (hq : q.openNested m via = .ok (inner, q')) :
    inner.Fits m P t via ∧ q'.Placed m P t := by
  obtain ⟨rfl, hnodes, -⟩ := placed_iff.1 h
  rcases openNested_eq_ok.1 hq with ⟨hinner, rfl⟩ | ⟨-, route, hroute, rfl, rfl⟩
  · exact ⟨h.nestedAt? hinner, h⟩
  · have hopened := h.openedAt hroute
    refine ⟨⟨route, hroute, hopened⟩, h.withNodes (List.forall_mem_append.2
      ⟨fun node hnode => hnodes node (List.mem_filter.1 hnode).1, ?_⟩)⟩
    rw [List.forall_mem_singleton, SelectNode.Placed]
    exact ⟨⟨route.before, hroute⟩, hopened⟩

theorem Fits.of_imp {inner' : SelectQuery} (h : inner.Fits m P t via)
    (himp : ∀ u, inner.Placed m P u → inner'.Placed m P u) : inner'.Fits m P t via :=
  have ⟨route, hroute, hinner⟩ := h
  ⟨route, hroute, himp _ hinner⟩

theorem Placed.changeNested {change : SelectQuery → Except QueryError SelectQuery}
    (h : q.Placed m P t) (hq : q.changeNested m via change = .ok q')
    (hchange : ∀ x x' u, x.Placed m P u → change x = .ok x' → x'.Placed m P u) :
    q'.Placed m P t := by
  obtain ⟨inner, x, inner', hopen, hinner', rfl⟩ := changeNested_eq_ok.1 hq
  obtain ⟨hinner, hopened⟩ := h.openNested hopen
  exact hopened.setNested (hinner.of_imp fun u hu => hchange inner inner' u hu hinner')

/-! ## Columns -/

theorem Placed.addColumn (h : q.Placed m P t) (path : Path) (label : Option String) :
    (q.addColumn path label).Placed m P t := by
  rw [SelectQuery.addColumn]
  split
  · exact h
  · exact h.concat (by simp [SelectNode.Placed])

theorem Placed.addColumns (h : q.Placed m P t) (paths : List Path) :
    (paths.foldl (·.addColumn · none) q).Placed m P t := by
  induction paths generalizing q with
  | nil => exact h
  | cons path paths ih => exact ih (h.addColumn path none)

theorem Placed.selectAll (h : q.Placed m P t) : (q.selectAll m).Placed m P t := h.addColumns _

theorem Placed.orAll (h : q.Placed m P t) : (q.orAll m).Placed m P t := by
  rw [SelectQuery.orAll]
  split
  · exact h.selectAll
  · exact h

theorem Placed.includeAt (h : q.Placed m P t) (hq : q.includeAt m via = .ok q') :
    q'.Placed m P t := by
  refine h.changeNested hq fun x x' u hx hx' => ?_
  cases hx'
  split
  · exact hx.selectAll
  · exact hx.orAll

theorem Placed.includeRelated (h : q.Placed m P t) (hq : q.includeRelated m path = .ok q') :
    q'.Placed m P t := by
  induction hn : path.length using Nat.strongRecOn generalizing q q' path t with
  | ind n ih =>
    subst hn
    rcases includeRelated_cases hq with ⟨n, henters, hq⟩ | ⟨-, hq⟩
    · exact h.changeNested hq fun x x' u hx hx' =>
        ih _ (length_drop_of_enters henters) hx hx' rfl
    · exact h.includeAt hq

theorem Placed.addPath {label : Option String} (h : q.Placed m P t)
    (hq : q.addPath m path label = .ok q') : q'.Placed m P t := by
  induction hn : path.length using Nat.strongRecOn generalizing q q' path t with
  | ind n ih =>
    subst hn
    rcases addPath_cases hq with ⟨n, henters, hq⟩ | ⟨-, -, -, -, rfl⟩ | ⟨-, -, hq⟩
    · exact h.changeNested hq fun x x' u hx hx' =>
        ih _ (length_drop_of_enters henters) hx hx' rfl
    · exact h.addColumn path label
    · exact h.includeRelated hq

/-- The inner query has a table of its own, and whatever stays placed there may be put back. -/
theorem Placed.focus {focus : Focus} (h : q.Placed m P t) (hq : q.focus m path = .ok focus) :
    ∃ u, focus.inner.Placed m P u ∧ ∀ x, x.Placed m P u → (focus.replace x).Placed m P t := by
  induction hn : path.length using Nat.strongRecOn generalizing q focus path t with
  | ind n ih =>
    subst hn
    rcases focus_cases hq with ⟨n, inner, x, deep, hdivides, hopen, hdeep, rfl⟩ |
      ⟨-, inner, x, hopen, rfl⟩
    · have hlt := length_drop_lt (Model.dividesAt?_lt hdivides).1 (Model.dividesAt?_lt hdivides).2
      obtain ⟨⟨route, hroute, hinner⟩, hopened⟩ := h.openNested hopen
      obtain ⟨u, hu, hback⟩ := ih _ hlt hinner hdeep rfl
      exact ⟨u, hu, fun x hx => hopened.setNested ⟨route, hroute, (hback x hx).orAll⟩⟩
    · obtain ⟨⟨route, hroute, hinner⟩, hopened⟩ := h.openNested hopen
      exact ⟨route.last.child, hinner, fun x hx => hopened.setNested ⟨route, hroute, hx.orAll⟩⟩

/-! ## Functions and conditions -/

theorem Placed.addFunction {name label : String} {args : List FunctionArg}
    {distinct aggregate : Bool} (h : q.Placed m P t)
    (hq : q.addFunction m name args distinct aggregate label = .ok q') : q'.Placed m P t := by
  obtain ⟨-, -, hq⟩ := bind_eq_ok.1 hq
  cases hq
  exact h.concat (by simp [SelectNode.Placed])

theorem Placed.addCase {branches : List (Predicate × Value)} {otherwise : Option Value}
    {label : String} (h : q.Placed m P t) (hbranches : ∀ b ∈ branches, b.1.OnTables P)
    (hq : q.addCase m branches otherwise label = .ok q') : q'.Placed m P t := by
  obtain ⟨-, -, hq⟩ := bind_eq_ok.1 hq
  cases hq
  exact h.concat (by simpa only [SelectNode.Placed] using hbranches)

theorem Placed.addFilter {p : Predicate} (h : q.Placed m P t) (hp : p.OnTables P)
    (hq : q.addFilter m p = .ok q') : q'.Placed m P t := by
  obtain ⟨-, -, hq⟩ := bind_eq_ok.1 hq
  cases hq
  obtain ⟨hroot, hnodes, hfilter⟩ := placed_iff.1 h
  refine placed_iff.2 ⟨hroot, hnodes, ?_⟩
  dsimp only
  split
  · rename_i existing hsome
    rw [hsome] at hfilter
    exact ⟨hfilter, hp, ⟨⟩⟩
  · exact hp

theorem Placed.addOrder {dir : Sql.SortDir} (h : q.Placed m P t)
    (hq : q.addOrder m path dir = .ok q') : q'.Placed m P t := by
  obtain ⟨-, -, hq⟩ := bind_eq_ok.1 hq
  cases hq
  exact h.congr rfl rfl rfl

theorem withPaging_eq_ok {paging : Paging} (h : q.withPaging paging = .ok q') :
    q' = { q with paging := some paging } := by
  unfold SelectQuery.withPaging at h
  split at h
  · contradiction
  · split at h
    · contradiction
    · exact pure_eq_ok.1 h
  · contradiction
  · exact pure_eq_ok.1 h

theorem Placed.withPaging {paging : Paging} (h : q.Placed m P t)
    (hq : q.withPaging paging = .ok q') : q'.Placed m P t := by
  rw [withPaging_eq_ok hq]
  exact h.congr rfl rfl rfl

/-! ## Sequences of operations -/

/-- A sequence of successful operations makes the second query of the first. The conditions they
are given have only subqueries on tables with the property. -/
inductive Builds (m : Model) (P : Table → Prop) : SelectQuery → SelectQuery → Prop
  | refl (q : SelectQuery) : Builds m P q q
  | select {q x x' : SelectQuery} {path : Path} (h : Builds m P q x)
    (hx : x.select m path = .ok x') : Builds m P q x'
  | selectAs {q x x' : SelectQuery} {path : Path} {label : String} (h : Builds m P q x)
    (hx : x.selectAs m path label = .ok x') : Builds m P q x'
  | includeRelated {q x x' : SelectQuery} {path : Path} (h : Builds m P q x)
    (hx : x.includeRelated m path = .ok x') : Builds m P q x'
  | selectAll {q x : SelectQuery} (h : Builds m P q x) : Builds m P q (x.selectAll m)
  | function {q x x' : SelectQuery} {name label : String} {args : List FunctionArg}
    {distinct aggregate : Bool} (h : Builds m P q x)
    (hx : x.addFunction m name args distinct aggregate label = .ok x') : Builds m P q x'
  | case {q x x' : SelectQuery} {branches : List (Predicate × Value)} {otherwise : Option Value}
    {label : String} (h : Builds m P q x) (hbranches : ∀ b ∈ branches, b.1.OnTables P)
    (hx : x.addCase m branches otherwise label = .ok x') : Builds m P q x'
  | filter {q x x' : SelectQuery} {p : Predicate} (h : Builds m P q x) (hp : p.OnTables P)
    (hx : x.addFilter m p = .ok x') : Builds m P q x'
  | order {q x x' : SelectQuery} {path : Path} {dir : Sql.SortDir} (h : Builds m P q x)
    (hx : x.addOrder m path dir = .ok x') : Builds m P q x'
  | paging {q x x' : SelectQuery} {paging : Paging} (h : Builds m P q x)
    (hx : x.withPaging paging = .ok x') : Builds m P q x'
  | distinct {q x : SelectQuery} (h : Builds m P q x) (distinct : Option Bool) :
    Builds m P q { x with distinct }
  | eagerDepth {q x : SelectQuery} (h : Builds m P q x) (eagerDepth : Nat) :
    Builds m P q { x with eagerDepth }
  /-- The query at a relationship path is changed by operations of its own. -/
  | nested {q x y : SelectQuery} {path : Path} {focus : Focus} (h : Builds m P q x)
    (hx : x.focus m path = .ok focus) (hinner : Builds m P focus.inner y) :
    Builds m P q (focus.replace y)

/-- **Operations keep queries placed.** -/
theorem Builds.placed (h : Builds m P q q') (hq : q.Placed m P t) : q'.Placed m P t := by
  induction h generalizing t with
  | refl => exact hq
  | select _ hx ih => exact (ih hq).addPath hx
  | selectAs _ hx ih =>
    obtain ⟨-, -, hx⟩ := bind_eq_ok.1 hx
    exact (ih hq).addPath hx
  | includeRelated _ hx ih => exact (ih hq).includeRelated hx
  | selectAll _ ih => exact (ih hq).selectAll
  | function _ hx ih => exact (ih hq).addFunction hx
  | case _ hbranches hx ih => exact (ih hq).addCase hbranches hx
  | filter _ hp hx ih => exact (ih hq).addFilter hp hx
  | order _ hx ih => exact (ih hq).addOrder hx
  | paging _ hx ih => exact (ih hq).withPaging hx
  | distinct _ _ ih => exact (ih hq).congr rfl rfl rfl
  | eagerDepth _ _ ih => exact (ih hq).congr rfl rfl rfl
  | nested _ hx _ ih ihInner =>
    obtain ⟨u, hu, hback⟩ := (ih hq).focus hx
    exact hback _ (ihInner hu)

end SelectQuery

end EntityQuery
