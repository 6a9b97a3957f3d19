import EntityQuery.Proofs.Select.Tree

/-!
# What a request leaves behind

Selecting and including take a path down into the nested query where it ends. What they do there
depends on what was selected before, so it is said of the level where the path ends
(`SelectQuery.levelAt?`): the column that stands there (`columnAt?`) and the query that is nested
there (`documentAt?`).

**Columns.** A column that is selected stands at its level afterwards, under the name it had before
or else the one that was asked for (`columnAt?_addPath`).

**Documents.** A relationship that is included has all columns of its table if nothing was selected
in its document. Otherwise nothing changes (`leaves_includeRelated`).

**Descent.** Both go along the same queries afterwards as before: a query that a path enters is
still the first one on its way when it is changed, and so is one that opened for it
(`levelAt?_changed`).
-/

namespace EntityQuery

open SelectQuery (eagerPaths)

variable {m : Model} {P : Table → Prop} {t : Table}

/-! ## Paths -/

theorem Path.append_child (via rest : Path) (member : String) :
    via ++ rest.child member = (via ++ rest).child member :=
  congrArg Path.mk (List.append_assoc _ _ _).symm

/-- Two relationship paths, one behind the other. -/
theorem Model.resolveRelationship_append {via rest : Path} {route route' : Route}
    (hvia : m.resolveRelationship t via = .ok route)
    (hrest : m.resolveRelationship route.last.child rest = .ok route') :
    m.resolveRelationship t (via ++ rest) = .ok ⟨route.hops ++ route'.before, route'.last⟩ := by
  refine resolveRelationship_of_walk (walkMembers?_append.2 ⟨route.hops, route'.hops,
    resolveRelationship_eq_ok hvia, ?_, List.append_assoc _ _ _⟩)
  rw [Route.hops, endOf_append, endOf_cons]
  exact resolveRelationship_eq_ok hrest

/-- The label of the column with the given path. -/
def SelectNode.labelAt? (path : Path) : SelectNode → Option (Option String)
  | .column p label => if p = path then some label else none
  | .function .. | .case .. | .nested .. => none

theorem SelectNode.isSome_labelAt? (path : Path) (node : SelectNode) :
    (node.labelAt? path).isSome = node.isColumn path := by
  cases node with
  | column p label =>
    by_cases h : p = path
    · simp [labelAt?, isColumn, h]
    · simp [labelAt?, isColumn, h]
  | function => rfl
  | case => rfl
  | nested => rfl

namespace SelectQuery

variable {q q' x inner inner' : SelectQuery} {path via rest : Path} {label : Option String}
  {n : Nat}

/-! ## Where a path ends -/

/-- The query in which a path ends, and the rest of the path there. A nested query on its way that
is missing is taken as it would open. -/
def levelAt? (m : Model) (q : SelectQuery) (path : Path) : Option (SelectQuery × Path) :=
  match _h : q.enters? m path with
  | none => some (q, path)
  | some n =>
    match q.openNested m (path.take n) with
    | .ok (inner, _) => inner.levelAt? m (path.drop n)
    | .error _ => none
termination_by path.length
decreasing_by exact length_drop_lt (enters?_lt _h).1 (enters?_lt _h).2

/-- The label of the column at a path. -/
def columnAt? (m : Model) (q : SelectQuery) (path : Path) : Option (Option String) :=
  (q.levelAt? m path).bind fun level => level.1.nodes.findSome? (·.labelAt? level.2)

/-- The query nested at a path. -/
def documentAt? (m : Model) (q : SelectQuery) (path : Path) : Option SelectQuery :=
  (q.levelAt? m path).bind fun level => level.1.nestedAt? level.2

theorem levelAt?_of_not_enters (henters : q.enters? m path = none) :
    q.levelAt? m path = some (q, path) := by
  rw [levelAt?]
  split
  · rfl
  · rename_i henters'
    cases henters.symm.trans henters'

theorem levelAt?_of_enters (henters : q.enters? m path = some n)
    (hopen : q.openNested m (path.take n) = .ok (inner, x)) :
    q.levelAt? m path = inner.levelAt? m (path.drop n) := by
  rw [levelAt?]
  split
  · rename_i henters'
    cases henters.symm.trans henters'
  · rename_i henters'
    cases henters.symm.trans henters'
    rw [hopen]

theorem nestedAt?_setNested (h : q.nestedAt? via = some inner) :
    (q.setNested via inner').nestedAt? via = some inner' := by
  rw [nestedAt?, setNested]
  rw [nestedAt?] at h
  generalize q.nodes = nodes at h
  fun_induction putNested via inner' nodes with
  | case1 => cases h
  | case2 r query rest => simp [SelectNode.nestedAt?]
  | case3 path r query rest hne ih =>
    simp only [List.findSome?_cons, SelectNode.nestedAt?, hne, if_false] at h ⊢
    exact ih h
  | case4 node rest hnode ih =>
    cases node with
    | nested p r query => exact absurd rfl (hnode p r query)
    | column => exact ih h
    | function => exact ih h
    | case => exact ih h

/-- A nested query that changes is entered by the same paths. -/
theorem enclosing?_setNested (h : q.nestedAt? via = some inner) :
    (q.setNested via inner').enclosing? path = q.enclosing? path := by
  obtain ⟨before, r, after, hnodes, hset⟩ := exists_setNested h
  rw [enclosing?, enclosing?, hset, hnodes]
  simp only [List.findSome?_append, List.findSome?_cons]

/-- A query that opened for a path is entered by it. -/
theorem enclosing?_withOpened {r : Relationship} (hnone : q.enclosing? path = none) (hpos : 0 < n)
    (hlt : n < path.length) : (q.withOpened (path.take n) r).enclosing? path = some n := by
  have hold := List.findSome?_eq_none_iff.1 hnone
  rw [enclosing?, withOpened, List.findSome?_append, List.findSome?_eq_none_iff.2
    fun node hnode => hold node (List.mem_filter.1 hnode).1]
  simp [Path.length_take_of_lt hlt, Path.continues_take hlt, hpos]

/-- **A path ends behind the same query** after it has changed. -/
theorem levelAt?_changed (henters : q.enters? m path = some n)
    (hopen : q.openNested m (path.take n) = .ok (inner, x)) :
    (x.setNested (path.take n) inner').levelAt? m path = inner'.levelAt? m (path.drop n) := by
  have hinner := nestedAt?_of_openNested hopen
  have hput : (x.setNested (path.take n) inner').openNested m (path.take n) =
      .ok (inner', x.setNested (path.take n) inner') :=
    openNested_eq_ok.2 (.inl ⟨nestedAt?_setNested hinner, rfl⟩)
  refine levelAt?_of_enters ?_ hput
  rw [enters?, enclosing?_setNested hinner]
  rcases openNested_eq_ok.1 hopen with ⟨-, rfl⟩ | ⟨hnew, route, -, -, rfl⟩
  · exact henters
  · have hlt := enters?_lt henters
    rw [enclosing?_withOpened (narrowTo_enters? henters hnew).1 hlt.1 hlt.2]
    rfl

/-! ## Columns -/

theorem enters?_addColumn (q : SelectQuery) (path other : Path) (label : Option String) :
    (q.addColumn path label).enters? m other = q.enters? m other := by
  rcases q.addColumn_cases path label with ⟨-, heq⟩ | ⟨-, heq⟩
  · rw [heq]
  · rw [heq, enters?, enters?, enclosing?, enclosing?, List.findSome?_append]
    simp

/-- A column keeps the label that it has. -/
theorem labelAt?_addColumn (q : SelectQuery) (path : Path) (label : Option String) :
    (q.addColumn path label).nodes.findSome? (·.labelAt? path) =
      some ((q.nodes.findSome? (·.labelAt? path)).getD label) := by
  have hsome : (q.nodes.findSome? (·.labelAt? path)).isSome = q.nodes.any (·.isColumn path) := by
    simp only [List.isSome_findSome?, SelectNode.isSome_labelAt?]
  rcases q.addColumn_cases path label with ⟨hany, heq⟩ | ⟨hany, heq⟩
  · rw [hany] at hsome
    obtain ⟨old, hold⟩ := Option.isSome_iff_exists.1 hsome
    rw [heq, hold, Option.getD_some]
  · rw [hany, Option.isSome_eq_false_iff, Option.isNone_iff_eq_none] at hsome
    rw [heq, List.findSome?_append, hsome]
    simp [SelectNode.labelAt?]

/-- **A column that is selected** has the label that it had or else the new one. -/
theorem columnAt?_addPath {r : Resolution} (hq : q.Placed m P t) (hr : m.resolve t path = .ok r)
    (h : q.addPath m path label = .ok q') :
    q'.columnAt? m path = some ((q.columnAt? m path).getD label) := by
  induction hn : path.length using Nat.strongRecOn generalizing q q' path t r with
  | ind k ih =>
    subst hn
    obtain rfl := (placed_iff.1 hq).1
    rcases addPath_cases h with ⟨n, henters, h⟩ | ⟨henters, -, -, -, rfl⟩ | ⟨-, hnot, -⟩
    · obtain ⟨hpos, hlt⟩ := enters?_lt henters
      obtain ⟨inner, x, inner', hopen, hinner', rfl⟩ := changeNested_eq_ok.1 h
      obtain ⟨⟨route, hroute, hinner⟩, -⟩ := hq.openNested hopen
      obtain ⟨hops, hdrop, -⟩ := Model.resolve_drop hroute hr (Path.continues_take hlt)
      rw [Path.length_take_of_lt hlt] at hdrop
      rw [columnAt?, columnAt?, levelAt?_changed henters hopen, levelAt?_of_enters henters hopen]
      exact ih _ (length_drop_lt hpos hlt) hinner hdrop hinner' rfl
    · rw [columnAt?, columnAt?, levelAt?_of_not_enters henters,
        levelAt?_of_not_enters ((enters?_addColumn q path path label).trans henters)]
      exact labelAt?_addColumn q path label
    · exact absurd hr (hnot r)

/-! ## Leaves -/

/-- What a query that opens has taken was there before. -/
theorem Leaf.of_inner (hopen : q.openNested m via = .ok (inner, x)) (h : inner.Leaf rest) :
    q.Leaf (via ++ rest) := by
  rcases openNested_eq_ok.1 hopen with ⟨hinner, -⟩ | ⟨-, route, -, rfl, -⟩
  · obtain ⟨before, r, after, hnodes, -⟩ := exists_setNested hinner
    exact .nested (hnodes ▸ List.mem_append_right before List.mem_cons_self) h
  · cases h with
    | column hnode =>
      obtain ⟨p, hmem, hbelow, rfl⟩ := column_of_mem_openedAt hnode
      rw [Path.append_drop hbelow]
      exact .column hmem
    | nested hnode hleaf =>
      obtain ⟨p, hmem, hbelow, rfl⟩ := nested_of_mem_openedAt hnode
      rw [← Path.append_assoc, Path.append_drop hbelow]
      exact .nested hmem hleaf

/-- Opening a query adds no column. -/
theorem Leaf.of_outer (hopen : q.openNested m via = .ok (inner, x)) (h : x.Leaf path) :
    q.Leaf path := by
  rcases openNested_eq_ok.1 hopen with ⟨-, rfl⟩ | ⟨-, route, -, rfl, rfl⟩
  · exact h
  · cases h with
    | column hnode =>
      rcases List.mem_append.1 hnode with hnode | hnode
      · exact .column (List.mem_filter.1 hnode).1
      · cases List.mem_singleton.1 hnode
    | nested hnode hleaf =>
      rcases List.mem_append.1 hnode with hnode | hnode
      · exact .nested (List.mem_filter.1 hnode).1 hleaf
      · cases List.mem_singleton.1 hnode
        exact .of_inner hopen hleaf

/-- Nor does a change of a nested query that adds none there. -/
theorem Leaf.of_setNested (hinner : q.nestedAt? via = some inner)
    (hsub : ∀ rest, inner'.Leaf rest → inner.Leaf rest) (h : (q.setNested via inner').Leaf path) :
    q.Leaf path := by
  obtain ⟨before, r, after, hnodes, hset⟩ := exists_setNested hinner
  cases h with
  | column hnode =>
    rw [hset] at hnode
    exact .column (by simpa [hnodes] using hnode)
  | nested hnode hleaf =>
    rw [hset, List.mem_append, List.mem_cons] at hnode
    rcases hnode with hnode | hnode | hnode
    · exact .nested (hnodes ▸ List.mem_append_left _ hnode) hleaf
    · cases hnode
      exact .nested (hnodes ▸ List.mem_append_right before List.mem_cons_self) (hsub _ hleaf)
    · exact .nested (hnodes ▸ List.mem_append_right before (List.mem_cons_of_mem _ hnode)) hleaf

/-- What a nested query has, the query around it has. -/
theorem Leaf.setNested (hinner : q.nestedAt? via = some inner) (h : inner'.Leaf rest) :
    (q.setNested via inner').Leaf (via ++ rest) := by
  obtain ⟨before, r, after, -, hset⟩ := exists_setNested hinner
  exact .nested (hset inner' ▸ List.mem_append_right before List.mem_cons_self) h

theorem leaf_of_isColumn {node : SelectNode} (hmem : node ∈ q.nodes)
    (hcolumn : node.isColumn path = true) : q.Leaf path := by
  cases node with
  | column p old =>
    cases beq_iff_eq.1 hcolumn
    exact .column hmem
  | function => cases hcolumn
  | case => cases hcolumn
  | nested => cases hcolumn

/-- A column that stands at a path is a leaf there. -/
theorem leaf_of_columnAt? (h : q.columnAt? m path = some label) : q.Leaf path := by
  rw [columnAt?] at h
  fun_induction levelAt? m q path with
  | case1 q path henters =>
    obtain ⟨node, hmem, hnode⟩ := List.exists_of_findSome?_eq_some h
    refine leaf_of_isColumn hmem ?_
    rw [← SelectNode.isSome_labelAt?, hnode]
    rfl
  | case2 q path n henters inner x hopen ih =>
    rw [← Path.take_append_drop path n]
    exact .of_inner hopen (ih h)
  | case3 => cases h

/-! ## All columns -/

theorem subset_addColumn (q : SelectQuery) (path : Path) (label : Option String) :
    q.nodes ⊆ (q.addColumn path label).nodes := by
  rcases q.addColumn_cases path label with ⟨-, heq⟩ | ⟨-, heq⟩
  · rw [heq]
    exact List.Subset.refl _
  · rw [heq]
    exact List.subset_append_left _ _

theorem leaf_addColumn (q : SelectQuery) (path : Path) (label : Option String) :
    (q.addColumn path label).Leaf path := by
  rcases q.addColumn_cases path label with ⟨hany, heq⟩ | ⟨-, heq⟩
  · obtain ⟨node, hmem, hcolumn⟩ := List.any_eq_true.1 hany
    rw [heq]
    exact leaf_of_isColumn hmem hcolumn
  · rw [heq]
    exact .column (List.mem_append_right _ List.mem_cons_self)

theorem leaf_addColumns {paths : List Path} (hpath : path ∈ paths ∨ q.Leaf path) :
    (paths.foldl (·.addColumn · none) q).Leaf path := by
  induction paths generalizing q with
  | nil => exact hpath.resolve_left List.not_mem_nil
  | cons first paths ih =>
    refine ih ?_
    rcases hpath with hpath | hleaf
    · rcases List.mem_cons.1 hpath with rfl | hpath
      · exact .inr (leaf_addColumn q path none)
      · exact .inl hpath
    · exact .inr (hleaf.of_subset (q.subset_addColumn first none))

/-- All columns of the table are among all columns. -/
theorem leaf_selectAll {c : EntityColumn} (hc : c ∈ q.root.entity.columns) :
    (q.selectAll m).Leaf ⟨[c.member]⟩ := by
  refine leaf_addColumns (.inl ?_)
  rw [eagerPaths.eq_def]
  exact List.mem_append_left _ (List.mem_map.2 ⟨c, hc, rfl⟩)

/-! ## Included relationships -/

/-- What including a relationship does at its level. -/
theorem leaves_includeAt (hq : q.Placed m P t) (h : q.includeAt m path = .ok q') :
    ∃ route, m.resolveRelationship t path = .ok route ∧
      ((∀ d, q.nestedAt? path = some d → d.nodes = []) →
        ∀ c ∈ route.last.child.entity.columns, q'.Leaf (path.child c.member)) ∧
      (∀ d, q.nestedAt? path = some d → d.nodes ≠ [] → ∀ p, q'.Leaf p → q.Leaf p) := by
  obtain ⟨inner, x, inner', hopen, hinner', rfl⟩ := changeNested_eq_ok.1 h
  obtain ⟨⟨route, hroute, hplaced⟩, -⟩ := hq.openNested hopen
  have hnested := nestedAt?_of_openNested hopen
  have hroot := (placed_iff.1 hplaced).1
  refine ⟨route, hroute, fun hempty c hc => ?_, fun d hd hne p hp => ?_⟩
  · have hall : inner' = inner.selectAll m := by
      cases hinner'
      rcases openNested_eq_ok.1 hopen with ⟨hold, -⟩ | ⟨hnew, -⟩
      · simp [hold, orAll, hempty inner hold]
      · simp [hnew]
    rw [hall]
    exact .setNested hnested (leaf_selectAll (hroot ▸ hc))
  · have hsame : inner' = inner := by
      cases hinner'
      rcases openNested_eq_ok.1 hopen with ⟨hold, -⟩ | ⟨hnew, -⟩
      · cases hd.symm.trans hold
        simp [hold, orAll, hne]
      · cases hd.symm.trans hnew
    exact .of_outer hopen (.of_setNested hnested (fun _ hrest => hsame ▸ hrest) hp)

/-- **A relationship that is included** has all columns of its table, unless something is selected
in its document already. Then no column is added at all. -/
theorem leaves_includeRelated (hq : q.Placed m P t) (h : q.includeRelated m path = .ok q') :
    ∃ route, m.resolveRelationship t path = .ok route ∧
      ((∀ d, q.documentAt? m path = some d → d.nodes = []) →
        ∀ c ∈ route.last.child.entity.columns, q'.Leaf (path.child c.member)) ∧
      (∀ d, q.documentAt? m path = some d → d.nodes ≠ [] → ∀ p, q'.Leaf p → q.Leaf p) := by
  induction hn : path.length using Nat.strongRecOn generalizing q q' path t with
  | ind k ih =>
    subst hn
    obtain rfl := (placed_iff.1 hq).1
    rcases includeRelated_cases h with ⟨n, henters, h⟩ | ⟨henters, h⟩
    · have hlt := length_drop_of_enters henters
      obtain ⟨inner, x, inner', hopen, hinner', rfl⟩ := changeNested_eq_ok.1 h
      obtain ⟨⟨route, hroute, hinner⟩, -⟩ := hq.openNested hopen
      obtain ⟨route', hroute', hall, hsub⟩ := ih _ hlt hinner hinner' rfl
      have hnested := nestedAt?_of_openNested hopen
      rw [documentAt?, levelAt?_of_enters henters hopen]
      refine ⟨_, Path.take_append_drop path n ▸ Model.resolveRelationship_append hroute hroute',
        fun hempty c hc => ?_, fun d hd hne p hp => ?_⟩
      · have hleaf := Leaf.setNested hnested (hall hempty c hc)
        rwa [Path.append_child, Path.take_append_drop] at hleaf
      · exact .of_outer hopen (.of_setNested hnested (hsub d hd hne) hp)
    · rw [documentAt?, levelAt?_of_not_enters henters]
      exact leaves_includeAt hq h

end SelectQuery

/-- **What a request leaves behind** in a query that operations have made of a table. All columns of
the table behind an included relationship are there exactly if its document had nothing selected
before, or they were there already. A column that is selected is there, and one that is selected
under a name has the name that it had before or else the one that was asked for. -/
theorem build_requests {q : SelectQuery} (hq : SelectQuery.Builds m P (.ofTable t) q) :
    (∀ p q', q.includeRelated m p = .ok q' →
      ∃ route, m.resolveRelationship t p = .ok route ∧
        ((∀ c ∈ route.last.child.entity.columns, q'.Leaf (p.child c.member)) ↔
          (∀ d, q.documentAt? m p = some d → d.nodes = []) ∨
            ∀ c ∈ route.last.child.entity.columns, q.Leaf (p.child c.member))) ∧
    (∀ p r q', m.resolve t p = .ok r → q.select m p = .ok q' → q'.Leaf p) ∧
    (∀ p label q', q.selectAs m p label = .ok q' →
      q'.Leaf p ∧ q'.columnAt? m p = some ((q.columnAt? m p).getD (some label))) := by
  have hplaced : q.Placed m P t := hq.placed (SelectQuery.placed_ofTable t)
  have hroot := (SelectQuery.placed_iff.1 hplaced).1
  refine ⟨fun p q' h => ?_, fun p r q' hr h => ?_, fun p label q' h => ?_⟩
  · obtain ⟨route, hroute, hall, hsub⟩ := SelectQuery.leaves_includeRelated hplaced h
    refine ⟨route, hroute, fun hleaves => ?_, fun hor c hc => ?_⟩
    · by_cases hempty : ∀ d, q.documentAt? m p = some d → d.nodes = []
      · exact .inl hempty
      · simp only [not_forall] at hempty
        obtain ⟨d, hd, hne⟩ := hempty
        exact .inr fun c hc => hsub d hd hne _ (hleaves c hc)
    · rcases hor with hempty | hold
      · exact hall hempty c hc
      · have hsteps := SelectQuery.steps_includeRelated (A := fun _ => True) (fun _ => ⟨⟩) h
        exact hsteps.leaf _ (hold c hc)
  · exact SelectQuery.leaf_of_columnAt? (SelectQuery.columnAt?_addPath hplaced hr h)
  · obtain ⟨r, hr, h⟩ := bind_eq_ok.1 h
    have hcolumn := SelectQuery.columnAt?_addPath hplaced (hroot ▸ hr) h
    exact ⟨SelectQuery.leaf_of_columnAt? hcolumn, hcolumn⟩

namespace Shop

/-- The orders with the articles on their lines. -/
def lineArticles : Except QueryError SelectQuery :=
  (SelectQuery.ofTable orders).select (model plain) ⟨["lines", "sku"]⟩

/-- The customer of an order. -/
def orderCustomer : Relationship :=
  (model plain).unfold orders ⟨"customer", .oneToOne, "Customer", "customer_id", "id", none, []⟩
    customer

theorem resolve_customer :
    (model plain).resolveRelationship orders ⟨["customer"]⟩ = .ok ⟨[], orderCustomer⟩ := rfl

end Shop

/-- A customer that is included has a name, and another column of the lines, in the document that is
there, the name that was asked for. -/
theorem build_lineArticles_requests :
    ∃ q q₁ q₂, Shop.lineArticles = .ok q ∧
      q.includeRelated (Shop.model Shop.plain) ⟨["customer"]⟩ = .ok q₁ ∧
      q₁.Leaf ⟨["customer", "name"]⟩ ∧
      q.selectAs (Shop.model Shop.plain) ⟨["lines", "id"]⟩ "line" = .ok q₂ ∧
      q₂.columnAt? (Shop.model Shop.plain) ⟨["lines", "id"]⟩ = some (some "line") := by
  have hbefore : (Shop.lineArticles >>= fun q =>
      q.includeRelated (Shop.model Shop.plain) ⟨["customer"]⟩ >>= fun _ =>
        (q.selectAs (Shop.model Shop.plain) ⟨["lines", "id"]⟩ "line").map fun _ =>
          ((q.documentAt? (Shop.model Shop.plain) ⟨["customer"]⟩).isNone,
            q.columnAt? (Shop.model Shop.plain) ⟨["lines", "id"]⟩)) = .ok (true, none) := by
    cbv
  obtain ⟨q, hq, hbefore⟩ := bind_eq_ok.1 hbefore
  obtain ⟨q₁, hq₁, hbefore⟩ := bind_eq_ok.1 hbefore
  obtain ⟨hinclude, -, has⟩ := build_requests (m := Shop.model Shop.plain) (P := fun _ => True)
    (t := Shop.orders) (.select (.refl _) hq)
  obtain ⟨route, hroute, hleaves⟩ := hinclude _ _ hq₁
  cases Shop.resolve_customer.symm.trans hroute
  obtain ⟨q₂, hq₂, hbefore⟩ := map_eq_ok.1 hbefore
  simp only [Prod.mk.injEq, Option.isNone_iff_eq_none] at hbefore
  obtain ⟨hdocument, hcolumn⟩ := hbefore
  refine ⟨q, q₁, q₂, hq, hq₁, ?_, hq₂, ?_⟩
  · refine hleaves.2 (.inl fun d hd => ?_) (Shop.column "name") (by decide)
    cases hdocument.symm.trans hd
  · rw [(has _ _ _ hq₂).2, hcolumn]
    rfl

/-- Where something was selected in a document, its other columns are not included, and a column
that was selected does not get a name. -/
theorem build_requests_dropped :
    (Shop.lineArticles >>= fun q =>
      (q.includeRelated (Shop.model Shop.plain) ⟨["lines"]⟩).map fun q' =>
        (q'.documentAt? (Shop.model Shop.plain) ⟨["lines"]⟩).map (·.nodes.map (·.columnPath?))) =
        .ok (some [some ⟨["sku"]⟩]) ∧
      (Shop.lineArticles >>= fun q =>
        (q.selectAs (Shop.model Shop.plain) ⟨["lines", "sku"]⟩ "article").map fun q' =>
          q'.columnAt? (Shop.model Shop.plain) ⟨["lines", "sku"]⟩) = .ok (some none) := by
  constructor
  · cbv
  · cbv

end EntityQuery
