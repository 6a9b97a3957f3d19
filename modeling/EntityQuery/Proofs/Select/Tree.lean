import EntityQuery.Proofs.Select.Steps
import Mathlib

/-!
# The tree of a built selection

What every operation keeps at every level of a selection, whatever is moved between the levels:

* the columns of a level are different, and so are the paths of its nested queries (`Distinct`);
* the columns are found without a fan-out, and so are the rows that nested queries belong to; a
  nested query starts at the table that its path leads to (`Resolved`).

And no column is lost (`Steps.leaf`): one that is moved into a nested query has the same path from
the outermost query as before.

**All columns.** A selection of all columns goes along one-to-one relationships and takes down
their members, which are looked up again later. This leads to the same relationships only if no two
relationships of an entity have one member (`Model.MembersDiffer`); otherwise the first of them is
taken, which may fan out.
-/

namespace EntityQuery

open SelectQuery (isBelow rebase eagerPaths)

variable {m : Model} {t : Table} {P : Table → Prop}

/-! ## All columns -/

namespace Model

/-- No two relationships of an entity have the same member. -/
def MembersDiffer (m : Model) : Prop := ∀ e ∈ m.entities, (e.relations.map (·.member)).Nodup

/-- Then a relationship is found by its member. -/
theorem relationship?_member {r : Relationship} (hm : m.MembersDiffer) (ht : m.Covers t)
    (hr : r ∈ m.relationships t) : m.relationship? t r.member = some r := by
  have hnodup := hm t.entity ht
  obtain ⟨rel, hrel, hunfold⟩ := List.mem_filterMap.1 hr
  obtain ⟨target, htarget, rfl⟩ := Option.map_eq_some_iff.1 hunfold
  rw [member_unfold, relationship?]
  generalize t.entity.relations = rels at hnodup hrel
  induction rels with
  | nil => simp at hrel
  | cons first rest ih =>
    rw [List.map_cons, List.nodup_cons] at hnodup
    rw [List.findSome?_cons]
    rcases List.mem_cons.1 hrel with rfl | hrest
    · rw [if_pos rfl, htarget, Option.map_some]
    · have hne : first.member ≠ rel.member := by
        intro heq
        exact hnodup.1 (heq ▸ List.mem_map_of_mem hrest)
      rw [if_neg hne]
      exact ih hnodup.2 hrest

/-- A column of the table at the end of a walk without a fan-out. -/
theorem resolve_child {base : Path} {hops : List Relationship} {c : EntityColumn}
    (hwalk : m.walk? t base = some hops) (hone : ∀ r ∈ hops, r.fansOut = false)
    (hc : c ∈ (endOf t hops).entity.columns) :
    ∃ r, m.resolve t (base.child c.member) = .ok r ∧ r.crossesMany = false := by
  obtain ⟨column, hcolumn⟩ : ∃ column, (endOf t hops).column? c.member = some column := by
    refine Option.isSome_iff_exists.1 (List.find?_isSome.2 ⟨c, hc, ?_⟩)
    exact beq_self_eq_true _
  exact ⟨_, resolve_concat hwalk hcolumn, Resolution.crossesMany_eq_false.2 hone⟩

/-- The columns of all tables that are one-to-one relationships away. -/
theorem resolve_eagerPaths (hm : m.MembersDiffer) {depth : Nat} {visited : List String}
    {base : Path} {hops : List Relationship} (hend : m.Covers (endOf t hops))
    (hwalk : m.walk? t base = some hops) (hone : ∀ r ∈ hops, r.fansOut = false) :
    ∀ path ∈ eagerPaths m depth visited (endOf t hops) base,
      ∃ r, m.resolve t path = .ok r ∧ r.crossesMany = false := by
  induction depth generalizing visited base hops with
  | zero =>
    rw [eagerPaths, List.append_nil, List.forall_mem_map]
    exact fun c hc => resolve_child hwalk hone hc
  | succ depth ih =>
    rw [eagerPaths, List.forall_mem_append, List.forall_mem_map]
    refine ⟨fun c hc => resolve_child hwalk hone hc, fun path hpath => ?_⟩
    obtain ⟨r, hr, hpath⟩ := List.mem_flatMap.1 hpath
    dsimp only at hpath
    split at hpath
    · simp at hpath
    · rename_i hgo
      simp only [Bool.or_eq_true, not_or, Bool.not_eq_true] at hgo
      have hmember := relationship?_member hm hend hr
      have hchild : endOf t (hops ++ [r]) = r.child := by
        rw [endOf_append]
        rfl
      have hwalk' : m.walk? t (base.child r.member) = some (hops ++ [r]) :=
        walkMembers?_append.2
          ⟨hops, [r], hwalk, walkMembers?_cons.2 ⟨r, [], hmember, rfl, rfl⟩, rfl⟩
      rw [← hchild] at hpath
      refine ih ?_ hwalk' ?_ path hpath
      · rw [hchild]
        exact (relates_of_relationship? hmember).covers_child
      · exact List.forall_mem_append.2 ⟨hone, List.forall_mem_singleton.2 hgo.1⟩

end Model

namespace SelectQuery

variable {q q' inner : SelectQuery} {path via : Path}

theorem Lists.resolve (hm : m.MembersDiffer) (hroot : m.Covers q.root) (h : q.Lists m path) :
    ∃ r, m.resolve q.root path = .ok r ∧ r.crossesMany = false := by
  rcases h with h | h
  · exact h
  · have hstart : m.Covers (Model.endOf q.root []) := hroot
    exact Model.resolve_eagerPaths hm hstart rfl (by simp) path h

end SelectQuery

/-! ## Distinct paths -/

def SelectNode.columnPath? : SelectNode → Option Path
  | .column path _ => some path
  | .function .. | .case .. | .nested .. => none

def SelectNode.nestedPath? : SelectNode → Option Path
  | .nested path _ _ => some path
  | .column .. | .function .. | .case .. => none

theorem SelectNode.columnPath?_rebase (via : Path) (node : SelectNode) :
    (rebase via node).columnPath? = node.columnPath?.map (·.drop via.length) := by
  cases node <;> rfl

theorem SelectNode.nestedPath?_rebase (via : Path) (node : SelectNode) :
    (rebase via node).nestedPath? = node.nestedPath?.map (·.drop via.length) := by
  cases node <;> rfl

/-- What lies below a path is that path and a rest. -/
theorem Path.append_drop {path via : Path} (h : path.continues via = true) :
    via ++ path.drop via.length = path := by
  obtain ⟨rest, -, hrest⟩ := Path.continues_iff.1 h
  rw [drop_eq hrest]
  exact congrArg Path.mk hrest.symm

/-- What lies below a path is told apart by the rest of its path. -/
theorem Path.drop_inj {path path' via : Path} (h : path.continues via = true)
    (h' : path'.continues via = true) (heq : path.drop via.length = path'.drop via.length) :
    path = path' := by
  obtain ⟨rest, -, hrest⟩ := Path.continues_iff.1 h
  obtain ⟨rest', -, hrest'⟩ := Path.continues_iff.1 h'
  rw [drop_eq hrest, drop_eq hrest'] at heq
  cases heq
  obtain ⟨segments⟩ := path
  obtain ⟨segments'⟩ := path'
  exact congrArg Path.mk (hrest.trans hrest'.symm)

namespace SelectQuery

variable {q q' inner : SelectQuery} {path via : Path}

/-- No column is selected twice and no relationship opened twice. -/
structure Distinct (q : SelectQuery) : Prop where
  columns : (q.nodes.filterMap (·.columnPath?)).Nodup
  nested : (q.nodes.filterMap (·.nestedPath?)).Nodup

section

variable {kind : SelectNode → Option Path} {nodes : List SelectNode} {node : SelectNode}

theorem nodup_concat (h : (nodes.filterMap kind).Nodup)
    (hnew : ∀ p, kind node = some p → ∀ x ∈ nodes, kind x ≠ some p) :
    ((nodes ++ [node]).filterMap kind).Nodup := by
  rw [List.filterMap_append]
  cases hnode : kind node with
  | none => simpa [hnode] using h
  | some p =>
    rw [List.filterMap_cons_some hnode]
    refine List.Nodup.append h (List.nodup_singleton p) (List.disjoint_singleton.2 fun hmem => ?_)
    obtain ⟨x, hx, hkind⟩ := List.mem_filterMap.1 hmem
    exact hnew p hnode x hx hkind

/-- Paths of one kind stay different below a relationship. -/
theorem nodup_below (hpath : ∀ node p, kind node = some p → node.path? = some p)
    (hrebase : ∀ node, kind (rebase via node) = (kind node).map (·.drop via.length))
    (h : (nodes.filterMap kind).Nodup) :
    (((nodes.filter (isBelow via)).map (rebase via)).filterMap kind).Nodup := by
  have hmap : ((nodes.filter (isBelow via)).map (rebase via)).filterMap kind =
      ((nodes.filter (isBelow via)).filterMap kind).map (·.drop via.length) := by
    rw [List.filterMap_map, List.map_filterMap]
    exact congrArg (List.filterMap · _) (funext hrebase)
  have hbelow : ∀ p ∈ (nodes.filter (isBelow via)).filterMap kind, p.continues via = true := by
    intro p hp
    obtain ⟨node, hnode, hkind⟩ := List.mem_filterMap.1 hp
    have hbelow := (List.mem_filter.1 hnode).2
    rwa [isBelow, hpath node p hkind, Option.any_some] at hbelow
  rw [hmap]
  refine List.Nodup.map_on ?_ (h.sublist (List.filter_sublist.filterMap kind))
  exact fun p hp p' hp' heq => Path.drop_inj (hbelow p hp) (hbelow p' hp') heq

end

theorem kept_distinct (m : Model) (A : SelectNode → Prop) : Kept m A Distinct where
  column := by
    intro q path label h _ hnew _
    refine ⟨nodup_concat h.columns fun p hp x hx heq => ?_,
      nodup_concat h.nested (by simp [SelectNode.nestedPath?])⟩
    have hnot := List.any_eq_false.1 hnew x hx
    cases hp
    cases x <;> simp_all [SelectNode.columnPath?, SelectNode.isColumn]
  value := by
    intro q node h _ hnode
    cases node with
    | column => cases hnode
    | nested => cases hnode
    | function => exact ⟨nodup_concat h.columns (by simp [SelectNode.columnPath?]),
        nodup_concat h.nested (by simp [SelectNode.nestedPath?])⟩
    | case => exact ⟨nodup_concat h.columns (by simp [SelectNode.columnPath?]),
        nodup_concat h.nested (by simp [SelectNode.nestedPath?])⟩
  opened := by
    intro q via route h hnew _ _
    have hkept : ∀ kind : SelectNode → Option Path, (q.nodes.filterMap kind).Nodup →
        ((q.nodes.filter (!isBelow via ·)).filterMap kind).Nodup := fun kind h =>
      h.sublist (List.filter_sublist.filterMap kind)
    refine ⟨⟨nodup_concat (hkept _ h.columns) (by simp [SelectNode.columnPath?]),
      nodup_concat (hkept _ h.nested) fun p hp x hx heq => ?_⟩, ⟨?_, ?_⟩⟩
    · have hnot := List.findSome?_eq_none_iff.1 hnew x (List.mem_filter.1 hx).1
      cases hp
      cases x <;> simp_all [SelectNode.nestedPath?, SelectNode.nestedAt?]
    · refine nodup_below (fun node p hp => ?_) (SelectNode.columnPath?_rebase via) h.columns
      cases node <;> simp_all [SelectNode.columnPath?, SelectNode.path?]
    · refine nodup_below (fun node p hp => ?_) (SelectNode.nestedPath?_rebase via) h.nested
      cases node <;> simp_all [SelectNode.nestedPath?, SelectNode.path?]
  inside := by
    intro q inner inner' via h hinner _
    obtain ⟨before, r, after, hnodes, hset⟩ := exists_setNested hinner
    obtain ⟨hcolumns, hnested⟩ := h
    rw [hnodes] at hcolumns hnested
    refine ⟨?_, ?_⟩
    · rw [hset]
      simpa [SelectNode.columnPath?] using hcolumns
    · rw [hset]
      simpa [SelectNode.nestedPath?] using hnested
  other := by
    intro q q' h _ hnodes
    exact ⟨hnodes ▸ h.columns, hnodes ▸ h.nested⟩

/-! ## Places -/

/-- The query stands at a position of the model, its columns are found from there without a fan-out,
and nested queries stand where their paths lead, which fan out at their ends only. -/
structure Resolved (m : Model) (q : SelectQuery) : Prop where
  root : m.Covers q.root
  columns : ∀ path label, .column path label ∈ q.nodes →
    ∃ r, m.resolve q.root path = .ok r ∧ r.crossesMany = false
  nested : ∀ path r inner, .nested path r inner ∈ q.nodes →
    ∃ before, m.resolveRelationship q.root path = .ok ⟨before, r⟩ ∧
      (∀ hop ∈ before, hop.fansOut = false) ∧ inner.root = r.child

/-- What a level takes from another is found from its own table. -/
theorem Resolved.openedAt {route : Route} (h : q.Resolved m)
    (hroute : m.resolveRelationship q.root via = .ok route) :
    (q.openedAt via route.last).Resolved m := by
  refine ⟨?_, fun path label hnode => ?_, fun path r inner hnode => ?_⟩
  · exact (Model.walk_of_resolveRelationship hroute).2.covers_child
  · obtain ⟨p, hmem, hbelow, rfl⟩ := column_of_mem_openedAt hnode
    obtain ⟨r, hresolve, hone⟩ := h.columns p label hmem
    obtain ⟨hops, hdrop, hhops⟩ := Model.resolve_drop hroute hresolve hbelow
    refine ⟨_, hdrop, Resolution.crossesMany_eq_false.2 fun hop hhop => ?_⟩
    rw [Resolution.crossesMany_eq_false, hhops, List.forall_mem_append] at hone
    exact hone.2 hop hhop
  · obtain ⟨p, hmem, hbelow, rfl⟩ := nested_of_mem_openedAt hnode
    obtain ⟨before, hp, hone, hroot⟩ := h.nested p r inner hmem
    obtain ⟨before', hdrop, hhops⟩ := Model.resolveRelationship_drop hroute hp hbelow
    obtain rfl : before = route.hops ++ before' := hhops
    exact ⟨before', hdrop, (List.forall_mem_append.1 hone).2, hroot⟩

theorem kept_resolved (hm : m.MembersDiffer) (A : SelectNode → Prop) : Kept m A (Resolved m) where
  column := by
    intro q path label h _ _ hpath
    refine ⟨h.root, fun p l hnode => ?_, fun p r inner hnode => ?_⟩
    · rcases List.mem_append.1 hnode with hnode | hnode
      · exact h.columns p l hnode
      · cases List.mem_singleton.1 hnode
        exact hpath.resolve hm h.root
    · exact h.nested p r inner (by simpa using hnode)
  value := by
    intro q node h _ hvalue
    refine ⟨h.root, fun p l hnode => ?_, fun p r inner hnode => ?_⟩
    · rcases List.mem_append.1 hnode with hnode | hnode
      · exact h.columns p l hnode
      · rw [← List.mem_singleton.1 hnode] at hvalue
        cases hvalue
    · rcases List.mem_append.1 hnode with hnode | hnode
      · exact h.nested p r inner hnode
      · rw [← List.mem_singleton.1 hnode] at hvalue
        cases hvalue
  opened := by
    intro q via route h _ hroute hone
    refine ⟨⟨h.root, fun p l hnode => ?_, fun p r inner hnode => ?_⟩, h.openedAt hroute⟩
    · rcases List.mem_append.1 hnode with hnode | hnode
      · exact h.columns p l (List.mem_filter.1 hnode).1
      · cases List.mem_singleton.1 hnode
    · rcases List.mem_append.1 hnode with hnode | hnode
      · exact h.nested p r inner (List.mem_filter.1 hnode).1
      · cases List.mem_singleton.1 hnode
        exact ⟨route.before, hroute, hone, rfl⟩
  inside := by
    intro q inner inner' via h hinner hroot
    obtain ⟨before, r, after, hnodes, hset⟩ := exists_setNested hinner
    refine ⟨h.root, fun p l hnode => ?_, fun p s x hnode => ?_⟩
    · rw [hset] at hnode
      exact h.columns p l (by rw [hnodes]; simpa using hnode)
    · rw [hset, List.mem_append, List.mem_cons] at hnode
      rcases hnode with hnode | hnode | hnode
      · exact h.nested p s x (by rw [hnodes]; simp [hnode])
      · cases hnode
        obtain ⟨before', hvia, hone, hchild⟩ :=
          h.nested via r inner (hnodes ▸ List.mem_append_right before List.mem_cons_self)
        exact ⟨before', hvia, hone, hroot.trans hchild⟩
      · exact h.nested p s x (by rw [hnodes]; simp [hnode])
  other := by
    intro q q' h hroot hnodes
    refine ⟨hroot ▸ h.root, ?_, ?_⟩
    · rw [hroot, hnodes]
      exact h.columns
    · rw [hroot, hnodes]
      exact h.nested

/-! ## Leaves -/

/-- The column at the path is selected: here, or by a nested query that the path leads into. -/
inductive Leaf : SelectQuery → Path → Prop
  | column {q : SelectQuery} {path : Path} {label : Option String}
    (h : .column path label ∈ q.nodes) : Leaf q path
  | nested {q inner : SelectQuery} {path rest : Path} {r : Relationship}
    (hnode : .nested path r inner ∈ q.nodes) (h : Leaf inner rest) : Leaf q (path ++ rest)

theorem Leaf.of_subset (hnodes : q.nodes ⊆ q'.nodes) (h : q.Leaf path) : q'.Leaf path := by
  cases h with
  | column h => exact .column (hnodes h)
  | nested hnode h => exact .nested (hnodes hnode) h

/-- What lies below a relationship that opens has the same path through it. -/
theorem Leaf.withOpened {r : Relationship} (h : q.Leaf path) : (q.withOpened via r).Leaf path := by
  have hinner : SelectNode.nested via r (q.openedAt via r) ∈ (q.withOpened via r).nodes := by
    simp [SelectQuery.withOpened]
  cases h with
  | @column _ path label hnode =>
    by_cases hbelow : path.continues via = true
    · have hmem : SelectNode.column (path.drop via.length) label ∈ (q.openedAt via r).nodes :=
        List.mem_map.2 ⟨_, List.mem_filter.2 ⟨hnode, by simpa [isBelow, SelectNode.path?]⟩, rfl⟩
      rw [← Path.append_drop hbelow]
      exact .nested hinner (.column hmem)
    · refine .column (List.mem_append_left _ (List.mem_filter.2 ⟨hnode, ?_⟩))
      simpa [isBelow, SelectNode.path?] using hbelow
  | @nested _ inner path rest s hnode hleaf =>
    by_cases hbelow : path.continues via = true
    · have hmem : SelectNode.nested (path.drop via.length) s inner ∈ (q.openedAt via r).nodes :=
        List.mem_map.2 ⟨_, List.mem_filter.2 ⟨hnode, by simpa [isBelow, SelectNode.path?]⟩, rfl⟩
      have hassoc : path ++ rest = via ++ (path.drop via.length ++ rest) := by
        rw [← Path.append_assoc, Path.append_drop hbelow]
      rw [hassoc]
      exact .nested hinner (.nested hmem hleaf)
    · refine .nested (List.mem_append_left _ (List.mem_filter.2 ⟨hnode, ?_⟩)) hleaf
      simpa [isBelow, SelectNode.path?] using hbelow

/-- **No column is lost.** -/
theorem Steps.leaf {A : SelectNode → Prop} (h : Steps m A q q') :
    ∀ path, q.Leaf path → q'.Leaf path := by
  induction h with
  | refl => exact fun _ => id
  | trans _ _ ih ih' => exact fun path hpath => ih' path (ih path hpath)
  | column => exact fun _ => .of_subset (List.subset_append_left _ _)
  | value => exact fun _ => .of_subset (List.subset_append_left _ _)
  | opened => exact fun _ => .withOpened
  | @inside q inner inner' via hinner _ ih =>
    obtain ⟨before, r, after, hnodes, hset⟩ := exists_setNested hinner
    intro path hpath
    cases hpath with
    | @column _ path label hnode =>
      have hmem : .column path label ∈ (q.setNested via inner').nodes := by
        rw [hnodes] at hnode
        rw [hset]
        simpa using hnode
      exact .column hmem
    | @nested _ x path rest s hnode hleaf =>
      rw [hnodes, List.mem_append, List.mem_cons] at hnode
      rcases hnode with hnode | hnode | hnode
      · exact .nested (hset inner' ▸ List.mem_append_left _ hnode) hleaf
      · cases hnode
        exact .nested (hset inner' ▸ List.mem_append_right before List.mem_cons_self)
          (ih rest hleaf)
      · have hmem :=
          List.mem_append_right before (List.mem_cons_of_mem (.nested via r inner') hnode)
        exact .nested (hset inner' ▸ hmem) hleaf
  | other _ hnodes => exact fun _ => .of_subset (hnodes ▸ List.Subset.refl _)

end SelectQuery

/-- **The tree of a selection.** In every query that operations make of a table, and in every query
nested in it, the columns and the nested queries are distinct and found where they stand. And no
operation on any query loses a column. -/
theorem build_tree {q : SelectQuery} (hm : m.MembersDiffer) (ht : m.Covers t)
    (hq : SelectQuery.Builds m P (.ofTable t) q) :
    q.Everywhere (fun y => y.Distinct ∧ y.Resolved m) ∧
      ∀ x x', SelectQuery.Builds m P x x' → ∀ path, x.Leaf path → x'.Leaf path := by
  have hdistinct := hq.steps.everywhere (SelectQuery.kept_distinct m _)
    (SelectQuery.everywhere_ofTable ⟨by simp [SelectQuery.ofTable], by simp [SelectQuery.ofTable]⟩)
  have hresolved := hq.steps.everywhere (SelectQuery.kept_resolved hm _)
    (SelectQuery.everywhere_ofTable
      ⟨ht, by simp [SelectQuery.ofTable], by simp [SelectQuery.ofTable]⟩)
  exact ⟨fun y hy => ⟨hdistinct y hy, hresolved y hy⟩, fun x x' hx => hx.steps.leaf⟩

namespace Shop

theorem membersDiffer_model (naming : Naming) : (model naming).MembersDiffer := by
  simp [Model.MembersDiffer, model, order, customer, line, tag]

/-- All columns, and the labels of all lines; then the customer becomes a document. -/
def basket (naming : Naming) : Except QueryError SelectQuery := do
  let q ← (SelectQuery.ofTable orders).select (model naming) ⟨["lines", "tags", "label"]⟩
  (q.selectAll (model naming)).includeRelated (model naming) ⟨["customer"]⟩

/-- The name of the customer was a column of the order before. -/
theorem basket_paths (naming : Naming) :
    ((SelectQuery.ofTable orders).select (model naming) ⟨["lines", "tags", "label"]⟩ >>=
        fun first => (basket naming).map fun q =>
          ((first.selectAll (model naming)).nodes.any (·.isColumn ⟨["customer", "name"]⟩),
            q.nodes.map (·.path?))) =
      .ok (true, [some ⟨["lines"]⟩, some ⟨["id"]⟩, some ⟨["customer_id"]⟩,
        some ⟨["customer"]⟩]) := by
  -- This step is why all of Mathlib is imported: `cbv` declares the equations of core functions
  -- that it does not find.
  cbv

end Shop

/-- What was a column of the order is one of the document. -/
theorem build_basket_tree :
    ∃ q, Shop.basket Shop.plain = .ok q ∧
      q.nodes.map (·.path?) = [some ⟨["lines"]⟩, some ⟨["id"]⟩, some ⟨["customer_id"]⟩,
        some ⟨["customer"]⟩] ∧
      q.Everywhere (fun y => y.Distinct ∧ y.Resolved (Shop.model Shop.plain)) ∧
      q.Leaf ⟨["customer", "name"]⟩ := by
  obtain ⟨first, hfirst, hpaths⟩ := bind_eq_ok.1 (Shop.basket_paths Shop.plain)
  obtain ⟨q, hq, hpaths⟩ := map_eq_ok.1 hpaths
  simp only [Prod.mk.injEq] at hpaths
  have hinclude : (first.selectAll (Shop.model Shop.plain)).includeRelated
      (Shop.model Shop.plain) ⟨["customer"]⟩ = .ok q := by
    obtain ⟨first', hfirst', hinclude⟩ := bind_eq_ok.1 hq
    cases hfirst.symm.trans hfirst'
    exact hinclude
  obtain ⟨htree, hleaf⟩ := build_tree (P := fun _ => True) (Shop.membersDiffer_model _)
    (Shop.covers_orders _) (.includeRelated (.selectAll (.select (.refl _) hfirst)) hinclude)
  refine ⟨q, hq, hpaths.2, htree, hleaf _ q (.includeRelated (.refl _) hinclude) _ ?_⟩
  obtain ⟨node, hnode, hcolumn⟩ := List.any_eq_true.1 hpaths.1
  cases node with
  | column path label =>
    obtain rfl : path = ⟨["customer", "name"]⟩ := beq_iff_eq.1 hcolumn
    exact .column hnode
  | function => cases hcolumn
  | case => cases hcolumn
  | nested => cases hcolumn

end EntityQuery
