import EntityQuery.Proofs.Select.Conflict

/-!
# Selections of all columns

A model that was built has no relationship without a target and no primary key without a column, so
one may expect that all columns of any entity can be selected.

**Columns.** A selection of columns is written exactly if its columns and its orders are found
(`SelectQuery.compile_columns`).

**All columns** are taken down as paths while relationships are followed, and looked up again by
their members. They are found if no two relationships of an entity have one member.

**Windows** need an order, and without one the primary key or the first column is taken. Its member
is read as a path, which leads back to the column if the member is one name without blanks around
it.
-/

namespace EntityQuery

open Build
open EntityQuery.Sql (Dialect)

variable {m : Model} {t : Table} {d : Dialect} {f g : Frame}

/-! ## Columns -/

theorem exists_gives_joinSelected {path : Path} {r : Resolution}
    (h : m.resolve f.scope.root path = .ok r) : ∃ g, (joinSelected m path).Gives f r g := by
  obtain ⟨s, hs⟩ := Scope.exists_joinHops (Model.walk_of_resolve h).1 .select
  refine ⟨⟨s, f.ctes⟩, ?_⟩
  simp only [joinSelected, gives_bind, gives_root, gives_lift, gives_join, gives_pure]
  exact ⟨_, _, ⟨rfl, rfl⟩, r, _, ⟨h, rfl⟩, ⟨⟩, _, ⟨s, hs, rfl⟩, rfl, rfl⟩

def SelectNode.IsColumn : SelectNode → Prop
  | .column .. => True
  | .function .. | .case .. | .nested .. => False

/-- Columns that are found are written, without nested queries. -/
theorem exists_gives_columns {nodes : List SelectNode} (hcolumns : ∀ node ∈ nodes, node.IsColumn)
    (h : ∀ path label, .column path label ∈ nodes → m.Resolves f.scope.root path) :
    ∃ parts g, (assembleAll m d nodes).Gives f parts g ∧ parts.nested = [] := by
  induction nodes generalizing f with
  | nil =>
    refine ⟨.empty, f, ?_, rfl⟩
    rw [assembleAll, gives_pure]
    exact ⟨rfl, rfl⟩
  | cons node nodes ih =>
    rw [List.forall_mem_cons] at hcolumns
    obtain ⟨hnode, hrest⟩ := hcolumns
    cases node with
    | column path label =>
      obtain ⟨r, hr⟩ := h path label List.mem_cons_self
      obtain ⟨f₁, hf₁⟩ := exists_gives_joinSelected hr
      have hroot := (adds_joinSelected hf₁).grows.scope.root
      have hfound : ∀ path label, .column path label ∈ nodes → m.Resolves f₁.scope.root path := by
        intro path' label' hmem
        rw [hroot]
        exact h path' label' (List.mem_cons_of_mem _ hmem)
      obtain ⟨parts, g, hparts, hnested⟩ := ih hrest hfound
      simp only [assembleAll, SelectNode.assemble, gives_bind, gives_pure]
      exact ⟨_, g, ⟨_, f₁, ⟨r, f₁, hf₁, rfl, rfl⟩, parts, g, hparts, rfl, rfl⟩, hnested⟩
    | function => exact hnode.elim
    | case => exact hnode.elim
    | nested => exact hnode.elim

/-- A column that is found can be ordered by, also if it fans out. -/
theorem Ordered.not_throws_add {acc : Ordered} {nested : List NestedItem} {o : OrderBy}
    {e : QueryError} (h : m.Resolves f.scope.root o.path) : ¬ (acc.add m nested o).Throws f e := by
  intro hthrows
  obtain ⟨r, hr⟩ := h
  have hwalk := (Model.walk_of_resolve hr).1
  simp only [Ordered.add, throws_bind, not_throws_root, gives_root, throws_lift, gives_lift,
    false_or] at hthrows
  obtain ⟨_, _, ⟨rfl, rfl⟩, herror | ⟨r', _, ⟨hr', rfl⟩, hthrows⟩⟩ := hthrows
  · cases hr.symm.trans herror
  cases hr.symm.trans hr'
  rcases r.splitMany?_cases with ⟨hsplit, -⟩ | ⟨before, many, after, hsplit, hhops, -, -⟩
  · simp only [hsplit, throws_bind, throws_join, not_throws_pure, and_false, exists_false,
      or_false] at hthrows
    exact Scope.joinHops_ne_error hwalk hthrows
  · rw [hhops, Model.walk_append] at hwalk
    obtain ⟨hbefore, hrest⟩ := hwalk
    simp only [hsplit, throws_bind, throws_join, throws_lift, not_throws_pure, and_false,
      exists_false, or_false] at hthrows
    rcases hthrows with herror | ⟨_, _, -, herror⟩
    · exact Scope.joinHops_ne_error hbefore herror
    · -- The related rows are a scope of their own, in which the rest of the path starts.
      cases hrest with
      | cons hmany hafter =>
        rcases bind_eq_error.1 herror with herror | ⟨_, -, herror⟩
        · exact Scope.joinHops_ne_error (s := .ofRelationship many) hafter herror
        · cases herror

theorem Ordered.exists_gives_foldlM (acc : Ordered) (nested : List NestedItem)
    {orders : List OrderBy} (h : ∀ o ∈ orders, m.Resolves f.scope.root o.path) :
    ∃ acc' g, (orders.foldlM (Ordered.add m nested) acc).Gives f acc' g := by
  induction orders generalizing f acc with
  | nil => exact ⟨acc, f, gives_pure.2 ⟨rfl, rfl⟩⟩
  | cons o orders ih =>
    rw [List.forall_mem_cons] at h
    rw [List.foldlM_cons]
    simp only [gives_bind]
    obtain ⟨acc₁, f₁, hadd⟩ | ⟨e, hadd⟩ := gives_or_throws (acc.add m nested o) f
    · have hroot := (adds_add hadd).grows.scope.root
      obtain ⟨acc', g, hrest⟩ := ih acc₁ (hroot.symm ▸ h.2)
      exact ⟨acc', g, acc₁, f₁, hadd, hrest⟩
    · exact absurd hadd (not_throws_add h.1)

/-- What is written was found. -/
theorem resolves_of_assembleAll {nodes : List SelectNode} {parts : Parts}
    (h : (assembleAll m d nodes).Gives f parts g) :
    ∀ path label, .column path label ∈ nodes → m.Resolves f.scope.root path := by
  induction nodes generalizing f parts with
  | nil => simp
  | cons node nodes ih =>
    obtain ⟨part, f₁, rest, hpart, hrest, -⟩ := gives_assembleAll_cons h
    intro path label hmem
    rcases List.mem_cons.1 hmem with rfl | hmem
    · obtain ⟨r, hr, -⟩ := gives_assemble_column hpart
      exact ⟨r, (gives_joinSelected hr).1⟩
    · rw [← (node.adds_assemble hpart).grows.scope.root]
      exact ih hrest path label hmem

theorem Ordered.resolves_of_foldlM {acc acc' : Ordered} {nested : List NestedItem}
    {orders : List OrderBy}
    (h : (orders.foldlM (Ordered.add m nested) acc).Gives f acc' g) :
    ∀ o ∈ orders, m.Resolves f.scope.root o.path := by
  induction orders generalizing f acc with
  | nil => simp
  | cons o orders ih =>
    rw [List.foldlM_cons, gives_bind] at h
    obtain ⟨acc₁, f₁, hadd, hrest⟩ := h
    obtain ⟨r, -, hr, -⟩ := gives_add hadd
    have hroot := (adds_add hadd).grows.scope.root
    exact List.forall_mem_cons.2 ⟨⟨r, hr⟩, hroot ▸ ih hrest⟩

namespace SelectQuery

/-- **A selection of columns** is written exactly if its columns and its orders are found. -/
theorem compile_columns {q : SelectQuery} (hcolumns : ∀ node ∈ q.nodes, node.IsColumn)
    (hfilter : q.filter = none) (d : Dialect) :
    (∃ c, q.compile m d = .ok c) ↔
      (∀ path label, .column path label ∈ q.nodes → m.Resolves q.root path) ∧
        ∃ orders, ordersOf q.root q.order q.paging = .ok orders ∧
          ∀ o ∈ orders, m.Resolves q.root o.path := by
  constructor
  · intro h
    obtain ⟨c, hc⟩ := h
    obtain ⟨l, g, hassemble, -⟩ := compile_eq_ok hc
    obtain ⟨condition, f₁, parts, f₂, orders, ordered, hcondition, hparts, horders, hordered, -⟩ :=
      gives_assemble hassemble
    rw [hfilter] at hcondition
    obtain ⟨-, -, rfl⟩ | ⟨_, hnone, -⟩ := gives_compileFilter.1 hcondition
    · refine ⟨resolves_of_assembleAll hparts, orders, horders, ?_⟩
      have hroot := (adds_assembleAll q.nodes hparts).grows.scope.root
      have hfound := Ordered.resolves_of_foldlM hordered
      rw [hroot] at hfound
      exact hfound
    · cases hnone
  · intro h
    obtain ⟨hnodes, orders, horders, hfound⟩ := h
    obtain ⟨parts, f₂, hparts, hnested⟩ :=
      exists_gives_columns (d := d) (f := ⟨.ofTable m q.root, []⟩) hcolumns hnodes
    have hroot : f₂.scope.root = q.root := (adds_assembleAll q.nodes hparts).grows.scope.root
    obtain ⟨ordered, g, hordered⟩ := Ordered.exists_gives_foldlM
      ⟨parts.items, parts.keys, []⟩ parts.nested (hroot.symm ▸ hfound)
    have hassemble : ∃ l, (q.assemble m d none).Gives ⟨.ofTable m q.root, []⟩ l g := by
      obtain ⟨root, nodes, filter, order, paging, distinct, eagerDepth, ancestors⟩ := q
      simp only [SelectQuery.assemble, gives_bind, gives_root, gives_get, gives_lift, gives_pure]
      refine ⟨_, _, _, ⟨rfl, rfl⟩, none, _, gives_compileFilter.2 (.inl ⟨hfilter, rfl, rfl⟩), _, _,
        ⟨rfl, rfl⟩, parts, f₂, hparts, orders, _, ⟨horders, rfl⟩, ordered, g, hordered, ⟨⟩, _,
        ⟨?_, rfl⟩, _, _, ⟨rfl, rfl⟩, rfl, rfl⟩
      rw [hnested]
      rfl
    obtain ⟨l, hassemble⟩ := hassemble
    cases hc : q.compile m d with
    | ok c => exact ⟨c, rfl⟩
    | error e => exact absurd hassemble (throws_of_compile hc).not_gives

/-! ## All columns -/

/-- The second query has the columns of the first and those of the paths; what is not selected is
the same. -/
structure AddsColumns (q q' : SelectQuery) (paths : List Path) : Prop where
  root : q'.root = q.root
  filter : q'.filter = q.filter
  order : q'.order = q.order
  paging : q'.paging = q.paging
  columns : (∀ node ∈ q.nodes, node.IsColumn) → ∀ node ∈ q'.nodes, node.IsColumn
  mem : ∀ path, (∃ label, .column path label ∈ q'.nodes) ↔
    (∃ label, .column path label ∈ q.nodes) ∨ path ∈ paths

theorem addsColumns_addColumn (q : SelectQuery) (path : Path) :
    q.AddsColumns (q.addColumn path none) [path] := by
  rcases q.addColumn_cases path none with ⟨hany, heq⟩ | ⟨-, heq⟩
  · rw [heq]
    refine ⟨rfl, rfl, rfl, rfl, id, fun path' => ⟨.inl, fun h => ?_⟩⟩
    obtain h | h := h
    · exact h
    · obtain ⟨node, hnode, his⟩ := List.any_eq_true.1 hany
      cases node with
      | column p label =>
        rw [List.mem_singleton.1 h, ← eq_of_beq his]
        exact ⟨label, hnode⟩
      | function => cases his
      | case => cases his
      | nested => cases his
  · rw [heq]
    refine ⟨rfl, rfl, rfl, rfl, fun h => ?_, fun path' => ?_⟩
    · exact List.forall_mem_append.2 ⟨h, List.forall_mem_singleton.2 ⟨⟩⟩
    · simp only [List.mem_append, List.mem_singleton, SelectNode.column.injEq, exists_or,
        exists_and_left, exists_eq, and_true]

theorem AddsColumns.trans {q x q' : SelectQuery} {paths rest : List Path}
    (h : q.AddsColumns x paths) (h' : x.AddsColumns q' rest) :
    q.AddsColumns q' (paths ++ rest) where
  root := h'.root.trans h.root
  filter := h'.filter.trans h.filter
  order := h'.order.trans h.order
  paging := h'.paging.trans h.paging
  columns := h'.columns ∘ h.columns
  mem path := by rw [h'.mem, h.mem, List.mem_append, or_assoc]

theorem addsColumns_foldl (q : SelectQuery) (paths : List Path) :
    q.AddsColumns (paths.foldl (·.addColumn · none) q) paths := by
  induction paths generalizing q with
  | nil => exact ⟨rfl, rfl, rfl, rfl, id, by simp⟩
  | cons path paths ih => exact (q.addsColumns_addColumn path).trans (ih _)

/-- Every column that a selection of all columns adds is found. -/
def AllFound (m : Model) (q : SelectQuery) : Prop := ∀ path ∈ q.eager m, m.Resolves q.root path

end SelectQuery

/-- The column that a window is ordered by without another order is found by its member. -/
def Table.OrderFound (m : Model) (t : Table) : Prop :=
  ∃ c, t.primaryKey?.or t.entity.columns.head? = some c ∧ m.Resolves t (Path.parse c.member)

/-- Without an order, only a window makes one. -/
theorem ordersFound_iff {paging : Option Paging} :
    (∃ orders, ordersOf t [] paging = .ok orders ∧ ∀ o ∈ orders, m.Resolves t o.path) ↔
      (paging.any (·.isWindow) = true → t.OrderFound m) := by
  cases hwindow : paging.any (·.isWindow) with
  | false => simp [ordersOf, hwindow]
  | true =>
    cases hc : t.primaryKey?.or t.entity.columns.head? with
    | none => simp [ordersOf, hwindow, fallbackOrder, hc, Table.OrderFound, Except.map]
    | some c => simp [ordersOf, hwindow, fallbackOrder, hc, Table.OrderFound, Except.map]

/-- A member that is read as one name leads back to its column. -/
theorem Table.orderFound_of_parse (hne : t.entity.columns ≠ [])
    (hparse : ∀ c ∈ t.entity.columns, Path.parse c.member = ⟨[c.member]⟩) : t.OrderFound m := by
  have hsome : (t.primaryKey?.or t.entity.columns.head?).isSome = true := by
    simp [List.isSome_head?, hne]
  obtain ⟨c, hc⟩ := Option.isSome_iff_exists.1 hsome
  have hmem : c ∈ t.entity.columns := by
    rcases Option.or_eq_some_iff.1 hc with hkey | ⟨-, hhead⟩
    · obtain ⟨member, -, hcolumn⟩ := Option.bind_eq_some_iff.1 hkey
      exact List.mem_of_find?_eq_some hcolumn
    · exact List.mem_of_head? hhead
  have hwalk : m.walk? t Path.empty = some [] := rfl
  obtain ⟨r, hr, -⟩ := Model.resolve_child hwalk (List.forall_mem_nil _) hmem
  refine ⟨c, hc, r, ?_⟩
  rw [hparse c hmem]
  exact hr

/-- **When all columns can be selected.** The selection of all columns is written exactly if each of
them is found again, and with a window exactly if also the column is found that then orders the
rows. The columns are found if the relationships of every entity have different members, and the one
of the order if there is one and the members of columns are read as single names. -/
theorem compile_selectAll (ht : m.Covers t) (depth : Nat) (d : Dialect) :
    ((∃ c, ((SelectQuery.start t depth).selectAll m).compile m d = .ok c) ↔
      (SelectQuery.start t depth).AllFound m) ∧
    (∀ paging q, ((SelectQuery.start t depth).selectAll m).withPaging paging = .ok q →
      ((∃ c, q.compile m d = .ok c) ↔
        (SelectQuery.start t depth).AllFound m ∧ (paging.isWindow = true → t.OrderFound m))) ∧
    (m.MembersDiffer → (SelectQuery.start t depth).AllFound m) ∧
    (t.entity.columns ≠ [] →
      (∀ c ∈ t.entity.columns, Path.parse c.member = ⟨[c.member]⟩) → t.OrderFound m) := by
  have hadds := SelectQuery.addsColumns_foldl (SelectQuery.start t depth)
    ((SelectQuery.start t depth).eager m)
  rw [← SelectQuery.selectAll_eq] at hadds
  have hcolumns := hadds.columns (by simp [SelectQuery.start, SelectQuery.ofTable])
  have hnodes : (∀ path label, .column path label ∈
      ((SelectQuery.start t depth).selectAll m).nodes → m.Resolves t path) ↔
        (SelectQuery.start t depth).AllFound m := by
    constructor
    · intro h path hpath
      obtain ⟨label, hlabel⟩ := (hadds.mem path).2 (.inr hpath)
      exact h path label hlabel
    · intro h path label hlabel
      rcases (hadds.mem path).1 ⟨label, hlabel⟩ with ⟨_, hnone⟩ | hpath
      · cases hnone
      · exact h path hpath
  have hwritten : ∀ q : SelectQuery, q.root = t → q.filter = none → q.order = [] →
      q.nodes = ((SelectQuery.start t depth).selectAll m).nodes →
      ((∃ c, q.compile m d = .ok c) ↔ (SelectQuery.start t depth).AllFound m ∧
        (q.paging.any (·.isWindow) = true → t.OrderFound m)) := by
    intro q hroot hfilter horder hq
    rw [SelectQuery.compile_columns (hq ▸ hcolumns) hfilter, hroot, hq, hnodes, horder,
      ordersFound_iff]
  refine ⟨?_, fun paging q hq => ?_, fun hm => ?_, Table.orderFound_of_parse⟩
  · rw [hwritten _ hadds.root hadds.filter hadds.order rfl, hadds.paging]
    simp [SelectQuery.start, SelectQuery.ofTable]
  · rw [SelectQuery.withPaging_eq_ok hq]
    exact hwritten _ hadds.root hadds.filter hadds.order rfl
  · intro path hpath
    obtain ⟨r, hr, -⟩ := SelectQuery.Lists.resolve hm ht (.inr hpath)
    exact ⟨r, hr⟩

/-- The first page of all columns of orders and their customers. -/
theorem compile_selectAll_orders :
    (∃ c, ((SelectQuery.start Shop.orders 2).selectAll (Shop.model Shop.plain)).compile
      (Shop.model Shop.plain) .mySql = .ok c) ∧
    ∃ q c, ((SelectQuery.start Shop.orders 2).selectAll (Shop.model Shop.plain)).withPaging
      (.page 1 10) = .ok q ∧ q.compile (Shop.model Shop.plain) .mySql = .ok c := by
  obtain ⟨hall, hpaged, hfound, horder⟩ :=
    compile_selectAll (Shop.covers_orders Shop.plain) 2 .mySql
  have hfound := hfound (Shop.membersDiffer_model Shop.plain)
  obtain ⟨c, hc⟩ := (hpaged (.page 1 10) _ rfl).2 ⟨hfound, fun _ => horder (by decide) (by decide)⟩
  exact ⟨hall.2 hfound, _, c, rfl, hc⟩

/-! ## A desk

An entity with two relationships of one member, and one with a dot in the member of its key. -/

namespace Desk

def declarations : List EntityDecl :=
  [⟨"Order", "orders", none, some "id", ["id", "ref_id"].map Shop.columnDecl,
      [⟨"ref", .oneToOne, "Customer", some "ref_id", none, none, []⟩,
        ⟨"ref", .oneToOne, "Address", some "ref_id", none, none, []⟩]⟩,
    ⟨"Customer", "customers", none, some "number", ["number"].map Shop.columnDecl, []⟩,
    ⟨"Address", "addresses", none, some "city", ["city"].map Shop.columnDecl, []⟩,
    ⟨"Note", "notes", none, some "a.b", ["a.b"].map Shop.columnDecl, []⟩]

/-- All columns of an entity, with a window or without, written for PostgreSQL. -/
def written (entity : String) (paging : Option Paging) : Except QueryError CompiledQuery := do
  let m ← Model.build Parcel.sizes none declarations
  match m.entity? entity with
  | some e =>
    let q := (SelectQuery.start (Model.root e ⟨[1]⟩) 2).selectAll m
    (← paging.elim (.ok q) q.withPaging).compile m .postgreSql
  | none => throw (.unknownEntity entity)

end Desk

/-- The column that the second relationship leads to is looked for along the first, and the key is
looked for below a relationship. -/
theorem compile_desk_fails :
    Desk.written "Order" none = .error (.pathNotFound "Order" ⟨["ref", "city"]⟩) ∧
    Desk.written "Note" (some (.page 1 10)) = .error (.pathNotFound "Note" ⟨["a", "b"]⟩) := by
  constructor <;> cbv

end EntityQuery
