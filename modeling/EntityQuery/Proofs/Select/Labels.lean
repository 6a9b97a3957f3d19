import EntityQuery.Proofs.Select.Conflict

/-!
# Labels of output columns

A column that is selected without a name of its own has a label in the result, made of the identity
of its table and its name in the database. Rows of the result are read by these labels.

**Values.** Every value of a selection without names carries the label of its column
(`FlatItem.Labelled`). An order is selected only if no value is its column, so it never brings a
label in twice (`Labelled.foldlM`).

**Labels** are different as far as the columns in the database are: the result has one label twice
exactly if two members of one entity, selected along one path, are stored in one column
(`SelectQuery.Doubled`).
-/

namespace EntityQuery

open Build
open EntityQuery.Sql (Expr Dialect)

variable {m : Model} {t : Table} {d : Dialect} {f g : Frame}

/-! ## Labels of values -/

/-- The value is the column at its key, under the label of that column. -/
def FlatItem.Labelled (m : Model) (t : Table) (i : FlatItem) : Prop :=
  ∃ r, m.resolve t i.key = .ok r ∧ i.expr = m.columnExpr r.table r.column ∧
    i.label = m.columnAlias r.table r.column

theorem SelectNode.labelled_assemble {node : SelectNode} {parts : Parts} (hplain : node.Plain)
    (h : (node.assemble m d).Gives f parts g) :
    ∀ i ∈ parts.items, i.Labelled m f.scope.root := by
  cases node with
  | column path label =>
    obtain rfl : label = none := hplain
    obtain ⟨r, hr, rfl⟩ := gives_assemble_column h
    exact List.forall_mem_singleton.2 ⟨r, (gives_joinSelected hr).1, rfl, rfl⟩
  | nested path r query =>
    obtain ⟨_, _, _, _, -, -, -, -, rfl⟩ := gives_assemble_nested h
    simp [Parts.empty]
  | function => cases hplain
  | case => cases hplain

theorem labelled_assembleAll {nodes : List SelectNode} {parts : Parts}
    (hplain : ∀ node ∈ nodes, node.Plain) (h : (assembleAll m d nodes).Gives f parts g) :
    ∀ i ∈ parts.items, i.Labelled m f.scope.root := by
  induction nodes generalizing f parts with
  | nil =>
    rw [assembleAll] at h
    obtain ⟨rfl, -⟩ := gives_pure.1 h
    simp [Parts.empty]
  | cons node nodes ih =>
    rw [List.forall_mem_cons] at hplain
    obtain ⟨part, f₁, rest, hpart, hrest, rfl⟩ := gives_assembleAll_cons h
    have hroot := (node.adds_assemble hpart).grows.scope.root
    exact List.forall_mem_append.2
      ⟨node.labelled_assemble hplain.1 hpart, hroot ▸ ih hplain.2 hrest⟩

/-- Labels tell identities and names in the database apart. -/
def Naming.LabelsDiffer (n : Naming) : Prop :=
  ∀ id id' name name', n.columnAlias id name = n.columnAlias id' name' → id = id' ∧ name = name'

namespace Ordered

variable {acc acc' : Ordered} {nested : List NestedItem}

/-- An order brings in a column that is not there, under a label that is not there. -/
theorem labelled_add (hn : m.naming.LabelsDiffer) {o : OrderBy}
    (h : ∀ i ∈ acc.items, i.Labelled m f.scope.root)
    (hadd : (acc.add m nested o).Gives f acc' g) :
    (∀ i ∈ acc'.items, i.Labelled m f.scope.root) ∧
      ((acc'.items.map (·.label)).Nodup ↔ (acc.items.map (·.label)).Nodup) := by
  obtain ⟨r, s, hresolve, -, ⟨-, -, rfl⟩ | ⟨before, many, after, q, -, -, -, -, -, rfl⟩⟩ :=
    gives_add hadd
  · dsimp only
    split
    · rename_i hnew
      rw [Bool.and_eq_true, Bool.not_eq_true', Bool.not_eq_true', List.any_eq_false,
        List.any_eq_false] at hnew
      refine ⟨List.forall_mem_append.2 ⟨h, List.forall_mem_singleton.2 ⟨r, hresolve, rfl, rfl⟩⟩, ?_⟩
      have hlabel : m.columnAlias r.table r.column ∉ acc.items.map (·.label) := by
        intro hmem
        obtain ⟨i, hi, hlabel⟩ := List.mem_map.1 hmem
        obtain ⟨r', -, hexpr, hlabel'⟩ := h i hi
        obtain ⟨hid, hname⟩ := hn _ _ _ _ (hlabel'.symm.trans hlabel)
        refine hnew.2 i hi ?_
        rw [hexpr]
        simp [Model.columnExpr, Model.aliasOf, Expr.ofTable, Expr.eqv, hid, hname]
      rw [List.map_append, List.map_singleton, List.nodup_append']
      exact ⟨And.left, fun hnodup =>
        ⟨hnodup, List.nodup_singleton _, List.disjoint_singleton.2 hlabel⟩⟩
    · rw [List.append_nil]
      exact ⟨h, Iff.rfl⟩
  · exact ⟨h, Iff.rfl⟩

/-- **Orders bring in no label twice.** -/
theorem labelled_foldlM (hn : m.naming.LabelsDiffer) {orders : List OrderBy}
    (h : ∀ i ∈ acc.items, i.Labelled m f.scope.root)
    (horders : (orders.foldlM (Ordered.add m nested) acc).Gives f acc' g) :
    (acc'.items.map (·.label)).Nodup ↔ (acc.items.map (·.label)).Nodup := by
  have hinv := foldlM_induction
    (fun g x => g.scope.root = f.scope.root ∧ (∀ i ∈ x.items, i.Labelled m f.scope.root) ∧
      ((x.items.map (·.label)).Nodup ↔ (acc.items.map (·.label)).Nodup))
    (fun o _ f₁ acc₁ g acc₂ hinv hadd => ?_) ⟨rfl, h, Iff.rfl⟩ horders
  · exact hinv.2.2
  · obtain ⟨hroot, hlabelled, hnodup⟩ := hinv
    have hstep := labelled_add hn (hroot.symm ▸ hlabelled) hadd
    rw [hroot, hnodup] at hstep
    exact ⟨(adds_add hadd).grows.scope.root.trans hroot, hstep⟩

end Ordered

/-! ## Labels of selections -/

/-- Walks from the position lead to one identity along one path only. -/
def Model.PathsDiffer (m : Model) (t : Table) : Prop :=
  ∀ p q ps qs, m.walk? t p = some ps → m.walk? t q = some qs →
    (Model.endOf t ps).identity = (Model.endOf t qs).identity → p = q

/-- The members of an entity are stored in different columns. -/
def Model.ColumnsDiffer (m : Model) : Prop :=
  ∀ e ∈ m.entities, ∀ c ∈ e.columns, ∀ c' ∈ e.columns, c.name = c'.name → c.member = c'.member

instance (m : Model) : Decidable m.ColumnsDiffer :=
  inferInstanceAs (Decidable (∀ e ∈ m.entities, ∀ c ∈ e.columns, ∀ c' ∈ e.columns,
    c.name = c'.name → c.member = c'.member))

namespace SelectQuery

variable {q q' : SelectQuery}

/-- A column is selected at the path. -/
def Selects (q : SelectQuery) (path : Path) : Prop := path ∈ q.nodes.filterMap (·.columnPath?)

/-- Two members that are selected along one path are stored in one column. -/
def Doubled (m : Model) (q : SelectQuery) : Prop :=
  ∃ (base : Path) (a b : String), a ≠ b ∧ q.Selects (base.child a) ∧ q.Selects (base.child b) ∧
    ∃ r s, m.resolve q.root (base.child a) = .ok r ∧ m.resolve q.root (base.child b) = .ok s ∧
      r.column.name = s.column.name

/-- The second query is made of the first by selecting and ordering without names. -/
inductive Unnamed (m : Model) : SelectQuery → SelectQuery → Prop
  | refl (q : SelectQuery) : Unnamed m q q
  | select {q x x' : SelectQuery} {path : Path} (h : Unnamed m q x)
    (hx : x.select m path = .ok x') : Unnamed m q x'
  | selectAll {q x : SelectQuery} (h : Unnamed m q x) : Unnamed m q (x.selectAll m)
  | order {q x x' : SelectQuery} {path : Path} {dir : Sql.SortDir} (h : Unnamed m q x)
    (hx : x.addOrder m path dir = .ok x') : Unnamed m q x'

theorem Unnamed.steps (h : Unnamed m q q') : Steps m SelectNode.Plain q q' := by
  have hplain : ∀ path, SelectNode.Plain (.column path none) := fun _ => rfl
  induction h with
  | refl => exact .refl _
  | select _ hx ih => exact ih.trans (steps_addPath hplain hplain hx)
  | selectAll _ ih => exact ih.trans (steps_selectAll hplain m _)
  | order _ hx ih =>
    obtain ⟨_, -, hx⟩ := bind_eq_ok.1 hx
    cases hx
    exact ih.trans (.other rfl rfl)

end SelectQuery

/-- A column path leads to a table and ends with a member there. -/
theorem Model.resolve_child_eq_ok {p : Path} {r : Resolution} (h : m.resolve t p = .ok r) :
    ∃ base member, p = Path.child base member ∧ m.walk? t base = some r.hops ∧
      r.table = Model.endOf t r.hops ∧ r.table.column? member = some r.column := by
  obtain ⟨segments⟩ := p
  rcases List.eq_nil_or_concat segments with rfl | ⟨init, last, rfl⟩
  · obtain ⟨_, hlast, -⟩ := Model.resolve_eq_ok h
    cases hlast
  · rw [List.concat_eq_append] at h ⊢
    exact ⟨⟨init⟩, last, rfl, Model.resolve_concat_eq_ok h⟩

/-- Columns at different paths under one label are siblings that are stored in one column. -/
theorem siblings_of_label (hn : m.naming.LabelsDiffer) (ht : m.PathsDiffer t) {p p' : Path}
    {r s : Resolution} (hr : m.resolve t p = .ok r) (hs : m.resolve t p' = .ok s) (hne : p ≠ p')
    (h : m.columnAlias r.table r.column = m.columnAlias s.table s.column) :
    ∃ (base : Path) (a b : String), a ≠ b ∧ p = base.child a ∧ p' = base.child b ∧
      r.column.name = s.column.name := by
  obtain ⟨hid, hname⟩ := hn _ _ _ _ h
  obtain ⟨base, a, rfl, hwalk, htable, -⟩ := Model.resolve_child_eq_ok hr
  obtain ⟨base', b, rfl, hwalk', htable', -⟩ := Model.resolve_child_eq_ok hs
  rw [htable, htable'] at hid
  obtain rfl := ht _ _ _ _ hwalk hwalk' hid
  refine ⟨base, a, b, ?_, rfl, rfl, hname⟩
  rintro rfl
  exact hne rfl

theorem table_of_siblings {base : Path} {a b : String} {r s : Resolution}
    (hr : m.resolve t (base.child a) = .ok r) (hs : m.resolve t (base.child b) = .ok s) :
    r.table = s.table := by
  obtain ⟨hwalk, htable, -⟩ := Model.resolve_concat_eq_ok hr
  obtain ⟨hwalk', htable', -⟩ := Model.resolve_concat_eq_ok hs
  rw [htable, htable', Option.some.inj (hwalk.symm.trans hwalk')]

namespace SelectQuery

variable {q : SelectQuery} {items : List FlatItem}

/-- **The columns of a selection have different labels exactly if none is doubled.** -/
theorem nodup_labels_iff (hn : m.naming.LabelsDiffer) (hpaths : m.PathsDiffer q.root)
    (hdistinct : q.Distinct) (hkeys : items.map (·.key) = q.nodes.filterMap (·.columnPath?))
    (hitems : ∀ i ∈ items, i.Labelled m q.root) :
    (items.map (·.label)).Nodup ↔ ¬ q.Doubled m := by
  constructor
  · rintro hnodup ⟨base, a, b, hne, ha, hb, r, s, hr, hs, hname⟩
    rw [Selects, ← hkeys] at ha hb
    obtain ⟨i, hi, hikey⟩ := List.mem_map.1 ha
    obtain ⟨j, hj, hjkey⟩ := List.mem_map.1 hb
    obtain ⟨r', hr', -, hilabel⟩ := hitems i hi
    obtain ⟨s', hs', -, hjlabel⟩ := hitems j hj
    rw [hikey, hr] at hr'
    rw [hjkey, hs] at hs'
    cases hr'
    cases hs'
    have hlabel : i.label = j.label := by
      rw [hilabel, hjlabel, Model.columnAlias, Model.columnAlias, table_of_siblings hr hs, hname]
    obtain rfl := List.inj_on_of_nodup_map hnodup hi hj hlabel
    have hsegments := congrArg Path.segments (hikey.symm.trans hjkey)
    exact hne (by simpa [Path.child] using hsegments)
  · intro hnot
    have hnodup : (items.map (·.key)).Nodup := hkeys ▸ hdistinct.columns
    refine List.Nodup.map_on (fun i hi j hj hlabel => ?_) hnodup.of_map
    refine List.inj_on_of_nodup_map hnodup hi hj ?_
    by_contra hne
    obtain ⟨r, hr, -, hilabel⟩ := hitems i hi
    obtain ⟨s, hs, -, hjlabel⟩ := hitems j hj
    rw [hilabel, hjlabel] at hlabel
    obtain ⟨base, a, b, hab, ha, hb, hname⟩ := siblings_of_label hn hpaths hr hs hne hlabel
    refine hnot ⟨base, a, b, hab, ?_, ?_, r, s, ha ▸ hr, hb ▸ hs, hname⟩
    · rw [Selects, ← hkeys, ← ha]
      exact List.mem_map_of_mem hi
    · rw [Selects, ← hkeys, ← hb]
      exact List.mem_map_of_mem hj

/-- Where the members of an entity are stored in different columns, nothing is doubled. -/
theorem not_doubled (hm : m.ColumnsDiffer) (hroot : m.Covers q.root) : ¬ q.Doubled m := by
  rintro ⟨base, a, b, hne, -, -, r, s, hr, hs, hname⟩
  obtain ⟨hwalk, htable, hcolumn⟩ := Model.resolve_concat_eq_ok hr
  obtain ⟨-, -, hcolumn'⟩ := Model.resolve_concat_eq_ok hs
  rw [← table_of_siblings hr hs] at hcolumn'
  have hcovers : m.Covers r.table := by
    rw [htable]
    exact (Model.walk_of_walkMembers? hwalk).covers_endOf hroot
  have hmember := hm _ hcovers _ (List.mem_of_find?_eq_some hcolumn) _
    (List.mem_of_find?_eq_some hcolumn') hname
  have ha := List.find?_some hcolumn
  have hb := List.find?_some hcolumn'
  exact hne (by simpa [← beq_iff_eq.1 ha, ← beq_iff_eq.1 hb] using hmember)

end SelectQuery

/-- **Labels of a selection without names**: if the result is flat, its columns have different
labels exactly if no two selected members of one entity are stored in one column. -/
theorem compile_labels_differ (hn : m.naming.LabelsDiffer) (ht : m.Covers t)
    (hpaths : m.PathsDiffer t) {depth : Nat} {q : SelectQuery} {c : CompiledQuery}
    {columns : List OutputColumn} (hq : SelectQuery.Unnamed m (.start t depth) q)
    (hc : q.compile m d = .ok c) (hshape : c.shape = .flat columns) :
    ((columns.map (·.label)).Nodup ↔ ¬ q.Doubled m) ∧
      (m.ColumnsDiffer → (columns.map (·.label)).Nodup) := by
  have hsteps := hq.steps
  have hroot : q.root = t := hsteps.root
  have hempty : ∀ {I : SelectQuery → Prop}, I (.start t depth) →
      (SelectQuery.start t depth).Everywhere I := fun h =>
    SelectQuery.everywhere_iff.2 ⟨h, by simp [SelectQuery.start, SelectQuery.ofTable]⟩
  have hplain := (SelectQuery.everywhere_iff.1 (hsteps.everywhere (SelectQuery.kept_plain m)
    (hempty (by simp [SelectQuery.start, SelectQuery.ofTable])))).1
  have hdistinct := (SelectQuery.everywhere_iff.1 (hsteps.everywhere
    (SelectQuery.kept_distinct m _)
    (hempty ⟨by simp [SelectQuery.start, SelectQuery.ofTable],
      by simp [SelectQuery.start, SelectQuery.ofTable]⟩))).1
  obtain ⟨l, g, hassemble, rfl⟩ := SelectQuery.compile_eq_ok hc
  obtain ⟨condition, f₁, parts, f₂, orders, ordered, hcondition, hparts, -, hordered, -, rfl⟩ :=
    SelectQuery.gives_assemble hassemble
  have hf₁ : f₁.scope.root = q.root := by
    rcases gives_compileFilter.1 hcondition with ⟨-, -, rfl⟩ | ⟨p, -, hp⟩
    · rfl
    · exact (grows_compile hp).scope.root
  have hf₂ : f₂.scope.root = f₁.scope.root := (adds_assembleAll q.nodes hparts).grows.scope.root
  have hlabelled := labelled_assembleAll hplain hparts
  have hkeys := (keyed_assembleAll hplain hparts).items
  have hlabels : columns.map (·.label) = ordered.items.map (·.label) := by
    simp only [Level.shaped] at hshape
    split at hshape
    · cases hshape
      simp
    · split at hshape <;> cases hshape
  have hiff : (columns.map (·.label)).Nodup ↔ ¬ q.Doubled m := by
    rw [hlabels, Ordered.labelled_foldlM hn (hf₂.symm ▸ hlabelled) hordered]
    exact SelectQuery.nodup_labels_iff hn (hroot ▸ hpaths) hdistinct hkeys (hf₁ ▸ hlabelled)
  exact ⟨hiff, fun hm => hiff.2 (SelectQuery.not_doubled hm (hroot ▸ ht))⟩

theorem Model.pathsDiffer (hn : Function.Injective m.naming.derive) {k : Nat}
    (ht : m.naming.Depth t.identity k) : m.PathsDiffer t :=
  fun _ _ _ _ hp hq h => congrArg Path.mk (Model.endOf_inj hn ht hp hq h)

namespace Shop

/-- Labels that write out the identity and the name. -/
def lettered : Naming :=
  { plain with
    columnAlias := fun id name => plain.tableAlias (plain.derive [id.bytes, Text.utf8 name]) }

theorem labelsDiffer_lettered : lettered.LabelsDiffer := by
  intro id id' name name' h
  have hparts := faithful_plain.derive (faithful_plain.tableAlias h)
  simp only [List.cons.injEq, utf8_injective.eq_iff, and_true] at hparts
  exact ⟨congrArg Identity.mk hparts.1, hparts.2⟩

/-- Orders with the names of their customers, by the keys of the customers and by their last
lines. -/
def listed : Except QueryError SelectQuery := do
  let q ← (SelectQuery.start orders 0).select (model lettered) ⟨["customer", "name"]⟩
  let q ← (q.selectAll (model lettered)).addOrder (model lettered) ⟨["customer", "id"]⟩ .asc
  q.addOrder (model lettered) ⟨["lines", "sku"]⟩ .desc

theorem unnamed_listed {q : SelectQuery} (h : listed = .ok q) :
    SelectQuery.Unnamed (model lettered) (.start orders 0) q := by
  obtain ⟨q₁, h₁, h⟩ := bind_eq_ok.1 h
  obtain ⟨q₂, h₂, h₃⟩ := bind_eq_ok.1 h
  exact .order (.order (.selectAll (.select (.refl _) h₁)) h₂) h₃

/-- The columns of the result: that of the first order is the last of them. -/
def listedColumns : List OutputColumn :=
  let customer := Model.endOf orders (((model lettered).walk? orders ⟨["customer"]⟩).getD [])
  [⟨lettered.columnAlias customer.identity "name", ⟨["customer", "name"]⟩⟩,
    ⟨lettered.columnAlias orders.identity "id", ⟨["id"]⟩⟩,
    ⟨lettered.columnAlias orders.identity "customer_id", ⟨["customer_id"]⟩⟩,
    ⟨lettered.columnAlias customer.identity "id", ⟨["customer", "id"]⟩⟩]

end Shop

theorem compile_listed_labels_differ :
    ∃ q c, Shop.listed = .ok q ∧ q.compile (Shop.model Shop.lettered) .mySql = .ok c ∧
      c.shape = .flat Shop.listedColumns ∧ (Shop.listedColumns.map (·.label)).Nodup := by
  have hcompile : (Shop.listed >>= fun q =>
      (q.compile (Shop.model Shop.lettered) .mySql).map (·.shape)) =
        .ok (.flat Shop.listedColumns) := by
    cbv
  obtain ⟨q, c, hq, hc, hshape⟩ := SelectQuery.exists_compile hcompile
  have hpaths : (Shop.model Shop.lettered).PathsDiffer Shop.orders :=
    Model.pathsDiffer Shop.faithful_plain.derive (.root Shop.derive_plain_ne_orders)
  exact ⟨q, c, hq, hc, hshape, (compile_labels_differ Shop.labelsDiffer_lettered
    (Shop.covers_orders Shop.lettered) hpaths (Shop.unnamed_listed hq) hc hshape).2 (by decide)⟩

/-! ## An account

The owner and the payer are two members for one column. -/

namespace Account

def declarations : List EntityDecl :=
  [⟨"Account", "accounts", none, some "id",
    [⟨"id", none, none⟩, ⟨"owner", some "party", none⟩, ⟨"payer", some "party", none⟩], []⟩]

def account : Entity where
  name := "Account"
  table := "accounts"
  schema := none
  primaryKey := some "id"
  columns := [⟨"id", "id", none⟩, ⟨"owner", "party", none⟩, ⟨"payer", "party", none⟩]
  relations := []

def model : Model := ⟨[account], declarations, none, Shop.lettered⟩

def accounts : Table := Model.root account ⟨[1]⟩

/-- Both members. -/
def parties : Except QueryError SelectQuery := do
  let q ← (SelectQuery.start accounts 2).select model ⟨["owner"]⟩
  q.select model ⟨["payer"]⟩

theorem unnamed_parties {q : SelectQuery} (h : parties = .ok q) :
    SelectQuery.Unnamed model (.start accounts 2) q := by
  obtain ⟨q₁, h₁, h₂⟩ := bind_eq_ok.1 h
  exact .select (.select (.refl _) h₁) h₂

def label : String := Shop.lettered.columnAlias accounts.identity "party"

end Account

/-- Both columns of the result have the label of the one in the database. -/
theorem compile_account_one_label :
    Model.build Shop.lettered none Account.declarations = .ok Account.model ∧
    Account.model.naming.LabelsDiffer ∧ Account.model.PathsDiffer Account.accounts ∧
    ∃ q c, SelectQuery.Unnamed Account.model (.start Account.accounts 2) q ∧
      q.compile Account.model .postgreSql = .ok c ∧
      c.shape = .flat [⟨Account.label, ⟨["owner"]⟩⟩, ⟨Account.label, ⟨["payer"]⟩⟩] := by
  refine ⟨rfl, Shop.labelsDiffer_lettered, ?_, ?_⟩
  · exact Model.pathsDiffer Shop.faithful_plain.derive (.root Shop.derive_plain_ne_orders)
  · have hcompile : (Account.parties >>= fun q =>
        (q.compile Account.model .postgreSql).map (·.shape)) =
          .ok (.flat [⟨Account.label, ⟨["owner"]⟩⟩, ⟨Account.label, ⟨["payer"]⟩⟩]) := by
      cbv
    obtain ⟨q, c, hq, hc, hshape⟩ := SelectQuery.exists_compile hcompile
    exact ⟨q, c, Account.unnamed_parties hq, hc, hshape⟩

end EntityQuery
