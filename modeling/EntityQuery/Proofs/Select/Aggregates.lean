import EntityQuery.Proofs.Select.Joined

/-!
# Aggregates of a level

A select list with an aggregate gives one row for each group, and one without gives one for each
row of the FROM clause. A database decides this by the names of functions, a query by the marks of
its nodes. This module follows both through an assembly.

**Conditions** hold no aggregate (`Writes.aggregates`), so those of a CASE do not either.

**Values.** What the nodes of a query contribute is `Parts.Reads`; orders add columns only
(`Ordered.items_foldlM`). Together they say what the level of a query is like in terms of the query
(`Level.Reads`).

**Documents.** An object has an aggregate if one of its values does, for no value is lost: no place
in a document is empty (`JsonTree.aggregates_fields`, `Level.exists_shaped`).
-/

namespace EntityQuery

open Build
open EntityQuery.Sql (Expr Query SelectItem Dialect aggregatesAll)

variable {m : Model} {d : Dialect} {f g : Frame} {isAggregate : String → Bool}

/-! ## Conditions -/

theorem Sql.aggregatesAll_eq_any (es : List Expr) :
    aggregatesAll isAggregate es = es.any (·.aggregates isAggregate) := by
  induction es with
  | nil => rfl
  | cons e es ih => rw [aggregatesAll, ih, List.any_cons]

theorem Sql.aggregatesBranches_eq_false {branches : List (Expr × Expr)}
    (h : ∀ b ∈ branches, b.1.aggregates isAggregate = false ∧ b.2.aggregates isAggregate = false) :
    aggregatesBranches isAggregate branches = false := by
  induction branches with
  | nil => rfl
  | cons b branches ih =>
    rw [List.forall_mem_cons] at h
    rw [aggregatesBranches, h.1.1, h.1.2, ih h.2]
    rfl

theorem Sql.Expr.kept_aggregates (isAggregate : String → Bool) :
    Expr.Kept fun e => e.aggregates isAggregate = false where
  literal _ := rfl
  param _ _ := rfl
  binary _ ha hb := by simp [Expr.aggregates, ha, hb]
  inList _ he hvs := by
    simp only [Expr.aggregates, he, Sql.aggregatesAll_eq_any, Bool.false_or, List.any_eq_false]
    exact fun v hv => by simp [hvs v hv]
  isNull _ he := he
  paren he := he

/-- The column of a comparison is no aggregate. -/
def Task.OfRow (isAggregate : String → Bool) : Task → Prop
  | .operand target _ _ _ => target.column.aggregates isAggregate = false
  | _ => True

/-- **A condition holds no aggregate.** -/
theorem Writes.aggregates {P : Table → Prop} {task : Task} {es : List Expr}
    (h : Writes m P task f es g) (hrow : task.OfRow isAggregate) :
    ∀ e ∈ es, e.aggregates isAggregate = false := by
  have hkept := Expr.kept_aggregates isAggregate
  have hcolumn {path : Path} {origin : JoinOrigin} {target : Target} {f g : Frame}
      (h : (joinColumn m path origin).Gives f target g) :
      target.column.aggregates isAggregate = false := by
    obtain ⟨r, s, -, -, -, rfl, -⟩ := gives_joinColumn.1 h
    rfl
  induction h with
  | compile _ _ ih => exact ih ⟨⟩
  | group _ ih => exact fun e he => hkept.combine (ih ⟨⟩) e (Option.mem_toList.1 he)
  | compare htarget _ ih => exact ih (hcolumn htarget)
  | columns hl hr he =>
    rw [List.forall_mem_singleton]
    exact kept_compareColumns hkept (hcolumn hl) (hcolumn hr) he
  | related _ _ _ _ _ =>
    rw [List.forall_mem_singleton]
    rfl
  | value he =>
    rw [List.forall_mem_singleton]
    exact Target.kept_scalar hkept hrow he
  | values he =>
    rw [List.forall_mem_singleton]
    exact Target.kept_list hkept hrow he
  | subquery _ _ _ _ _ =>
    rw [List.forall_mem_singleton]
    exact hrow
  | nil => simp
  | cons _ _ ih₁ ih₂ => exact List.forall_mem_append.2 ⟨ih₁ ⟨⟩, ih₂ ⟨⟩⟩
  | noFilter => simp
  | filter _ ih => exact ih ⟨⟩

/-! ## Queries -/

def SelectNode.isNested : SelectNode → Bool
  | .nested .. => true
  | .column .. | .function .. | .case .. => false

/-- The functions that documents are built with. -/
def Sql.Dialect.documentFunctions (d : Dialect) : List String :=
  match d.jsonFunctions? with
  | some functions => [functions.object, functions.array, "COALESCE"]
  | none => ["COALESCE", "JSON_QUERY"]

/-- A function that is not marked as an aggregate is none. -/
def MarksAggregates (isAggregate : String → Bool) (nodes : List SelectNode) : Prop :=
  ∀ name args distinct label, SelectNode.function name args distinct false label ∈ nodes →
    isAggregate name = false

namespace SelectQuery

def hasAggregate (q : SelectQuery) : Bool := q.nodes.any (·.grouping == .aggregate)

/-- A function multiplies the rows. -/
def fansOut (m : Model) (q : SelectQuery) : Bool := q.nodes.any (·.fansOut m q.root)

/-- Equal rows are dropped: if it was said, or else if a function multiplies them. -/
def isDistinct (m : Model) (q : SelectQuery) : Bool :=
  q.distinct.getD (q.fansOut m && !q.hasAggregate)

/-- No order fans out. -/
def OrdersNarrow (m : Model) (q : SelectQuery) : Prop :=
  ∀ orders, ordersOf q.root q.order q.paging = .ok orders → ∀ o ∈ orders, m.Narrow q.root o.path

end SelectQuery

/-! ## Values -/

/-- The arguments of a function, one by one. -/
theorem FunctionArg.reads_mapM (isAggregate : String → Bool) {args : List FunctionArg}
    {values : List (Expr × Bool)} (h : (args.mapM (assemble m)).Gives f values g) :
    values.any (·.2) = args.any (·.fansOut m f.scope.root) ∧
      ∀ x ∈ values, x.1.aggregates isAggregate = false := by
  induction args generalizing f values with
  | nil =>
    rw [List.mapM_nil] at h
    obtain ⟨rfl, rfl⟩ := gives_pure.1 h
    simp
  | cons arg args ih =>
    simp only [List.mapM_cons, gives_bind, gives_pure] at h
    obtain ⟨x, f₁, hx, rest, f₂, hrest, rfl, rfl⟩ := h
    obtain ⟨hroot, hfans, hscalar⟩ : f₁.scope.root = f.scope.root ∧
        x.2 = arg.fansOut m f.scope.root ∧ x.1.aggregates isAggregate = false := by
      cases arg with
      | column path =>
        simp only [assemble, gives_bind, gives_pure] at hx
        obtain ⟨r, _, hr, rfl, rfl⟩ := hx
        obtain ⟨hresolve, s, hs, rfl⟩ := gives_joinSelected hr
        refine ⟨(Scope.grows_joinHops hs).root, ?_, rfl⟩
        simp only [fansOut, hresolve]
      | value v =>
        obtain ⟨rfl, rfl⟩ := gives_pure.1 hx
        exact ⟨rfl, rfl, rfl⟩
      | star =>
        obtain ⟨rfl, rfl⟩ := gives_pure.1 hx
        exact ⟨rfl, rfl, rfl⟩
    obtain ⟨hany, hall⟩ := ih hrest
    rw [hroot] at hany
    exact ⟨by rw [List.any_cons, List.any_cons, hfans, hany],
      List.forall_mem_cons.2 ⟨hscalar, hall⟩⟩

theorem aggregates_assembleBranch {branch : Predicate × Value} {x : Expr × Expr}
    (h : (assembleBranch m branch).Gives f x g) :
    x.1.aggregates isAggregate = false ∧ x.2.aggregates isAggregate = false := by
  obtain ⟨e, he, rfl⟩ := gives_assembleBranch h
  refine ⟨?_, rfl⟩
  cases e with
  | none => rfl
  | some e =>
    have hw := writes_compile branch.1.onTables_true he
    exact hw.aggregates ⟨⟩ e (List.mem_singleton_self e)

theorem aggregates_mapM {branches : List (Predicate × Value)} {written : List (Expr × Expr)}
    (h : (branches.mapM (assembleBranch m)).Gives f written g) :
    ∀ x ∈ written, x.1.aggregates isAggregate = false ∧ x.2.aggregates isAggregate = false := by
  refine mapM_induction (fun _ written =>
      ∀ x ∈ written, x.1.aggregates isAggregate = false ∧ x.2.aggregates isAggregate = false)
    (fun b _ f₁ written x g hwritten hx => ?_) (List.forall_mem_nil _) h
  exact List.forall_mem_append.2
    ⟨hwritten, List.forall_mem_singleton.2 (aggregates_assembleBranch hx)⟩

/-- A nested level is a subquery, inside functions that build documents. -/
theorem Level.aggregates_nestedExpr (l : Level) (toOne : Bool)
    (hd : ∀ name ∈ d.documentFunctions, isAggregate name = false) :
    (l.nestedExpr toOne d).aggregates isAggregate = false := by
  rw [nestedExpr]
  rw [Sql.Dialect.documentFunctions] at hd
  cases hfunctions : d.jsonFunctions? with
  | some functions =>
    simp only [hfunctions, List.forall_mem_cons] at hd
    cases toOne with
    | true => rfl
    | false => simp [Expr.apply, Expr.aggregates, aggregatesAll, hd.2.1, hd.2.2.1]
  | none =>
    simp only [hfunctions, List.forall_mem_cons] at hd
    cases toOne <;> simp [Expr.apply, Expr.aggregates, aggregatesAll, hd.1, hd.2.1]

/-- What the nodes of a query with the root `t` contribute, as far as it matters for the number of
rows. -/
structure Parts.Reads (m : Model) (d : Dialect) (isAggregate : String → Bool) (t : Table)
    (nodes : List SelectNode) (parts : Parts) : Prop where
  fansOut : parts.fansOut = nodes.any (·.fansOut m t)
  aggregate : parts.items.any (·.grouping == .aggregate) = nodes.any (·.grouping == .aggregate)
  nested : parts.nested = [] ↔ ∀ node ∈ nodes, node.isNested = false
  keys : ∀ n ∈ parts.nested, n.key.segments ≠ []
  items : MarksAggregates isAggregate nodes →
    ∀ i ∈ parts.items, i.grouping ≠ .aggregate → i.expr.aggregates isAggregate = false
  documents : (∀ name ∈ d.documentFunctions, isAggregate name = false) →
    ∀ n ∈ parts.nested, n.expr.aggregates isAggregate = false

variable {t : Table} {nested : List NestedItem} {acc acc' : Ordered}

theorem Parts.reads_nil : Parts.empty.Reads m d isAggregate t [] :=
  ⟨rfl, rfl, by simp [empty], by simp [empty], by simp [empty], by simp [empty]⟩

theorem Parts.Reads.cons {node : SelectNode} {nodes : List SelectNode} {a b : Parts}
    (ha : a.Reads m d isAggregate t [node]) (hb : b.Reads m d isAggregate t nodes) :
    (a ++ b).Reads m d isAggregate t (node :: nodes) := by
  constructor
  · show (a.fansOut || b.fansOut) = _
    rw [ha.fansOut, hb.fansOut]
    simp
  · show (a.items ++ b.items).any _ = _
    rw [List.any_append, ha.aggregate, hb.aggregate]
    simp
  · show a.nested ++ b.nested = [] ↔ _
    rw [List.append_eq_nil_iff, ha.nested, hb.nested, List.forall_mem_singleton,
      List.forall_mem_cons]
  · exact List.forall_mem_append.2 ⟨ha.keys, hb.keys⟩
  · intro hmarks i hi
    have hnode : MarksAggregates isAggregate [node] := fun name args distinct label h =>
      hmarks name args distinct label (List.mem_singleton.1 h ▸ List.mem_cons_self)
    have hnodes : MarksAggregates isAggregate nodes := fun name args distinct label h =>
      hmarks name args distinct label (List.mem_cons_of_mem node h)
    rcases List.mem_append.1 (hi : i ∈ a.items ++ b.items) with hi | hi
    · exact ha.items hnode i hi
    · exact hb.items hnodes i hi
  · intro hd n hn
    rcases List.mem_append.1 (hn : n ∈ a.nested ++ b.nested) with hn | hn
    · exact ha.documents hd n hn
    · exact hb.documents hd n hn

theorem SelectNode.reads_assemble {node : SelectNode} {parts : Parts}
    (h : (node.assemble m d).Gives f parts g) :
    parts.Reads m d isAggregate f.scope.root [node] := by
  cases node with
  | column path label =>
    obtain ⟨r, -, rfl⟩ := gives_assemble_column h
    exact ⟨rfl, rfl, by simp [Parts.ofItem, Parts.empty, isNested],
      by simp [Parts.ofItem, Parts.empty], fun _ => List.forall_mem_singleton.2 fun _ => rfl,
      by simp [Parts.ofItem, Parts.empty]⟩
  | function name args distinct aggregate label =>
    obtain ⟨-, values, hvalues, rfl⟩ := gives_assemble_function h
    obtain ⟨hany, hall⟩ := FunctionArg.reads_mapM isAggregate hvalues
    refine ⟨?_, ?_, by simp [Parts.ofItem, Parts.empty, isNested],
      by simp [Parts.ofItem, Parts.empty], fun hmarks => ?_, by simp [Parts.ofItem, Parts.empty]⟩
    · rw [List.any_cons, List.any_nil, Bool.or_false]
      exact hany
    · cases aggregate <;> rfl
    · refine List.forall_mem_singleton.2 fun hkey => ?_
      cases aggregate with
      | true => exact absurd rfl hkey
      | false =>
        have hname := hmarks name args distinct label (List.mem_singleton_self _)
        rw [Expr.aggregates, hname, Sql.aggregatesAll_eq_any, Bool.false_or, List.any_map,
          List.any_eq_false]
        exact fun x hx => by simp [hall x hx]
  | case branches otherwise label =>
    obtain ⟨written, hwritten, rfl⟩ := gives_assemble_case h
    refine ⟨rfl, rfl, by simp [Parts.ofItem, Parts.empty, isNested],
      by simp [Parts.ofItem, Parts.empty], fun _ => List.forall_mem_singleton.2 fun _ => ?_,
      by simp [Parts.ofItem, Parts.empty]⟩
    rw [Expr.aggregates, Sql.aggregatesBranches_eq_false (aggregates_mapM hwritten)]
    cases otherwise <;> rfl
  | nested path r query =>
    obtain ⟨route, -, level, -, hroute, -, -, -, rfl⟩ := gives_assemble_nested h
    refine ⟨rfl, rfl, by simp [isNested], List.forall_mem_singleton.2 fun hnil => ?_,
      by simp [Parts.empty],
      fun hd => List.forall_mem_singleton.2 (level.aggregates_nestedExpr _ hd)⟩
    -- The empty path leads to no relationship.
    have hlen := Model.length_walkMembers? (Model.resolveRelationship_eq_ok hroute)
    simp [Route.hops, show path.segments = [] from hnil] at hlen

theorem reads_assembleAll {nodes : List SelectNode} {parts : Parts} (hf : f.Keyed m)
    (hnodes : PlacedAll m m.Covers f.scope.root nodes)
    (h : (assembleAll m d nodes).Gives f parts g) :
    parts.Reads m d isAggregate f.scope.root nodes := by
  induction nodes generalizing f parts with
  | nil =>
    rw [assembleAll] at h
    obtain ⟨rfl, rfl⟩ := gives_pure.1 h
    exact Parts.reads_nil
  | cons node nodes ih =>
    obtain ⟨part, f₁, parts, hpart, hparts, rfl⟩ := gives_assembleAll_cons h
    have hstep := node.selecting_assemble hnodes.1 rfl hf hpart
    have hroot : f₁.scope.root = f.scope.root := hstep.grows.scope.root
    have hrest := ih hstep.keyed (hroot ▸ hnodes.2) hparts
    rw [hroot] at hrest
    exact (SelectNode.reads_assemble hpart).cons hrest

/-! ## Orders -/

/-- Orders add columns only. -/
theorem Ordered.items_add (isAggregate : String → Bool) {o : OrderBy}
    (h : (acc.add m nested o).Gives f acc' g) :
    ∃ new, acc'.items = acc.items ++ new ∧
      ∀ i ∈ new, i.grouping = .key ∧ i.expr.aggregates isAggregate = false := by
  obtain ⟨r, -, -, -, ⟨-, -, rfl⟩ | ⟨before, many, after, q, -, -, -, -, -, rfl⟩⟩ :=
    Ordered.gives_add h
  · refine ⟨_, rfl, fun i hi => ?_⟩
    split at hi
    · rw [List.mem_singleton.1 hi]
      exact ⟨rfl, rfl⟩
    · simp at hi
  · exact ⟨[], by simp, by simp⟩

theorem Ordered.items_foldlM (isAggregate : String → Bool) {orders : List OrderBy}
    (h : (orders.foldlM (Ordered.add m nested) acc).Gives f acc' g) :
    ∃ new, acc'.items = acc.items ++ new ∧
      ∀ i ∈ new, i.grouping = .key ∧ i.expr.aggregates isAggregate = false := by
  refine foldlM_induction (fun _ acc' => ∃ new, acc'.items = acc.items ++ new ∧
      ∀ i ∈ new, i.grouping = .key ∧ i.expr.aggregates isAggregate = false)
    (fun o _ f₁ acc₁ g acc₂ hinv hadd => ?_) ⟨[], by simp, by simp⟩ h
  obtain ⟨new, hnew, hkeys⟩ := hinv
  obtain ⟨new', hnew', hkeys'⟩ := Ordered.items_add isAggregate hadd
  refine ⟨new ++ new', ?_, List.forall_mem_append.2 ⟨hkeys, hkeys'⟩⟩
  rw [hnew', hnew, List.append_assoc]

/-- Every order is by a value that is selected. -/
def Ordered.Covered (o : Ordered) : Prop :=
  ∀ x ∈ o.orderBy, o.items.any (·.expr.eqv x.expr) = true

theorem Ordered.Covered.add {o : OrderBy} (hacc : acc.Covered) (ho : m.Narrow f.scope.root o.path)
    (h : (acc.add m [] o).Gives f acc' g) : acc'.Covered := by
  obtain ⟨r, -, hresolve, -, ⟨-, -, rfl⟩ | ⟨before, many, after, -, hhops, hmany, -⟩⟩ :=
    Ordered.gives_add h
  · intro x hx
    rw [List.any_append, Bool.or_eq_true]
    rcases List.mem_append.1 hx with hx | hx
    · exact .inl (hacc x hx)
    · cases List.mem_singleton.1 hx
      by_cases hany : acc.items.any (·.expr.eqv (m.columnExpr r.table r.column)) = true
      · exact .inl hany
      · right
        rw [if_pos (by rw [Bool.not_eq_true] at hany; simp only [hany]; rfl)]
        simp [Model.columnExpr, Expr.ofTable, Expr.eqv]
  · -- Its path fans out.
    have hone := Resolution.crossesMany_eq_false.1 (ho r hresolve)
    have hnot := hone many (by simp [hhops])
    rw [hmany] at hnot
    cases hnot

theorem Ordered.Covered.foldlM {orders : List OrderBy} (hacc : acc.Covered) (hf : f.Keyed m)
    (horders : ∀ o ∈ orders, m.Narrow f.scope.root o.path)
    (h : (orders.foldlM (Ordered.add m []) acc).Gives f acc' g) : acc'.Covered := by
  have hinv : f.Selects m True g ∧ acc'.Covered := by
    refine foldlM_induction (fun g acc => f.Selects m True g ∧ acc.Covered)
      (fun o ho f₁ acc₁ g acc₂ hinv hadd => ?_) ⟨hf.selects _, hacc⟩ h
    obtain ⟨hsel, hcovered⟩ := hinv
    have hnarrow := horders o ho
    rw [← hsel.grows.scope.root] at hnarrow
    have hstep := acc₁.selecting_add [] o rfl hsel.keyed hadd
    exact ⟨(hsel.trans hstep).imp fun _ => ⟨⟨⟩, ⟨⟩⟩, hcovered.add hnarrow hadd⟩
  exact hinv.2

/-! ## Places -/

/-- No place lies inside another. -/
theorem conflict?_eq_none {keys : List Path} : conflict? keys = none ↔
    keys.Pairwise fun key other => key.startsWith other = false ∧ other.startsWith key = false := by
  induction keys with
  | nil => simp [conflict?]
  | cons key rest ih =>
    rw [conflict?, List.pairwise_cons, ← ih]
    split
    · rename_i other hfound
      refine iff_of_false (by simp) fun h => ?_
      have hconflict := List.find?_some hfound
      simp [h.1 other (List.mem_of_find?_eq_some hfound)] at hconflict
    · rename_i hnone
      refine (and_iff_right fun other hother => ?_).symm
      simpa using List.find?_eq_none.1 hnone other hother

theorem checkKeys_eq_ok {items : List FlatItem} :
    checkKeys items nested = .ok () ↔
      (items.map (·.key) ++ nested.map (·.key)).Pairwise fun key other =>
        key.startsWith other = false ∧ other.startsWith key = false := by
  rw [checkKeys, ← conflict?_eq_none]
  split
  · rename_i hsome
    simp [hsome]
  · rename_i hnone
    simp [hnone]

/-- Beside another value none can be the whole document. -/
theorem segments_ne_nil_of_checkKeys {items : List FlatItem} (h : checkKeys items nested = .ok ())
    (hnested : nested ≠ []) : ∀ i ∈ items, i.key.segments ≠ [] := by
  intro i hi hnil
  obtain ⟨n, hn⟩ := List.exists_mem_of_ne_nil nested hnested
  have hpair := (List.pairwise_append.1 (checkKeys_eq_ok.1 h)).2.2 i.key
    (List.mem_map_of_mem hi) n.key (List.mem_map_of_mem hn)
  simp [Path.startsWith, hnil] at hpair

/-! ## Documents -/

namespace JsonTree

theorem args_append (object : String) (fields rest : Fields) :
    args object (fields ++ rest) = args object fields ++ args object rest := by
  induction fields with
  | nil => rfl
  | cons field fields ih =>
    cases field
    simp [args, ih]

variable {object : String}

theorem aggregates_changeObject (hobject : isAggregate object = false) {name : String}
    {change : Fields → Fields} {b : Bool}
    (hchange : ∀ fields, aggregatesAll isAggregate (args object (change fields)) =
      (aggregatesAll isAggregate (args object fields) || b)) (fields : Fields) :
    aggregatesAll isAggregate (args object (changeObject name change fields)) =
      (aggregatesAll isAggregate (args object fields) || b) := by
  fun_induction changeObject name change fields with
  | case1 =>
    simp [args, expr, aggregatesAll, Expr.apply, Expr.aggregates, hobject, hchange]
  | case2 n e rest ih => simp [args, aggregatesAll, ih, Bool.or_assoc]
  | case3 fields rest =>
    simp [args, expr, aggregatesAll, Expr.apply, Expr.aggregates, hobject, hchange, Bool.or_assoc,
      Bool.or_comm b]
  | case4 n fields rest _ ih => simp [args, aggregatesAll, ih, Bool.or_assoc]

/-- A value is kept at its place, and so are the others. -/
theorem aggregates_insert (hobject : isAggregate object = false) (e : Expr) {key : List String}
    (hkey : key ≠ []) (fields : Fields) :
    aggregatesAll isAggregate (args object (insert e key fields)) =
      (aggregatesAll isAggregate (args object fields) || e.aggregates isAggregate) := by
  induction key generalizing fields with
  | nil => exact absurd rfl hkey
  | cons name rest ih =>
    cases rest with
    | nil =>
      rw [insert, args_append, Sql.aggregatesAll_eq_any, List.any_append,
        ← Sql.aggregatesAll_eq_any, ← Sql.aggregatesAll_eq_any]
      simp [args, expr, aggregatesAll, Expr.aggregates]
    | cons member rest => exact aggregates_changeObject hobject (ih (by simp)) fields

theorem aggregates_fields (hobject : isAggregate object = false) {entries : List (Path × Expr)}
    (hkeys : ∀ x ∈ entries, x.1.segments ≠ []) (fields : Fields) :
    aggregatesAll isAggregate (args object
        (entries.foldl (fun fields (key, e) => insert e key.segments fields) fields)) =
      (aggregatesAll isAggregate (args object fields) ||
        entries.any (·.2.aggregates isAggregate)) := by
  induction entries generalizing fields with
  | nil => simp
  | cons entry entries ih =>
    rw [List.forall_mem_cons] at hkeys
    rw [List.foldl_cons, ih hkeys.2, aggregates_insert hobject _ hkeys.1, List.any_cons,
      Bool.or_assoc]

end JsonTree

/-! ## Levels -/

/-- What a level is like in terms of its query. -/
structure Level.Reads (m : Model) (d : Dialect) (isAggregate : String → Bool) (q : SelectQuery)
    (l : Level) : Prop where
  distinct : l.distinct = q.isDistinct m
  hasAggregate : l.hasAggregate = q.hasAggregate
  nested : l.nested = [] ↔ ∀ node ∈ q.nodes, node.isNested = false
  keys : l.nested ≠ [] → ∀ x ∈ l.entries, x.1.segments ≠ []
  items : MarksAggregates isAggregate q.nodes →
    ∀ i ∈ l.items, i.grouping ≠ .aggregate → i.expr.aggregates isAggregate = false
  documents : (∀ name ∈ d.documentFunctions, isAggregate name = false) →
    ∀ n ∈ l.nested, n.expr.aggregates isAggregate = false
  covered : l.nested = [] → q.OrdersNarrow m →
    ∀ o ∈ l.orderBy, l.items.any (·.expr.eqv o.expr) = true

namespace Level

variable {l : Level}

/-- The select list of the statement: the values of the level themselves, or documents that
hold them all. -/
theorem exists_shaped (l : Level) (isAggregate : String → Bool) (d : Dialect) :
    ∃ items forJson, (l.shaped d).1 = { l.query items with forJson } ∧
      (l.nested = [] → items.map (·.expr) = l.items.map (·.expr)) ∧
      ((∀ name ∈ d.documentFunctions, isAggregate name = false) →
        (l.nested ≠ [] → ∀ x ∈ l.entries, x.1.segments ≠ []) →
        (∀ n ∈ l.nested, n.expr.aggregates isAggregate = false) →
        items.any (·.expr.aggregates isAggregate) =
          l.items.any (·.expr.aggregates isAggregate)) := by
  have hentries : (∀ n ∈ l.nested, n.expr.aggregates isAggregate = false) →
      l.entries.any (·.2.aggregates isAggregate) =
        l.items.any (·.expr.aggregates isAggregate) := by
    intro hnested
    have hnone : l.nested.any (·.expr.aggregates isAggregate) = false :=
      List.any_eq_false.2 fun n hn => by simp [hnested n hn]
    rw [entries, List.any_append, List.any_map, List.any_map]
    show (l.items.any _ || l.nested.any (·.expr.aggregates isAggregate)) = _
    rw [hnone, Bool.or_false]
    rfl
  rw [shaped]
  by_cases hnested : l.nested = []
  · rw [if_pos (by simp [hnested])]
    refine ⟨_, (l.query _).forJson, rfl, fun _ => ?_, fun _ _ _ => ?_⟩
    · simp
    · simp [List.any_map, Function.comp_def]
  · rw [if_neg (by simpa using hnested), Sql.Dialect.documentFunctions]
    cases hfunctions : d.jsonFunctions? with
    | some functions =>
      refine ⟨_, (l.query _).forJson, rfl, fun hnil => absurd hnil hnested, ?_⟩
      intro hd hkeys hscalar
      have hobject := hd functions.object List.mem_cons_self
      rw [← hentries hscalar, jsonItems, List.any_cons, List.any_nil, Bool.or_false, jsonObject,
        JsonTree.expr, Expr.apply, Expr.aggregates, hobject, Bool.false_or,
        JsonTree.aggregates_fields hobject (hkeys hnested)]
      rfl
    | none =>
      refine ⟨_, _, rfl, fun hnil => absurd hnil hnested, fun _ _ hscalar => ?_⟩
      rw [← hentries hscalar, pathItems, List.any_map]
      rfl

end Level

/-- **The level of a query** that starts at a table. -/
theorem SelectQuery.reads_assemble {q : SelectQuery} {l : Level} (hf : f.Keyed m)
    (hroot : f.scope.root = q.root) (hq : q.Placed m m.Covers q.root)
    (h : (q.assemble m d none).Gives f l g) : l.Reads m d isAggregate q := by
  obtain ⟨-, hnodes, hfilter⟩ := placed_iff.1 hq
  obtain ⟨condition, f₁, parts, f₂, orders, ordered, hcondition, hparts, horders, hordered, hkeys,
    rfl⟩ := gives_assemble h
  obtain ⟨hgrows₁, hf₁⟩ := hf.compileFilter hfilter hcondition
  have hroot₁ : f₁.scope.root = q.root := hgrows₁.scope.root.trans hroot
  rw [hroot] at horders
  rw [← placedAll_iff, ← hroot₁] at hnodes
  have hreads : parts.Reads m d isAggregate f₁.scope.root q.nodes :=
    reads_assembleAll hf₁ hnodes hparts
  have hselects := selecting_assembleAll q.nodes hnodes rfl hf₁ hparts
  obtain ⟨new, hitems, hnew⟩ := Ordered.items_foldlM isAggregate hordered
  have haggregate : ordered.items.any (·.grouping == .aggregate) = q.hasAggregate := by
    have hnone : new.any (·.grouping == .aggregate) = false :=
      List.any_eq_false.2 fun i hi => by simp [(hnew i hi).1]
    rw [hitems, List.any_append, hnone, Bool.or_false]
    exact hreads.aggregate
  constructor
  · rw [haggregate, hreads.fansOut, hroot₁]
    rfl
  · exact haggregate
  · exact hreads.nested
  · intro hnested
    refine List.forall_mem_append.2 ⟨List.forall_mem_map.2 ?_, List.forall_mem_map.2 hreads.keys⟩
    exact segments_ne_nil_of_checkKeys (hkeys hnested) hnested
  · intro hmarks i hi hkey
    rw [hitems] at hi
    rcases List.mem_append.1 hi with hi | hi
    · exact hreads.items hmarks i hi hkey
    · exact (hnew i hi).2
  · exact hreads.documents
  · intro hnested hnarrow
    have hcovered : (Ordered.mk parts.items parts.keys []).Covered := by simp [Ordered.Covered]
    have hroot₂ := hselects.grows.scope.root.trans hroot₁
    rw [show parts.nested = [] from hnested] at hordered
    exact hcovered.foldlM hselects.keyed (hroot₂ ▸ hnarrow orders horders) hordered

end EntityQuery
