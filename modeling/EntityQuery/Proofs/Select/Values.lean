import EntityQuery.Proofs.Scope.Joins
import EntityQuery.Proofs.Select.Assembly
import EntityQuery.Proofs.Select.Built

/-!
# What is put together

A selection is put together from columns, constants, conditions and the levels of nested queries,
each in the frame that the one before it has left. A property of expressions that the parts have,
that stays when the frame grows, and that passes on to what is made of them, holds of the whole.

**Values.** An `Admission` passes on to calls and cases. So the value of every node that nests
nothing has it (`Admission.assemble`).

**Orders.** An `OrderAdmission` passes on to the extreme of related rows, so every order has it
(`OrderAdmission.foldlM`).

**Levels.** A `LevelAdmission` passes on from a nested level to the value that it is in the row
above it. By induction over nodes and queries, it holds of everything in the level of a query
(`LevelAdmission.query`).
-/

namespace EntityQuery

open Build
open EntityQuery.Sql (Expr Dialect)

variable {m : Model} {P : Table → Prop} {d : Dialect} {α β : Type}

/-- Started in a frame with the invariant, the computation only adds to the frame and keeps the
invariant, and the result has the property in the frame that it leaves. -/
def Extends (I : Frame → Prop) (act : Build α) (R : Frame → α → Prop) : Prop :=
  ∀ ⦃f a g⦄, I f → act.Gives f a g → f.Grows g ∧ I g ∧ R g a

section

variable {I : Frame → Prop} {R C : Frame → Expr → Prop}

theorem extends_mapM {k : α → Build β} {R : Frame → β → Prop} {xs : List α}
    (h : ∀ x ∈ xs, Extends I (k x) R) (hmono : ∀ f g b, f.Grows g → R f b → R g b) :
    Extends I (xs.mapM k) fun g ys => ∀ y ∈ ys, R g y := by
  intro f ys g hf hys
  refine mapM_induction (fun g ys => f.Grows g ∧ I g ∧ ∀ y ∈ ys, R g y)
    (fun x hx f₁ ys y g hinv hy => ?_) ⟨.refl f, hf, List.forall_mem_nil _⟩ hys
  obtain ⟨hgrows, hf₁, hys⟩ := hinv
  obtain ⟨hgrows₁, hg, hRy⟩ := h x hx hf₁ hy
  exact ⟨hgrows.trans hgrows₁, hg, List.forall_mem_append.2
    ⟨fun z hz => hmono _ _ _ hgrows₁ (hys z hz), List.forall_mem_singleton.2 hRy⟩⟩

/-- In frames with the invariant, values have the property `R` and conditions the property `C`. -/
structure Admission (m : Model) (P : Table → Prop) (I : Frame → Prop) (C R : Frame → Expr → Prop) :
    Prop where
  grows : ∀ {f g e}, f.Grows g → R f e → R g e
  growsCondition : ∀ {f g e}, f.Grows g → C f e → C g e
  param : ∀ f v, R f (.param v none)
  star : ∀ f, R f (.star none)
  call : ∀ {f name args distinct}, (∀ e ∈ args, R f e) → R f (.call name args distinct)
  case : ∀ {f branches otherwise}, (∀ b ∈ branches, C f b.1 ∧ R f b.2) →
    (∀ e ∈ otherwise, R f e) → R f (.case branches otherwise)
  always : ∀ f, C f (.eq (.int 1) (.int 1))
  joinHops : ∀ {f hops s}, I f → m.Walk f.scope.root hops →
    f.scope.joinHops hops .select = .ok s → I ⟨s, f.ctes⟩
  column : ∀ {f path r s}, I f → m.resolve f.scope.root path = .ok r →
    f.scope.joinHops r.hops .select = .ok s → R ⟨s, f.ctes⟩ (m.columnExpr r.table r.column)
  condition : ∀ {p : Predicate}, p.OnTables P → ∀ origin,
    Extends I (p.compile m origin) fun g e => ∀ x ∈ e, C g x

namespace Admission

variable (h : Admission m P I C R)

include h

theorem joinSelected (path : Path) :
    Extends I (joinSelected m path) fun g r => R g (m.columnExpr r.table r.column) := by
  intro f r g hf hr
  obtain ⟨hresolve, s, hs, rfl⟩ := gives_joinSelected hr
  exact ⟨⟨Scope.grows_joinHops hs, List.prefix_rfl⟩,
    h.joinHops hf (Model.walk_of_resolve hresolve).1 hs, h.column hf hresolve hs⟩

theorem functionArg (arg : FunctionArg) : Extends I (arg.assemble m) fun g x => R g x.1 := by
  intro f x g hf hx
  cases arg with
  | column path =>
    simp only [FunctionArg.assemble, gives_bind, gives_pure] at hx
    obtain ⟨r, _, hr, rfl, rfl⟩ := hx
    exact h.joinSelected path hf hr
  | value v =>
    obtain ⟨rfl, rfl⟩ := gives_pure.1 hx
    exact ⟨.refl _, hf, h.param _ v⟩
  | star =>
    obtain ⟨rfl, rfl⟩ := gives_pure.1 hx
    exact ⟨.refl _, hf, h.star _⟩

theorem branch {branch : Predicate × Value} (hp : branch.1.OnTables P) :
    Extends I (assembleBranch m branch) fun g x => C g x.1 ∧ R g x.2 := by
  intro f x g hf hx
  obtain ⟨e, he, rfl⟩ := gives_assembleBranch hx
  obtain ⟨hgrows, hg, hes⟩ := h.condition hp .select hf he
  refine ⟨hgrows, hg, ?_, h.param g branch.2⟩
  cases e with
  | none => exact h.always g
  | some e => exact hes e rfl

theorem filter {filter : Option Predicate} (hp : OnTablesFilter P filter) :
    Extends I (compileFilter m filter) fun g e => ∀ x ∈ e, C g x := by
  intro f e g hf he
  rcases gives_compileFilter.1 he with ⟨-, rfl, rfl⟩ | ⟨p, rfl, hc⟩
  · exact ⟨.refl _, hf, by simp⟩
  · exact h.condition hp .filter hf hc

/-- **A node that nests nothing selects one value**, a key of groups or an aggregate. -/
theorem assemble {node : SelectNode} (hvalue : ∀ path r q, node ≠ .nested path r q) {t : Table}
    (hnode : node.Placed m P t) :
    Extends I (node.assemble m d) fun g parts => ∃ item fansOut,
      parts = { Parts.ofItem item with fansOut } ∧ R g item.expr ∧
        (item.grouping = .key ∨ item.grouping = .aggregate ∧ ∀ c, item.expr ≠ .column c) := by
  intro f parts g hf hparts
  cases node with
  | column path label =>
    obtain ⟨r, hr, rfl⟩ := gives_assemble_column hparts
    obtain ⟨hgrows, hg, hcolumn⟩ := h.joinSelected path hf hr
    exact ⟨hgrows, hg, _, _, rfl, hcolumn, .inl rfl⟩
  | function name args distinct aggregate label =>
    obtain ⟨-, values, hvalues, rfl⟩ := gives_assemble_function hparts
    obtain ⟨hgrows, hg, hargs⟩ := extends_mapM (fun arg (_ : arg ∈ args) => h.functionArg arg)
      (fun _ _ _ hgrows => h.grows hgrows) hf hvalues
    refine ⟨hgrows, hg, _, _, rfl, h.call (List.forall_mem_map.2 hargs), ?_⟩
    cases aggregate with
    | true => exact .inr ⟨rfl, by simp⟩
    | false => exact .inl rfl
  | case branches otherwise label =>
    rw [SelectNode.Placed] at hnode
    obtain ⟨written, hwritten, rfl⟩ := gives_assemble_case hparts
    obtain ⟨hgrows, hg, hbranches⟩ := extends_mapM
      (fun b (hb : b ∈ branches) => h.branch (hnode b hb))
      (fun _ _ _ hgrows hb => ⟨h.growsCondition hgrows hb.1, h.grows hgrows hb.2⟩) hf hwritten
    refine ⟨hgrows, hg, _, _, rfl, h.case hbranches fun e he => ?_, .inl rfl⟩
    obtain ⟨v, -, rfl⟩ := Option.map_eq_some_iff.1 he
    exact h.param g v
  | nested path r query => exact absurd rfl (hvalue path r query)

end Admission

end

/-! ## Orders -/

/-- The relationship leads on from where a walk ends, and the walk has been joined. -/
structure Frame.LeadsTo (m : Model) (f : Frame) (before : List Relationship) (s : Scope)
    (r : Relationship) : Prop where
  walk : m.Walk f.scope.root before
  joins : f.scope.joinHops before .select = .ok s
  relates : m.Relates (Model.endOf f.scope.root before) r

/-- What was found for a select list has the property. -/
structure Ordered.Admitted (R : Frame → Expr → Prop) (f : Frame) (o : Ordered) : Prop where
  items : ∀ i ∈ o.items, R f i.expr
  keys : ∀ c ∈ o.keys, R f (.column c)
  orderBy : ∀ x ∈ o.orderBy, R f x.expr

/-- And so have the extremes of related rows, and the columns that they are tied to. -/
structure OrderAdmission (m : Model) (P : Table → Prop) (I : Frame → Prop)
    (C R : Frame → Expr → Prop) : Prop extends Admission m P I C R where
  parentColumn : ∀ {f before s r}, I f → f.LeadsTo m before s r →
    R ⟨s, f.ctes⟩ (.column r.parentColumn)
  extreme : ∀ {f before s many after r dir q}, I f → f.LeadsTo m before s many →
    m.Walk many.child after → r.table = Model.endOf many.child after →
    extremeQuery m many after r dir = .ok q → R ⟨s, f.ctes⟩ (.subquery q)

namespace OrderAdmission

variable {I : Frame → Prop} {R C : Frame → Expr → Prop} (h : OrderAdmission m P I C R) {f g : Frame}
  {acc acc' : Ordered} {nested : List NestedItem}

include h

theorem growsOrdered (hgrows : f.Grows g) (hacc : acc.Admitted R f) : acc.Admitted R g :=
  ⟨fun i hi => h.grows hgrows (hacc.items i hi), fun c hc => h.grows hgrows (hacc.keys c hc),
    fun x hx => h.grows hgrows (hacc.orderBy x hx)⟩

/-- One order: a column, or the extreme of the related rows. -/
theorem add {o : OrderBy} (hf : I f) (hacc : acc.Admitted R f)
    (hadd : (acc.add m nested o).Gives f acc' g) : f.Grows g ∧ I g ∧ acc'.Admitted R g := by
  obtain ⟨r, s, hresolve, rfl, ⟨-, hs, rfl⟩ | ⟨before, many, after, q, hhops, -, -, hs, hq, rfl⟩⟩ :=
    Ordered.gives_add hadd
  · have hgrows : f.Grows ⟨s, f.ctes⟩ := ⟨Scope.grows_joinHops hs, List.prefix_rfl⟩
    have hcolumn := h.column hf hresolve hs
    have hacc := h.growsOrdered hgrows hacc
    refine ⟨hgrows, h.joinHops hf (Model.walk_of_resolve hresolve).1 hs, ?_, hacc.keys, ?_⟩
    · refine List.forall_mem_append.2 ⟨hacc.items, fun i hi => ?_⟩
      split at hi
      · rw [List.mem_singleton.1 hi]
        exact hcolumn
      · simp at hi
    · exact List.forall_mem_append.2 ⟨hacc.orderBy, List.forall_mem_singleton.2 hcolumn⟩
  · have hgrows : f.Grows ⟨s, f.ctes⟩ := ⟨Scope.grows_joinHops hs, List.prefix_rfl⟩
    obtain ⟨hwalk, htable⟩ := Model.walk_of_resolve hresolve
    rw [hhops] at hwalk htable
    obtain ⟨hbefore, _ | ⟨hmany, hafter⟩⟩ := Model.walk_append.1 hwalk
    rw [Model.endOf_append, Model.endOf_cons] at htable
    have hleads : f.LeadsTo m before s many := ⟨hbefore, hs, hmany⟩
    have hacc := h.growsOrdered hgrows hacc
    exact ⟨hgrows, h.joinHops hf hbefore hs, hacc.items,
      List.forall_mem_append.2
        ⟨hacc.keys, List.forall_mem_singleton.2 (h.parentColumn hf hleads)⟩,
      List.forall_mem_append.2
        ⟨hacc.orderBy, List.forall_mem_singleton.2 (h.extreme hf hleads hafter htable hq)⟩⟩

theorem foldlM {orders : List OrderBy} (hf : I f) (hacc : acc.Admitted R f)
    (hfold : (orders.foldlM (Ordered.add m nested) acc).Gives f acc' g) :
    f.Grows g ∧ I g ∧ acc'.Admitted R g := by
  refine foldlM_induction (fun g acc => f.Grows g ∧ I g ∧ acc.Admitted R g)
    (fun o _ f₁ acc₁ g acc₂ hinv hadd => ?_) ⟨.refl f, hf, hacc⟩ hfold
  obtain ⟨hgrows, hf₁, hacc₁⟩ := hinv
  obtain ⟨hgrows₁, hg, hacc₂⟩ := h.add hf₁ hacc₁ hadd
  exact ⟨hgrows.trans hgrows₁, hg, hacc₂⟩

end OrderAdmission

/-! ## Levels -/

/-- What the nodes contribute has the property. -/
structure Parts.Admitted (R : Frame → Expr → Prop) (f : Frame) (parts : Parts) : Prop where
  items : ∀ i ∈ parts.items, R f i.expr
  nested : ∀ n ∈ parts.nested, R f n.expr
  keys : ∀ c ∈ parts.keys, R f (.column c)

/-- What was found for the level of a query, from the frame `f` to the frame `g`: besides its
conditions of relationships and the correlation, everything has the properties. -/
structure Level.Admitted (I : Frame → Prop) (C R : Frame → Expr → Prop) (f : Frame)
    (correlation : Option Expr) (l : Level) (g : Frame) : Prop where
  grows : f.Grows g
  scope : l.scope = g.scope
  frame : I g
  conditions : ∀ e ∈ l.conditions, e ∈ g.scope.baseFilters ∨ e ∈ correlation ∨ C g e
  items : ∀ i ∈ l.items, R g i.expr
  nested : ∀ n ∈ l.nested, R g n.expr
  groupBy : ∀ c ∈ l.groupBy, (∃ i ∈ l.items, c ∈ i.expr.columns) ∨ R g (.column c)
  orderBy : ∀ o ∈ l.orderBy, R g o.expr

/-- And so has the value that a level is in the row above it. -/
structure LevelAdmission (m : Model) (d : Dialect) (P : Table → Prop) (I : Frame → Prop)
    (C R : Frame → Expr → Prop) : Prop extends OrderAdmission m P I C R where
  ofRelationship : ∀ {f before s r}, I f → f.LeadsTo m before s r → I ⟨.ofRelationship r, f.ctes⟩
  nested : ∀ {f before s r} {l : Level} {g : Frame}, I f → f.LeadsTo m before s r →
    l.Admitted I C R ⟨.ofRelationship r, f.ctes⟩ (some r.correlation) g →
    I ⟨s, g.ctes⟩ ∧ R ⟨s, g.ctes⟩ (l.nestedExpr (!r.fansOut) d)

section

variable {I : Frame → Prop} {R C : Frame → Expr → Prop}

theorem mem_groupColumns_imp {items : List FlatItem} {keys : List Sql.Column} {c : Sql.Column}
    (h : c ∈ groupColumns items keys) : (∃ i ∈ items, c ∈ i.expr.columns) ∨ c ∈ keys := by
  rw [groupColumns] at h
  split at h
  · rw [List.mem_eraseDups, List.mem_append, List.mem_flatMap] at h
    exact h.imp_left fun ⟨i, hi, hc⟩ => ⟨i, (List.mem_filter.1 hi).1, hc⟩
  · simp at h

mutual

theorem LevelAdmission.node (h : LevelAdmission m d P I C R) (node : SelectNode) {parts : Parts}
    {f g : Frame} (hf : I f) (hnode : node.Placed m P f.scope.root)
    (hparts : (node.assemble m d).Gives f parts g) : f.Grows g ∧ I g ∧ parts.Admitted R g := by
  match node with
  | .column .. | .function .. | .case .. =>
    obtain ⟨hgrows, hg, item, fansOut, rfl, hitem, -⟩ := h.assemble (by simp) hnode hf hparts
    exact ⟨hgrows, hg, List.forall_mem_singleton.2 hitem, List.forall_mem_nil _,
      List.forall_mem_nil _⟩
  | .nested path r query =>
    rw [SelectNode.Placed] at hnode
    obtain ⟨⟨before, hroute⟩, hquery⟩ := hnode
    obtain ⟨route, s, level, inner, hroute', hs, hassemble, rfl, rfl⟩ :=
      gives_assemble_nested hparts
    cases hroute.symm.trans hroute'
    obtain ⟨hbefore, hr⟩ := Model.walk_of_resolveRelationship hroute
    have hleads : f.LeadsTo m before s r := ⟨hbefore, hs, hr⟩
    have hlevel := h.query query (h.ofRelationship hf hleads) hquery hassemble
    obtain ⟨hg, hvalue⟩ := h.nested hf hleads hlevel
    have hkey := h.grows (f := ⟨s, f.ctes⟩) (g := ⟨s, inner.ctes⟩)
      ⟨.refl s, hlevel.grows.ctes⟩ (h.parentColumn hf hleads)
    exact ⟨⟨Scope.grows_joinHops hs, hlevel.grows.ctes⟩, hg, List.forall_mem_nil _,
      List.forall_mem_singleton.2 hvalue, List.forall_mem_singleton.2 hkey⟩

theorem LevelAdmission.nodes (h : LevelAdmission m d P I C R) (nodes : List SelectNode)
    {parts : Parts} {f g : Frame} (hf : I f) (hnodes : PlacedAll m P f.scope.root nodes)
    (hparts : (assembleAll m d nodes).Gives f parts g) :
    f.Grows g ∧ I g ∧ parts.Admitted R g := by
  match nodes with
  | [] =>
    rw [assembleAll] at hparts
    obtain ⟨rfl, rfl⟩ := gives_pure.1 hparts
    exact ⟨.refl _, hf, List.forall_mem_nil _, List.forall_mem_nil _, List.forall_mem_nil _⟩
  | node :: rest =>
    obtain ⟨part, f₁, parts, hpart, hrest, rfl⟩ := gives_assembleAll_cons hparts
    obtain ⟨hgrows₁, hf₁, hpart⟩ := h.node node hf hnodes.1 hpart
    obtain ⟨hgrows₂, hf₂, hrest⟩ := h.nodes rest hf₁ (hgrows₁.scope.root ▸ hnodes.2) hrest
    exact ⟨hgrows₁.trans hgrows₂, hf₂,
      List.forall_mem_append.2 ⟨fun i hi => h.grows hgrows₂ (hpart.items i hi), hrest.items⟩,
      List.forall_mem_append.2 ⟨fun n hn => h.grows hgrows₂ (hpart.nested n hn), hrest.nested⟩,
      List.forall_mem_append.2 ⟨fun c hc => h.grows hgrows₂ (hpart.keys c hc), hrest.keys⟩⟩

/-- **What is found for the level of a query has the properties.** -/
theorem LevelAdmission.query (h : LevelAdmission m d P I C R) (q : SelectQuery)
    {correlation : Option Expr} {l : Level} {f g : Frame} (hf : I f)
    (hq : q.Placed m P f.scope.root) (hl : (q.assemble m d correlation).Gives f l g) :
    l.Admitted I C R f correlation g := by
  match q with
  | ⟨root, nodes, filter, order, paging, distinct, eagerDepth, ancestors⟩ =>
    rw [SelectQuery.Placed] at hq
    obtain ⟨-, hnodes, hfilter⟩ := hq
    obtain ⟨condition, f₁, parts, f₂, orders, ordered, hcondition, hparts, -, hordered, -, rfl⟩ :=
      SelectQuery.gives_assemble hl
    obtain ⟨hgrows₁, hf₁, hcondition⟩ := h.filter hfilter hf hcondition
    obtain ⟨hgrows₂, hf₂, hparts⟩ := h.nodes nodes hf₁ (hgrows₁.scope.root ▸ hnodes) hparts
    obtain ⟨hgrows₃, hg, hordered⟩ :=
      h.foldlM hf₂ ⟨hparts.items, hparts.keys, List.forall_mem_nil _⟩ hordered
    refine ⟨hgrows₁.trans (hgrows₂.trans hgrows₃), rfl, hg, fun e he => ?_, hordered.items,
      fun n hn => h.grows hgrows₃ (hparts.nested n hn),
      fun c hc => (mem_groupColumns_imp hc).imp_right (hordered.keys c), hordered.orderBy⟩
    rw [List.mem_append, List.mem_append, Option.mem_toList, Option.mem_toList, or_assoc] at he
    exact he.imp_right (.imp_right fun he =>
      h.growsCondition (hgrows₂.trans hgrows₃) (hcondition e he))

end

end

end EntityQuery
