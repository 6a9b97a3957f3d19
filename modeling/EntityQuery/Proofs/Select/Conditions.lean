import EntityQuery.Proofs.Predicate.Conditions
import EntityQuery.Proofs.Predicate.Form
import EntityQuery.Proofs.Select.Filtered
import Mathlib.Data.List.ReduceOption

/-!
# The conditions of statements

Every condition of a compiled statement can be read back from its tokens: those of WHERE, of joins,
of HAVING and of CASE, in the statement itself, in its CTEs, in the levels nested in it and in the
query that counts its rows.

**Levels.** If everything found for a level is readable, so is its query in each of its shapes, and
so is its count (`Level.Readable.carries`, `Level.Readable.countQuery`).

**Runs.** Assembling keeps the frame readable (`admission_readable`), and the level of a query is
readable (`Level.Admitted.readable`). The conditions of a level are those of its relationship, the
correlation with the row around it and the filter; they are put together by one `combine`.
-/

namespace EntityQuery

open Build
open EntityQuery.Sql (Expr Query Cte SelectItem Dialect)

/-! ## Levels -/

/-- Everything found for the level is readable. -/
structure Level.Readable (l : Level) : Prop where
  scope : l.scope.Readable
  conditions : ∀ e ∈ l.conditions, e.IsCondition
  entries : ∀ x ∈ l.entries, x.2.Readable
  orderBy : ∀ o ∈ l.orderBy, o.expr.Readable

namespace Level.Readable

variable {l : Level}

theorem condition (h : l.Readable) : ∀ c ∈ Expr.combine .and l.conditions, c.IsCondition :=
  Expr.isCondition_combine rfl h.conditions

theorem item (h : l.Readable) {i : FlatItem} (hi : i ∈ l.items) : i.expr.Readable :=
  h.entries (i.key, i.expr) (List.mem_append_left _ (List.mem_map_of_mem hi))

theorem base (h : l.Readable) {items : List SelectItem} (hitems : ∀ x ∈ items, x.expr.Readable) :
    (l.base items).Readable := by
  rw [Query.readable_iff]
  simpa [Level.base, Query.empty, Expr.readable_column] using ⟨hitems, h.condition⟩

/-- **A readable level** has a readable query and is a readable value. -/
theorem carries (h : l.Readable) : l.Carries Expr.Readable Expr.Readable Query.Readable where
  inner := ⟨Expr.readable_literal, Expr.readable_call⟩
  outer := ⟨Expr.readable_literal, Expr.readable_call⟩
  label _ := Expr.readable_column _
  entries := h.entries
  orderBy := h.orderBy
  select top window hitems horder := by
    refine h.scope.apply ?_ false
    have hbase := h.base hitems
    rw [Query.readable_iff] at hbase ⊢
    obtain ⟨hctes, hitems, hsource, hjoins, hcondition, hgroup, hhaving, -⟩ := hbase
    exact ⟨hctes, hitems, hsource, hjoins, hcondition, hgroup, hhaving, horder⟩
  reshape top window forJson hq := hq.reshape top window forJson
  array function hrows := Query.readable_derived (List.forall_mem_nil _)
    (List.forall_mem_singleton.2
      (Expr.readable_call (List.forall_mem_singleton.2 (Expr.readable_column _)))) hrows
  subquery hq := Expr.readable_subquery hq

/-- **The count**, over the filtered rows or over those of the level. -/
theorem countQuery (h : l.Readable) {ctes : List Cte} (hctes : ∀ c ∈ ctes, c.query.Readable) :
    (l.countQuery ctes).Readable := by
  have hcount : countItem.expr.Readable :=
    Expr.readable_call (List.forall_mem_singleton.2 (Expr.readable_star none))
  rw [Level.countQuery]
  split
  · refine h.scope.apply (Query.readable_empty (fun c hc => ?_)
      (List.forall_mem_singleton.2 hcount) h.condition) true
    exact hctes c (List.mem_of_mem_take hc)
  · refine Query.readable_derived hctes (List.forall_mem_singleton.2 hcount)
      (h.scope.apply (h.base ?_) false)
    rw [countedItems]
    split
    · exact List.forall_mem_singleton.2 (Expr.readable_literal _)
    · refine List.forall_mem_map.2 fun x hx => h.item ?_
      exact List.fst_mem_of_mem_zipIdx hx

end Level.Readable

/-! ## Assembling -/

section

variable {m : Model} {d : Dialect} {f g : Frame}

theorem Relationship.isCondition_correlation (r : Relationship) : r.correlation.IsCondition :=
  Expr.isCondition_compare rfl True.intro True.intro

theorem readable_extremeQuery (hm : m.Compares) {t : Table} {many : Relationship}
    {after : List Relationship} {r : Resolution} {dir : Sql.SortDir} {q : Query} (ht : m.Covers t)
    (hmany : m.Relates t many) (hafter : m.Walk many.child after)
    (hq : extremeQuery m many after r dir = .ok q) : q.Readable := by
  obtain ⟨body, hbody, hq⟩ := bind_eq_ok.1 hq
  cases hq
  have hscope := (Scope.readable_ofRelationship hm ht hmany).joinHops hm hmany.covers_child hafter
    hbody
  refine hscope.apply (Query.readable_empty (List.forall_mem_nil _)
    (List.forall_mem_singleton.2 ?_) ?_) false
  · exact Expr.readable_call (List.forall_mem_singleton.2 (Expr.readable_column _))
  · exact Expr.isCondition_combine rfl (List.forall_mem_append.2
      ⟨hscope.baseFilters, List.forall_mem_singleton.2 many.isCondition_correlation⟩)

theorem Level.Admitted.readable {l : Level} {correlation : Option Expr}
    (h : l.Admitted (Frame.Readable m) (fun _ => Expr.IsCondition) (fun _ => Expr.Readable) f
      correlation g) (hcorrelation : ∀ e ∈ correlation, e.IsCondition) : l.Readable := by
  refine ⟨h.scope ▸ h.frame.scope, fun e he => ?_, ?_, h.orderBy⟩
  · rcases h.conditions e he with he | he | he
    · exact h.frame.scope.baseFilters e he
    · exact hcorrelation e he
    · exact he
  · exact List.forall_mem_append.2 ⟨List.forall_mem_map.2 h.items, List.forall_mem_map.2 h.nested⟩

/-- Values are readable, and conditions are conditions. -/
theorem admission_readable (hm : m.Compares) : LevelAdmission m d m.Covers (Frame.Readable m)
    (fun _ => Expr.IsCondition) (fun _ => Expr.Readable) where
  grows _ he := he
  growsCondition _ he := he
  param _ v := Expr.readable_param v none
  star _ := Expr.readable_star none
  call := Expr.readable_call
  case := Expr.readable_case
  always _ := Expr.isCondition_compare rfl True.intro True.intro
  joinHops hf hwalk hs := hf.joinHops hm hwalk hs
  column _ _ _ := Expr.readable_column _
  condition hp origin f e g hf he := by
    obtain ⟨hg, hes⟩ := hf.compile hm hp he
    exact ⟨grows_compile he, hg, hes⟩
  parentColumn _ _ := Expr.readable_column _
  extreme hf hmany hafter _ hq := Expr.readable_subquery
    (readable_extremeQuery hm (hmany.walk.covers_endOf hf.root) hmany.relates hafter hq)
  ofRelationship hf hr :=
    Frame.readable_ofRelationship hm (hr.walk.covers_endOf hf.root) hr.relates hf.ctes
  nested {f before s r l g} hf hr hlevel := by
    have hf₁ := hf.joinHops hm hr.walk hr.joins
    have hreadable := hlevel.readable fun e he => Option.some.inj he ▸ r.isCondition_correlation
    exact ⟨⟨hf₁.root, hf₁.scope, hlevel.frame.ctes⟩, hreadable.carries.nestedExpr _ d⟩

end

/-! ## Statements -/

/-- A query over the frame, filtered by the conditions that have been written there. -/
def Frame.filtered (f : Frame) (q : Query) (conditions : List Expr) (filterOnly : Bool) : Query :=
  { f.scope.apply (conditions.foldl Query.filter q) filterOnly with ctes := f.ctes }

theorem Frame.Readable.filtered {m : Model} {f : Frame} (h : f.Readable m) {q : Query}
    (hq : q.Readable) {conditions : List Expr} (hconditions : ∀ e ∈ conditions, e.IsCondition)
    (filterOnly : Bool) : (f.filtered q conditions filterOnly).Readable := by
  have hfilter : (conditions.foldl Query.filter q).Readable := by
    induction conditions generalizing q with
    | nil => exact hq
    | cons e es ih =>
      rw [List.forall_mem_cons] at hconditions
      exact ih (hq.filter hconditions.1) hconditions.2
  exact (h.scope.apply hfilter filterOnly).withCtes h.ctes

/-- **Conditions are read back.** However many predicates filter a query, and whatever a selection
asks for: the tokens of each condition that is written are read as the tree they were printed from,
in the statement, in its CTEs and subqueries, and in its count. -/
theorem compile_readBack {m : Model} {naming : Naming} {schema : Option String}
    {all : List EntityDecl} (hm : Model.build naming schema all = .ok m) {t : Table}
    (ht : m.Covers t) :
    (∀ (ps : List Predicate) (origin : JoinOrigin) (es : List (Option Expr)) (g : Frame)
      (q : Query) (filterOnly : Bool), (∀ p ∈ ps, p.OnTables m.Covers) →
      (ps.mapM fun p : Predicate => p.compile m origin).Gives ⟨.ofTable m t, []⟩ es g →
      (∀ s ∈ q.selects, s.conditions = []) →
      ∀ s ∈ (g.filtered q es.reduceOption filterOnly).selects, ∀ e ∈ s.conditions, e.ReadBack) ∧
    ∀ (q : SelectQuery) (d : Dialect) (c : CompiledQuery),
      SelectQuery.Builds m m.Covers (.ofTable t) q → q.compile m d = .ok c →
      ∀ s ∈ c.query.selects ++ c.count.selects, ∀ e ∈ s.conditions, e.ReadBack := by
  have hcompares := Model.compares_of_build hm
  have hstart := Frame.readable_ofTable ht (List.forall_mem_nil fun c : Cte => c.query.Readable)
  refine ⟨fun ps origin es g q filterOnly hps hes hq s hs e he => ?_,
    fun q d c hq hc s hs e he => ?_⟩
  · obtain ⟨-, hg, hconditions⟩ := extends_mapM
      (fun p hp => (admission_readable (d := .mySql) hcompares).condition (hps p hp) origin)
      (fun _ _ _ _ h => h) hstart hes
    have hbase : q.Readable := fun s hs c hc => by
      rw [hq s hs] at hc
      exact absurd hc List.not_mem_nil
    have hfilter : ∀ e ∈ es.reduceOption, e.IsCondition := fun e he =>
      hconditions (some e) (List.reduceOption_mem_iff.1 he) e rfl
    exact (hg.filtered hbase hfilter filterOnly s hs e he).readBack
  · have hplaced := hq.placed (SelectQuery.placed_ofTable t)
    obtain ⟨rfl, -, -⟩ := SelectQuery.placed_iff.1 hplaced
    obtain ⟨l, g, hassemble, rfl⟩ := SelectQuery.compile_eq_ok hc
    have hadmitted := (admission_readable hcompares).query q hstart hplaced hassemble
    have hctes := hadmitted.frame.ctes
    have hlevel := hadmitted.readable (by simp)
    rcases List.mem_append.1 hs with hs | hs
    · exact ((hlevel.carries.shaped d).withCtes hctes s hs e he).readBack
    · exact (hlevel.countQuery hctes s hs e he).readBack

namespace Shop

theorem onTables_restocked (naming : Naming) : restocked.OnTables (model naming).Covers :=
  ⟨⟨⟩, ⟨covers_orders naming, ⟨⟩⟩, ⟨⟩⟩

end Shop

/-- Orders with two articles or a customer found by a subquery, and the eleven conditions of a
report with two nested levels. -/
theorem compile_readBack_report :
    (∃ e g, (Shop.restocked.compile (Shop.model Shop.plain) .filter).Gives
        ⟨.ofTable (Shop.model Shop.plain) Shop.orders, []⟩ e g ∧
      ∀ s ∈ (g.filtered .empty [e].reduceOption true).selects, ∀ c ∈ s.conditions, c.ReadBack) ∧
    ∃ q c, Shop.report = .ok q ∧ q.compile (Shop.model Shop.plain) .mySql = .ok c ∧
      (c.query.selects.flatMap (·.conditions)).length = 11 ∧
      ∀ s ∈ c.query.selects ++ c.count.selects, ∀ e ∈ s.conditions, e.ReadBack := by
  obtain ⟨hpredicates, hselects⟩ := compile_readBack (Shop.build_declarations Shop.plain)
    (Shop.covers_orders Shop.plain)
  constructor
  · obtain ⟨e, g, h⟩ := Shop.compile_restocked Shop.plain
    have hone : ([Shop.restocked].mapM fun p : Predicate =>
        p.compile (Shop.model Shop.plain) .filter).Gives
          ⟨.ofTable (Shop.model Shop.plain) Shop.orders, []⟩ [e] g := by
      simp only [List.mapM_cons, List.mapM_nil, gives_bind, gives_pure]
      exact ⟨e, g, h, [], g, ⟨rfl, rfl⟩, rfl, rfl⟩
    exact ⟨e, g, h, hpredicates _ _ _ _ .empty true
      (List.forall_mem_singleton.2 (Shop.onTables_restocked Shop.plain)) hone
      (List.forall_mem_singleton.2 rfl)⟩
  · have hcompile : (Shop.report >>= fun q => (q.compile (Shop.model Shop.plain) .mySql).map
        fun c => (c.query.selects.flatMap (·.conditions)).length) = .ok 11 := by
      cbv
    obtain ⟨q, hq, hc⟩ := bind_eq_ok.1 hcompile
    obtain ⟨c, hc, hlength⟩ := map_eq_ok.1 hc
    exact ⟨q, c, hq, hc, hlength, hselects q .mySql c (Shop.builds_report hq) hc⟩

end EntityQuery
