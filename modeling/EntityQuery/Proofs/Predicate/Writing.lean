import EntityQuery.Predicate.Rendering
import EntityQuery.Proofs.Graph.Walk
import EntityQuery.Proofs.Predicate.Tables
import EntityQuery.Proofs.Success

/-!
# Writing predicates, step by step

What a predicate is written as, without the monad. The first part has one lemma for each function
of the writer: it succeeds exactly if its steps do. The second part puts them together into one
relation, `Writes`, with a rule for each form of a predicate:

* a *task* is a predicate to be compiled or written, a list of them, an operand, or a filter;
* `Writes m P task f es g` says that the task, begun in the frame `f`, ends in the frame `g` and
  yields the expressions `es`: none or one for a predicate, any number for a list. The tables of
  its subqueries have the property `P`.

The rules say everything a step can do, so an invariant of writing is proved by one induction on
`Writes`, with one case for each rule.
-/

namespace EntityQuery

open EntityQuery.Sql (Expr Query)
open Build (Gives cteName)

variable {m : Model} {f g h : Frame} {origin : JoinOrigin} {e : Option Expr} {op : Operator}
  {target : Target} {q : Quantifier} {p : Predicate}

/-! ## The functions of the writer -/

theorem gives_joinColumn {path : Path} :
    (joinColumn m path origin).Gives f target g ↔
      ∃ r s, m.resolve f.scope.root path = .ok r ∧ r.crossesMany = false ∧
        f.scope.joinHops r.hops origin = .ok s ∧
        target = ⟨m.columnExpr r.table r.column, r.column.type, path⟩ ∧ g = ⟨s, f.ctes⟩ := by
  simp only [joinColumn, Build.gives_bind, Build.gives_root, Build.gives_lift]
  constructor
  · intro h
    obtain ⟨_, _, ⟨rfl, rfl⟩, r, _, ⟨hr, rfl⟩, hrest⟩ := h
    by_cases hmany : r.crossesMany
    · rw [if_pos hmany] at hrest
      simp only [Build.gives_bind, Build.not_gives_throw, false_and, exists_false] at hrest
    · rw [if_neg hmany] at hrest
      simp only [Build.gives_bind, Build.gives_pure, Build.gives_join] at hrest
      obtain ⟨_, _, ⟨s, hs, rfl⟩, rfl, rfl⟩ := hrest
      exact ⟨r, s, hr, by simpa using hmany, hs, rfl, rfl⟩
  · intro h
    obtain ⟨r, s, hr, hmany, hs, rfl, rfl⟩ := h
    refine ⟨_, _, ⟨rfl, rfl⟩, r, _, ⟨hr, rfl⟩, ?_⟩
    simp only [hmany, Bool.false_eq_true, if_false, Build.gives_bind, Build.gives_pure,
      Build.gives_join]
    exact ⟨⟨⟩, _, ⟨s, hs, rfl⟩, ⟨⟩, rfl⟩

/-- What a predicate becomes before it is written for the rows of `t`. -/
def Predicate.normal (m : Model) (t : Table) (p : Predicate) : Except QueryError Predicate := do
  return (← p.simplify.correlate m t).simplify

theorem Predicate.normal_eq_ok {t : Table} {q : Predicate} :
    p.normal m t = .ok q ↔ ∃ c, p.simplify.correlate m t = .ok c ∧ q = c.simplify := by
  simp only [normal, bind_eq_ok, pure_eq_ok]

theorem Predicate.depth_normal {t : Table} {q : Predicate} (h : p.normal m t = .ok q) :
    q.depth ≤ p.depth := by
  obtain ⟨c, hc, rfl⟩ := normal_eq_ok.1 h
  calc c.simplify.depth ≤ c.depth := depth_simplify c
    _ ≤ p.simplify.depth := depth_correlate p.simplify hc
    _ ≤ p.depth := depth_simplify p

theorem Predicate.onTables_normal {P : Table → Prop} {t : Table} {q : Predicate} (hp : p.OnTables P)
    (h : p.normal m t = .ok q) : q.OnTables P := by
  obtain ⟨c, hc, rfl⟩ := normal_eq_ok.1 h
  exact onTables_simplify c ((correlates_of_ok p.simplify hc).onTables (onTables_simplify p hp))

theorem gives_compile :
    (p.compile m origin).Gives f e g ↔
      ∃ q, p.normal m f.scope.root = .ok q ∧ (q.render m origin).Gives f e g := by
  rw [Predicate.compile]
  simp only [Build.gives_bind, Build.gives_root, Predicate.normal_eq_ok]
  constructor
  · intro h
    obtain ⟨_, _, ⟨rfl, rfl⟩, hrest⟩ := h
    split at hrest
    · exact (Build.not_gives_throw hrest).elim
    · rename_i c hc
      exact ⟨_, ⟨c, hc, rfl⟩, hrest⟩
  · intro h
    obtain ⟨_, ⟨c, hc, rfl⟩, hrest⟩ := h
    refine ⟨_, _, ⟨rfl, rfl⟩, ?_⟩
    split
    · rename_i hc'
      rw [hc] at hc'
      cases hc'
    · rename_i c' hc'
      rw [hc] at hc'
      cases hc'
      exact hrest

theorem gives_render_group {op : Connective} {members : List Predicate} :
    ((Predicate.group op members).render m origin).Gives f e g ↔
      ∃ parts, (renderAll m members origin).Gives f parts g ∧
        e = Expr.combine op.binary parts := by
  rw [Predicate.render]
  simp only [Build.gives_bind, Build.gives_pure]
  constructor
  · intro h
    obtain ⟨parts, _, hparts, rfl, rfl⟩ := h
    exact ⟨parts, hparts, rfl⟩
  · intro h
    obtain ⟨parts, hparts, rfl⟩ := h
    exact ⟨parts, g, hparts, rfl, rfl⟩

theorem gives_render_compare {path : Path} {operand : Operand} :
    ((Predicate.compare path op operand q).render m origin).Gives f e h ↔
      ∃ target g x, (joinColumn m path origin).Gives f target g ∧
        (operand.render m target op q).Gives g x h ∧ e = some x := by
  rw [Predicate.render]
  simp only [Build.gives_bind, Build.gives_pure]
  constructor
  · intro hex
    obtain ⟨target, g, htarget, x, _, hx, rfl, rfl⟩ := hex
    exact ⟨target, g, x, htarget, hx, rfl⟩
  · intro hex
    obtain ⟨target, g, x, htarget, hx, rfl⟩ := hex
    exact ⟨target, g, htarget, x, h, hx, rfl, rfl⟩

theorem gives_render_columns {left right : Path} :
    ((Predicate.columns left op right).render m origin).Gives f e h ↔
      ∃ l g r x, (joinColumn m left origin).Gives f l g ∧ (joinColumn m right origin).Gives g r h ∧
        compareColumns l r op = .ok x ∧ e = some x := by
  rw [Predicate.render]
  simp only [Build.gives_bind, Build.gives_pure, Build.gives_lift]
  constructor
  · intro hex
    obtain ⟨l, g, hl, r, _, hr, x, _, ⟨hx, rfl⟩, rfl, rfl⟩ := hex
    exact ⟨l, g, r, x, hl, hr, hx, rfl⟩
  · intro hex
    obtain ⟨l, g, r, x, hl, hr, hx, rfl⟩ := hex
    exact ⟨l, g, hl, r, h, hr, x, h, ⟨hx, rfl⟩, rfl, rfl⟩

/-- The frame after a `related` has been written: the CTE of the keys stands at the end of the
list and is joined to the scope. -/
def Frame.withKeys (s : Scope) (ctes : List Sql.Cte) (r : Relationship) (keys : Query)
    (origin : JoinOrigin) : Frame :=
  let name := cteName ctes.length
  ⟨s.joinCte name (.eq (.ofTable name linkColumn) r.parentKey) origin, ctes ++ [⟨name, keys⟩]⟩

theorem gives_render_related {via : Path} {condition : Predicate} {inverted : Bool}
    {threshold : Option Threshold} :
    ((Predicate.related via condition inverted threshold).render m origin).Gives f e h ↔
      ∃ route s c g counted body ctes, m.resolveRelationship f.scope.root via = .ok route ∧
        f.scope.joinHops route.before origin = .ok s ∧
        (condition.compile m .filter).Gives ⟨.ofRelationship route.last, f.ctes⟩ c g ∧
        (joinThreshold m threshold).Gives g counted ⟨body, ctes⟩ ∧
        e = some (.isNull (.ofTable (cteName ctes.length) linkColumn) (!inverted)) ∧
        h = Frame.withKeys s ctes route.last
          (body.apply (keysQuery route.last.linkKey (body.baseFilters ++ c.toList) counted) false)
          origin := by
  rw [Predicate.render]
  simp only [Build.gives_bind, Build.gives_root]
  constructor
  · intro hex
    obtain ⟨_, _, ⟨rfl, rfl⟩, hrest⟩ := hex
    split at hrest
    · exact (Build.not_gives_throw hrest).elim
    · simp only [Build.gives_bind, Build.gives_lift, Build.gives_join, Build.gives_pure] at hrest
      obtain ⟨route, _, ⟨hroute, rfl⟩, _, _, ⟨s, hs, rfl⟩, ⟨⟨c, counted⟩, body⟩, _, hwithin,
        name, _, hcte, _, _, hjoin, rfl, rfl⟩ := hrest
      obtain ⟨ctes, hinner, rfl⟩ := Build.gives_within.1 hwithin
      obtain ⟨rfl, rfl⟩ := Build.gives_addCte.1 hcte
      obtain rfl := Build.gives_joinCte.1 hjoin
      simp only [Build.gives_bind, Build.gives_pure] at hinner
      obtain ⟨c', g, hc, counted', _, hcounted, hpair, rfl⟩ := hinner
      cases hpair
      exact ⟨route, s, c, g, counted, body, ctes, hroute, hs, hc, hcounted, rfl, rfl⟩
  · intro hex
    obtain ⟨route, s, c, g, counted, body, ctes, hroute, hs, hc, hcounted, rfl, rfl⟩ := hex
    refine ⟨_, _, ⟨rfl, rfl⟩, ?_⟩
    split
    · -- The empty path is no walk to a relationship.
      have hpos := Model.length_pos_of_resolveRelationship hroute
      omega
    · simp only [Build.gives_bind, Build.gives_lift, Build.gives_join, Build.gives_pure]
      refine ⟨route, _, ⟨hroute, rfl⟩, ⟨⟩, _, ⟨s, hs, rfl⟩, ((c, counted), body), _,
        Build.gives_within.2 ⟨ctes, ?_, rfl⟩, _, _, Build.gives_addCte.2 ⟨rfl, rfl⟩, ⟨⟩, _,
        Build.gives_joinCte.2 rfl, rfl, rfl⟩
      simp only [Build.gives_bind, Build.gives_pure]
      exact ⟨c, g, hc, counted, _, hcounted, rfl, rfl⟩

theorem gives_renderAll_nil {es : List Expr} :
    (renderAll m [] origin).Gives f es g ↔ es = [] ∧ g = f := by
  rw [renderAll, Build.gives_pure]

theorem gives_renderAll_cons {ps : List Predicate} {es : List Expr} :
    (renderAll m (p :: ps) origin).Gives f es h ↔
      ∃ e g rest, (p.render m origin).Gives f e g ∧ (renderAll m ps origin).Gives g rest h ∧
        es = e.toList ++ rest := by
  rw [renderAll]
  simp only [Build.gives_bind, Build.gives_pure]
  constructor
  · intro hex
    obtain ⟨e, g, he, rest, _, hrest, rfl, rfl⟩ := hex
    exact ⟨e, g, rest, he, hrest, rfl⟩
  · intro hex
    obtain ⟨e, g, rest, he, hrest, rfl⟩ := hex
    exact ⟨e, g, he, rest, h, hrest, rfl, rfl⟩

theorem gives_render_value {v : Value} {e : Expr} :
    ((Operand.value v).render m target op q).Gives f e g ↔ target.scalar op v = .ok e ∧ g = f := by
  rw [Operand.render, Build.gives_lift]

theorem gives_render_values {vs : List Value} {e : Expr} :
    ((Operand.values vs).render m target op q).Gives f e g ↔
      target.list op vs q = .ok e ∧ g = f := by
  rw [Operand.render, Build.gives_lift]

/-- The rows that a subquery selects its column from. -/
def subqueryQuery (s : Scope) (selected : Expr) (condition : Option Expr) : Query :=
  s.apply { Query.empty with items := [⟨selected, none⟩], condition := condition } false

theorem gives_render_subquery {table : Table} {column : Path} {filter : Option Predicate}
    {e : Expr} :
    ((Operand.subquery ⟨table, column, filter⟩).render m target op q).Gives f e h ↔
      ∃ negated selected g c s ctes, subqueryNegated op = .ok negated ∧
        (joinColumn m column .filter).Gives ⟨.ofTable m table, f.ctes⟩ selected g ∧
        (compileFilter m filter).Gives g c ⟨s, ctes⟩ ∧
        e = .inQuery target.column (subqueryQuery s selected.column c) negated ∧
        h = ⟨f.scope, ctes⟩ := by
  rw [Operand.render]
  simp only [Build.gives_bind, Build.gives_lift, Build.gives_pure]
  constructor
  · intro hex
    obtain ⟨negated, _, ⟨hneg, rfl⟩, ⟨⟨selected, c⟩, s⟩, _, hwithin, rfl, rfl⟩ := hex
    obtain ⟨ctes, hinner, rfl⟩ := Build.gives_within.1 hwithin
    simp only [Build.gives_bind, Build.gives_pure] at hinner
    obtain ⟨target', g, htarget, c', _, hc, hpair, rfl⟩ := hinner
    cases hpair
    exact ⟨negated, target', g, c, s, ctes, hneg, htarget, hc, rfl, rfl⟩
  · intro hex
    obtain ⟨negated, selected, g, c, s, ctes, hneg, hselected, hc, rfl, rfl⟩ := hex
    refine ⟨negated, _, ⟨hneg, rfl⟩, ((selected.column, c), s), _,
      Build.gives_within.2 ⟨ctes, ?_, rfl⟩, rfl, rfl⟩
    simp only [Build.gives_bind, Build.gives_pure]
    exact ⟨selected, g, hselected, c, _, hc, rfl, rfl⟩

theorem gives_compileFilter {filter : Option Predicate} :
    (compileFilter m filter).Gives f e g ↔
      (filter = none ∧ e = none ∧ g = f) ∨
        ∃ p, filter = some p ∧ (p.compile m .filter).Gives f e g := by
  cases filter with
  | none => simp [compileFilter, Build.gives_pure]
  | some p => simp [compileFilter]

/-! ## The relation -/

/-- What is to be written. -/
inductive Task where
  | compile (p : Predicate) (origin : JoinOrigin)
  | render (p : Predicate) (origin : JoinOrigin)
  | renderAll (ps : List Predicate) (origin : JoinOrigin)
  | operand (target : Target) (op : Operator) (operand : Operand) (q : Quantifier)
  | filter (p : Option Predicate)

inductive Writes (m : Model) (P : Table → Prop) : Task → Frame → List Expr → Frame → Prop
  | compile {p q : Predicate} {origin : JoinOrigin} {f g : Frame} {es : List Expr} :
      p.normal m f.scope.root = .ok q → Writes m P (.render q origin) f es g →
      Writes m P (.compile p origin) f es g
  | group {op : Connective} {members : List Predicate} {origin : JoinOrigin} {f g : Frame}
      {es : List Expr} :
      Writes m P (.renderAll members origin) f es g →
      Writes m P (.render (.group op members) origin) f (Expr.combine op.binary es).toList g
  | compare {path : Path} {op : Operator} {operand : Operand} {q : Quantifier}
      {origin : JoinOrigin} {target : Target} {f g h : Frame} {es : List Expr} :
      (joinColumn m path origin).Gives f target g →
      Writes m P (.operand target op operand q) g es h →
      Writes m P (.render (.compare path op operand q) origin) f es h
  | columns {left right : Path} {op : Operator} {origin : JoinOrigin} {l r : Target}
      {f g h : Frame} {e : Expr} :
      (joinColumn m left origin).Gives f l g → (joinColumn m right origin).Gives g r h →
      compareColumns l r op = .ok e →
      Writes m P (.render (.columns left op right) origin) f [e] h
  | related {via : Path} {condition : Predicate} {inverted : Bool} {threshold : Option Threshold}
      {origin : JoinOrigin} {route : Route} {s body : Scope} {counted : Option (Expr × Nat)}
      {f g : Frame} {ctes : List Sql.Cte} {es : List Expr} :
      m.resolveRelationship f.scope.root via = .ok route →
      f.scope.joinHops route.before origin = .ok s →
      Writes m P (.compile condition .filter) ⟨.ofRelationship route.last, f.ctes⟩ es g →
      (joinThreshold m threshold).Gives g counted ⟨body, ctes⟩ →
      Writes m P (.render (.related via condition inverted threshold) origin) f
        [.isNull (.ofTable (cteName ctes.length) linkColumn) (!inverted)]
        (.withKeys s ctes route.last
          (body.apply (keysQuery route.last.linkKey (body.baseFilters ++ es) counted) false)
          origin)
  | value {target : Target} {op : Operator} {v : Value} {q : Quantifier} {f : Frame} {e : Expr} :
      target.scalar op v = .ok e → Writes m P (.operand target op (.value v) q) f [e] f
  | values {target : Target} {op : Operator} {vs : List Value} {q : Quantifier} {f : Frame}
      {e : Expr} :
      target.list op vs q = .ok e → Writes m P (.operand target op (.values vs) q) f [e] f
  | subquery {target selected : Target} {op : Operator} {table : Table} {column : Path}
      {filter : Option Predicate} {q : Quantifier} {negated : Bool} {s : Scope} {f g : Frame}
      {ctes : List Sql.Cte} {es : List Expr} :
      P table → subqueryNegated op = .ok negated →
      (joinColumn m column .filter).Gives ⟨.ofTable m table, f.ctes⟩ selected g →
      Writes m P (.filter filter) g es ⟨s, ctes⟩ →
      Writes m P (.operand target op (.subquery ⟨table, column, filter⟩) q) f
        [.inQuery target.column (subqueryQuery s selected.column es.head?) negated] ⟨f.scope, ctes⟩
  | nil {origin : JoinOrigin} {f : Frame} : Writes m P (.renderAll [] origin) f [] f
  | cons {p : Predicate} {ps : List Predicate} {origin : JoinOrigin} {f g h : Frame}
      {es rest : List Expr} :
      Writes m P (.render p origin) f es g → Writes m P (.renderAll ps origin) g rest h →
      Writes m P (.renderAll (p :: ps) origin) f (es ++ rest) h
  | noFilter {f : Frame} : Writes m P (.filter none) f [] f
  | filter {p : Predicate} {f g : Frame} {es : List Expr} :
      Writes m P (.compile p .filter) f es g → Writes m P (.filter (some p)) f es g

variable {P : Table → Prop}

mutual

/-- **A predicate that compiles is written by the rules.** -/
theorem writes_compile {p : Predicate} {origin : JoinOrigin} {f g : Frame} {e : Option Expr}
    (hp : p.OnTables P) (h : (p.compile m origin).Gives f e g) :
    Writes m P (.compile p origin) f e.toList g := by
  obtain ⟨q, hq, hrender⟩ := gives_compile.1 h
  exact .compile hq (writes_render (Predicate.onTables_normal hp hq) hrender)
termination_by (p.depth, 1, 0)
decreasing_by
  have hdepth := Predicate.depth_normal hq
  simp only [Prod.lex_def]
  omega

theorem writes_render {p : Predicate} {origin : JoinOrigin} {f g : Frame} {e : Option Expr}
    (hp : p.OnTables P) (h : (p.render m origin).Gives f e g) :
    Writes m P (.render p origin) f e.toList g := by
  match p with
  | .group op members =>
    obtain ⟨parts, hparts, rfl⟩ := gives_render_group.1 h
    exact .group (writes_renderAll hp hparts)
  | .compare path op operand q =>
    obtain ⟨target, g', x, htarget, hx, rfl⟩ := gives_render_compare.1 h
    exact .compare htarget (writes_operand hp hx)
  | .columns left op right =>
    obtain ⟨l, g', r, x, hl, hr, hx, rfl⟩ := gives_render_columns.1 h
    exact .columns hl hr hx
  | .related via condition inverted threshold =>
    obtain ⟨route, s, c, g', counted, body, ctes, hroute, hs, hc, hcounted, rfl, rfl⟩ :=
      gives_render_related.1 h
    have hvia := Model.length_pos_of_resolveRelationship hroute
    exact .related hroute hs (writes_compile hp hc) hcounted
termination_by (p.depth, 0, sizeOf p)
decreasing_by
  all_goals
    simp only [Prod.lex_def, Predicate.depth, Predicate.group.sizeOf_spec,
      Predicate.compare.sizeOf_spec, true_and]
    omega

theorem writes_operand {operand : Operand} {target : Target} {op : Operator} {q : Quantifier}
    {f g : Frame} {e : Expr} (hp : operand.OnTables P)
    (h : (operand.render m target op q).Gives f e g) :
    Writes m P (.operand target op operand q) f [e] g := by
  match operand with
  | .value v =>
    obtain ⟨he, rfl⟩ := gives_render_value.1 h
    exact .value he
  | .values vs =>
    obtain ⟨he, rfl⟩ := gives_render_values.1 h
    exact .values he
  | .subquery ⟨table, column, filter⟩ =>
    obtain ⟨negated, selected, g', c, s, ctes, hneg, hselected, hc, rfl, rfl⟩ :=
      gives_render_subquery.1 h
    have hw := writes_filter hp.2 hc
    cases c with
    | none => exact .subquery hp.1 hneg hselected hw
    | some x => exact .subquery hp.1 hneg hselected hw
termination_by (operand.depth, 0, 0)
decreasing_by
  simp only [Prod.lex_def, Operand.depth, SubQuery.depth]
  omega

theorem writes_renderAll {ps : List Predicate} {origin : JoinOrigin} {f g : Frame}
    {es : List Expr} (hp : OnTablesAll P ps) (h : (renderAll m ps origin).Gives f es g) :
    Writes m P (.renderAll ps origin) f es g := by
  match ps with
  | [] =>
    obtain ⟨rfl, rfl⟩ := gives_renderAll_nil.1 h
    exact .nil
  | p :: ps =>
    obtain ⟨e, g', rest, he, hrest, rfl⟩ := gives_renderAll_cons.1 h
    exact .cons (writes_render hp.1 he) (writes_renderAll hp.2 hrest)
termination_by (depthAll ps, 0, sizeOf ps)
decreasing_by
  all_goals
    simp only [Prod.lex_def, depthAll, List.cons.sizeOf_spec, true_and]
    omega

theorem writes_filter {filter : Option Predicate} {f g : Frame} {e : Option Expr}
    (hp : OnTablesFilter P filter) (h : (compileFilter m filter).Gives f e g) :
    Writes m P (.filter filter) f e.toList g := by
  match filter with
  | none =>
    obtain ⟨-, rfl, rfl⟩ | ⟨p, hsome, -⟩ := gives_compileFilter.1 h
    · exact .noFilter
    · cases hsome
  | some p =>
    obtain ⟨hsome, -, -⟩ | ⟨p', hsome, hw⟩ := gives_compileFilter.1 h
    · cases hsome
    · cases hsome
      exact .filter (writes_compile hp hw)
termination_by (depthFilter filter, 2, 0)

end

end EntityQuery
