import EntityQuery.Proofs.Predicate.Duality
import EntityQuery.Proofs.Predicate.Keys

/-!
# What a quantified comparison means

A comparison whose path fans out is written as a test whether a key was found in a CTE. The test is
true of a row if, for ANY, some row that the path leads to satisfies the comparison, and, for ALL,
none satisfies the opposite one.

**Recursion.** The path is divided at its first fan-out and the rest is written in the body of the
CTE, so the proof goes by the length of the path (`decides_any`), with one related row at each step
(`decides_divided`) and the comparison itself at the end (`decides_direct`).
-/

namespace EntityQuery

open EntityQuery.Sql (Expr Query Engine Database Ctes Env Row Record joinAll bindCtes)

variable {D : Type} [DecidableEq D] {E : Engine D} {db : Database D} {origin : JoinOrigin}
  {res : Resolution} {e : Option Expr} {r : Relationship} {rows : Ctes D} {g : Frame}
  {target : Target} {s : Scope} {i : Nat}

/-! ## The comparison itself -/

/-- The path of a column stands in errors only. -/
theorem Target.scalar_withPath {op : Operator} {v : Value} {e : Expr}
    (h : target.scalar op v = .ok e) (p : Path) :
    (Target.mk target.column target.type p).scalar op v = .ok e := by
  have hwords : ∀ binary connective, target.words binary connective v = .ok e →
      (Target.mk target.column target.type p).words binary connective v = .ok e := by
    intro binary connective hw
    simp only [Target.words] at hw ⊢
    split at hw
    · cases hw
    · exact hw
  simp only [Target.scalar] at h ⊢
  split at h
  · rename_i hnull
    rw [if_pos hnull]
    cases op <;> first | exact h | cases h
  · rename_i hnull
    rw [if_neg hnull]
    cases op <;> first | exact h | exact hwords _ _ h

theorem Target.list_withPath {op : Operator} {vs : List Value} {q : Quantifier} {e : Expr}
    (h : target.list op vs q = .ok e) (p : Path) :
    (Target.mk target.column target.type p).list op vs q = .ok e := by
  have hparts : ∀ connective, (do
      let parts ← vs.mapM (target.scalar op)
      return (Expr.combine connective parts).getD (.int 1) : Except QueryError Expr) = .ok e →
      (do let parts ← vs.mapM ((Target.mk target.column target.type p).scalar op)
          return (Expr.combine connective parts).getD (.int 1) : Except QueryError Expr) =
        .ok e := by
    intro connective hv
    obtain ⟨parts, hscalar, he⟩ := bind_eq_ok.1 hv
    have hpath := (mapM_eq_ok_iff.1 hscalar).imp fun _ _ h => Target.scalar_withPath h p
    exact bind_eq_ok.2 ⟨parts, mapM_eq_ok_iff.2 hpath, he⟩
  match vs, h with
  | [], h => exact h
  | [v], h => exact Target.scalar_withPath h p
  | v :: w :: rest, h =>
    cases op <;> cases q <;> first | exact h | exact hparts _ h | cases h

/-- A comparison is written alike in every scope. -/
theorem gives_operand_withPath {m : Model} {op : Operator} {q : Quantifier} {operand : Operand}
    {ctes : List Sql.Cte} {e : Expr} (h : (operand.render m target op q).Gives ⟨s, ctes⟩ e g)
    (p : Path) (s' : Scope) :
    g.scope = s ∧ (operand.render m ⟨target.column, target.type, p⟩ op q).Gives ⟨s', ctes⟩ e
      ⟨s', g.ctes⟩ := by
  match operand with
  | .value v =>
    obtain ⟨he, rfl⟩ := gives_render_value.1 h
    exact ⟨rfl, gives_render_value.2 ⟨Target.scalar_withPath he p, rfl⟩⟩
  | .values vs =>
    obtain ⟨he, rfl⟩ := gives_render_values.1 h
    exact ⟨rfl, gives_render_values.2 ⟨Target.list_withPath he p, rfl⟩⟩
  | .subquery ⟨table, column, filter⟩ =>
    obtain ⟨negated, selected, g', c, inner, ctes', hneg, hselected, hc, rfl, rfl⟩ :=
      gives_render_subquery.1 h
    exact ⟨rfl, gives_render_subquery.2
      ⟨negated, selected, g', c, inner, ctes', hneg, hselected, hc, rfl, rfl⟩⟩

/-- The comparison of a column of `t` with an operand, with ANY, is true of a row of `t`. -/
def Operand.Holds (E : Engine D) (db : Database D) (m : Model) (t : Table) (column : EntityColumn)
    (op : Operator) (operand : Operand) (row : Row D) : Prop :=
  ∃ e g, (operand.render m ⟨m.columnExpr t column, column.type, Path.empty⟩ op .any).Gives
      ⟨.ofTable m t, []⟩ e g ∧
    let env := Env.empty.bind (m.aliasOf t) row
    E.truth (e.eval E db (bindCtes E db (fun _ => []) g.ctes) [env] env) = some true

/-- A comparison that has been written is true where it holds of the row it speaks of. -/
theorem truth_operand {m : Model} {t : Table} {column : EntityColumn} {p : Path} {op : Operator}
    {operand : Operand} {e : Expr} {env : Env D}
    (h : (operand.render m ⟨m.columnExpr t column, column.type, p⟩ op .any).Gives ⟨s, []⟩ e g)
    (hrows : rows.Binds E db g.ctes) :
    E.truth (e.eval E db rows [env] env) = some true ↔
      operand.Holds E db m t column op (env (m.aliasOf t)) := by
  obtain ⟨-, hfresh⟩ := gives_operand_withPath h Path.empty (.ofTable m t)
  have hframe : (Frame.mk (.ofTable m t) []).Closed m := Frame.closed_ofTable Sql.closedCtes_nil
  obtain ⟨-, hclosed⟩ := (writes_operand operand.onTables_true hfresh).closed hframe hframe.root_mem
  have hagree : env.AgreeOn [m.aliasOf t] (Env.empty.bind (m.aliasOf t) (env (m.aliasOf t))) := by
    intro name hname
    rw [List.mem_singleton.1 hname, Env.bind_self]
  have heval : e.eval E db rows [env] env = _ :=
    Expr.eval_congr ⟨hrows, .cons hagree .nil, hagree⟩ e (hclosed e (List.mem_singleton_self e))
  rw [heval]
  constructor
  · exact fun htrue => ⟨e, _, hfresh, htrue⟩
  · intro hex
    obtain ⟨e', g', hgives, htrue⟩ := hex
    cases hgives.symm.trans hfresh
    exact htrue

/-! ## Comparisons with ANY -/

/-- A comparison with these is divided at the first fan-out, by its quantifier. The two that mean
containment are not. -/
def Operand.Quantifies (op : Operator) (operand : Operand) (q : Quantifier) : Prop :=
  op ≠ .notLikeOrNull ∧ ∀ vs, operand = .values vs → (op, q) ≠ (.eq, .all) ∧ (op, q) ≠ (.ne, .any)

theorem Operand.Quantifies.inverse {op op' : Operator} {operand : Operand}
    (h : operand.Quantifies op .all) (hop : op.inverse? = some op') :
    operand.Quantifies op' .any := by
  refine ⟨?_, fun vs hvs => ⟨nofun, ?_⟩⟩
  · intro hex
    subst hex
    cases Operator.inverse?_symm hop
  · intro heq
    obtain ⟨rfl, -⟩ := Prod.mk.inj heq
    cases Operator.inverse?_symm hop
    exact (h.2 vs hvs).1 rfl

section

variable {m : Model} {t : Table} {path : Path} {op : Operator} {operand : Operand} {q : Quantifier}

theorem normal_compare_direct (hop : op ≠ .notLikeOrNull) (hmany : m.firstMany? t path = none) :
    (Predicate.compare path op operand q).normal m t = .ok (.compare path op operand q) := by
  refine Predicate.normal_eq_ok.2 ⟨.compare path op operand q, ?_, ?_⟩
  · rw [Predicate.simplify, if_neg hop, Predicate.correlate, if_neg hop,
      Predicate.correlateCompare, hmany]
  · rw [Predicate.simplify, if_neg hop]

/-- ANY asks for a related row that matches, ALL for none that matches the opposite. -/
theorem normal_compare_many {p : Predicate} (hq : operand.Quantifies op q)
    (hmany : m.firstMany? t path = some (i, r))
    (h : (Predicate.compare path op operand q).normal m t = .ok p) :
    (path.drop (i + 1)).isEmpty = false ∧ match q with
      | .any => p = .related (path.take (i + 1))
          (.compare (path.drop (i + 1)) op operand .any) false none
      | .all => ∃ op', op.inverse? = some op' ∧ p = .related (path.take (i + 1))
          (.compare (path.drop (i + 1)) op' operand .any) true none := by
  have hop := hq.1
  have hlist := hq.2
  obtain ⟨c, hc, rfl⟩ := Predicate.normal_eq_ok.1 h
  rw [Predicate.simplify, if_neg hop, Predicate.correlate, if_neg hop,
    Predicate.correlateCompare, hmany] at hc
  dsimp only at hc
  split at hc
  · cases hc
  rename_i hrest
  refine ⟨by simpa using hrest, ?_⟩
  unfold Predicate.correlateAt at hc
  split at hc
  · exact absurd rfl (hlist _ rfl).1
  · exact absurd rfl (hlist _ rfl).2
  · cases hc
    dsimp only
    rw [Predicate.simplify, Predicate.simplify, if_neg hop]
  · obtain ⟨failing, hfailing, hc⟩ := bind_eq_ok.1 hc
    rw [pure_eq_ok] at hc
    subst hc
    obtain ⟨op', hop', rfl⟩ := Predicate.inverse_compare hop hfailing
    refine ⟨op', hop', ?_⟩
    rw [Predicate.simplify, Predicate.simplify, if_neg (hq.inverse hop').1]
    rfl

end

/-- A comparison whose path does not fan out is true where the row that the path leads to
satisfies it. -/
theorem decides_direct {m : Model} {path : Path} {op : Operator} {operand : Operand}
    (hjoins : s.joins = []) (ht : m.Covers s.root)
    (h : ((Predicate.compare path op operand .any).render m origin).Gives ⟨s, []⟩ e g)
    (hres : m.resolve s.root path = .ok res) (hdb : m.OneToOne E db)
    (hnodup : m.AliasesApart s.root res.hops)
    (hrows : rows.Binds E db g.ctes) :
    g.Settles E db rows e (res.hops.flatMap (·.labels)) (m.aliasOf s.root) fun row =>
        ∃ c, reaches E db true res.hops row c ∧ operand.Holds E db m res.table res.column op c := by
  obtain ⟨target, f, x, htarget, hx, rfl⟩ := gives_render_compare.1 h
  obtain ⟨res', s', hres', hmany, hs, rfl, rfl⟩ := gives_joinColumn.1 htarget
  cases hres.symm.trans hres'
  obtain ⟨hwalk, htable⟩ := Model.walk_of_resolve hres
  have hone : ∀ r ∈ res.hops, r.cardinality = .oneToOne := fun r hr =>
    r.fansOut_eq_false_iff.1 (Resolution.crossesMany_eq_false.1 hmany r hr)
  obtain ⟨hscope, -⟩ := gives_operand_withPath hx path s'
  obtain ⟨hjs, -⟩ := joins_joinHops hwalk hjoins (List.nodup_cons.1 hnodup).2 hs
  refine ⟨x, rfl, fun env => ?_⟩
  obtain ⟨env', hjoin, hreaches, hframe⟩ := joinAll_walk hwalk ht hone hdb hnodup rows env
  refine ⟨env', by rw [hscope, hjs, hjoin], fun a ha _ => hframe a ha, ?_⟩
  rw [← htable] at hreaches
  rw [truth_operand hx hrows]
  constructor
  · exact fun hholds => ⟨_, hreaches, hholds⟩
  · intro hex
    obtain ⟨c, hc, hholds⟩ := hex
    rwa [← reaches_unique hwalk ht hone hdb hnodup hc hreaches]

/-- **The division of a path.** What the comparison behind the first fan-out decides of the rows
there, the test of the keys decides of the row at the start. -/
theorem decides_divided {m : Model} {path : Path} {op : Operator} {operand : Operand}
    {inverted : Bool} (hjoins : s.joins = []) (ht : m.Covers s.root)
    (h : ((Predicate.related (path.take (i + 1)) (.compare (path.drop (i + 1)) op operand .any)
      inverted none).render m origin).Gives ⟨s, []⟩ e g) (hres : m.resolve s.root path = .ok res)
    (hmany : m.firstMany? s.root path = some (i, r)) (hrest : (path.drop (i + 1)).isEmpty = false)
    (hdb : m.OneToOne E db) (hnaming : m.naming.AvoidsCtes)
    (hnodup : m.AliasesApart s.root res.hops)
    (hinner : ∀ res' c g', m.Covers r.child → m.resolve r.child (path.drop (i + 1)) = .ok res' →
      m.AliasesApart r.child res'.hops →
      ((Predicate.compare (path.drop (i + 1)) op operand .any).compile m .filter).Gives
        ⟨.ofRelationship r, []⟩ c g' →
      g'.Settles E db (bindCtes E db (fun _ => []) g'.ctes) c (res'.hops.flatMap (·.labels))
        (m.aliasOf r.child) fun row => ∃ c, reaches E db true res'.hops row c ∧
          operand.Holds E db m res'.table res'.column op c)
    (hrows : rows.Binds E db g.ctes) :
    g.Settles E db rows e (res.hops.flatMap (·.labels)) (m.aliasOf s.root) fun row =>
        (∃ c, reaches E db true res.hops row c ∧
          operand.Holds E db m res.table res.column op c) ↔ inverted = false := by
  obtain ⟨before, res', hroute, hres', hhops, htable, hcolumn, hfan, hone⟩ :=
    Model.resolve_split hres hmany hrest
  have hlast : m.Relates _ r := (Model.walk_of_resolveRelationship hroute).2
  rw [hhops] at hnodup
  obtain ⟨hbefore, hbehind, hchild⟩ := hlast.nodup_divided hnodup
  obtain ⟨x, rfl, hdecides⟩ := decides_related hjoins ht h hroute
    (fun r hr => r.fansOut_eq_false_iff.1 (hone r hr)) hdb hnaming hbefore hbehind
    (fun c g' => hinner res' c g' hlast.covers_child hres' hchild) hrows
  refine ⟨x, rfl, hdecides.imp ?_ fun row => iff_congr ?_ Iff.rfl⟩
  · rw [hhops, List.flatMap_append]
    exact List.subset_append_left _ _
  · rw [hhops, exists_reaches_divided hfan, htable, hcolumn]

/-- What lies behind the first relationship that fans out is shorter than the path. -/
theorem Model.length_drop_lt {m : Model} {t : Table} {p : Path}
    (h : m.firstMany? t p = some (i, r)) :
    (p.drop (i + 1)).length < p.length := by
  have hi := firstMany?_lt h
  rw [Path.length_drop]
  omega

/-- **A comparison with ANY**, whatever its path. -/
theorem decides_any {m : Model} {path : Path} {op : Operator} {operand : Operand}
    (hjoins : s.joins = []) (ht : m.Covers s.root)
    (h : ((Predicate.compare path op operand .any).compile m origin).Gives ⟨s, []⟩ e g)
    (hres : m.resolve s.root path = .ok res) (hq : operand.Quantifies op .any)
    (hdb : m.OneToOne E db) (hnaming : m.naming.AvoidsCtes)
    (hnodup : m.AliasesApart s.root res.hops)
    (hrows : rows.Binds E db g.ctes) :
    g.Settles E db rows e (res.hops.flatMap (·.labels)) (m.aliasOf s.root) fun row =>
        ∃ c, reaches E db true res.hops row c ∧ operand.Holds E db m res.table res.column op c := by
  -- By induction on the length of the path: a CTE is written for what lies behind a fan-out.
  induction hlength : path.length using Nat.strongRecOn
    generalizing path s origin e g res rows with
  | _ n ih =>
    subst hlength
    obtain ⟨p, hp, hrender⟩ := gives_compile.1 h
    cases hmany : m.firstMany? s.root path with
    | none =>
      cases (normal_compare_direct hq.1 hmany).symm.trans hp
      exact decides_direct hjoins ht hrender hres hdb hnodup hrows
    | some found =>
      obtain ⟨i, r⟩ := found
      obtain ⟨hrest, hshape⟩ := normal_compare_many hq hmany hp
      change p = _ at hshape
      subst hshape
      obtain ⟨x, rfl, hdecides⟩ := decides_divided hjoins ht hrender hres hmany hrest hdb hnaming
        hnodup (fun res' c g' hchild hres' hnodup' hc =>
          ih _ (Model.length_drop_lt hmany) rfl hchild hc hres' hnodup' (fun _ _ => rfl) rfl) hrows
      exact ⟨x, rfl, hdecides.imp (List.Subset.refl _) fun row => iff_true_right rfl⟩

/-- The comparison behind the first fan-out is compiled for the rows there. -/
theorem exists_compile_of_divided {m : Model} {f : Frame} {path : Path} {op : Operator}
    {operand : Operand} {inverted : Bool}
    (h : ((Predicate.related (path.take (i + 1)) (.compare (path.drop (i + 1)) op operand .any)
      inverted none).render m origin).Gives f e g) (hres : m.resolve f.scope.root path = .ok res)
    (hmany : m.firstMany? f.scope.root path = some (i, r))
    (hrest : (path.drop (i + 1)).isEmpty = false) :
    ∃ res' c g', m.resolve r.child (path.drop (i + 1)) = .ok res' ∧ res'.table = res.table ∧
      res'.column = res.column ∧
      ((Predicate.compare (path.drop (i + 1)) op operand .any).compile m .filter).Gives
        ⟨.ofRelationship r, f.ctes⟩ c g' := by
  obtain ⟨before, res', hroute, hres', -, htable, hcolumn, -, -⟩ :=
    Model.resolve_split hres hmany hrest
  obtain ⟨route, _, c, g', _, _, _, hroute', -, hc, -⟩ := gives_render_related.1 h
  cases hroute.symm.trans hroute'
  exact ⟨res', c, g', hres', htable, hcolumn, hc⟩

/-- The comparison that a path ends in is written for the table it leads to. -/
theorem exists_render_of_compile {m : Model} {f : Frame} {path : Path} {op : Operator}
    {operand : Operand}
    (h : ((Predicate.compare path op operand .any).compile m origin).Gives f e g)
    (hres : m.resolve f.scope.root path = .ok res) (hq : operand.Quantifies op .any) :
    ∃ y ctes, (operand.render m ⟨m.columnExpr res.table res.column, res.column.type, Path.empty⟩
      op .any).Gives ⟨.ofTable m res.table, f.ctes⟩ y ⟨.ofTable m res.table, ctes⟩ := by
  induction hlength : path.length using Nat.strongRecOn generalizing path f origin e g res with
  | _ n ih =>
    subst hlength
    obtain ⟨p, hp, hrender⟩ := gives_compile.1 h
    cases hmany : m.firstMany? f.scope.root path with
    | none =>
      cases (normal_compare_direct hq.1 hmany).symm.trans hp
      obtain ⟨target, f', x, htarget, hx, rfl⟩ := gives_render_compare.1 hrender
      obtain ⟨res', s', hres', -, -, rfl, rfl⟩ := gives_joinColumn.1 htarget
      cases hres.symm.trans hres'
      exact ⟨x, _, (gives_operand_withPath hx Path.empty _).2⟩
    | some found =>
      obtain ⟨i, r⟩ := found
      obtain ⟨hrest, hshape⟩ := normal_compare_many hq hmany hp
      change p = _ at hshape
      subst hshape
      obtain ⟨res', c, g', hres', htable, hcolumn, hc⟩ :=
        exists_compile_of_divided hrender hres hmany hrest
      rw [← htable, ← hcolumn]
      exact ih _ (Model.length_drop_lt hmany) (f := ⟨.ofRelationship r, f.ctes⟩) hc hres' rfl

/-- **A comparison with ALL** asks that no row satisfies the opposite one with ANY. -/
theorem decides_all {m : Model} {path : Path} {op : Operator} {operand : Operand}
    (hjoins : s.joins = []) (ht : m.Covers s.root)
    (h : ((Predicate.compare path op operand .all).compile m origin).Gives ⟨s, []⟩ e g)
    (hres : m.resolve s.root path = .ok res) (hmany : res.crossesMany = true)
    (hq : operand.Quantifies op .all) (hdb : m.OneToOne E db) (hnaming : m.naming.AvoidsCtes)
    (hnodup : m.AliasesApart s.root res.hops)
    (hrows : rows.Binds E db g.ctes) :
    ∃ op', op.inverse? = some op' ∧
      (∃ y ctes, (operand.render m ⟨m.columnExpr res.table res.column, res.column.type, Path.empty⟩
        op' .any).Gives ⟨.ofTable m res.table, []⟩ y ⟨.ofTable m res.table, ctes⟩) ∧
      g.Settles E db rows e (res.hops.flatMap (·.labels)) (m.aliasOf s.root) fun row =>
          ∀ c, reaches E db true res.hops row c →
            ¬ operand.Holds E db m res.table res.column op' c := by
  obtain ⟨p, hp, hrender⟩ := gives_compile.1 h
  cases hfirst : m.firstMany? s.root path with
  | none =>
    -- Such a path is written only if it has no fan-out.
    cases (normal_compare_direct hq.1 hfirst).symm.trans hp
    obtain ⟨_, _, _, htarget, -, -⟩ := gives_render_compare.1 hrender
    obtain ⟨res', _, hres', hone, -, -, -⟩ := gives_joinColumn.1 htarget
    cases hres.symm.trans hres'
    rw [hmany] at hone
    cases hone
  | some found =>
    obtain ⟨i, r⟩ := found
    obtain ⟨hrest, op', hop', rfl⟩ := normal_compare_many hq hfirst hp
    have hq' := hq.inverse hop'
    obtain ⟨res', c, g', hres', htable, hcolumn, hc⟩ :=
      exists_compile_of_divided hrender hres hfirst hrest
    have hrender' := exists_render_of_compile hc hres' hq'
    rw [htable, hcolumn] at hrender'
    obtain ⟨x, rfl, hdecides⟩ := decides_divided hjoins ht hrender hres hfirst hrest hdb hnaming
      hnodup (fun _ _ _ hchild hres' hnodup' hc =>
        decides_any rfl hchild hc hres' hq' hdb hnaming hnodup' fun _ _ => rfl) hrows
    refine ⟨op', hop', hrender', x, rfl, hdecides.imp (List.Subset.refl _) fun row => ?_⟩
    simp only [reduceCtorEq, iff_false, not_exists, not_and]

namespace Shop

/-- In every table one row, with this text in every column. -/
def uniform (text : String) : Database String := fun _ _ => [fun _ => some text]

theorem links_uniform {j : JoinStep} (hfilters : j.filters = []) (text : String) :
    j.Links engine (uniform text) (fun _ => some text) fun _ => some text :=
  ⟨List.mem_singleton_self _, ⟨text, rfl, rfl⟩, by simp [JoinStep.Accepts, hfilters]⟩

end Shop

/-- **What a quantified comparison means.** Across a fan-out the condition that is written is true
of a row, beside the joins that are written with it, exactly if, for ANY, some row that the path
leads to satisfies the comparison, and, for ALL, no such row satisfies the opposite one. The tables
of the path need aliases of their own: where a link table has the identity of its child, the two
share one, and this is not so. -/
theorem compile_compare_iff_reaches {m : Model}
    (hnaming : ∀ id i, m.naming.tableAlias id ≠ Build.cteName i) {t : Table} (ht : m.Covers t)
    {path : Path} {op : Operator} {operand : Operand} {q : Quantifier} {origin : JoinOrigin}
    {e : Option Expr} {g : Frame} {res : Resolution}
    (h : ((Predicate.compare path op operand q).compile m origin).Gives ⟨.ofTable m t, []⟩ e g)
    (hres : m.resolve t path = .ok res) (hmany : res.crossesMany = true)
    (hq : operand.Quantifies op q) (hnodup : m.AliasesApart t res.hops)
    (hdb : m.OneToOne E db) (row : Row D) :
    ∃ x env, e = some x ∧
      joinAll E db (bindCtes E db (fun _ => []) g.ctes) (g.scope.joinsFor false)
        [Env.empty.bind (m.aliasOf t) row] = [env] ∧
      ∃ op', (match q with | .any => some op | .all => op.inverse?) = some op' ∧
      ∃ y ctes, (operand.render m
          ⟨m.columnExpr res.table res.column, res.column.type, Path.empty⟩ op' .any).Gives
          ⟨.ofTable m res.table, []⟩ y ⟨.ofTable m res.table, ctes⟩ ∧
        let satisfied (c : Row D) : Prop :=
          let own := Env.empty.bind (m.aliasOf res.table) c
          E.truth (y.eval E db (bindCtes E db (fun _ => []) ctes) [own] own) = some true
        (E.truth (x.eval E db (bindCtes E db (fun _ => []) g.ctes) [env] env) = some true ↔
          match q with
          | .any => ∃ c, reaches E db false res.hops row c ∧ satisfied c
          | .all => ∀ c, reaches E db false res.hops row c → ¬ satisfied c) := by
  have hreaches : ∀ c, reaches E db false res.hops row c ↔ reaches E db true res.hops row c := by
    have hfan : ∃ r ∈ res.hops, r.fansOut = true := by
      simpa [Resolution.crossesMany, Resolution.firstMany?] using hmany
    exact fun c => reaches_extended hfan
  have hrows : ∀ ctes, (bindCtes E db (fun _ => []) ctes).Binds E db ctes := fun _ _ _ => rfl
  have hstart : Env.empty.bind (m.aliasOf t) row (m.aliasOf (Scope.ofTable m t).root) = row :=
    Env.bind_self _ _ _
  have hbase : g.scope.baseJoins = [] := (grows_compile h).scope.baseJoins
  rw [Scope.joinsFor_false, hbase, List.nil_append]
  cases q with
  | any =>
    obtain ⟨y, ctes, hy⟩ := exists_render_of_compile h hres hq
    obtain ⟨x, rfl, hdecides⟩ := decides_any rfl ht h hres hq hdb hnaming hnodup (hrows _)
    obtain ⟨env, hjoin, -, htrue⟩ := hdecides (Env.empty.bind (m.aliasOf t) row)
    refine ⟨x, env, rfl, hjoin, op, rfl, y, ctes, hy, htrue.trans (exists_congr fun c => ?_)⟩
    dsimp only
    rw [hstart, hreaches, truth_operand hy (hrows _), Env.bind_self]
  | all =>
    obtain ⟨op', hop', ⟨y, ctes, hy⟩, x, rfl, hdecides⟩ :=
      decides_all rfl ht h hres hmany hq hdb hnaming hnodup (hrows _)
    obtain ⟨env, hjoin, -, htrue⟩ := hdecides (Env.empty.bind (m.aliasOf t) row)
    refine ⟨x, env, rfl, hjoin, op', hop', y, ctes, hy, htrue.trans (forall_congr' fun c => ?_)⟩
    dsimp only
    rw [hstart, hreaches, truth_operand hy (hrows _), Env.bind_self]

/-- The order has a line with the tag, so it is found. -/
theorem compile_tagged_iff_reaches :
    ∃ e g x env, (Shop.tagged.compile (Shop.model Shop.plain) .filter).Gives
        ⟨.ofTable (Shop.model Shop.plain) Shop.orders, []⟩ e g ∧ e = some x ∧
      joinAll Shop.engine (Shop.uniform "new")
        (bindCtes Shop.engine (Shop.uniform "new") (fun _ => []) g.ctes) (g.scope.joinsFor false)
        [Env.empty.bind ((Shop.model Shop.plain).aliasOf Shop.orders) fun _ => some "new"] =
          [env] ∧
      Shop.engine.truth (x.eval Shop.engine (Shop.uniform "new")
        (bindCtes Shop.engine (Shop.uniform "new") (fun _ => []) g.ctes) [env] env) =
          some true := by
  obtain ⟨e, g, h, -⟩ := Shop.compile_tagged Shop.plain
  have hone : (Shop.model Shop.plain).OneToOne Shop.engine (Shop.uniform "new") :=
    Model.oneToOne_of_length _ _ _ fun _ _ => Nat.le_refl 1
  have hres : (Shop.model Shop.plain).resolve Shop.orders ⟨["lines", "tags", "label"]⟩ =
    .ok _ := rfl
  have hnodup := ((Model.walk_of_resolve hres).1.nodup_labels_iff Shop.faithful_plain
    (.root Shop.derive_plain_ne_orders)).2 (by decide)
  obtain ⟨x, env, hx, hjoin, op, hop, y, ctes, hy, htrue⟩ :=
    compile_compare_iff_reaches Shop.faithful_plain.ne_cteName (Shop.covers_orders _) h hres rfl
      ⟨nofun, nofun⟩ hnodup hone fun _ => some "new"
  cases hop
  obtain ⟨hscalar, hframe⟩ := gives_render_value.1 hy
  cases hscalar
  refine ⟨e, g, x, env, h, hx, hjoin, htrue.2 ⟨fun _ => some "new", ?_, ?_⟩⟩
  · exact ⟨_, Shop.links_uniform rfl "new", _,
      ⟨_, Shop.links_uniform rfl "new", Shop.links_uniform rfl "new"⟩, rfl⟩
  · simp only [Model.columnExpr, Expr.ofTable, Target.param, Expr.eval, Env.bind_self]
    exact Shop.engine.truth_binary_eq.2 ⟨"new", rfl, rfl⟩

end EntityQuery
