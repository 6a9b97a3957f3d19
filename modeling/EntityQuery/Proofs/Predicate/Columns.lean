import EntityQuery.Proofs.Graph.Parting
import EntityQuery.Proofs.Predicate.Meaning
import EntityQuery.Proofs.Predicate.Quantifier

/-!
# What the comparison of two columns means

Two columns are compared within one row. If their paths fan out, they do so along the same
relationships, and the condition asks for a row behind the last of these in which the comparison is
true.

**Recursion.** As for a comparison with a value, the paths are divided at their first fan-out and
the proof goes by their length (`decides_columns`). At the end two one-to-one walks are joined, of
which the shared part stands once (`decides_columns_direct`).

**Negation.** The opposite operator asks for a row in which the comparison is false. So it does not
negate the condition: a row that leads to one of each satisfies both, and a row that leads to none,
or to NULLs only, satisfies neither.
-/

namespace EntityQuery

open EntityQuery.Sql (Expr Query Engine Database Ctes Env Row Truth joinAll bindCtes)

variable {D : Type} [DecidableEq D] {E : Engine D} {db : Database D} {origin : JoinOrigin}
  {e : Option Expr} {hops : List Relationship} {l r : Resolution} {g : Frame} {op' : Operator}
  {rows : Ctes D} {s : Scope}

/-! ## The comparison of two values -/

theorem truth_compareColumns {l r : Target} {op : Operator} {x : Expr}
    (h : compareColumns l r op = .ok x) (rows : Ctes D) (group : List (Env D)) (env : Env D) :
    E.truth (x.eval E db rows group env) =
      op.between E (l.column.eval E db rows group env) (r.column.eval E db rows group env) := by
  cases op with
  | notLikeOrNull =>
    cases h
    rw [Expr.combine₂, Expr.eval, Expr.eval_protect, Expr.eval_protect, Expr.eval, Expr.eval,
      Engine.binary, E.truth_value, Operator.between]
    congr 1
    rw [Engine.truth, Option.map_some, E.holds_ofBool]
    cases l.column.eval E db rows group env <;> rfl
  | wordLike | notWordLike => cases h
  | _ =>
    cases h
    rw [Expr.eval]
    rfl

/-- The opposite of an operator can be written. -/
theorem exists_compareColumns {op : Operator} (hop : op.columnInverse? = some op') (l r : Target) :
    ∃ x, compareColumns l r op' = .ok x := by
  cases op <;> cases hop <;> exact ⟨_, rfl⟩

/-- Opposite operators give opposite truth values. -/
theorem Operator.between_inverse {op : Operator} (hop : op.columnInverse? = some op')
    (a b : Option D) : op'.between E a b = (op.between E a b).not := by
  cases a <;> cases b <;> cases op <;> cases hop <;>
    simp [between, Operator.binary?, Engine.binary, Engine.truth, Engine.compare, E.holds_ofBool,
      Truth.not]

/-! ## Dividing the paths -/

section

variable {m : Model} {t : Table} {left right : Path} {op : Operator}

/-- The comparison stays as it is, or both paths are divided at one relationship. -/
theorem normal_columns {p : Predicate} :
    (Predicate.columns left op right).normal m t = .ok p ↔
      (m.firstMany? t left = none ∧ m.firstMany? t right = none ∧ p = .columns left op right) ∨
      ∃ i r s, m.firstMany? t left = some (i, r) ∧ m.firstMany? t right = some (i, s) ∧
        r.child.identity = s.child.identity ∧
        p = .related (left.take (i + 1))
          (.columns (left.drop (i + 1)) op (right.drop (i + 1))) false none := by
  rw [Predicate.normal_eq_ok]
  simp only [Predicate.simplify, Predicate.correlate, Predicate.correlateColumns]
  cases hl : m.firstMany? t left with
  | none =>
    cases hr : m.firstMany? t right with
    | none => simp [Predicate.simplify]
    | some s => simp
  | some found =>
    obtain ⟨i, r⟩ := found
    cases hr : m.firstMany? t right with
    | none => simp
    | some found' =>
      obtain ⟨j, s⟩ := found'
      by_cases hsame : i = j ∧ r.child.identity = s.child.identity
      · obtain ⟨rfl, hid⟩ := hsame
        simp [hid, Predicate.simplify]
      · simp only [if_neg hsame, reduceCtorEq, false_and, exists_false, Option.some.injEq,
          Prod.mk.injEq, false_or, false_iff]
        rintro ⟨i', r', s', ⟨rfl, rfl⟩, ⟨rfl, rfl⟩, hid, -⟩
        exact hsame ⟨rfl, hid⟩

/-- Columns that can be written have paths. -/
theorem isEmpty_of_gives_columns {f : Frame}
    (h : ((Predicate.columns left op right).compile m origin).Gives f e g) :
    left.isEmpty = false ∧ right.isEmpty = false := by
  have hne : ∀ {p : Path}, 0 < p.length → p.isEmpty = false := by
    intro p hp
    simpa [Path.isEmpty, List.isEmpty_eq_false_iff, ← List.length_pos_iff, Path.length] using hp
  obtain ⟨p, hp, hrender⟩ := gives_compile.1 h
  rcases normal_columns.1 hp with ⟨-, -, rfl⟩ | ⟨i, r, s, hl, hr, -, -⟩
  · obtain ⟨_, _, _, _, hl, hr, -, -⟩ := gives_render_columns.1 hrender
    obtain ⟨_, _, hl, -⟩ := gives_joinColumn.1 hl
    obtain ⟨_, _, hr, -⟩ := gives_joinColumn.1 hr
    exact ⟨hne (Model.length_hops_resolve hl ▸ Nat.succ_pos _),
      hne (Model.length_hops_resolve hr ▸ Nat.succ_pos _)⟩
  · exact ⟨hne (Nat.zero_lt_of_lt (Model.firstMany?_lt hl)),
      hne (Nat.zero_lt_of_lt (Model.firstMany?_lt hr))⟩

end

/-! ## One-to-one walks -/

/-- The row that a one-to-one walk leads to. -/
theorem followed_eq {m : Model} {t : Table} (hwalk : m.Walk t hops) (ht : m.Covers t)
    (hone : ∀ r ∈ hops, r.cardinality = .oneToOne) (hdb : m.OneToOne E db)
    (hnodup : m.AliasesApart t hops) {row c : Row D}
    (h : reaches E db true hops row c) : followed E db hops row = c := by
  have hmem : c ∈ reached E db true hops row := mem_reached.2 h
  rw [followed]
  cases hreached : reached E db true hops row with
  | nil =>
    rw [hreached] at hmem
    cases hmem
  | cons c' cs =>
    have hc' : c' ∈ reached E db true hops row := hreached ▸ List.mem_cons_self
    exact reaches_unique hwalk ht hone hdb hnodup (mem_reached.1 hc') h

theorem spread_of_oneToOne (hone : ∀ r ∈ hops, r.fansOut = false) :
    spread hops = [] ∧ behind hops = hops := by
  rw [spread, behind, List.rdropWhile_eq_nil_iff, List.rtakeWhile_eq_self_iff]
  simpa using hone

/-- Behind a fan-out the rest of a walk decides where it spreads last. -/
theorem spread_split (before rest : List Relationship) {r : Relationship}
    (hr : r.fansOut = true) :
    spread (before ++ r :: rest) = before ++ r :: spread rest ∧
      behind (before ++ r :: rest) = behind rest := by
  have hreverse : (before ++ r :: rest).reverse = rest.reverse ++ r :: before.reverse := by simp
  constructor
  · rw [spread, spread, List.rdropWhile, List.rdropWhile, hreverse, List.dropWhile_append]
    split
    · rename_i hnil
      rw [List.isEmpty_iff] at hnil
      simp [hnil, hr]
    · simp
  · rw [behind, behind, List.rtakeWhile, List.rtakeWhile, hreverse, List.takeWhile_append]
    split
    · rename_i hall
      have hself := (List.takeWhile_prefix (p := fun s : Relationship => !s.fansOut)
        (l := rest.reverse)).eq_of_length hall
      rw [hself]
      simp [hr]
    · rfl

/-- **Two columns of one row**, at the ends of one-to-one walks. -/
theorem decides_columns_direct {m : Model} {left right : Path} {op : Operator}
    (hjoins : s.joins = []) (ht : m.Covers s.root)
    (h : ((Predicate.columns left op right).render m origin).Gives ⟨s, []⟩ e g)
    (hl : m.resolve s.root left = .ok l) (hr : m.resolve s.root right = .ok r)
    (hnodup : m.AliasesApart s.root (together l.hops r.hops)) (hdb : m.OneToOne E db) :
    spread l.hops = [] ∧ spread r.hops = [] ∧
      g.Settles E db rows e ((together l.hops r.hops).flatMap (·.labels)) (m.aliasOf s.root)
        fun row => Resolution.compared E db op l r row = some true := by
  obtain ⟨_, _, _, x, htarget, htarget', hx, rfl⟩ := gives_render_columns.1 h
  obtain ⟨l', s₁, hl', hmanyL, hs₁, rfl, rfl⟩ := gives_joinColumn.1 htarget
  obtain ⟨r', s₂, hr', hmanyR, hs₂, rfl, rfl⟩ := gives_joinColumn.1 htarget'
  have hroot : s₁.root = s.root := (Scope.grows_joinHops hs₁).root
  rw [hroot] at hr'
  cases hl.symm.trans hl'
  cases hr.symm.trans hr'
  have honeL := Resolution.crossesMany_eq_false.1 hmanyL
  have honeR := Resolution.crossesMany_eq_false.1 hmanyR
  obtain ⟨hspreadL, hbehindL⟩ := spread_of_oneToOne honeL
  obtain ⟨hspreadR, hbehindR⟩ := spread_of_oneToOne honeR
  obtain ⟨_, -, hwalkL, htableL, -⟩ := Model.resolve_eq_ok hl
  obtain ⟨_, -, hwalkR, htableR, -⟩ := Model.resolve_eq_ok hr
  have hone : ∀ a ∈ l.hops ++ r.hops, a.cardinality = .oneToOne := by
    intro a ha
    rw [← a.fansOut_eq_false_iff]
    exact (List.mem_append.1 ha).elim (honeL a) (honeR a)
  refine ⟨hspreadL, hspreadR, x, rfl, fun env => ?_⟩
  obtain ⟨env', hjoin, hleft, hright, hframe⟩ :=
    joinAll_walks hjoins ht hwalkL hwalkR hnodup hone hs₁ hs₂ hdb rows env
  refine ⟨env', hjoin, fun a ha _ => hframe a ha, ?_⟩
  rw [List.forall_mem_append] at hone
  obtain ⟨hnodupL, hnodupR⟩ := hnodup.of_together hwalkL hwalkR
  have hfollowedL := followed_eq (Model.walk_of_walkMembers? hwalkL) ht hone.1 hdb hnodupL hleft
  have hfollowedR := followed_eq (Model.walk_of_walkMembers? hwalkR) ht hone.2 hdb hnodupR hright
  show _ ↔ Resolution.compared E db op l r (env (m.aliasOf s.root)) = some true
  rw [truth_compareColumns hx, Resolution.compared, hbehindL, hbehindR,
    hfollowedL, hfollowedR, ← htableL, ← htableR]
  simp only [Model.columnExpr, Expr.ofTable, Expr.eval]

/-- **The division of two paths.** What the comparison behind the first fan-out decides of the rows
there, the test of the keys decides of the row at the start. -/
theorem decides_columns_divided {m : Model} {via left right : Path} {op : Operator}
    {before : List Relationship} {a : Relationship} {l' r' : Resolution} (hjoins : s.joins = [])
    (ht : m.Covers s.root)
    (h : ((Predicate.related via (.columns left op right) false none).render m origin).Gives
      ⟨s, []⟩ e g) (hroute : m.resolveRelationship s.root via = .ok ⟨before, a⟩)
    (hfan : a.fansOut = true) (hone : ∀ b ∈ before, b.fansOut = false)
    (hl : l.hops = before ++ a :: l'.hops) (hr : r.hops = before ++ a :: r'.hops)
    (hcolumns : l'.column = l.column ∧ r'.column = r.column) (hnaming : m.naming.AvoidsCtes)
    (hnodup : m.AliasesApart s.root (together l.hops r.hops)) (hdb : m.OneToOne E db)
    (hinner : ∀ c g',
      ((Predicate.columns left op right).compile m .filter).Gives ⟨.ofRelationship a, []⟩ c g' →
      g'.Settles E db (bindCtes E db (fun _ => []) g'.ctes) c
        ((together l'.hops r'.hops).flatMap (·.labels)) (m.aliasOf a.child)
        fun row => ∃ c, reaches E db true (spread l'.hops) row c ∧
          Resolution.compared E db op l' r' c = some true)
    (hrows : rows.Binds E db g.ctes) :
    g.Settles E db rows e ((together l.hops r.hops).flatMap (·.labels)) (m.aliasOf s.root)
      fun row => ∃ c, reaches E db true (spread l.hops) row c ∧
        Resolution.compared E db op l r c = some true := by
  obtain ⟨hspread, hbehindL⟩ := spread_split before l'.hops hfan
  obtain ⟨-, hbehindR⟩ := spread_split before r'.hops hfan
  have hcompared : ∀ c,
      Resolution.compared E db op l r c = Resolution.compared E db op l' r' c := by
    intro c
    rw [Resolution.compared, Resolution.compared, hl, hr, hbehindL, hbehindR, hcolumns.1,
      hcolumns.2]
  have hlast : m.Relates _ a := (Model.walk_of_resolveRelationship hroute).2
  have htogether : together l.hops r.hops = before ++ a :: together l'.hops r'.hops := by
    rw [hl, hr, together_append, together, if_pos rfl]
  rw [htogether] at hnodup ⊢
  obtain ⟨hbefore, hbehind, -⟩ := hlast.nodup_divided hnodup
  obtain ⟨x, rfl, hdecides⟩ := decides_related hjoins ht h hroute
    (fun b hb => b.fansOut_eq_false_iff.1 (hone b hb)) hdb hnaming hbefore hbehind hinner hrows
  refine ⟨x, rfl, hdecides.imp ?_ fun row => ?_⟩
  · rw [List.flatMap_append]
    exact List.subset_append_left _ _
  · simp only [hl, hspread, hcompared, exists_reaches_divided hfan, iff_true]

/-- **Two columns behind the same fan-outs.** The condition asks for a row behind the last of them
in which the comparison is true. -/
theorem decides_columns {m : Model} {left right : Path} {op : Operator}
    (hnaming : m.naming.AvoidsCtes) (hjoins : s.joins = []) (ht : m.Covers s.root)
    (h : ((Predicate.columns left op right).compile m origin).Gives ⟨s, []⟩ e g)
    (hl : m.resolve s.root left = .ok l) (hr : m.resolve s.root right = .ok r)
    (hnodup : m.AliasesApart s.root (together l.hops r.hops)) (hdb : m.OneToOne E db)
    (hrows : rows.Binds E db g.ctes) :
    spread l.hops = spread r.hops ∧
      g.Settles E db rows e ((together l.hops r.hops).flatMap (·.labels)) (m.aliasOf s.root)
        fun row => ∃ c, reaches E db true (spread l.hops) row c ∧
          Resolution.compared E db op l r c = some true := by
  induction hlength : left.length using Nat.strongRecOn
    generalizing left right s origin e g l r rows with
  | _ n ih =>
    subst hlength
    obtain ⟨p, hp, hrender⟩ := gives_compile.1 h
    rcases normal_columns.1 hp with ⟨-, -, rfl⟩ | ⟨i, a, b, hmanyL, hmanyR, hid, rfl⟩
    · obtain ⟨hspreadL, hspreadR, x, rfl, hdecides⟩ :=
        decides_columns_direct hjoins ht hrender hl hr hnodup hdb
      refine ⟨hspreadL.trans hspreadR.symm, x, rfl, hdecides.imp (List.Subset.refl _) fun row => ?_⟩
      simp only [hspreadL, reaches, exists_eq_left]
    · -- The condition behind the fan-out was written, so both paths go on there.
      obtain ⟨route, _, c, g', _, _, _, hroute, -, hc, -⟩ := gives_render_related.1 hrender
      obtain ⟨hrestL, hrestR⟩ := isEmpty_of_gives_columns hc
      obtain ⟨before, l', hrouteL, hl', hhopsL, -, hcolumnL, hfan, hone⟩ :=
        Model.resolve_split hl hmanyL hrestL
      obtain ⟨before', r', hrouteR, hr', hhopsR, -, hcolumnR, -, -⟩ :=
        Model.resolve_split hr hmanyR hrestR
      have hlength : before.length = before'.length := by
        have hlengthL := Model.length_walkMembers? (Model.resolveRelationship_eq_ok hrouteL)
        have hlengthR := Model.length_walkMembers? (Model.resolveRelationship_eq_ok hrouteR)
        have hltL := Model.firstMany?_lt hmanyL
        have hltR := Model.firstMany?_lt hmanyR
        simp only [Route.hops, Path.take, Path.length, List.length_append, List.length_take,
          List.length_singleton] at hlengthL hlengthR hltL hltR
        omega
      obtain ⟨_, -, hwalkL, -⟩ := Model.resolve_eq_ok hl
      obtain ⟨_, -, hwalkR, -⟩ := Model.resolve_eq_ok hr
      rw [hhopsL] at hwalkL
      rw [hhopsR] at hwalkR
      have hboth := hnodup
      rw [hhopsL, hhopsR] at hboth
      -- One identity has one alias, so the fan-outs are the same.
      obtain ⟨rfl, rfl⟩ := hboth.eq_of_alias_eq hwalkL hwalkR hlength
        (congrArg m.naming.tableAlias hid)
      cases hrouteL.symm.trans hroute
      obtain ⟨-, hlast⟩ := Model.walk_of_resolveRelationship hroute
      rw [together_append, together, if_pos rfl] at hboth
      have hinner : ∀ c g', ((Predicate.columns (left.drop (i + 1)) op
          (right.drop (i + 1))).compile m .filter).Gives ⟨.ofRelationship a, []⟩ c g' → _ :=
        fun c g' hc => ih _ (Model.length_drop_lt hmanyL) rfl hlast.covers_child hc hl' hr'
          (hlast.nodup_divided hboth).2.2 (fun _ _ => rfl) rfl
      have hdivided := decides_columns_divided hjoins ht hrender hroute hfan hone hhopsL hhopsR
        ⟨hcolumnL, hcolumnR⟩ hnaming hnodup hdb (fun c g' hc => (hinner c g' hc).2) hrows
      refine ⟨?_, hdivided⟩
      rw [hhopsL, hhopsR, (spread_split _ _ hfan).1, (spread_split _ _ hfan).1, (hinner c g' hc).1]

/-! ## Negation -/

/-- Where a comparison can be written, so can the opposite one. -/
theorem exists_compile_columns {m : Model} {f : Frame} {left right : Path} {op : Operator}
    (hop : op.columnInverse? = some op')
    (h : ((Predicate.columns left op right).compile m origin).Gives f e g) :
    ∃ e' g', ((Predicate.columns left op' right).compile m origin).Gives f e' g' := by
  induction hlength : left.length using Nat.strongRecOn
    generalizing left right f origin e g with
  | _ n ih =>
    subst hlength
    obtain ⟨p, hp, hrender⟩ := gives_compile.1 h
    rcases normal_columns.1 hp with ⟨hl, hr, rfl⟩ | ⟨i, a, b, hmanyL, hmanyR, hid, rfl⟩
    · obtain ⟨l, _, r, _, hleft, hright, -, -⟩ := gives_render_columns.1 hrender
      obtain ⟨x, hx⟩ := exists_compareColumns hop l r
      exact ⟨_, _, gives_compile.2 ⟨_, normal_columns.2 (.inl ⟨hl, hr, rfl⟩),
        gives_render_columns.2 ⟨l, _, r, x, hleft, hright, hx, rfl⟩⟩⟩
    · obtain ⟨route, s, c, _, _, _, _, hroute, hs, hc, -, -, -⟩ := gives_render_related.1 hrender
      obtain ⟨c', g', hc'⟩ := ih _ (Model.length_drop_lt hmanyL) hc rfl
      exact ⟨_, _, gives_compile.2 ⟨_, normal_columns.2 (.inr ⟨i, a, b, hmanyL, hmanyR, hid, rfl⟩),
        gives_render_related.2 ⟨route, s, c', g', none, g'.scope, g'.ctes, hroute, hs, hc',
          gives_joinThreshold.2 (.inl ⟨rfl, rfl, rfl⟩), rfl, rfl⟩⟩⟩

/-- A row passes a filter that has been written, with its joins and its CTEs. -/
def Frame.Passes (E : Engine D) (db : Database D) (m : Model) (g : Frame) (e : Option Expr)
    (row : Row D) : Prop :=
  let ctes := bindCtes E db (fun _ => []) g.ctes
  ∃ env ∈ joinAll E db ctes (g.scope.joinsFor false)
    [Env.empty.bind (m.aliasOf g.scope.root) row], Sql.holdsOption E db ctes [env] env e = true

/-- A row passes a condition beside joins that bind one row each if it is decided so. -/
theorem Decides.passes {m : Model} {t : Table} {x : Expr} {names : List String} {Q : Row D → Prop}
    (h : Decides E db (bindCtes E db (fun _ => []) g.ctes)
      (g.scope.joins.map (·.join)) x names (m.aliasOf t) Q)
    (hgrows : (Scope.ofTable m t).Grows g.scope) (row : Row D) :
    g.Passes E db m (some x) row ↔ Q row := by
  obtain ⟨env, hjoin, -, htrue⟩ := h (Env.empty.bind (m.aliasOf t) row)
  rw [Env.bind_self] at htrue
  have hbase : g.scope.baseJoins = [] := hgrows.baseJoins
  have hscope : g.scope.root = t := hgrows.root
  simp only [Frame.Passes, Scope.joinsFor_false, hbase, hscope, List.nil_append, hjoin,
    List.mem_singleton, exists_eq_left, Sql.holdsOption, decide_eq_true_eq]
  exact htrue

theorem mem_spread {r : Relationship} (hr : r ∈ hops) (hfan : r.fansOut = true) :
    r ∈ spread hops := by
  rw [← List.rdropWhile_append_rtakeWhile (p := fun s : Relationship => !s.fansOut) (l := hops),
    List.mem_append] at hr
  refine hr.resolve_right fun hbehind => ?_
  have := List.mem_rtakeWhile_imp hbehind
  simp [hfan] at this

/-- A row passes the comparison of two columns behind a fan-out if it is true of some row there. -/
theorem passes_columns {m : Model} {t : Table} {left right : Path} {op : Operator}
    (hnaming : m.naming.AvoidsCtes) (ht : m.Covers t)
    (h : ((Predicate.columns left op right).compile m origin).Gives ⟨.ofTable m t, []⟩ e g)
    (hl : m.resolve t left = .ok l) (hr : m.resolve t right = .ok r) (hmany : l.crossesMany = true)
    (hnodup : m.AliasesApart t (together l.hops r.hops)) (hdb : m.OneToOne E db) (row : Row D) :
    spread l.hops = spread r.hops ∧ (g.Passes E db m e row ↔ some true ∈
      (reached E db false (spread l.hops) row).map (Resolution.compared E db op l r)) := by
  obtain ⟨hspread, x, rfl, hdecides⟩ := decides_columns hnaming rfl ht h hl hr hnodup hdb
    fun _ _ => rfl
  refine ⟨hspread, ?_⟩
  have hfan : ∃ a ∈ spread l.hops, a.fansOut = true := by
    obtain ⟨a, ha, hfan⟩ := Resolution.crossesMany_eq_true.1 hmany
    exact ⟨a, mem_spread ha hfan, hfan⟩
  rw [hdecides.passes (grows_compile h).scope row]
  simp only [List.mem_map, mem_reached, reaches_extended hfan]

theorem existsUnique_bool {P : Bool → Prop} : (P false ↔ ¬ P true) ↔ ∃! b, P b := by
  by_cases htrue : P true
  · by_cases hfalse : P false
    · refine iff_of_false (fun h => h.1 hfalse htrue) fun h => ?_
      cases h.unique htrue hfalse
    · exact iff_of_true (iff_of_false hfalse (not_not_intro htrue))
        ⟨true, htrue, fun b hb => by cases b; exacts [absurd hb hfalse, rfl]⟩
  · by_cases hfalse : P false
    · exact iff_of_true (iff_of_true hfalse htrue)
        ⟨false, hfalse, fun b hb => by cases b; exacts [rfl, absurd hb htrue]⟩
    · refine iff_of_false (fun h => hfalse (h.2 htrue)) fun h => ?_
      obtain ⟨b, hb, -⟩ := h
      cases b
      exacts [hfalse hb, htrue hb]

/-- **The opposite of a comparison of two columns.** Behind a fan-out a row passes the comparison if
it is true of some row that the paths lead to, and passes the opposite one if it is false of some.
So the opposite is the negation exactly for the rows that find one of the two and not the other; and
as predicates too the two are different: the negation asks for no related row. The tables of the two
paths need aliases of their own. -/
theorem compile_columns_inverse {m : Model}
    (hnaming : ∀ id i, m.naming.tableAlias id ≠ Build.cteName i) {t : Table} (ht : m.Covers t)
    {left right : Path} {op op' : Operator} (hop : op.columnInverse? = some op')
    {origin : JoinOrigin} {e : Option Expr} {g : Frame} {l r : Resolution}
    (h : ((Predicate.columns left op right).compile m origin).Gives ⟨.ofTable m t, []⟩ e g)
    (hl : m.resolve t left = .ok l) (hr : m.resolve t right = .ok r)
    (hmany : l.crossesMany = true) (hnodup : m.AliasesApart t (together l.hops r.hops))
    (hdb : m.OneToOne E db) (row : Row D) :
    (Predicate.columns left op right).invert = .ok (.columns left op' right) ∧
      (∃ p p', (Predicate.columns left op right).normal m t = .ok p ∧
        (Predicate.columns left op' right).normal m t = .ok p' ∧ p.invert ≠ .ok p') ∧
      ∃ e' g',
        ((Predicate.columns left op' right).compile m origin).Gives ⟨.ofTable m t, []⟩ e' g' ∧
        let found := (reached E db false (spread l.hops) row).map (Resolution.compared E db op l r)
        spread l.hops = spread r.hops ∧
        (g.Passes E db m e row ↔ some true ∈ found) ∧
        (g'.Passes E db m e' row ↔ some false ∈ found) ∧
        ((g'.Passes E db m e' row ↔ ¬ g.Passes E db m e row) ↔ ∃! b, some b ∈ found) := by
  obtain ⟨e', g', h'⟩ := exists_compile_columns hop h
  obtain ⟨hspread, htrue⟩ := passes_columns hnaming ht h hl hr hmany hnodup hdb row
  have hfalse := (passes_columns hnaming ht h' hl hr hmany hnodup hdb row).2
  -- The opposite is true where the comparison is false.
  have hnot : ∀ c, Resolution.compared E db op' l r c = some true ↔
      Resolution.compared E db op l r c = some false := by
    intro c
    rw [Resolution.compared, Operator.between_inverse hop, ← Resolution.compared]
    rcases Resolution.compared E db op l r c with _ | _ | _ <;> simp [Truth.not]
  simp only [List.mem_map, hnot] at hfalse
  rw [← List.mem_map] at hfalse
  refine ⟨by rw [Predicate.invert, hop], ?_, e', g', h', hspread, htrue, hfalse, ?_⟩
  · obtain ⟨p, hp, hrender⟩ := gives_compile.1 h
    rcases normal_columns.1 hp with ⟨-, -, rfl⟩ | ⟨i, a, b, hmanyL, hmanyR, hid, rfl⟩
    · obtain ⟨_, _, _, _, htarget, -⟩ := gives_render_columns.1 hrender
      obtain ⟨l', _, hl', hone, -⟩ := gives_joinColumn.1 htarget
      cases hl.symm.trans hl'
      rw [hmany] at hone
      cases hone
    · refine ⟨_, _, hp, normal_columns.2 (.inr ⟨i, a, b, hmanyL, hmanyR, hid, rfl⟩), ?_⟩
      simp [Predicate.invert]
  · rw [htrue, hfalse]
    exact existsUnique_bool (P := fun b => some b ∈ _)

namespace Shop

/-- Only customers are found by one-to-one steps. -/
theorem oneToOne_of_customers (naming : Naming) {D : Type} [DecidableEq D] (E : Engine D)
    (db : Database D) (h : ∀ schema, (db schema "customers").length ≤ 1) :
    (model naming).OneToOne E db := by
  intro t r ht hr hone j hj ctes env
  have htable : j.table = "customers" := by
    obtain ⟨rel, hrel, target, htarget, rfl⟩ := hr
    have hcard : rel.cardinality = .oneToOne := by
      rw [Model.unfold] at hone
      split at hone <;> exact hone
    have hall : ∀ e ∈ (model naming).entities, ∀ rel ∈ e.relations, rel.cardinality = .oneToOne →
        rel.target = "Customer" ∧ rel.link = none := by
      simp [model, order, customer, line, tag]
    obtain ⟨htargetName, hlink⟩ := hall t.entity ht rel hrel hcard
    have hcustomer : target = customer := by
      rw [htargetName] at htarget
      exact (Option.some.inj htarget).symm
    subst hcustomer
    simp only [Model.unfold, hlink, Relationship.joins, Option.toList_none, List.nil_append,
      List.mem_singleton] at hj
    rw [hj]
    rfl
  refine Nat.le_trans (List.length_filter_le _ _) ?_
  simpa [Sql.tableRows, JoinStep.tableRef, htable] using h j.schema

/-- A line of the order `1`. -/
def orderLine (id sku : String) : Row String
  | "id" => some id
  | "order_id" => some "1"
  | "sku" => some sku
  | _ => none

/-- Two lines of one order: the columns of the first are equal, those of the second are not. -/
def twoLines : Database String
  | _, "lines" => [orderLine "a" "a", orderLine "b" "c"]
  | _, _ => []

theorem compile_idSku (naming : Naming) :
    ∃ e g, ((Predicate.columns ⟨["lines", "id"]⟩ .eq ⟨["lines", "sku"]⟩).compile (model naming)
      .filter).Gives ⟨.ofTable (model naming) orders, []⟩ e g := by
  have hline : ((Predicate.columns ⟨["id"]⟩ .eq ⟨["sku"]⟩).render (model naming) .filter).Gives
      ⟨.ofRelationship (orderLines naming), []⟩ _ _ :=
    gives_render_columns.2 ⟨_, _, _, _,
      gives_joinColumn.2 ⟨⟨[], _, _⟩, _, rfl, rfl, rfl, rfl, rfl⟩,
      gives_joinColumn.2 ⟨⟨[], _, _⟩, _, rfl, rfl, rfl, rfl, rfl⟩, rfl, rfl⟩
  have hlines : ((Predicate.related ⟨["lines"]⟩ (.columns ⟨["id"]⟩ .eq ⟨["sku"]⟩) false none).render
      (model naming) .filter).Gives ⟨.ofTable (model naming) orders, []⟩ _ _ :=
    gives_render_related.2 ⟨_, _, _, _, none, _, _, resolve_lines naming, rfl,
      gives_compile.2 ⟨_, normal_columns.2 (.inl ⟨rfl, rfl, rfl⟩), hline⟩,
      gives_joinThreshold.2 (.inl ⟨rfl, rfl, rfl⟩), rfl, rfl⟩
  exact ⟨_, _, gives_compile.2 ⟨_, normal_columns.2 (.inr ⟨0, _, _, rfl, rfl, rfl, rfl⟩), hlines⟩⟩

/-- The two lines are found, and compared. -/
theorem found_twoLines :
    (reached engine twoLines false (spread [orderLines plain]) (orderLine "1" "")).map
      (Resolution.compared engine twoLines .eq
        ⟨[orderLines plain], (orderLines plain).child, column "id"⟩
        ⟨[orderLines plain], (orderLines plain).child, column "sku"⟩) =
      [some true, some false] := by
  rfl

end Shop

/-- An order with two lines of which one has two equal columns passes the comparison for equality,
and its opposite too. -/
theorem compile_columns_inverse_twoLines :
    ∃ e g e' g',
      ((Predicate.columns ⟨["lines", "id"]⟩ .eq ⟨["lines", "sku"]⟩).compile
        (Shop.model Shop.plain) .filter).Gives
        ⟨.ofTable (Shop.model Shop.plain) Shop.orders, []⟩ e g ∧
      ((Predicate.columns ⟨["lines", "id"]⟩ .ne ⟨["lines", "sku"]⟩).compile
        (Shop.model Shop.plain) .filter).Gives
        ⟨.ofTable (Shop.model Shop.plain) Shop.orders, []⟩ e' g' ∧
      g.Passes Shop.engine Shop.twoLines (Shop.model Shop.plain) e (Shop.orderLine "1" "") ∧
      g'.Passes Shop.engine Shop.twoLines (Shop.model Shop.plain) e' (Shop.orderLine "1" "") := by
  obtain ⟨e, g, h⟩ := Shop.compile_idSku Shop.plain
  have hres : (Shop.model Shop.plain).resolve Shop.orders ⟨["lines", "id"]⟩ =
      .ok ⟨[Shop.orderLines Shop.plain], (Shop.orderLines Shop.plain).child,
        Shop.column "id"⟩ := rfl
  have hnodup := ((Model.walk_of_resolve hres).1.nodup_labels_iff Shop.faithful_plain
    (.root Shop.derive_plain_ne_orders)).2 (by decide)
  obtain ⟨-, -, e', g', h', -, htrue, hfalse, -⟩ :=
    compile_columns_inverse Shop.faithful_plain.ne_cteName (Shop.covers_orders _) rfl h hres rfl
      rfl hnodup (Shop.oneToOne_of_customers Shop.plain Shop.engine Shop.twoLines
        fun _ => Nat.zero_le 1)
      (Shop.orderLine "1" "")
  have hfound := Shop.found_twoLines
  refine ⟨e, g, e', g', h, h', htrue.2 ?_, hfalse.2 ?_⟩
  · exact hfound ▸ List.mem_cons_self
  · exact hfound ▸ List.mem_cons_of_mem _ List.mem_cons_self

end EntityQuery
