import EntityQuery.Proofs.Predicate.FanOut
import EntityQuery.Proofs.Scope.Closed

/-!
# What the test of a key means

Related rows are asked for by a CTE of keys, joined at the parent, and a test whether a key was
found. The CTE starts at the child and goes back over the link table, so the same joins are read
from the other side (`exists_baseJoins_iff`); it has the key of a parent exactly if the
relationship leads to a row that satisfies the condition (`exists_key_iff`).

**One step.** `Decides` says what a condition beside its joins is true of. If the condition on the
far side decides a property of the child, the test of the key decides whether the relationship
leads to a row with it (`decides_related`).
-/

namespace EntityQuery

open EntityQuery.Sql (Expr Query Engine Database Ctes Env Row Record joinAll bindCtes)

variable {D : Type} [DecidableEq D] {E : Engine D} {db : Database D} {rows : Ctes D}
  {names : List String} {Q : Row D → Prop} {joins : List Sql.Join} {condition x : Expr} {t : Table}
  {env : Env D} {label : String} {c : Row D}

/-! ## The rows of a CTE -/

/-- The keys are those of the rows that the conditions keep. -/
theorem exists_row_keysQuery {s : Scope} {r : Relationship} {conditions : List Expr}
    {w : Option D} :
    let q := s.apply (keysQuery r.linkKey conditions none) false
    (∃ row ∈ (q.records E db rows Env.empty).map Record.row, row linkColumn = w) ↔
      ∃ env ∈ q.kept E db rows Env.empty, env r.firstJoin.label r.firstJoin.rightColumn = w := by
  intro q
  have hgroups : q.groups E db rows Env.empty = (q.kept E db rows Env.empty).map ([·]) := rfl
  have hresults : q.results E db rows Env.empty = (q.kept E db rows Env.empty).map fun env =>
      [(some linkColumn, env r.firstJoin.label r.firstJoin.rightColumn)] := by
    have hall : ∀ group env, Sql.holdsOption E db rows group env q.having = true := by
      intro group env
      rw [show q.having = none from rfl, Sql.holdsOption]
    rw [Query.results, hgroups, List.filter_eq_self.2 fun group _ => hall group _, List.map_map,
      show q.items = [⟨r.linkKey, some linkColumn⟩] from rfl]
    refine List.map_congr_left fun env _ => ?_
    simp only [Function.comp_apply, Sql.evalItems, Relationship.linkKey, Expr.ofTable, Expr.eval,
      List.headD_cons]
  have hrecords : q.records E db rows Env.empty = (q.results E db rows Env.empty).dedup := by
    rw [Query.records_eq, show q.ctes = [] from rfl, bindCtes]
    rfl
  simp only [hrecords, hresults, List.mem_map, List.mem_dedup]
  constructor
  · intro h
    obtain ⟨_, ⟨_, ⟨env, henv, rfl⟩, rfl⟩, hrow⟩ := h
    exact ⟨env, henv, by rwa [Record.row_singleton] at hrow⟩
  · intro h
    obtain ⟨env, henv, rfl⟩ := h
    exact ⟨_, ⟨_, ⟨env, henv, rfl⟩, rfl⟩, Record.row_singleton _ _⟩

/-- The link table is joined to the child from the other side, on the same condition. -/
theorem truth_linkJoin {m : Model} {r : Relationship} {link : JoinStep} (hr : m.Relates t r)
    (hlink : r.linkJoin = some link) (hnodup : r.labels.Nodup) (outer : Env D) (c l : Row D) :
    let env := (outer.bind r.childJoin.label c).bind link.label l
    E.truth (((Expr.combine .and (r.childJoin.condition :: link.filterExprs)).getD
        r.childJoin.condition).eval E db rows [env] env) = some true ↔
      (∃ v, l r.childJoin.leftColumn = some v ∧ c r.childJoin.rightColumn = some v) ∧
        link.Accepts E db l := by
  intro env
  have hne := Relationship.childJoin_label_ne hlink hnodup
  have hleft : r.childJoin.left = link.label := by
    rw [hr.childJoin_left, hlink]
    rfl
  have hcondition : E.truth (r.childJoin.condition.eval E db rows [env] env) = some true ↔
      ∃ v, l r.childJoin.leftColumn = some v ∧ c r.childJoin.rightColumn = some v := by
    simp only [JoinStep.condition, Expr.eq, Expr.ofTable, Expr.eval, hleft, env, Env.bind_self,
      Env.bind_of_ne hne]
    exact E.truth_binary_eq
  rw [Expr.combine, Option.getD_some, Sql.truth_foldl_and, Expr.eval_protect, hcondition]
  refine and_congr_right fun _ => ?_
  simp only [JoinStep.filterExprs, List.forall_mem_map, JoinStep.Accepts]
  refine forall₂_congr fun f _ => ?_
  rw [f.eval_expr link.label (show env link.label = l from Env.bind_self _ _ _)]

/-- The environments of the far side of a relationship at a row of the child. -/
theorem mem_joinAll_baseJoins {m : Model} {r : Relationship} (hr : m.Relates t r)
    (hnodup : r.labels.Nodup) :
    env ∈ joinAll E db rows (Scope.ofRelationship r).baseJoins
        [Env.empty.bind r.childJoin.label c] ↔
      (r.linkJoin = none ∧ env = Env.empty.bind r.childJoin.label c) ∨
        ∃ link l, r.linkJoin = some link ∧ l ∈ db link.schema link.table ∧
          (∃ v, l r.childJoin.leftColumn = some v ∧ c r.childJoin.rightColumn = some v) ∧
          link.Accepts E db l ∧ env = (Env.empty.bind r.childJoin.label c).bind link.label l := by
  cases hlink : r.linkJoin with
  | none => simp [Scope.ofRelationship, hlink, Sql.joinAll_nil]
  | some link =>
    simp only [Scope.ofRelationship, hlink, Option.toList_some, List.map_cons, List.map_nil,
      Sql.joinAll_cons, Sql.joinAll_nil, List.flatMap_singleton, Sql.joinOne, Sql.joinMatches,
      Sql.joinFound, List.mem_filter, List.mem_map, decide_eq_true_eq, reduceCtorEq, false_and,
      false_or, Option.some.injEq]
    constructor
    · intro h
      obtain ⟨⟨l, hl, rfl⟩, htrue⟩ := h
      obtain ⟨heq, haccepts⟩ := (truth_linkJoin hr hlink hnodup Env.empty c l).1 htrue
      exact ⟨link, l, rfl, hl, heq, haccepts, rfl⟩
    · intro h
      obtain ⟨_, l, rfl, hl, heq, haccepts, rfl⟩ := h
      exact ⟨⟨l, hl, rfl⟩, (truth_linkJoin hr hlink hnodup Env.empty c l).2 ⟨heq, haccepts⟩⟩

/-- The conditions of a relationship on the child, beside a further one. -/
theorem holds_baseFilters {r : Relationship} :
    Sql.holdsOption E db rows [env] env
        (Expr.combine .and ((Scope.ofRelationship r).baseFilters ++ [x])) = true ↔
      r.childJoin.Accepts E db (env r.childJoin.label) ∧
        E.truth (x.eval E db rows [env] env) = some true := by
  rw [Sql.holdsOption_combine_and]
  simp only [Scope.ofRelationship, JoinStep.filterExprs, List.mem_append, or_imp,
    forall_and, List.mem_singleton, forall_eq, List.forall_mem_map, JoinStep.Accepts]
  refine and_congr_left fun _ => forall₂_congr fun f _ => ?_
  rw [f.eval_expr r.childJoin.label rfl]

/-- A row that the far side of a relationship keeps: one for each row of the base joins whose child
satisfies the conditions of the relationship and the one written. -/
theorem mem_kept_keysQuery {r : Relationship} {body : Scope}
    (hgrows : (Scope.ofRelationship r).Grows body) :
    env ∈ (body.apply (keysQuery r.linkKey (body.baseFilters ++ [x]) none) false).kept E db rows
        Env.empty ↔
      ∃ c ∈ db r.childJoin.schema r.childJoin.table,
        ∃ env₁ ∈ joinAll E db rows (Scope.ofRelationship r).baseJoins
          [Env.empty.bind r.childJoin.label c],
        env ∈ joinAll E db rows (body.joins.map (·.join)) [env₁] ∧
          r.childJoin.Accepts E db (env r.childJoin.label) ∧
          E.truth (x.eval E db rows [env] env) = some true := by
  have hcondition : Sql.holdsOption E db rows [env] env
      (Expr.combine .and (body.baseFilters ++ [x])) = true ↔
      r.childJoin.Accepts E db (env r.childJoin.label) ∧
        E.truth (x.eval E db rows [env] env) = some true := by
    rw [hgrows.baseFilters]
    exact holds_baseFilters
  have hjoins : (body.apply (keysQuery r.linkKey (body.baseFilters ++ [x]) none) false).joins =
      (Scope.ofRelationship r).baseJoins ++ body.joins.map (·.join) := by
    rw [← hgrows.baseJoins]
    simp [Scope.apply, keysQuery, Query.empty, Scope.joinsFor_false]
  have hsource : Sql.sourceEnvs E db rows Env.empty
      (body.apply (keysQuery r.linkKey (body.baseFilters ++ [x]) none) false).source =
      (db r.childJoin.schema r.childJoin.table).map (Env.empty.bind r.childJoin.label) := by
    show Sql.sourceEnvs E db rows Env.empty (some (.table body.source)) = _
    rw [hgrows.source, Sql.sourceEnvs]
    rfl
  rw [Query.kept, hjoins, hsource, List.mem_filter, Sql.joinAll_append,
    Sql.joinAll_flatMap E db (Scope.ofRelationship r).baseJoins,
    Sql.joinAll_flatMap E db (body.joins.map (·.join)),
    show (body.apply (keysQuery r.linkKey (body.baseFilters ++ [x]) none) false).condition =
      Expr.combine .and (body.baseFilters ++ [x]) from rfl, hcondition]
  simp only [List.mem_flatMap, List.mem_map]
  constructor
  · intro h
    obtain ⟨⟨env₁, ⟨_, ⟨c, hc, rfl⟩, henv₁⟩, henv⟩, htrue⟩ := h
    exact ⟨c, hc, env₁, henv₁, henv, htrue⟩
  · intro h
    obtain ⟨c, hc, env₁, henv₁, henv, htrue⟩ := h
    exact ⟨⟨env₁, ⟨_, ⟨c, hc, rfl⟩, henv₁⟩, henv⟩, htrue⟩

/-- The far side keeps the row of the child. -/
theorem childJoin_of_mem_baseJoins {m : Model} {r : Relationship} (hr : m.Relates t r)
    (hnodup : r.labels.Nodup) (henv : env ∈ joinAll E db rows (Scope.ofRelationship r).baseJoins
      [Env.empty.bind r.childJoin.label c]) : env r.childJoin.label = c := by
  rcases (mem_joinAll_baseJoins hr hnodup).1 henv with ⟨-, rfl⟩ | ⟨link, l, hlink, -, -, -, rfl⟩
  · exact Env.bind_self _ _ _
  · rw [Env.bind_of_ne (Relationship.childJoin_label_ne hlink hnodup), Env.bind_self]

/-- Read from the child, the joins of a relationship lead to the key of the parent. -/
theorem exists_baseJoins_iff {m : Model} {r : Relationship} (hr : m.Relates t r)
    (hnodup : r.labels.Nodup) (rows : Ctes D) {parent : Row D} :
    (c ∈ db r.childJoin.schema r.childJoin.table ∧ r.childJoin.Accepts E db c ∧
      ∃ env ∈ joinAll E db rows (Scope.ofRelationship r).baseJoins
        [Env.empty.bind r.childJoin.label c],
      ∃ v, parent r.firstJoin.leftColumn = some v ∧
        env r.firstJoin.label r.firstJoin.rightColumn = some v) ↔
      r.Follows (JoinStep.Links E db) parent c := by
  simp only [mem_joinAll_baseJoins hr hnodup, Relationship.Follows]
  cases hlink : r.linkJoin with
  | none =>
    have hfirst : r.firstJoin = r.childJoin := by rw [Relationship.firstJoin, hlink]; rfl
    simp only [hfirst, true_and, reduceCtorEq, false_and, exists_false, or_false, exists_eq_left,
      Env.bind_self]
    constructor
    · intro h
      obtain ⟨hc, haccepts, hkey⟩ := h
      exact ⟨hc, hkey, haccepts⟩
    · intro h
      obtain ⟨hc, hkey, haccepts⟩ := h
      exact ⟨hc, haccepts, hkey⟩
  | some link =>
    have hfirst : r.firstJoin = link := by rw [Relationship.firstJoin, hlink]; rfl
    simp only [hfirst, reduceCtorEq, false_and, false_or, Option.some.injEq]
    constructor
    · intro h
      obtain ⟨hc, haccepts, _, ⟨_, l, rfl, hl, heq, haccepts', rfl⟩, hkey⟩ := h
      rw [Env.bind_self] at hkey
      exact ⟨l, ⟨hl, hkey, haccepts'⟩, hc, heq, haccepts⟩
    · intro h
      obtain ⟨l, ⟨hl, hkey, haccepts'⟩, hc, heq, haccepts⟩ := h
      refine ⟨hc, haccepts, _, ⟨link, l, rfl, hl, heq, haccepts', rfl⟩, ?_⟩
      rwa [Env.bind_self]

/-- **A key is found exactly if the relationship leads to a row that satisfies the condition.** -/
theorem exists_key_iff {m : Model} {r : Relationship} (hr : m.Relates t r) (hnodup : r.labels.Nodup)
    {body : Scope} (hgrows : (Scope.ofRelationship r).Grows body) (hbody : ∀ env,
      (∀ env' ∈ joinAll E db rows (body.joins.map (·.join)) [env], ∀ a ∈ r.labels,
        env' a = env a) ∧
      ((∃ env' ∈ joinAll E db rows (body.joins.map (·.join)) [env],
        E.truth (x.eval E db rows [env'] env') = some true) ↔ Q (env r.childJoin.label)))
    (parent : Row D) :
    (∃ v, parent r.firstJoin.leftColumn = some v ∧
      ∃ row ∈ ((body.apply (keysQuery r.linkKey (body.baseFilters ++ [x]) none) false).records
        E db rows Env.empty).map Record.row, row linkColumn = some v) ↔
      ∃ c, r.Follows (JoinStep.Links E db) parent c ∧ Q c := by
  have hchild : r.childJoin.label ∈ r.labels :=
    List.mem_map_of_mem (by simp [Relationship.joins])
  have hfirst : r.firstJoin.label ∈ r.labels := List.mem_map_of_mem r.firstJoin_mem_joins
  simp only [exists_row_keysQuery, mem_kept_keysQuery hgrows, ← exists_baseJoins_iff hr hnodup rows]
  constructor
  · intro h
    obtain ⟨v, hv, env, ⟨c, hc, env₁, henv₁, henv, haccepts, htrue⟩, hkey⟩ := h
    obtain ⟨hframe, hiff⟩ := hbody env₁
    rw [childJoin_of_mem_baseJoins hr hnodup henv₁] at hiff
    rw [hframe env henv _ hchild, childJoin_of_mem_baseJoins hr hnodup henv₁] at haccepts
    rw [hframe env henv _ hfirst] at hkey
    exact ⟨c, ⟨hc, haccepts, env₁, henv₁, v, hv, hkey⟩, hiff.1 ⟨env, henv, htrue⟩⟩
  · intro h
    obtain ⟨c, ⟨hc, haccepts, env₁, henv₁, v, hv, hkey⟩, hQ⟩ := h
    obtain ⟨hframe, hiff⟩ := hbody env₁
    rw [childJoin_of_mem_baseJoins hr hnodup henv₁] at hiff
    obtain ⟨env', henv', htrue⟩ := hiff.2 hQ
    refine ⟨v, hv, env', ⟨c, hc, env₁, henv₁, henv', ?_, htrue⟩, ?_⟩
    · rwa [hframe env' henv' _ hchild, childJoin_of_mem_baseJoins hr hnodup henv₁]
    · rwa [hframe env' henv' _ hfirst]

/-! ## The test of a key -/

/-- The join of a CTE of keys at the parent. -/
def Relationship.keyJoin (r : Relationship) (name : String) : Sql.Join :=
  ⟨.left, ⟨none, name, none⟩, .eq (.ofTable name linkColumn) r.parentKey⟩

/-- The left join of different keys binds the key of the parent's row, if it is there. -/
theorem joinOne_keys (E : Engine D) (db : Database D) {name parent : String}
    (hrows : ((rows name).map fun row => row linkColumn).Nodup) (hne : parent ≠ name)
    (column : String) (env : Env D) :
    ∃ row, Sql.joinOne E db rows ⟨.left, ⟨none, name, none⟩,
        .eq (.ofTable name linkColumn) (.ofTable parent column)⟩ env = [env.bind name row] ∧
      ((row linkColumn).isSome ↔
        ∃ v, env parent column = some v ∧ ∃ x ∈ rows name, x linkColumn = some v) := by
  set j : Sql.Join := ⟨.left, ⟨none, name, none⟩,
    .eq (.ofTable name linkColumn) (.ofTable parent column)⟩
  have hmem : ∀ env', env' ∈ Sql.joinFound E db rows j env ↔
      ∃ x ∈ rows name, env' = env.bind name x ∧
        ∃ v, x linkColumn = some v ∧ env parent column = some v := by
    intro env'
    have heval : ∀ x, E.truth (j.on.eval E db rows [env.bind name x] (env.bind name x)) =
        some true ↔ ∃ v, x linkColumn = some v ∧ env parent column = some v := by
      intro x
      simp only [j, Expr.eq, Expr.ofTable, Expr.eval, Env.bind_self, Env.bind_of_ne hne]
      exact E.truth_binary_eq
    simp only [Sql.joinFound, List.mem_filter, List.mem_map, decide_eq_true_eq]
    constructor
    · intro hex
      obtain ⟨⟨x, hx, rfl⟩, htrue⟩ := hex
      exact ⟨x, hx, rfl, (heval x).1 htrue⟩
    · intro hex
      obtain ⟨x, hx, rfl, hkey⟩ := hex
      exact ⟨⟨x, hx, rfl⟩, (heval x).2 hkey⟩
  have hlen : (Sql.joinFound E db rows j env).length ≤ 1 := length_joinFound_keys hrows hne env
  rcases hf : Sql.joinFound E db rows j env with _ | ⟨env', _ | ⟨env'', rest⟩⟩
  · refine ⟨Row.null, by rw [Sql.joinOne, hf]; rfl, ?_⟩
    simp only [hf, List.not_mem_nil, false_iff] at hmem
    constructor
    · intro h
      cases h
    · intro hex
      obtain ⟨v, hv, x, hx, hkey⟩ := hex
      exact absurd ⟨x, hx, rfl, v, hkey, hv⟩ (hmem (env.bind name x))
  · obtain ⟨x, hx, rfl, v, hkey, hv⟩ := (hmem env').1 (hf ▸ List.mem_singleton_self env')
    refine ⟨x, by rw [Sql.joinOne, hf]; rfl, fun _ => ⟨v, hv, x, hx, hkey⟩, fun _ => ?_⟩
    rw [hkey]
    rfl
  · simp [hf] at hlen

/-! ## Joins of a walk -/

/-- A walk whose aliases are different is joined relationship by relationship. -/
theorem joins_joinHops {m : Model} {s s' : Scope} {hops : List Relationship} {origin : JoinOrigin}
    (hwalk : m.Walk t hops) (hjoins : s.joins = []) (hnodup : (hops.flatMap (·.labels)).Nodup)
    (hs : s.joinHops hops origin = .ok s') :
    s'.joins.map (·.join) = hops.flatMap (·.leftJoins) ∧ s'.joins.map (·.key) = walkKeys hops :=
  Scope.map_joinHops hjoins (nodup_walkKeys hwalk.exists_relates hnodup) hs

/-! ## What is decided of a row -/

/-- Beside a row of the alias `label`, the joins bind one row each, and no alias but the names and
those of CTEs; there the condition is true exactly if `Q` holds of the row. -/
def Decides (E : Engine D) (db : Database D) (rows : Ctes D) (joins : List Sql.Join)
    (condition : Expr) (names : List String) (label : String) (Q : Row D → Prop) : Prop :=
  ∀ env, ∃ env', joinAll E db rows joins [env] = [env'] ∧
    (∀ a, a ∉ names → (∀ i, a ≠ Build.cteName i) → env' a = env a) ∧
    (E.truth (condition.eval E db rows [env'] env') = some true ↔ Q (env label))

/-- The condition that has been written in a frame decides `Q`. -/
abbrev Frame.Settles (E : Engine D) (db : Database D) (rows : Ctes D) (g : Frame)
    (e : Option Expr) (names : List String) (label : String) (Q : Row D → Prop) : Prop :=
  ∃ x, e = some x ∧ Decides E db rows (g.scope.joins.map (·.join)) x names label Q

/-- The CTEs have the rows that their queries find. -/
abbrev Sql.Ctes.Binds (E : Engine D) (db : Database D) (ctes : List Sql.Cte) (rows : Ctes D) :
    Prop :=
  rows.AgreeOn (cteNames ctes) (bindCtes E db (fun _ => []) ctes)

theorem Decides.imp {names' : List String} {Q' : Row D → Prop}
    (h : Decides E db rows joins condition names label Q) (hnames : names ⊆ names')
    (hQ : ∀ row, Q row ↔ Q' row) : Decides E db rows joins condition names' label Q' := by
  intro env
  obtain ⟨env', hjoin, hframe, htrue⟩ := h env
  exact ⟨env', hjoin, fun a ha => hframe a fun hmem => ha (hnames hmem), htrue.trans (hQ _)⟩

/-- Beside a row of the alias `label`, the joins bind no alias but the names and those of CTEs; the
condition is true of some of what they find exactly if `Q` holds of the row. -/
def Finds (E : Engine D) (db : Database D) (rows : Ctes D) (joins : List Sql.Join)
    (condition : Expr) (names : List String) (label : String) (Q : Row D → Prop) : Prop :=
  ∀ env,
    (∀ env' ∈ joinAll E db rows joins [env], ∀ a, a ∉ names → (∀ i, a ≠ Build.cteName i) →
      env' a = env a) ∧
    ((∃ env' ∈ joinAll E db rows joins [env],
      E.truth (condition.eval E db rows [env'] env') = some true) ↔ Q (env label))

/-- What is decided of a row is found there. -/
theorem Decides.finds (h : Decides E db rows joins condition names label Q) :
    Finds E db rows joins condition names label Q := by
  intro env
  obtain ⟨env', hjoin, hframe, htrue⟩ := h env
  simp only [hjoin, List.mem_singleton, forall_eq, exists_eq_left]
  exact ⟨hframe, htrue⟩

theorem Finds.imp {names' : List String} {Q' : Row D → Prop}
    (h : Finds E db rows joins condition names label Q) (hnames : names ⊆ names')
    (hQ : ∀ row, Q row ↔ Q' row) : Finds E db rows joins condition names' label Q' :=
  fun env => ⟨fun env' henv' a ha => (h env).1 env' henv' a fun hmem => ha (hnames hmem),
    (h env).2.trans (hQ _)⟩

/-- Seen from the relationship that leads to the row. -/
theorem Finds.at_child {m : Model} {r : Relationship}
    (h : Finds E db rows joins condition names (m.aliasOf r.child) Q) (hr : m.Relates t r)
    (hnaming : m.naming.AvoidsCtes) (hdisjoint : List.Disjoint r.labels names) (env : Env D) :
    (∀ env' ∈ joinAll E db rows joins [env], ∀ a ∈ r.labels, env' a = env a) ∧
      ((∃ env' ∈ joinAll E db rows joins [env],
        E.truth (condition.eval E db rows [env'] env') = some true) ↔
          Q (env r.childJoin.label)) := by
  obtain ⟨hframe, hQ⟩ := h env
  rw [← hr.childJoin_label] at hQ
  refine ⟨fun env' henv' a ha => hframe env' henv' a (fun hmem => hdisjoint ha hmem) fun i => ?_,
    hQ⟩
  obtain ⟨j, hj, rfl⟩ := List.mem_map.1 ha
  rw [hr.label_eq hj]
  exact hnaming _ i

theorem truth_isNull {group : List (Env D)} {e : Expr} {negated : Bool} :
    E.truth ((Expr.isNull e negated).eval E db rows group env) = some true ↔
      ((e.eval E db rows group env).isSome ↔ negated = true) := by
  rw [Expr.eval, Engine.truth, Option.map_some, E.holds_ofBool]
  cases e.eval E db rows group env <;> cases negated <;> simp

section

variable {m : Model} {s body : Scope} {ctes : List Sql.Cte} {r : Relationship} {keys : Query}
  {origin : JoinOrigin}

/-- A CTE is joined behind what has been joined before, under a key of its own. -/
theorem map_withKeys (hfresh : JoinKey.cte (Build.cteName ctes.length) ∉ s.joins.map (·.key)) :
    (Frame.withKeys s ctes r keys origin).scope.joins.map (·.join) =
        s.joins.map (·.join) ++ [r.keyJoin (Build.cteName ctes.length)] ∧
      (Frame.withKeys s ctes r keys origin).scope.joins.map (·.key) =
        s.joins.map (·.key) ++ [.cte (Build.cteName ctes.length)] := by
  rw [Frame.withKeys, Scope.joinCte, Scope.addJoin, Scope.map_join_addTo, Scope.map_key_addTo,
    if_neg hfresh, if_neg hfresh]
  exact ⟨rfl, rfl⟩

/-- The rows of the CTE are the keys, found with the CTEs before it. -/
theorem rows_withKeys (hrows : rows.Binds E db (Frame.withKeys s ctes r keys origin).ctes) :
    rows (Build.cteName ctes.length) =
      (keys.records E db (bindCtes E db (fun _ => []) ctes) Env.empty).map Record.row := by
  rw [hrows _ (by simp [cteNames, Frame.withKeys])]
  simp only [Frame.withKeys, Sql.bindCtes_append, if_true]

end

/-- **The test of a key.** Whatever keys the CTE has, the test asks whether that of the row is
there which the walk before the relationship leads to. -/
theorem decides_keys {m : Model} {s s' : Scope} {via : Path} {route : Route} {ctes : List Sql.Cte}
    {keys : Query} {origin : JoinOrigin} {inverted : Bool} {P : Row D → Prop}
    (hjoins : s.joins = []) (hroute : m.resolveRelationship s.root via = .ok route)
    (hs : s.joinHops route.before origin = .ok s') (hone : ∀ r ∈ route.before, r.fansOut = false)
    (hsingle : ∀ r ∈ route.before, ∀ j ∈ r.joins, j.Single E db) (hnaming : m.naming.AvoidsCtes)
    (hbefore : m.AliasesApart s.root route.before) (hkeys : SelectsKeys keys)
    (hfound : ∀ parent : Row D, (∃ v, parent route.last.firstJoin.leftColumn = some v ∧
      ∃ row ∈ (keys.records E db (bindCtes E db (fun _ => []) ctes) Env.empty).map Record.row,
        row linkColumn = some v) ↔ P parent)
    (hrows : rows.Binds E db (Frame.withKeys s' ctes route.last keys origin).ctes) :
    Decides E db rows ((Frame.withKeys s' ctes route.last keys origin).scope.joins.map (·.join))
      (.isNull (.ofTable (Build.cteName ctes.length) linkColumn) (!inverted))
      (route.before.flatMap (·.labels)) (m.aliasOf s.root) fun row =>
        (∃ p, reaches E db true route.before row p ∧ P p) ↔ inverted = false := by
  obtain ⟨hwalk, hlast⟩ := Model.walk_of_resolveRelationship hroute
  obtain ⟨hjs, hks⟩ := joins_joinHops hwalk hjoins (List.nodup_cons.1 hbefore).2 hs
  have hfresh : JoinKey.cte (Build.cteName ctes.length) ∉ s'.joins.map (·.key) := by
    rw [hks]
    exact cte_notMem_walkKeys _ _
  have hcte := rows_withKeys hrows
  have hnodup : ((rows (Build.cteName ctes.length)).map fun row => row linkColumn).Nodup := by
    rw [hcte, List.map_map]
    exact hkeys.nodup E db _ _
  have hparent : route.last.firstJoin.left = m.aliasOf (Model.endOf s.root route.before) :=
    hlast.firstJoin_left
  have hne : route.last.firstJoin.left ≠ Build.cteName ctes.length := by
    rw [hparent]
    exact hnaming _ _
  intro env
  obtain ⟨env₁, hjoin₁, hreaches, hframe⟩ :=
    joinAll_singles hwalk hone hsingle hbefore rows env
  obtain ⟨row, hjoin₂, hisSome⟩ :=
    joinOne_keys E db hnodup hne route.last.firstJoin.leftColumn env₁
  refine ⟨env₁.bind (Build.cteName ctes.length) row, ?_, fun a ha hnot => ?_, ?_⟩
  · rw [(map_withKeys hfresh).1, hjs, Sql.joinAll_append, hjoin₁, Sql.joinAll_cons, Sql.joinAll_nil,
      List.flatMap_singleton]
    exact hjoin₂
  · rw [Env.bind_of_ne (hnot _), hframe a ha]
  · rw [hcte, hfound, hparent] at hisSome
    rw [truth_isNull]
    simp only [Expr.ofTable, Expr.eval, Env.bind_self, hisSome, Bool.not_eq_true']
    refine iff_congr ⟨fun hc => ⟨_, hreaches, hc⟩, ?_⟩ Iff.rfl
    intro hex
    obtain ⟨p, hp, hc⟩ := hex
    rwa [reaches_single hwalk hone hsingle hbefore hp hreaches] at hc

/-- **One `related`.** The CTE has the keys of the rows that satisfy the condition, so the test of
the key asks whether the relationship leads to such a row. -/
theorem decides_related {m : Model} {s : Scope} {via : Path} {condition : Predicate}
    {inverted : Bool} {origin : JoinOrigin} {e : Option Expr} {g : Frame} {route : Route}
    (hjoins : s.joins = []) (ht : m.Covers s.root)
    (h : ((Predicate.related via condition inverted none).render m origin).Gives ⟨s, []⟩ e g)
    (hroute : m.resolveRelationship s.root via = .ok route)
    (hone : ∀ r ∈ route.before, r.cardinality = .oneToOne) (hdb : m.OneToOne E db)
    (hnaming : m.naming.AvoidsCtes) (hbefore : m.AliasesApart s.root route.before)
    (hnodup : (route.last.labels ++ names).Nodup)
    (hinner : ∀ c g', (condition.compile m .filter).Gives ⟨.ofRelationship route.last, []⟩ c g' →
      g'.Settles E db (bindCtes E db (fun _ => []) g'.ctes) c names (m.aliasOf route.last.child) Q)
    (hrows : rows.Binds E db g.ctes) :
    g.Settles E db rows e (route.before.flatMap (·.labels)) (m.aliasOf s.root) fun row =>
        (∃ p, reaches E db true route.before row p ∧
          ∃ c, route.last.Follows (JoinStep.Links E db) p c ∧ Q c) ↔ inverted = false := by
  obtain ⟨route', s', c, g', counted, body, ctes, hroute', hs, hc, hcounted, rfl, rfl⟩ :=
    gives_render_related.1 h
  cases hroute.symm.trans hroute'
  rcases gives_joinThreshold.1 hcounted with ⟨-, rfl, rfl⟩ | ⟨_, _, hsome, -, -⟩
  swap
  · cases hsome
  obtain ⟨x, rfl, hdecides⟩ := hinner c _ hc
  obtain ⟨hwalk, hlast⟩ := Model.walk_of_resolveRelationship hroute
  have hgrows : (Scope.ofRelationship route.last).Grows body := (grows_compile hc).scope
  simp only [Option.toList_some] at hrows ⊢
  obtain ⟨hlastNodup, -, hdisjoint⟩ := List.nodup_append'.1 hnodup
  have hbody := hdecides.finds.at_child hlast hnaming hdisjoint
  exact ⟨_, rfl, decides_keys hjoins hroute hs
    (fun r hr => r.fansOut_eq_false_iff.2 (hone r hr)) (hdb.single hwalk ht hone) hnaming hbefore
    (selectsKeys_keysQuery route.last _ none body)
    (exists_key_iff hlast hlastNodup hgrows hbody) hrows⟩

end EntityQuery
