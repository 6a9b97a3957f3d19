import EntityQuery.Proofs.Predicate.Columns
import EntityQuery.Proofs.Predicate.Elements
import EntityQuery.Proofs.Predicate.Failing
import Mathlib.Data.List.Perm.Subperm

/-!
# Containment

`= ALL` of a list asks of the rows behind a fan-out that they have every value of the list, and
`<> ANY` asks that they do not. It is written as a CTE of the keys whose rows have a value of the
list, counted: as many different values as the list has.

**Counting.** All values that are counted are in the list, so there are as many of them exactly if
none of the list is missing (`length_le_dedup_iff`). How often a row repeats a value does not
matter, and neither does a value that the list repeats, because the list is made distinct before.

**Rows.** One key and one value are found together in the body of the CTE exactly if the
relationship leads from a row with that key to one with that value (`exists_kept_iff`).
-/

namespace EntityQuery

open EntityQuery.Sql (Expr Query Engine Database Ctes Env Row Record Truth joinAll bindCtes)

/-! ## Distinct values -/

namespace Value

variable {vs ws : List Value} {v : Value}

theorem extend_cons (vs : List Value) (w : Value) (ws : List Value) :
    extend vs (w :: ws) = extend (if w.memOf vs then vs else vs ++ [w]) ws := rfl

theorem mem_of_mem_extend (h : v ∈ extend vs ws) : v ∈ vs ∨ v ∈ ws := by
  induction ws generalizing vs with
  | nil => exact .inl h
  | cons w ws ih =>
    rw [extend_cons] at h
    rcases ih h with h | h
    · split at h
      · exact .inl h
      · rcases List.mem_append.1 h with h | h
        · exact .inl h
        · exact .inr (List.mem_singleton.1 h ▸ List.mem_cons_self)
    · exact .inr (List.mem_cons_of_mem w h)

theorem mem_extend_left (h : v ∈ vs) (ws : List Value) : v ∈ extend vs ws := by
  induction ws generalizing vs with
  | nil => exact h
  | cons w ws ih =>
    rw [extend_cons]
    refine ih ?_
    split
    · exact h
    · exact List.mem_append_left _ h

/-- What is left out equals a value that is kept. -/
theorem exists_mem_extend (h : v ∈ ws) (vs : List Value) :
    ∃ u ∈ extend vs ws, u = v ∨ u.eqv v = true := by
  induction ws generalizing vs with
  | nil => cases h
  | cons w ws ih =>
    rw [extend_cons]
    rcases List.mem_cons.1 h with rfl | h
    · by_cases hmem : v.memOf vs = true
      · obtain ⟨u, hu, heqv⟩ := List.any_eq_true.1 hmem
        rw [if_pos hmem]
        exact ⟨u, mem_extend_left hu ws, .inr heqv⟩
      · rw [if_neg hmem]
        exact ⟨v, mem_extend_left (by simp) ws, .inl rfl⟩
    · exact ih h _

/-- The values that are kept differ from those before them. -/
theorem pairwise_extend (h : vs.Pairwise fun a b => a.eqv b = false) (ws : List Value) :
    (extend vs ws).Pairwise fun a b => a.eqv b = false := by
  induction ws generalizing vs with
  | nil => exact h
  | cons w ws ih =>
    rw [extend_cons]
    refine ih ?_
    split
    · exact h
    · rename_i hmem
      rw [List.pairwise_append]
      refine ⟨h, List.pairwise_singleton _ _, fun a ha b hb => ?_⟩
      rw [List.mem_singleton.1 hb]
      simpa using fun heqv => hmem (List.any_eq_true.2 ⟨a, ha, heqv⟩)

theorem extend_of_pairwise (h : (vs ++ ws).Pairwise fun a b => a.eqv b = false) :
    extend vs ws = vs ++ ws := by
  induction ws generalizing vs with
  | nil => rw [List.append_nil]; rfl
  | cons w ws ih =>
    have hmem : w.memOf vs = false := by
      refine Bool.eq_false_iff.2 fun hmem => ?_
      obtain ⟨a, ha, heqv⟩ := List.any_eq_true.1 hmem
      have := (List.pairwise_append.1 h).2.2 a ha w List.mem_cons_self
      rw [heqv] at this
      cases this
    rw [extend_cons, hmem, if_neg Bool.false_ne_true, ih, List.append_assoc, List.singleton_append]
    rwa [List.append_assoc, List.singleton_append]

theorem pairwise_distinct (vs : List Value) :
    (distinct vs).Pairwise fun a b => a.eqv b = false :=
  pairwise_extend .nil vs

theorem distinct_distinct (vs : List Value) : distinct (distinct vs) = distinct vs :=
  extend_of_pairwise (pairwise_distinct vs)

theorem distinct_subset (vs : List Value) : distinct vs ⊆ vs :=
  fun _ h => (mem_of_mem_extend h).resolve_left List.not_mem_nil

theorem length_extend_le (vs ws : List Value) :
    (extend vs ws).length ≤ vs.length + ws.length := by
  induction ws generalizing vs with
  | nil => exact Nat.le_refl _
  | cons w ws ih =>
    rw [extend_cons, List.length_cons]
    refine (ih _).trans ?_
    split
    · omega
    · simp only [List.length_append, List.length_singleton]
      omega

theorem length_distinct_le (vs : List Value) : (distinct vs).length ≤ vs.length := by
  rw [distinct]
  simpa using length_extend_le [] vs

theorem distinct_ne_nil (h : vs ≠ []) : distinct vs ≠ [] := by
  obtain ⟨v, hv⟩ := List.exists_mem_of_ne_nil vs h
  obtain ⟨u, hu, -⟩ := exists_mem_extend hv []
  exact List.ne_nil_of_mem hu

/-- Where values are told apart as their images are, each image is that of a value kept. -/
theorem exists_distinct_image {α : Type} {f : Value → α}
    (hf : ∀ v ∈ vs, ∀ w ∈ vs, f v = f w ↔ v.eqv w = true) (hv : v ∈ vs) :
    ∃ u ∈ distinct vs, f u = f v := by
  obtain ⟨u, hu, heq⟩ := exists_mem_extend hv []
  refine ⟨u, hu, ?_⟩
  rcases heq with rfl | heqv
  · rfl
  · exact (hf u (distinct_subset vs hu) v hv).2 heqv

theorem nodup_map_distinct {α : Type} {f : Value → α}
    (hf : ∀ v ∈ vs, ∀ w ∈ vs, f v = f w ↔ v.eqv w = true) : ((distinct vs).map f).Nodup := by
  refine List.pairwise_map.2 ((pairwise_distinct vs).imp_of_mem fun ha hb hdiffer heq => ?_)
  rw [(hf _ (distinct_subset vs ha) _ (distinct_subset vs hb)).1 heq] at hdiffer
  cases hdiffer

end Value

variable {D : Type} [DecidableEq D] {E : Engine D} {db : Database D}

/-! ## Counting -/

/-- `COUNT(DISTINCT …)` counts different values, without NULL, and numbers are compared as
numbers. -/
structure Sql.Engine.CountsDistinct (E : Engine D) : Prop where
  isAggregate : E.isAggregate "COUNT" = true
  count : ∀ vs : List (Option D),
    E.aggregate "COUNT" true (vs.map ([·])) = some (E.ofInt (vs.filterMap id).dedup.length)
  less : ∀ a b : Int, E.less (E.ofInt a) (E.ofInt b) = decide (a < b)

/-- As many different data as there are can only be all of them. -/
theorem length_le_dedup_iff {ds targets : List D} (htargets : targets.Nodup)
    (hsub : ds ⊆ targets) : targets.length ≤ ds.dedup.length ↔ targets ⊆ ds := by
  constructor
  · intro hlen d hd
    have hperm : ds.dedup.Perm targets :=
      ((List.nodup_dedup ds).subperm fun x hx => hsub (List.mem_dedup.1 hx)).perm_of_length_le hlen
    exact List.mem_dedup.1 (hperm.mem_iff.2 hd)
  · intro hall
    exact (htargets.subperm fun d hd => List.mem_dedup.2 (hall hd)).length_le

/-- The test of a count. -/
theorem holdsOption_counted (hE : E.CountsDistinct) {rows : Ctes D} {group : List (Env D)}
    {env : Env D} {column : Expr} {n : Nat} :
    Sql.holdsOption E db rows group env
        (some (.binary (.countDistinct column) .gte (.int n))) = true ↔
      n ≤ (group.filterMap fun row => column.eval E db rows [row] row).dedup.length := by
  have hcount : (Expr.countDistinct column).eval E db rows group env =
      some (E.ofInt (group.filterMap fun row => column.eval E db rows [row] row).dedup.length) := by
    rw [Expr.countDistinct, Expr.eval, if_pos hE.isAggregate]
    have hargs : (group.map fun row => Sql.evalAll E db rows [row] row [column]) =
        (group.map fun row => column.eval E db rows [row] row).map ([·]) := by
      rw [List.map_map]
      refine List.map_congr_left fun row _ => ?_
      rw [Sql.evalAll, Sql.evalAll]
      rfl
    rw [hargs, hE.count, List.filterMap_map]
    rfl
  rw [Sql.holdsOption, decide_eq_true_iff, Expr.eval, hcount, Expr.int, Expr.eval]
  simp only [Sql.Engine.binary, Sql.Engine.literal, Option.bind_some, Option.map_some,
    Sql.Engine.truth, E.holds_ofBool, Sql.Engine.compare, hE.less, Option.some.injEq,
    Bool.not_eq_true', decide_eq_false_iff_not, Int.not_lt, Int.ofNat_le]

/-! ## Keys that are counted -/

/-- The conditions keep the same rows whether or not something is counted. -/
theorem kept_keysQuery {s : Scope} {link : Expr} {conditions : List Expr}
    (counted : Option (Expr × Nat)) (rows : Ctes D) (env : Env D) :
    (s.apply (keysQuery link conditions counted) false).kept E db rows env =
      (s.apply (keysQuery link conditions none) false).kept E db rows env := by
  cases counted <;> rfl

/-- A key is selected if there are enough different values in its rows. -/
theorem exists_row_keysQuery_counted (hE : E.CountsDistinct) {s : Scope} {r : Relationship}
    {conditions : List Expr} {column : Expr} {n : Nat} {rows : Ctes D} {w : Option D} :
    let q := s.apply (keysQuery r.linkKey conditions (some (column, n))) false
    let kept := (s.apply (keysQuery r.linkKey conditions none) false).kept E db rows Env.empty
    (∃ row ∈ (q.records E db rows Env.empty).map Record.row, row linkColumn = w) ↔
      (∃ env ∈ kept, env r.firstJoin.label r.firstJoin.rightColumn = w) ∧
        Sql.rowCount n ≤ ((kept.filter fun env =>
          env r.firstJoin.label r.firstJoin.rightColumn = w).filterMap fun env =>
            column.eval E db rows [env] env).dedup.length := by
  intro q kept
  have hkept : q.kept E db rows Env.empty = kept := kept_keysQuery _ rows Env.empty
  set key : Env D → List (Option D) := fun env =>
    [env r.firstJoin.label r.firstJoin.rightColumn] with hkey
  have hgroups : q.groups E db rows Env.empty = Sql.groupsBy key kept := by
    have hby : (fun row => Sql.evalAll E db rows [row] row q.groupBy) = key := by
      funext row
      show Sql.evalAll E db rows [row] row [r.linkKey] = _
      rw [Sql.evalAll, Sql.evalAll, Relationship.linkKey, Expr.ofTable, Expr.eval]
    rw [Query.groups, hby, hkept]
    rfl
  have hrecords : q.records E db rows Env.empty = q.results E db rows Env.empty := by
    rw [Query.records_eq, show q.ctes = [] from rfl, bindCtes]
    rfl
  have hgroup : ∀ k, (kept.filter fun env => key env = [k]) = kept.filter fun env =>
      env r.firstJoin.label r.firstJoin.rightColumn = k := by
    intro k
    refine List.filter_congr fun env _ => ?_
    simp only [hkey, List.cons.injEq, and_true]
  have hitems : ∀ group env, (Sql.evalItems E db rows group env q.items).row linkColumn =
      env r.firstJoin.label r.firstJoin.rightColumn := by
    intro group env
    show Record.row (Sql.evalItems E db rows group env [⟨r.linkKey, some linkColumn⟩])
      linkColumn = _
    rw [Sql.evalItems, Sql.evalItems, Record.row_singleton, Relationship.linkKey, Expr.ofTable,
      Expr.eval]
  have hhaving : ∀ group env, Sql.holdsOption E db rows group env q.having = true ↔
      Sql.rowCount n ≤
        (group.filterMap fun row => column.eval E db rows [row] row).dedup.length :=
    fun _ _ => holdsOption_counted hE
  -- The groups are those of the keys; each gives the key of its first row.
  simp only [hrecords, Query.results, hgroups, Sql.groupsBy, List.mem_map, List.mem_filter,
    hhaving]
  constructor
  · intro h
    obtain ⟨_, ⟨_, ⟨_, ⟨⟨k, hk, rfl⟩, henough⟩, rfl⟩, rfl⟩, hrow⟩ := h
    have hhead := key_headD_filter hk (Env.empty.clear q.boundNames)
    rw [hitems] at hrow
    have hw : k = [w] := by
      rw [← hhead, ← hrow]
    subst hw
    obtain ⟨env, henv, hkeyEnv⟩ := List.mem_map.1 (List.mem_dedup.1 hk)
    exact ⟨⟨env, henv, (List.cons.inj hkeyEnv).1⟩, hgroup w ▸ henough⟩
  · intro h
    obtain ⟨⟨env, henv, hkeyEnv⟩, henough⟩ := h
    have hk : [w] ∈ (kept.map key).dedup := by
      rw [List.mem_dedup, ← hkeyEnv]
      exact List.mem_map_of_mem henv
    refine ⟨_, ⟨_, ⟨_, ⟨⟨[w], hk, rfl⟩, by rwa [hgroup w]⟩, rfl⟩, rfl⟩, ?_⟩
    rw [hitems]
    exact (List.cons.inj (key_headD_filter hk (Env.empty.clear q.boundNames))).1

/-! ## Rows behind a relationship -/

/-- The body of a CTE asks for the rows of a relationship from which a one-to-one walk leads to one
of the values. -/
structure AsksFor (E : Engine D) (db : Database D) (m : Model) (rows : Ctes D) (t : Table)
    (r : Relationship) (res : Resolution) (body : Scope) (x : Expr) (ws : List Value) : Prop where
  relates : m.Relates t r
  walk : m.Walk r.child res.hops
  table : res.table = Model.endOf r.child res.hops
  oneToOne : ∀ s ∈ res.hops, s.fansOut = false
  nodup : (r.labels ++ res.hops.flatMap (·.labels)).Nodup
  grows : (Scope.ofRelationship r).Grows body
  joins : body.joins.map (·.join) = res.hops.flatMap (·.leftJoins)
  truth : ∀ env, E.truth (x.eval E db rows [env] env) = some true ↔
    ∃ v ∈ ws, env (m.aliasOf res.table) res.column.name = some (E.datum v res.column.type)

namespace AsksFor

variable {m : Model} {t : Table} {r : Relationship} {res : Resolution} {body : Scope} {x : Expr}
  {ws : List Value} {rows : Ctes D} (h : AsksFor E db m rows t r res body x ws)

include h

/-- **A key and a value are found together** exactly if the relationship, and the walk behind it,
lead from a row with the key to one with the value. -/
theorem exists_kept_iff (parent : Row D) {k : D} (hk : parent r.firstJoin.leftColumn = some k)
    {v : Value} (hv : v ∈ ws) :
    (∃ env ∈ (body.apply (keysQuery r.linkKey (body.baseFilters ++ [x]) none) false).kept E db rows
        Env.empty, env r.firstJoin.label r.firstJoin.rightColumn = some k ∧
        env (m.aliasOf res.table) res.column.name = some (E.datum v res.column.type)) ↔
      ∃ c, r.Follows (JoinStep.Links E db) parent c ∧ ∃ c', reaches E db true res.hops c c' ∧
        c' res.column.name = some (E.datum v res.column.type) := by
  obtain ⟨hlabels, -, hdisjoint⟩ := List.nodup_append'.1 h.nodup
  have hchild : r.childJoin.label ∈ r.labels :=
    List.mem_map_of_mem (by simp [Relationship.joins])
  have hfirst : r.firstJoin.label ∈ r.labels := List.mem_map_of_mem r.firstJoin_mem_joins
  have hstart := h.relates.nodup_child h.nodup
  have hbody := mem_joinAll_walk h.walk h.oneToOne hstart E db rows
  simp only [mem_kept_keysQuery h.grows, h.joins]
  constructor
  · intro hex
    obtain ⟨env, ⟨c, hc, env₁, henv₁, henv, haccepts, -⟩, hkey, hvalue⟩ := hex
    obtain ⟨hreaches, hframe⟩ := (hbody env₁).1 env henv
    have hc₁ := childJoin_of_mem_baseJoins h.relates hlabels henv₁
    rw [hframe _ (fun hmem => hdisjoint hchild hmem), hc₁] at haccepts
    rw [hframe _ (fun hmem => hdisjoint hfirst hmem)] at hkey
    rw [← h.relates.childJoin_label, hc₁, ← h.table] at hreaches
    exact ⟨c, (exists_baseJoins_iff h.relates hlabels rows).1
      ⟨hc, haccepts, env₁, henv₁, k, hk, hkey⟩, _, hreaches, hvalue⟩
  · intro hex
    obtain ⟨c, hfollows, c', hreaches, hvalue⟩ := hex
    obtain ⟨hc, haccepts, env₁, henv₁, k', hk', hkey⟩ :=
      (exists_baseJoins_iff h.relates hlabels rows).2 hfollows
    cases hk.symm.trans hk'
    have hc₁ := childJoin_of_mem_baseJoins h.relates hlabels henv₁
    obtain ⟨env, henv, hend⟩ := (hbody env₁).2 c' (by rwa [← h.relates.childJoin_label, hc₁])
    obtain ⟨-, hframe⟩ := (hbody env₁).1 env henv
    rw [← hend, ← h.table] at hvalue
    refine ⟨env, ⟨c, hc, env₁, henv₁, henv, ?_, (h.truth env).2 ⟨v, hv, hvalue⟩⟩, ?_, hvalue⟩
    · rwa [hframe _ (fun hmem => hdisjoint hchild hmem), hc₁]
    · rwa [hframe _ (fun hmem => hdisjoint hfirst hmem)]

variable (hE : E.CountsDistinct) (hne : ws ≠ []) (hsize : ws.length < twoPow 63)
  (hdata : (ws.map (E.datum · res.column.type)).Nodup)

include hE hne hsize hdata

/-- The keys in whose rows all values of the list are found. -/
theorem exists_row_iff (k : D) :
    let counted := if 1 < ws.length then some (m.columnExpr res.table res.column, ws.length)
      else none
    (∃ row ∈ ((body.apply (keysQuery r.linkKey (body.baseFilters ++ [x]) counted) false).records
        E db rows Env.empty).map Record.row, row linkColumn = some k) ↔
      ∀ v ∈ ws, ∃ env ∈ (body.apply (keysQuery r.linkKey (body.baseFilters ++ [x]) none)
          false).kept E db rows Env.empty,
        env r.firstJoin.label r.firstJoin.rightColumn = some k ∧
        env (m.aliasOf res.table) res.column.name = some (E.datum v res.column.type) := by
  intro counted
  set kept := (body.apply (keysQuery r.linkKey (body.baseFilters ++ [x]) none) false).kept E db rows
    Env.empty
  -- The condition has kept the rows with a value of the list.
  have hvalue : ∀ env ∈ kept, ∃ v ∈ ws,
      env (m.aliasOf res.table) res.column.name = some (E.datum v res.column.type) := by
    intro env henv
    obtain ⟨_, _, _, _, _, _, htrue⟩ := (mem_kept_keysQuery h.grows).1 henv
    exact (h.truth env).1 htrue
  by_cases hlong : 1 < ws.length
  · have hcounted : counted = some (m.columnExpr res.table res.column, ws.length) := if_pos hlong
    have hcount : Sql.rowCount ws.length = ws.length := Nat.min_eq_left (by omega)
    rw [hcounted]
    refine (exists_row_keysQuery_counted hE).trans ?_
    rw [hcount]
    set ds := (kept.filter fun env =>
      env r.firstJoin.label r.firstJoin.rightColumn = some k).filterMap fun env =>
        (m.columnExpr res.table res.column).eval E db rows [env] env with hds
    have hmem : ∀ d, d ∈ ds ↔ ∃ env ∈ kept,
        env r.firstJoin.label r.firstJoin.rightColumn = some k ∧
        env (m.aliasOf res.table) res.column.name = some d := by
      intro d
      simp only [hds, List.mem_filterMap, List.mem_filter, decide_eq_true_eq, Model.columnExpr,
        Expr.ofTable, Expr.eval, and_assoc]
    have hsub : ds ⊆ ws.map (E.datum · res.column.type) := by
      intro d hd
      obtain ⟨env, henv, -, hd⟩ := (hmem d).1 hd
      obtain ⟨v, hv, hv'⟩ := hvalue env henv
      cases hd.symm.trans hv'
      exact List.mem_map_of_mem hv
    have hall := length_le_dedup_iff hdata hsub
    rw [List.length_map] at hall
    rw [hall]
    simp only [← hmem, List.subset_def, List.forall_mem_map]
    constructor
    · exact fun hfound => hfound.2
    · intro hfound
      obtain ⟨v, hv⟩ := List.exists_mem_of_ne_nil ws hne
      obtain ⟨env, henv, hkey, -⟩ := (hmem _).1 (hfound v hv)
      exact ⟨⟨env, henv, hkey⟩, hfound⟩
  · -- A single value needs no count.
    obtain ⟨v, rfl⟩ : ∃ v, ws = [v] := List.length_eq_one_iff.1
      (by have := List.length_pos_iff.2 hne; omega)
    have hcounted : counted = none := if_neg hlong
    rw [hcounted, List.forall_mem_singleton]
    refine exists_row_keysQuery.trans ?_
    constructor
    · intro hex
      obtain ⟨env, henv, hkey⟩ := hex
      obtain ⟨w, hw, hvalue⟩ := hvalue env henv
      rw [List.mem_singleton.1 hw] at hvalue
      exact ⟨env, henv, hkey, hvalue⟩
    · intro hex
      obtain ⟨env, henv, hkey, -⟩ := hex
      exact ⟨env, henv, hkey⟩

/-- **The keys that a containment finds**: all values of the list are behind the relationship. -/
theorem exists_key_iff (parent : Row D) :
    let counted := if 1 < ws.length then some (m.columnExpr res.table res.column, ws.length)
      else none
    (∃ k, parent r.firstJoin.leftColumn = some k ∧
      ∃ row ∈ ((body.apply (keysQuery r.linkKey (body.baseFilters ++ [x]) counted) false).records
        E db rows Env.empty).map Record.row, row linkColumn = some k) ↔
      ∀ v ∈ ws, ∃ c, r.Follows (JoinStep.Links E db) parent c ∧
        ∃ c', reaches E db true res.hops c c' ∧
          c' res.column.name = some (E.datum v res.column.type) := by
  intro counted
  have hkeys := h.exists_row_iff hE hne hsize hdata
  constructor
  · intro hex
    obtain ⟨k, hk, hrow⟩ := hex
    exact fun v hv => (h.exists_kept_iff parent hk hv).1 ((hkeys k).1 hrow v hv)
  · intro hall
    -- Some row is related, so the parent has a key.
    obtain ⟨v, hv⟩ := List.exists_mem_of_ne_nil ws hne
    obtain ⟨c, hfollows, -⟩ := hall v hv
    obtain ⟨-, -, _, -, k, hk, -⟩ :=
      (exists_baseJoins_iff h.relates (List.nodup_append'.1 h.nodup).1 rows).2 hfollows
    exact ⟨k, hk, (hkeys k).2 fun v hv => (h.exists_kept_iff parent hk hv).2 (hall v hv)⟩

end AsksFor

/-! ## Paths across one fan-out -/

/-- A column path with one fan-out is a path to it and a one-to-one path behind it. -/
theorem Model.Unambiguous.split_once {m : Model} (hm : m.Unambiguous) {t : Table} (ht : m.Covers t)
    {p : Path} {res : Resolution} (h : m.resolve t p = .ok res)
    (hmany : res.hops.countP (·.fansOut) = 1) :
    ∃ i r before res', m.firstMany? t p = some (i, r) ∧ (p.drop (i + 1)).isEmpty = false ∧
      m.resolveRelationship t (p.take (i + 1)) = .ok ⟨before, r⟩ ∧
      m.resolve r.child (p.drop (i + 1)) = .ok res' ∧
      m.firstMany? r.child (p.drop (i + 1)) = none ∧
      res.hops = before ++ r :: res'.hops ∧ res'.column = res.column ∧ r.fansOut = true ∧
      (∀ s ∈ before, s.fansOut = false) ∧ ∀ s ∈ res'.hops, s.fansOut = false := by
  have hcrosses : res.crossesMany = true := by
    have hpos : 0 < res.hops.countP (·.fansOut) := by omega
    exact Resolution.crossesMany_eq_true.2 (List.countP_pos_iff.1 hpos)
  have hdivides := dividesAt?_of_resolve h
  obtain ⟨k, hk⟩ := Option.isSome_iff_exists.1 hcrosses
  rw [hk] at hdivides
  obtain ⟨⟨i, r⟩, hfirst, -⟩ :=
    Option.map_eq_some_iff.1 (Option.filter_eq_some_iff.1 hdivides).1
  obtain ⟨hrest, -⟩ := hm.resolve_split ht h hfirst
  obtain ⟨before, res', hroute, hres', hhops, -, hcolumn, hfan, hone⟩ :=
    Model.resolve_split h hfirst hrest
  have hbehind : ∀ s ∈ res'.hops, s.fansOut = false := by
    rw [hhops, List.countP_append, List.countP_cons, if_pos hfan] at hmany
    intro s hs
    simpa using List.countP_eq_zero.1 (show res'.hops.countP (·.fansOut) = 0 by omega) s hs
  have hchild : m.Covers r.child := (walk_of_resolveRelationship hroute).2.covers_child
  refine ⟨i, r, before, res', hfirst, hrest, hroute, hres', ?_, hhops, hcolumn, hfan, hone, hbehind⟩
  -- A fan-out behind it would be one of the path.
  rw [Option.eq_none_iff_forall_ne_some]
  intro found hfound
  obtain ⟨j, r'⟩ := found
  obtain ⟨hrest', -⟩ := hm.resolve_split hchild hres' hfound
  obtain ⟨before', res'', -, -, hhops', -, -, hfan', -⟩ := Model.resolve_split hres' hfound hrest'
  have := hbehind r' (by simp [hhops'])
  rw [hfan'] at this
  cases this

/-! ## Writing -/

/-- The comparison with a list of values that are not NULL. -/
theorem exists_list_eq (target : Target) {ws : List Value} (hnull : ∀ v ∈ ws, v.isNull = false) :
    ∃ x, target.list .eq ws .any = .ok x ∧
      ∀ (E : Engine D) (db : Database D) (rows : Ctes D) (group : List (Env D)) (env : Env D),
        E.truth (x.eval E db rows group env) = some true ↔
          ∃ v ∈ ws, target.column.eval E db rows group env = some (E.datum v target.type) := by
  obtain ⟨x, hx⟩ : ∃ x, target.list .eq ws .any = .ok x := by
    match ws with
    | [] => exact ⟨_, rfl⟩
    | [v] => exact exists_scalar target false v
    | _ :: _ :: _ => exact ⟨_, rfl⟩
  refine ⟨x, hx, fun E db rows group env => ?_⟩
  obtain ⟨es, hes, htruth⟩ := Target.truth_list E db hx
  have hplain : ¬ NullListed .eq .any ws := by
    rintro ⟨-, hany, -⟩
    obtain ⟨v, hv, hv'⟩ := List.any_eq_true.1 hany
    rw [hnull v hv] at hv'
    cases hv'
  have hscalar : ∀ v ∈ ws, ∀ e, target.scalar .eq v = .ok e →
      (E.truth (e.eval E db rows group env) = some true ↔
        target.column.eval E db rows group env = some (E.datum v target.type)) := by
    intro v hv e he
    rw [truth_scalar_value false he (hnull v hv)]
    simp only [Bool.false_eq_true, if_false, sameTruth, E.truth_binary_eq, Sql.Engine.param,
      hnull v hv, Option.some.injEq, exists_eq_right']
  have hany : E.truth (x.eval E db rows group env) =
      Truth.any (es.map fun e => E.truth (e.eval E db rows group env)) :=
    (htruth rows group env).1 hplain
  rw [hany, Truth.any_eq_true, List.mem_map]
  constructor
  · rintro ⟨e, he, htrue⟩
    obtain ⟨v, hv, he'⟩ := exists_of_forall₂ hes.flip he
    exact ⟨v, hv, (hscalar v hv e he').1 htrue⟩
  · rintro ⟨v, hv, hvalue⟩
    obtain ⟨e, he, hscalar'⟩ := exists_of_forall₂ hes hv
    exact ⟨e, he, (hscalar v hv e hscalar').2 hvalue⟩

/-- The comparison with all values of a list, or its opposite. -/
def containing (path : Path) (vs : List Value) (inverted : Bool) : Predicate :=
  .compare path (bif inverted then .ne else .eq) (.values vs) (bif inverted then .any else .all)

/-- The values are counted if there are several. -/
def countedAt (path : Path) (ws : List Value) : Option Threshold :=
  if 1 < ws.length then some ⟨path, ws.length⟩ else none

/-- A containment asks for the rows with one of the values, and counts the values. -/
theorem normal_containing {m : Model} {t : Table} {path : Path} {i : Nat} {r : Relationship}
    {before : List Relationship} {vs : List Value} (inverted : Bool)
    (hfirst : m.firstMany? t path = some (i, r))
    (hrest : (path.drop (i + 1)).isEmpty = false)
    (hroute : m.resolveRelationship t (path.take (i + 1)) = .ok ⟨before, r⟩)
    (hlast : m.firstMany? r.child (path.drop (i + 1)) = none) (hne : Value.distinct vs ≠ []) :
    (containing path vs inverted).normal m t =
      .ok (.related (path.take (i + 1))
        (.compare (path.drop (i + 1)) .eq (.values (Value.distinct vs)) .any) inverted
        (countedAt (path.drop (i + 1)) (Value.distinct vs))) := by
  have hop : (bif inverted then Operator.ne else .eq) ≠ .notLikeOrNull := by
    cases inverted <;> simp
  have hat : m.relationshipAt? t (path.take (i + 1)) = some r := by
    rw [Model.relationshipAt?, Model.resolveRelationship_eq_ok hroute, Option.bind_some, Route.hops,
      List.getLast?_append, List.getLast?_singleton]
    rfl
  have hcontainment : Predicate.containment m t path (path.take (i + 1)) (path.drop (i + 1)) vs
      inverted = .ok (.related (path.take (i + 1))
        (.compare (path.drop (i + 1)) .eq (.values (Value.distinct vs)) .any) inverted
        (countedAt (path.drop (i + 1)) (Value.distinct vs))) := by
    simp only [Predicate.containment, hat, hlast, Option.isSome_none, Bool.false_eq_true, if_false,
      List.isEmpty_iff, hne, countedAt]
  have hcorrelate : (containing path vs inverted).simplify.correlate m t =
      Predicate.containment m t path (path.take (i + 1)) (path.drop (i + 1)) vs inverted := by
    rw [containing, Predicate.simplify, if_neg hop, Predicate.correlate, if_neg hop,
      Predicate.correlateCompare, hfirst]
    dsimp only
    rw [hrest, if_neg Bool.false_ne_true]
    cases inverted <;> rfl
  refine Predicate.normal_eq_ok.2 ⟨_, hcorrelate.trans hcontainment, ?_⟩
  rw [Predicate.simplify, Predicate.simplify, if_neg (by simp)]

/-- The condition behind the fan-out and the column that is counted are written, and share their
joins. -/
theorem exists_asksFor {m : Model} {t : Table} {r : Relationship} {path : Path} {res : Resolution}
    {ws : List Value} (hr : m.Relates t r) (hres : m.resolve r.child path = .ok res)
    (hmany : m.firstMany? r.child path = none) (hone : ∀ s ∈ res.hops, s.fansOut = false)
    (hnodup : (r.labels ++ res.hops.flatMap (·.labels)).Nodup)
    (hnull : ∀ v ∈ ws, v.isNull = false) (ctes : List Sql.Cte) :
    ∃ x g body, ((Predicate.compare path .eq (.values ws) .any).compile m .filter).Gives
        ⟨.ofRelationship r, ctes⟩ (some x) g ∧
      (joinThreshold m (countedAt path ws)).Gives g
        (if 1 < ws.length then some (m.columnExpr res.table res.column, ws.length) else none)
        ⟨body, ctes⟩ ∧
      ∀ (E : Engine D) (db : Database D) (rows : Ctes D),
        AsksFor E db m rows t r res body x ws := by
  obtain ⟨hwalk, htable⟩ := Model.walk_of_resolve hres
  have hcrosses : res.crossesMany = false := Resolution.crossesMany_eq_false.2 hone
  obtain ⟨s, hs⟩ := Scope.exists_joinHops (s := .ofRelationship r) hwalk .filter
  have hgrows := Scope.grows_joinHops hs
  have hroot : s.root = r.child := hgrows.root
  obtain ⟨s', hs'⟩ := Scope.exists_joinHops (s := s) (hroot ▸ hwalk) .filter
  have hjoins := (joins_joinHops hwalk rfl (List.nodup_append'.1 hnodup).2.1 hs).1
  set target : Target := ⟨m.columnExpr res.table res.column, res.column.type, path⟩
  obtain ⟨x, hx, htruth⟩ := exists_list_eq (D := D) target hnull
  have hcompile : ((Predicate.compare path .eq (.values ws) .any).compile m .filter).Gives
      ⟨.ofRelationship r, ctes⟩ (some x) ⟨s, ctes⟩ :=
    gives_compile.2 ⟨_, normal_compare_direct (by simp) hmany, gives_render_compare.2
      ⟨target, _, x, gives_joinColumn.2 ⟨res, s, hres, hcrosses, hs, rfl, rfl⟩,
        gives_render_values.2 ⟨hx, rfl⟩, rfl⟩⟩
  have hasks : ∀ body : Scope, (Scope.ofRelationship r).Grows body →
      body.joins.map (·.join) = res.hops.flatMap (·.leftJoins) →
      ∀ (E : Engine D) (db : Database D) (rows : Ctes D),
        AsksFor E db m rows t r res body x ws := by
    intro body hbody hbodyJoins E db rows
    exact ⟨hr, hwalk, htable, hone, hnodup, hbody, hbodyJoins,
      fun env => htruth E db rows [env] env⟩
  by_cases hlong : 1 < ws.length
  · refine ⟨x, _, s', hcompile, ?_, hasks s' (hgrows.trans (Scope.grows_joinHops hs')) ?_⟩
    · rw [countedAt, if_pos hlong, if_pos hlong]
      exact gives_joinThreshold.2 (.inr ⟨_, target, rfl,
        gives_joinColumn.2 ⟨res, s', hroot ▸ hres, hcrosses, hs', rfl, rfl⟩, rfl⟩)
    · rw [(Scope.joinHops_again hs (List.Subset.refl _) hs').1, hjoins]
  · refine ⟨x, _, s, hcompile, ?_, hasks s hgrows hjoins⟩
    rw [countedAt, if_neg hlong, if_neg hlong]
    exact gives_joinThreshold.2 (.inl ⟨rfl, rfl, rfl⟩)

/-- **What a containment is written as**, and what it is true of: the rows from which the path
leads to every value. -/
theorem exists_compile_containing {m : Model} (hm : m.Unambiguous) {t : Table} (ht : m.Covers t)
    {path : Path} {res : Resolution} (hres : m.resolve t path = .ok res)
    (hmany : res.hops.countP (·.fansOut) = 1) (hnaming : m.naming.AvoidsCtes)
    (hnodup : m.AliasesApart t res.hops)
    (hsingle : ∀ r ∈ res.hops.takeWhile (!·.fansOut), ∀ j ∈ r.joins, j.Single E db)
    (hE : E.CountsDistinct) {vs : List Value} (hne : Value.distinct vs ≠ [])
    (hsize : (Value.distinct vs).length < twoPow 63)
    (hnull : ∀ v ∈ Value.distinct vs, v.isNull = false)
    (hdata : ((Value.distinct vs).map (E.datum · res.column.type)).Nodup) (origin : JoinOrigin)
    (inverted : Bool) :
    ∃ x g, (∀ us, Value.distinct us = Value.distinct vs →
        ((containing path us inverted).compile m origin).Gives ⟨.ofTable m t, []⟩ (some x) g) ∧
      ∃ names, Decides E db (bindCtes E db (fun _ => []) g.ctes) (g.scope.joins.map (·.join)) x
        names (m.aliasOf t) fun row =>
          (∀ v ∈ Value.distinct vs, ∃ c, reaches E db false res.hops row c ∧
            c res.column.name = some (E.datum v res.column.type)) ↔ inverted = false := by
  obtain ⟨i, r, before, res', hfirst, hrest, hroute, hres', hlast, hhops, hcolumn, hfan, hone,
    hbehind⟩ := hm.split_once ht hres hmany
  obtain ⟨hwalk, hrelates⟩ := Model.walk_of_resolveRelationship hroute
  have hbefore : res.hops.takeWhile (!·.fansOut) = before := by
    rw [hhops, List.takeWhile_append_of_pos (by simpa using hone), List.takeWhile_cons_of_neg
      (by simp [hfan]), List.append_nil]
  rw [hbefore] at hsingle
  rw [hhops] at hnodup
  obtain ⟨hstart, hnodup', -⟩ := hrelates.nodup_divided hnodup
  obtain ⟨x, g, body, hinner, hcounted, hasks⟩ :=
    exists_asksFor (D := D) hrelates hres' hlast hbehind hnodup' hnull []
  obtain ⟨s, hs⟩ := Scope.exists_joinHops (s := .ofTable m t) hwalk origin
  have hnormal : ∀ us, Value.distinct us = Value.distinct vs →
      (containing path us inverted).normal m t = .ok (.related (path.take (i + 1))
        (.compare (path.drop (i + 1)) .eq (.values (Value.distinct vs)) .any) inverted
        (countedAt (path.drop (i + 1)) (Value.distinct vs))) := by
    intro us hus
    rw [← hus] at hne ⊢
    exact normal_containing inverted hfirst hrest hroute hlast hne
  refine ⟨_, _, fun us hus => gives_compile.2 ⟨_, hnormal us hus,
    gives_render_related.2 ⟨⟨before, r⟩, s, some x, g, _, body, [], hroute, hs, hinner, hcounted,
      rfl, rfl⟩⟩, before.flatMap (·.labels), ?_⟩
  rw [← hcolumn] at hdata
  refine Decides.imp (decides_keys rfl hroute hs hone hsingle hnaming hstart
    (selectsKeys_keysQuery r _ _ body) ((hasks E db _).exists_key_iff hE hne hsize hdata)
    fun _ _ => rfl) (List.Subset.refl _) fun row => iff_congr ?_ Iff.rfl
  -- The walk before the fan-out leads to one row, so it does for all values.
  obtain ⟨p, hat, hdivided⟩ := exists_divided_row hwalk hone hsingle hstart hfan res'.hops row
  have hfans : ∃ s ∈ before ++ r :: res'.hops, s.fansOut = true := ⟨r, by simp, hfan⟩
  simp only [hat, hdivided, hhops, reaches_extended hfans, hcolumn]

/-! ## Containment -/

/-- **A row contains a list of values** if the path leads from it to each of them. That is what
`= ALL` asks of a row, and `<> ANY` the opposite, where the path fans out once; values that the list
repeats are written once. The tables of the path need aliases of their own: where a link table has
the identity of its child, the two share one, and this is not so. -/
theorem compile_containment {naming : Naming} {schema : Option String} {all : List EntityDecl}
    {m : Model} (hm : Model.build naming schema all = .ok m)
    (hnaming : ∀ id i, m.naming.tableAlias id ≠ Build.cteName i) {t : Table} (ht : m.Covers t)
    {path : Path} {res : Resolution} (hres : m.resolve t path = .ok res)
    (hmany : res.hops.countP (·.fansOut) = 1)
    (hnodup : (m.aliasOf t :: res.hops.flatMap (·.labels)).Nodup)
    (hsingle : ∀ r ∈ res.hops.takeWhile (!·.fansOut), ∀ j ∈ r.joins, j.Single E db)
    (hE : E.CountsDistinct) {vs : List Value} (hne : vs ≠ []) (hsize : vs.length < twoPow 63)
    (hnull : ∀ v ∈ vs, v.isNull = false)
    (hequal : ∀ v ∈ vs, ∀ w ∈ vs,
      E.datum v res.column.type = E.datum w res.column.type ↔ v.eqv w = true)
    (origin : JoinOrigin) (row : Row D) :
    let contained : Prop := ∀ v ∈ vs, ∃ c, reaches E db false res.hops row c ∧
      c res.column.name = some (E.datum v res.column.type)
    ∃ e g e' g',
      (∀ us ∈ [vs, Value.distinct vs],
        ((Predicate.compare path .eq (.values us) .all).compile m origin).Gives
          ⟨.ofTable m t, []⟩ e g ∧
        ((Predicate.compare path .ne (.values us) .any).compile m origin).Gives
          ⟨.ofTable m t, []⟩ e' g') ∧
      (g.Passes E db m e row ↔ contained) ∧ (g'.Passes E db m e' row ↔ ¬ contained) := by
  intro contained
  have hcontained : contained ↔ ∀ v ∈ Value.distinct vs, ∃ c, reaches E db false res.hops row c ∧
      c res.column.name = some (E.datum v res.column.type) := by
    refine ⟨fun h v hv => h v (Value.distinct_subset vs hv), fun h v hv => ?_⟩
    obtain ⟨u, hu, heq⟩ := Value.exists_distinct_image hequal hv
    exact heq ▸ h u hu
  have hwritten := exists_compile_containing (Model.unambiguous_build hm) ht hres hmany hnaming
    hnodup hsingle hE (Value.distinct_ne_nil hne)
    (Nat.lt_of_le_of_lt (Value.length_distinct_le vs) hsize)
    (fun v hv => hnull v (Value.distinct_subset vs hv)) (Value.nodup_map_distinct hequal) origin
  obtain ⟨x, g, hall, _, hdecides⟩ := hwritten false
  obtain ⟨x', g', hany, _, hdecides'⟩ := hwritten true
  have hsame : ∀ us ∈ [vs, Value.distinct vs], Value.distinct us = Value.distinct vs := by
    simp [Value.distinct_distinct]
  refine ⟨some x, g, some x', g', fun us hus => ⟨hall us (hsame us hus), hany us (hsame us hus)⟩,
    ?_, ?_⟩
  · rw [hdecides.passes (grows_compile (hall vs rfl)).scope row, hcontained]
    exact iff_true_right rfl
  · rw [hdecides'.passes (grows_compile (hany vs rfl)).scope row, hcontained]
    exact iff_false_right (by decide)

namespace Shop

/-- A database whose data are values, with integers in their order and one aggregate. -/
def counting : Engine Value where
  less
    | .int a, .int b => decide (a < b)
    | _, _ => false
  like _ _ := false
  datum v _ := v
  ofInt := .int
  ofText := .text
  ofBool := .bool
  holds v := v = .bool true
  holds_ofBool := by decide
  function _ _ := none
  isAggregate name := name = "COUNT"
  aggregate _ _ rows := some (.int (rows.flatten.filterMap id).dedup.length)

theorem countsDistinct_counting : counting.CountsDistinct where
  isAggregate := rfl
  count vs := by
    have hflatten : (vs.map ([·])).flatten = vs := by
      rw [← List.flatMap_def, List.flatMap_singleton']
    simp only [counting, hflatten]
  less _ _ := rfl

/-- A line of the order `1`. -/
def soldLine (sku : Int) : Row Value
  | "order_id" => some (.int 1)
  | "sku" => some (.int sku)
  | _ => none

/-- An order with the lines `7`, `7` and `8`. -/
def repeatedLines : Database Value
  | _, "lines" => [soldLine 7, soldLine 7, soldLine 8]
  | _, _ => []

def firstOrder : Row Value
  | "id" => some (.int 1)
  | _ => none

theorem reached_repeatedLines :
    (reached counting repeatedLines false [orderLines plain] firstOrder).map (· "sku") =
      [some (.int 7), some (.int 7), some (.int 8)] := by
  rfl

end Shop

/-- An order that repeats one of two values contains the list that repeats the other. -/
theorem compile_containment_repeated :
    ∃ e g e' g', ((Predicate.compare ⟨["lines", "sku"]⟩ .eq
        (.values [.int 8, .int 7, .int 8]) .all).compile (Shop.model Shop.plain) .filter).Gives
        ⟨.ofTable (Shop.model Shop.plain) Shop.orders, []⟩ e g ∧
      ((Predicate.compare ⟨["lines", "sku"]⟩ .ne
        (.values [.int 8, .int 7, .int 8]) .any).compile (Shop.model Shop.plain) .filter).Gives
        ⟨.ofTable (Shop.model Shop.plain) Shop.orders, []⟩ e' g' ∧
      g.Passes Shop.counting Shop.repeatedLines (Shop.model Shop.plain) e Shop.firstOrder ∧
      ¬ g'.Passes Shop.counting Shop.repeatedLines (Shop.model Shop.plain) e' Shop.firstOrder := by
  have hres : (Shop.model Shop.plain).resolve Shop.orders ⟨["lines", "sku"]⟩ =
      .ok ⟨[Shop.orderLines Shop.plain], (Shop.orderLines Shop.plain).child,
        Shop.column "sku"⟩ := rfl
  have hnodup := ((Model.walk_of_resolve hres).1.nodup_labels_iff Shop.faithful_plain
    (.root Shop.derive_plain_ne_orders)).2 (by decide)
  obtain ⟨e, g, e', g', hgives, hall, hany⟩ :=
    compile_containment (Shop.build_declarations Shop.plain) Shop.faithful_plain.ne_cteName
      (Shop.covers_orders _) hres rfl hnodup (fun _ hr => absurd hr List.not_mem_nil)
      Shop.countsDistinct_counting
      (List.cons_ne_nil (Value.int 8) [.int 7, .int 8]) (by decide) (by decide) (by decide) .filter
      Shop.firstOrder
  obtain ⟨heq, hne⟩ := hgives _ List.mem_cons_self
  have hcontained : ∀ v ∈ [Value.int 8, .int 7, .int 8], ∃ c, reaches Shop.counting
      Shop.repeatedLines false [Shop.orderLines Shop.plain] Shop.firstOrder c ∧
        c "sku" = some v := by
    intro v hv
    have hfound : some v ∈ (reached Shop.counting Shop.repeatedLines false
        [Shop.orderLines Shop.plain] Shop.firstOrder).map (· "sku") := by
      rw [Shop.reached_repeatedLines]
      revert v
      decide
    obtain ⟨c, hc, hvalue⟩ := List.mem_map.1 hfound
    exact ⟨c, mem_reached.1 hc, hvalue⟩
  exact ⟨e, g, e', g', heq, hne, hall.2 hcontained, fun h => hany.1 h hcontained⟩

end EntityQuery
