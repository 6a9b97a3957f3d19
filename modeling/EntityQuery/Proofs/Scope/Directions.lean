import EntityQuery.Proofs.Predicate.Failing
import EntityQuery.Proofs.Predicate.Keys
import EntityQuery.Proofs.Predicate.Meaning
import Mathlib.Data.List.Perm.Basic

/-!
# A relationship from both sides

Columns and functions join a relationship forward: from the parent, with left joins, each with all
of its conditions. Conditions, nested documents and latest values read it backward: from the child,
with an inner join of the link table, and a correlation that leads to the row of the parent. There
the conditions of the joins stand in three places: the comparison of the child with the link row and
the conditions on the link row in the join of the link table, the conditions on the child in WHERE,
the comparison with the parent in the correlation.

Both find the same pairs of rows, each as often, if the tables have aliases of their own
(`pairsFromChild_perm_pairsFromParent`). For one parent they are compared with the rows that its
joins lead to (`Relationship.rows`).

**Forward.** A row that a left join does not find has only NULLs, which the condition of no join is
true of. So the left joins with a match have what inner joins find
(`Model.Relates.matched_leftJoins`).

**Backward.** The rows are counted by the child and then by the link row instead of by the link row
and then by the child (`perm_flatMap_filter`).
-/

namespace EntityQuery

open EntityQuery.Sql (Expr Query Engine Database Ctes Env Row joinFound joinOne joinAll)

variable {D : Type} [DecidableEq D] (E : Engine D) (db : Database D)

/-! ## The pairs -/

/-- The rows on the far side of a relationship that belong to the row of the parent. -/
def Relationship.farQuery (r : Relationship) : Query :=
  let far := Scope.ofRelationship r
  far.apply { Query.empty with
    condition := Expr.combine .and (far.baseFilters ++ [r.correlation]) } false

/-- The rows of the parent, each with the rows that the far side of the relationship has for it. -/
def Relationship.pairsFromChild (m : Model) (r : Relationship) (rows : Ctes D) (env : Env D) :
    List (Row D × Row D) :=
  (Sql.tableRows db rows (m.tableRef r.parent)).flatMap fun parent =>
    (r.farQuery.kept E db rows (env.bind (m.aliasOf r.parent) parent)).map fun found =>
      (parent, found (m.aliasOf r.child))

/-- The rows of a scope in which the join of the child has a match. -/
def Relationship.pairsFromParent (m : Model) (r : Relationship) (s : Scope) (rows : Ctes D)
    (env : Env D) : List (Row D × Row D) :=
  (((s.apply Query.empty false).kept E db rows env).filter fun found =>
    E.truth (r.childJoin.on.eval E db rows [found] found) = some true).map fun found =>
      (found (m.aliasOf r.parent), found (m.aliasOf r.child))

/-! ## Joins with a match -/

variable {E db} {rows : Ctes D} {env : Env D} {j : JoinStep}

/-- A row of NULLs is joined to nothing. -/
theorem JoinStep.rows_null : j.rows E db Row.null = [] := by
  refine List.filter_eq_nil_iff.2 fun row _ h => ?_
  obtain ⟨heq, -⟩ := of_decide_eq_true h
  obtain ⟨v, hv, -⟩ := E.truth_binary_eq.1 heq
  cases hv

/-- What a join finds, as rows of its table. -/
theorem joinFound_eq (hne : j.left ≠ j.label) (kind : Sql.JoinKind) :
    joinFound E db rows ⟨kind, j.tableRef, j.on⟩ env =
      (j.rows E db (env j.left)).map (env.bind j.label) := by
  rw [joinFound, List.filter_map]
  refine congrArg _ (List.filter_congr fun row _ => decide_eq_decide.2 ?_)
  rw [E.truth_binary_eq]
  exact truth_on hne row _

/-- A row of NULLs counts for nothing if nothing comes of it. -/
theorem flatMap_joinOne {β : Type} {j : Sql.Join} {f : Env D → List β}
    (hnull : f (env.bind j.table.boundName Row.null) = []) :
    (joinOne E db rows j env).flatMap f = (joinFound E db rows j env).flatMap f := by
  rw [joinOne]
  cases hkind : j.kind with
  | inner => rfl
  | left =>
    cases hf : joinFound E db rows j env with
    | nil => simpa [Sql.joinMatches] using hnull
    | cons first rest => rfl

/-- The rows of a left join in which its condition is true are those that it finds. -/
theorem filter_joinOne (hne : j.left ≠ j.label) :
    ((joinOne E db rows ⟨.left, j.tableRef, j.on⟩ env).filter fun found =>
        E.truth (j.on.eval E db rows [found] found) = some true) =
      joinFound E db rows ⟨.left, j.tableRef, j.on⟩ env := by
  have hfound : ∀ found ∈ joinFound E db rows ⟨.left, j.tableRef, j.on⟩ env,
      decide (E.truth (j.on.eval E db rows [found] found) = some true) = true :=
    fun found hfound => (List.mem_filter.1 hfound).2
  rw [joinOne]
  cases hf : joinFound E db rows ⟨.left, j.tableRef, j.on⟩ env with
  | nil =>
    refine List.filter_eq_nil_iff.2 fun found hnull htrue => ?_
    cases List.mem_singleton.1 hnull
    obtain ⟨⟨v, -, hv⟩, -⟩ := (truth_on hne _ _).1 (of_decide_eq_true htrue)
    cases hv
  | cons first rest =>
    rw [hf] at hfound
    exact List.filter_eq_self.2 hfound

/-! ## The rows of the child -/

variable {m : Model} {t : Table} {r : Relationship}

/-- The scope of a table that is joined with a relationship. -/
theorem kept_joined {s : Scope} {origin : JoinOrigin} (hr : m.Relates t r)
    (hnodup : (m.aliasOf t :: r.labels).Nodup)
    (hs : (Scope.ofTable m t).joinHops [r] origin = .ok s) (E : Engine D) (db : Database D)
    (rows : Ctes D) (env : Env D) :
    (s.apply Query.empty false).kept E db rows env =
      (Sql.tableRows db rows (m.tableRef t)).flatMap fun parent =>
        joinAll E db rows r.leftJoins [env.bind (m.aliasOf t) parent] := by
  have hgrows := Scope.grows_joinHops hs
  have hjoins : (s.apply Query.empty false).joins = r.leftJoins := by
    obtain ⟨hleft, -⟩ := joins_joinHops (.cons hr (.nil _)) rfl
      (by simpa using (List.nodup_cons.1 hnodup).2) hs
    simp only [Scope.apply, Query.empty, Scope.joinsFor_false, List.nil_append, hgrows.baseJoins,
      hleft]
    simp [Scope.ofTable]
  have hsource : (s.apply Query.empty false).source = some (.table (m.tableRef t)) := by
    simp only [Scope.apply, hgrows.source]
    rfl
  have hcondition : (s.apply Query.empty false).condition = none := rfl
  rw [Query.kept, hjoins, hsource, hcondition, Sql.sourceEnvs, Sql.joinAll_flatMap,
    List.flatMap_map]
  simp only [Sql.holdsOption, List.filter_true]
  rfl

/-- The left joins with a match, read forward. -/
theorem Model.Relates.matched_leftJoins (hr : m.Relates t r)
    (hnodup : (m.aliasOf t :: r.labels).Nodup) (rows : Ctes D) (env : Env D) :
    ((joinAll E db rows r.leftJoins [env]).filter fun found =>
        E.truth (r.childJoin.on.eval E db rows [found] found) = some true).map
          (fun found => (found (m.aliasOf t), found (m.aliasOf r.child))) =
      (r.rows (JoinStep.rows E db) (env (m.aliasOf t))).map (env (m.aliasOf t), ·) := by
  have hleft := hr.childJoin_left
  rw [← hr.childJoin_label]
  simp only [Relationship.labels, Relationship.leftJoins, Relationship.joins,
    Relationship.rows] at hnodup ⊢
  cases hlink : r.linkJoin with
  | none =>
    have hchild : r.childJoin.left = m.aliasOf t := by rw [hleft, hlink]; rfl
    simp only [hlink, Option.toList_none, List.nil_append, List.map_cons, List.map_nil,
      List.nodup_cons, List.mem_singleton, Sql.joinAll_cons, Sql.joinAll_nil,
      List.flatMap_singleton] at hnodup ⊢
    have hne : r.childJoin.left ≠ r.childJoin.label := hchild ▸ hnodup.1
    rw [filter_joinOne hne, joinFound_eq hne, List.map_map, hchild]
    refine List.map_congr_left fun c _ => ?_
    simp only [Function.comp_apply, Env.bind_of_ne hnodup.1, Env.bind_self]
  | some link =>
    have hchild : r.childJoin.left = link.label := by rw [hleft, hlink]; rfl
    have hfirst := hr.linkJoin_left hlink
    simp only [hlink, Option.toList_some, List.singleton_append, List.map_cons, List.map_nil,
      List.nodup_cons, List.mem_cons, List.not_mem_nil, or_false, not_or, Sql.joinAll_cons,
      Sql.joinAll_nil, List.flatMap_singleton] at hnodup ⊢
    obtain ⟨⟨hparentLink, hparentChild⟩, hlinkChild, -⟩ := hnodup
    have hne₁ : link.left ≠ link.label := hfirst ▸ hparentLink
    have hne₂ : r.childJoin.left ≠ r.childJoin.label := hchild ▸ hlinkChild
    have hnull : joinFound E db rows ⟨.left, r.childJoin.tableRef, r.childJoin.on⟩
        (env.bind link.label Row.null) = [] := by
      rw [joinFound_eq hne₂, hchild, Env.bind_self, JoinStep.rows_null, List.map_nil]
    simp only [List.filter_flatMap, filter_joinOne hne₂]
    rw [flatMap_joinOne hnull, joinFound_eq hne₁, hfirst, List.flatMap_map, List.map_flatMap,
      List.map_flatMap]
    refine List.flatMap_congr fun l _ => ?_
    rw [joinFound_eq hne₂, hchild, Env.bind_self, List.map_map]
    refine List.map_congr_left fun c _ => ?_
    simp only [Function.comp_apply, Env.bind_of_ne hparentChild, Env.bind_of_ne hparentLink,
      Env.bind_self]

/-- Pairs counted by the one side or by the other. -/
theorem perm_flatMap_filter {α β : Type} (xs : List α) (ys : List β) (p : α → Bool)
    (q : α → β → Bool) :
    (ys.flatMap fun y => (xs.filter fun x => p x && q x y).map fun _ => y).Perm
      ((xs.filter p).flatMap fun x => ys.filter (q x)) := by
  induction ys with
  | nil => simp
  | cons y ys ih =>
    have hy : ((xs.filter fun x => p x && q x y).map fun _ => y) =
        (xs.filter p).flatMap fun x => [y].filter (q x) := by
      clear ih
      induction xs with
      | nil => rfl
      | cons x xs ih =>
        cases hp : p x <;> cases hq : q x y <;> simp [hp, hq, ih]
    rw [List.flatMap_cons, hy]
    refine (ih.append_left _).trans ((List.flatMap_append_perm _ _ _).trans ?_)
    refine .of_eq (List.flatMap_congr fun x _ => ?_)
    rw [← List.filter_append, List.singleton_append]

/-- The correlation compares the column of the parent with the other one of the first join. -/
theorem Model.Relates.truth_correlation (hr : m.Relates t r) :
    E.truth (r.correlation.eval E db rows [env] env) = some true ↔
      ∃ v, env (m.aliasOf t) r.firstJoin.leftColumn = some v ∧
        env r.firstJoin.label r.firstJoin.rightColumn = some v := by
  simp only [Relationship.correlation, Expr.eq, Relationship.linkKey, Relationship.parentKey,
    Relationship.parentColumn, Expr.ofTable, Expr.eval, hr.firstJoin_left]
  rw [E.truth_binary_eq]
  simp only [and_comm]

/-- The far side starts at the rows of the child and keeps those of the parent. -/
theorem kept_farQuery (E : Engine D) (db : Database D) (r : Relationship) (rows : Ctes D)
    (env : Env D) :
    r.farQuery.kept E db rows env =
      (db r.childJoin.schema r.childJoin.table).flatMap fun c =>
        (joinAll E db rows (Scope.ofRelationship r).baseJoins
          [env.bind r.childJoin.label c]).filter fun found =>
            r.childJoin.Accepts E db (found r.childJoin.label) ∧
              E.truth (r.correlation.eval E db rows [found] found) = some true := by
  have hjoins : r.farQuery.joins = (Scope.ofRelationship r).baseJoins := by
    simp [Relationship.farQuery, Scope.apply, Query.empty, Scope.joinsFor, Scope.ofRelationship]
  have hsource : Sql.sourceEnvs E db rows env r.farQuery.source =
      (db r.childJoin.schema r.childJoin.table).map (env.bind r.childJoin.label) := by
    show Sql.sourceEnvs E db rows env (some (.table r.childJoin.tableRef)) = _
    rw [Sql.sourceEnvs]
    rfl
  rw [Query.kept, hjoins, hsource, Sql.joinAll_flatMap, List.flatMap_map, List.filter_flatMap]
  refine List.flatMap_congr fun c _ => List.filter_congr fun found _ => ?_
  exact Bool.eq_iff_iff.2 (holds_baseFilters.trans decide_eq_true_iff.symm)

/-- The far side of a relationship beside a row of the parent, read backward. -/
theorem Model.Relates.perm_farQuery (hr : m.Relates t r)
    (hnodup : (m.aliasOf t :: r.labels).Nodup) (E : Engine D) (db : Database D) (rows : Ctes D)
    (env : Env D) :
    ((r.farQuery.kept E db rows env).map fun found => found (m.aliasOf r.child)).Perm
      (r.rows (JoinStep.rows E db) (env (m.aliasOf t))) := by
  have hlabels := (List.nodup_cons.1 hnodup).2
  rw [← hr.childJoin_label, kept_farQuery]
  simp only [hr.truth_correlation, Relationship.rows]
  simp only [Relationship.labels, Relationship.joins] at hnodup
  cases hlink : r.linkJoin with
  | none =>
    have hfirst : r.firstJoin = r.childJoin := by rw [Relationship.firstJoin, hlink]; rfl
    have hbase : (Scope.ofRelationship r).baseJoins = [] := by simp [Scope.ofRelationship, hlink]
    simp only [hlink, Option.toList_none, List.nil_append, List.map_cons, List.map_nil,
      List.nodup_cons, List.mem_singleton] at hnodup
    refine .of_eq ?_
    rw [← List.filter_flatMap]
    simp only [hbase, Sql.joinAll_nil, ← List.map_eq_flatMap, List.filter_map, List.map_map,
      Function.comp_def, hfirst, Env.bind_self, Env.bind_of_ne hnodup.1, List.map_id']
    refine List.filter_congr fun c _ => decide_eq_decide.2 ?_
    rw [E.truth_binary_eq, and_comm]
  | some link =>
    have hfirst : r.firstJoin = link := by rw [Relationship.firstJoin, hlink]; rfl
    simp only [hlink, Option.toList_some, List.singleton_append, List.map_cons, List.map_nil,
      List.nodup_cons, List.mem_cons, List.not_mem_nil, or_false, not_or] at hnodup
    obtain ⟨⟨hparentLink, hparentChild⟩, hlinkChild, -⟩ := hnodup
    simp only [JoinStep.rows]
    refine .trans (.of_eq ?_) (perm_flatMap_filter (db link.schema link.table) _ _ _)
    rw [List.map_flatMap]
    refine List.flatMap_congr fun c _ => ?_
    simp only [Scope.ofRelationship, hlink, Option.toList_some, List.map_cons, List.map_nil,
      Sql.joinAll_cons, Sql.joinAll_nil, List.flatMap_singleton, joinOne, Sql.joinMatches,
      joinFound, List.filter_filter, List.filter_map, List.map_map, hfirst]
    have hchild (l : Row D) :
        (env.bind r.childJoin.label c).bind link.label l r.childJoin.label = c := by
      rw [Env.bind_of_ne (Ne.symm hlinkChild), Env.bind_self]
    have hparent (l : Row D) :
        (env.bind r.childJoin.label c).bind link.label l (m.aliasOf t) = env (m.aliasOf t) := by
      rw [Env.bind_of_ne hparentLink, Env.bind_of_ne hparentChild]
    refine (List.map_congr_left fun l _ => hchild l).trans
      (congrArg _ (List.filter_congr fun l _ => Bool.eq_iff_iff.2 ?_))
    simp only [Bool.and_eq_true, decide_eq_true_eq, Function.comp_apply]
    refine (and_congr_right fun _ => truth_linkJoin hr hlink hlabels env c l).trans ?_
    rw [show link.tableRef.boundName = link.label from rfl, hchild, hparent, Env.bind_self]
    -- The conditions of both joins, in another order.
    rw [E.truth_binary_eq, E.truth_binary_eq]
    tauto

/-! ## Both sides -/

/-- **A relationship relates the same rows from both sides**: the far side, correlated with the rows
of the parent one by one, and the left joins from the parent that have a match give the same pairs,
each as often. -/
theorem pairsFromChild_perm_pairsFromParent (hr : m.Relates t r)
    (hnodup : (m.aliasOf t :: r.labels).Nodup) (origin : JoinOrigin) :
    ∃ s, (Scope.ofTable m t).joinHops [r] origin = .ok s ∧
      ∀ (D : Type) [DecidableEq D] (E : Engine D) (db : Database D) (rows : Ctes D) (env : Env D),
        (r.pairsFromChild E db m rows env).Perm (r.pairsFromParent E db m s rows env) := by
  have hwalk : m.Walk t [r] := .cons hr (.nil _)
  obtain ⟨s, hs⟩ := Scope.exists_joinHops (s := Scope.ofTable m t) hwalk origin
  refine ⟨s, hs, fun D _ E db rows env => ?_⟩
  have hforward := kept_joined hr hnodup hs E db rows env
  rw [Relationship.pairsFromChild, Relationship.pairsFromParent, hforward, hr.parent_eq,
    List.filter_flatMap, List.map_flatMap]
  refine .flatMap_left _ fun parent _ => ?_
  rw [hr.matched_leftJoins hnodup, Env.bind_self]
  have hfar := hr.perm_farQuery hnodup E db rows (env.bind (m.aliasOf t) parent)
  rw [Env.bind_self] at hfar
  simpa [Function.comp_def] using hfar.map (parent, ·)

namespace Shop

/-- A root position for lines. -/
def lines : Table := Model.root line ⟨[1]⟩

/-- The tags of a line, over the link table. -/
def lineTags : Relationship :=
  (model plain).unfold lines ⟨"tags", .manyToMany, "Tag", "id", "id",
    some ⟨none, "line_tags", "line_id", "tag_id", []⟩, []⟩ tag

theorem relates_lineTags : (model plain).Relates lines lineTags :=
  ⟨_, List.mem_cons_self, tag, rfl, rfl⟩

theorem nodup_lineTags : ((model plain).aliasOf lines :: lineTags.labels).Nodup := by
  have hwalk : (model plain).Walk lines [lineTags] := .cons relates_lineTags (.nil _)
  have hiff := hwalk.nodup_labels_iff faithful_plain (.root derive_plain_ne_orders)
  rw [List.flatMap_singleton] at hiff
  exact hiff.2 (by decide)

/-- A line that has one tag twice, and one whose tag is missing. -/
def relabelled : Database String
  | _, "lines" => [rowOf [("id", "a")], rowOf [("id", "b")]]
  | _, "line_tags" => [rowOf [("line_id", "a"), ("tag_id", "n")],
      rowOf [("line_id", "a"), ("tag_id", "n")], rowOf [("line_id", "b"), ("tag_id", "o")]]
  | _, "tags" => [rowOf [("id", "n"), ("label", "new")]]
  | _, _ => []

end Shop

/-- The line with the tag is found twice with it from both sides, the other from neither. -/
theorem pairs_lineTags :
    (Shop.model Shop.plain).Relates Shop.lines Shop.lineTags ∧
      ((Shop.model Shop.plain).aliasOf Shop.lines :: Shop.lineTags.labels).Nodup ∧
      (Shop.lineTags.pairsFromChild Shop.engine Shop.relabelled (Shop.model Shop.plain)
        (fun _ => []) Env.empty).length = 2 ∧
      ∃ s, (Scope.ofTable (Shop.model Shop.plain) Shop.lines).joinHops [Shop.lineTags] .select =
          .ok s ∧
        (Shop.lineTags.pairsFromChild Shop.engine Shop.relabelled (Shop.model Shop.plain)
          (fun _ => []) Env.empty).Perm
        (Shop.lineTags.pairsFromParent Shop.engine Shop.relabelled (Shop.model Shop.plain) s
          (fun _ => []) Env.empty) := by
  obtain ⟨s, hs, hperm⟩ := pairsFromChild_perm_pairsFromParent Shop.relates_lineTags
    Shop.nodup_lineTags .select
  exact ⟨Shop.relates_lineTags, Shop.nodup_lineTags, by decide +kernel, s, hs, hperm String _ _ _ _⟩

/-! ## One alias for two tables -/

namespace Knot

/-- Two rows; the first is linked with itself. -/
def stored : Database String
  | _, _ => [Shop.rowOf [("id", "1"), ("a", "1"), ("b", "1")],
      Shop.rowOf [("id", "2"), ("a", "3"), ("b", "4")]]

end Knot

/-- Where the link table has the alias of the child, the sides find different pairs: the link row
hides that of the child, so the far side counts it for every child. -/
theorem pairs_knot_differ :
    Model.build Shop.plain none Knot.declarations = .ok Knot.model ∧
      Knot.model.Relates Knot.table Knot.relationship ∧ Knot.relationship.LinkClash ∧
      ∃ s, (Scope.ofTable Knot.model Knot.table).joinHops [Knot.relationship] .select = .ok s ∧
        ¬ (Knot.relationship.pairsFromChild Shop.engine Knot.stored Knot.model (fun _ => [])
          Env.empty).Perm
        (Knot.relationship.pairsFromParent Shop.engine Knot.stored Knot.model s (fun _ => [])
          Env.empty) := by
  have hchild : (Knot.relationship.pairsFromChild Shop.engine Knot.stored Knot.model (fun _ => [])
      Env.empty).length = 2 := by
    decide +kernel
  obtain ⟨s, hs⟩ : ∃ s, (Scope.ofTable Knot.model Knot.table).joinHops [Knot.relationship] .select =
      .ok s := ⟨_, rfl⟩
  have hparent : (Knot.relationship.pairsFromParent Shop.engine Knot.stored Knot.model s
      (fun _ => []) Env.empty).length = 1 := by
    cases hs
    decide +kernel
  refine ⟨Knot.build_declarations, ⟨_, List.mem_cons_self, Knot.entity, rfl, rfl⟩, by decide, s,
    hs, fun hperm => ?_⟩
  have hlength := hperm.length_eq
  rw [hchild, hparent] at hlength
  cases hlength

end EntityQuery
