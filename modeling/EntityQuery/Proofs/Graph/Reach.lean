import EntityQuery.Proofs.Graph.Aliases
import EntityQuery.Proofs.Sql.Agreement

/-!
# Rows along relationships

Which rows of a database a row leads to. `JoinStep.Links` says it of one join: the two columns are
equal and the row on the right satisfies the conditions of the join. A relationship is followed by
its one or two joins (`Relationship.Follows`), a walk by its relationships (`reaches`).

**Missing rows.** Along a relationship that fans out a row leads to the rows that are there, perhaps
none. A one-to-one relationship behind it leads to a row of NULLs if there is none
(`JoinStep.LeftLinks`), as a left join does.

**Joins.** A join of a step finds exactly the rows that the step links (`mem_joinFound`). In a
database where one-to-one steps find at most one row (`Model.OneToOne`) the left joins of a walk of
such steps make one environment of one, and bind the row that the walk leads to (`joinAll_walk`).
-/

namespace EntityQuery

open EntityQuery.Sql (Expr Engine Database Ctes Env Row Join joinFound joinOne joinAll)

variable {D : Type} [DecidableEq D] (E : Engine D) (db : Database D)

/-! ## Links -/

/-- The conditions of a join on the joined row alone. -/
def JoinStep.Accepts (j : JoinStep) (row : Row D) : Prop :=
  ∀ f ∈ j.filters, E.truth ((f.expr j.label).eval E db (fun _ => []) [Env.empty.bind j.label row]
    (Env.empty.bind j.label row)) = some true

/-- The row of the joined table belongs to the row on the left. -/
def JoinStep.Links (j : JoinStep) (left row : Row D) : Prop :=
  row ∈ db j.schema j.table ∧ (∃ v, left j.leftColumn = some v ∧ row j.rightColumn = some v) ∧
    j.Accepts E db row

/-- The row belongs to the row on the left, or there is none and it has only NULLs. -/
def JoinStep.LeftLinks (j : JoinStep) (left row : Row D) : Prop :=
  j.Links E db left row ∨ (∀ x, ¬ j.Links E db left x) ∧ row = Row.null

/-- The joins of a relationship lead from the parent's row to the child's. -/
def Relationship.Follows (step : JoinStep → Row D → Row D → Prop) (r : Relationship)
    (parent child : Row D) : Prop :=
  match r.linkJoin with
  | none => step r.childJoin parent child
  | some link => ∃ x, step link parent x ∧ step r.childJoin x child

/-- The row that a walk leads to. One-to-one relationships behind the first that fans out, or
from the start if `extended`, lead to NULLs where there is no row. -/
def reaches (extended : Bool) : List Relationship → Row D → Row D → Prop
  | [], first, last => last = first
  | r :: rest, first, last =>
    ∃ x, r.Follows (if extended && !r.fansOut then JoinStep.LeftLinks E db
        else JoinStep.Links E db) first x ∧
      reaches (extended || r.fansOut) rest x last

/-- The step finds at most one row, whatever the rows beside it. -/
def JoinStep.Single (j : JoinStep) : Prop :=
  ∀ ctes env, (joinFound E db ctes ⟨.left, j.tableRef, j.on⟩ env).length ≤ 1

/-- The steps of one-to-one relationships find at most one row. -/
def Model.OneToOne (m : Model) : Prop :=
  ∀ t r, m.Covers t → m.Relates t r → r.cardinality = .oneToOne → ∀ j ∈ r.joins, j.Single E db

/-- So it is if no table has more than one row. -/
theorem Model.oneToOne_of_length (m : Model) (h : ∀ schema table, (db schema table).length ≤ 1) :
    m.OneToOne E db := by
  intro t r _ _ _ j _ ctes env
  refine Nat.le_trans (List.length_filter_le _ _) ?_
  simpa [Sql.tableRows, JoinStep.tableRef] using h j.schema j.table

/-! ## What a join finds -/

variable {E db} {rows : Ctes D} {env : Env D} {j : JoinStep} {hops : List Relationship}
  {r : Relationship} {a b first last row : Row D} {m : Model} {t : Table}

/-- A condition on the joined row is read off that row. -/
theorem JoinFilter.eval_expr (f : JoinFilter) (label : String) (hrow : env label = row)
    (group : List (Env D)) :
    (f.expr label).eval E db rows group env =
      (f.expr label).eval E db (fun _ => []) [Env.empty.bind label row]
        (Env.empty.bind label row) := by
  subst hrow
  simp only [JoinFilter.expr]
  split <;> simp [Expr.eval, Expr.ofTable]

theorem truth_condition (hne : j.left ≠ j.label) (row : Row D) (group : List (Env D)) :
    E.truth (j.condition.eval E db rows group (env.bind j.label row)) = some true ↔
      ∃ v, env j.left j.leftColumn = some v ∧ row j.rightColumn = some v := by
  simp only [JoinStep.condition, Expr.eq, Expr.ofTable, Expr.eval, Env.bind_of_ne hne,
    Env.bind_self]
  exact E.truth_binary_eq

theorem truth_on (hne : j.left ≠ j.label) (row : Row D) (group : List (Env D)) :
    E.truth (j.on.eval E db rows group (env.bind j.label row)) = some true ↔
      (∃ v, env j.left j.leftColumn = some v ∧ row j.rightColumn = some v) ∧
        j.Accepts E db row := by
  rw [JoinStep.on, Expr.combine, Option.getD_some, Sql.truth_foldl_and, Expr.eval_protect,
    truth_condition hne]
  refine and_congr_right fun _ => ?_
  simp only [JoinStep.filterExprs, List.forall_mem_map, JoinStep.Accepts]
  refine forall₂_congr fun f _ => ?_
  rw [f.eval_expr j.label (Env.bind_self env j.label row)]

/-- A join finds exactly the linked rows. -/
theorem mem_joinFound {kind : Sql.JoinKind} {env' : Env D} (hne : j.left ≠ j.label) :
    env' ∈ joinFound E db rows ⟨kind, j.tableRef, j.on⟩ env ↔
      ∃ row, j.Links E db (env j.left) row ∧ env' = env.bind j.label row := by
  simp only [joinFound, List.mem_filter, List.mem_map, decide_eq_true_eq]
  constructor
  · intro h
    obtain ⟨⟨row, hrow, rfl⟩, hon⟩ := h
    exact ⟨row, ⟨hrow, (truth_on hne row _).1 hon⟩, rfl⟩
  · intro h
    obtain ⟨row, ⟨hrow, hlinks⟩, rfl⟩ := h
    exact ⟨⟨row, hrow, rfl⟩, (truth_on hne row _).2 hlinks⟩

/-! ## Left joins -/

/-- A left join binds each row that is linked or, without any, NULLs. -/
theorem mem_joinOne_left {env' : Env D} (hne : j.left ≠ j.label) :
    env' ∈ joinOne E db rows ⟨.left, j.tableRef, j.on⟩ env ↔
      ∃ row, j.LeftLinks E db (env j.left) row ∧ env' = env.bind j.label row := by
  have hfound : ∀ env', env' ∈ joinFound E db rows ⟨.left, j.tableRef, j.on⟩ env ↔
      ∃ row, j.Links E db (env j.left) row ∧ env' = env.bind j.label row :=
    fun _ => mem_joinFound hne
  rcases hf : joinFound E db rows ⟨.left, j.tableRef, j.on⟩ env with _ | ⟨first, rest⟩
  · rw [hf] at hfound
    have hnone : ∀ x, ¬ j.Links E db (env j.left) x := fun x hx =>
      List.not_mem_nil ((hfound _).2 ⟨x, hx, rfl⟩)
    rw [Sql.joinOne, hf]
    simp only [Sql.joinMatches, List.mem_singleton, JoinStep.LeftLinks, hnone, not_false_eq_true,
      implies_true, true_and, false_or, exists_eq_left]
    rfl
  · rw [hf] at hfound
    obtain ⟨x, hx, -⟩ := (hfound first).1 List.mem_cons_self
    have hsome : ¬ ∀ x, ¬ j.Links E db (env j.left) x := fun h => h x hx
    rw [Sql.joinOne, hf]
    simp only [Sql.joinMatches, hfound, JoinStep.LeftLinks, hsome, false_and, or_false]

/-- The left joins of a relationship bind the rows that it leads to. -/
theorem Model.Relates.mem_joinAll_leftJoins (hr : m.Relates t r)
    (hnodup : (m.aliasOf t :: r.labels).Nodup) (E : Engine D) (db : Database D) (rows : Ctes D)
    (env : Env D) :
    (∀ env' ∈ joinAll E db rows r.leftJoins [env],
      r.Follows (JoinStep.LeftLinks E db) (env (m.aliasOf t)) (env' (m.aliasOf r.child)) ∧
        ∀ a, a ∉ r.labels → env' a = env a) ∧
    ∀ c, r.Follows (JoinStep.LeftLinks E db) (env (m.aliasOf t)) c →
      ∃ env' ∈ joinAll E db rows r.leftJoins [env], env' (m.aliasOf r.child) = c := by
  have hleft := hr.childJoin_left
  rw [← hr.childJoin_label]
  simp only [Relationship.labels, Relationship.leftJoins, Relationship.joins,
    Relationship.Follows] at hnodup ⊢
  cases hlink : r.linkJoin with
  | none =>
    rw [hlink] at hleft
    simp only [hlink, Option.toList_none, List.nil_append, List.map_cons, List.map_nil,
      List.nodup_cons, List.mem_singleton, Sql.joinAll_cons, Sql.joinAll_nil,
      List.flatMap_singleton] at hnodup ⊢
    have hne : r.childJoin.left ≠ r.childJoin.label := by
      rw [hleft]
      exact hnodup.1
    simp only [mem_joinOne_left hne, hleft, Option.map_none, Option.getD_none]
    constructor
    · rintro env' ⟨row, hrow, rfl⟩
      exact ⟨by rwa [Env.bind_self], fun a ha => Env.bind_of_ne ha⟩
    · intro c hc
      exact ⟨_, ⟨c, hc, rfl⟩, Env.bind_self _ _ _⟩
  | some link =>
    rw [hlink] at hleft
    have hlinkLeft := hr.linkJoin_left hlink
    simp only [hlink, Option.toList_some, List.singleton_append, List.map_cons, List.map_nil,
      List.nodup_cons, List.mem_cons, List.not_mem_nil, or_false, not_or, Sql.joinAll_cons,
      Sql.joinAll_nil, List.flatMap_singleton, List.mem_flatMap] at hnodup ⊢
    obtain ⟨⟨hne₁, -⟩, hne₂, -⟩ := hnodup
    have hnelink : link.left ≠ link.label := by
      rw [hlinkLeft]
      exact hne₁
    have hnechild : r.childJoin.left ≠ r.childJoin.label := by
      rw [hleft]
      exact hne₂
    have hleft' : r.childJoin.left = link.label := hleft
    constructor
    · intro env' henv'
      obtain ⟨env₁, henv₁, henv'⟩ := henv'
      obtain ⟨x, hx, rfl⟩ := (mem_joinOne_left hnelink).1 henv₁
      obtain ⟨row, hrow, rfl⟩ := (mem_joinOne_left hnechild).1 henv'
      rw [hlinkLeft] at hx
      rw [hleft', Env.bind_self] at hrow
      refine ⟨⟨x, hx, by rwa [Env.bind_self]⟩, fun a ha => ?_⟩
      rw [Env.bind_of_ne ha.2, Env.bind_of_ne ha.1]
    · intro c hc
      obtain ⟨x, hx, hc⟩ := hc
      rw [← hlinkLeft] at hx
      refine ⟨_, ⟨_, (mem_joinOne_left hnelink).2 ⟨x, hx, rfl⟩,
        (mem_joinOne_left hnechild).2 ⟨c, ?_, rfl⟩⟩, Env.bind_self _ _ _⟩
      rwa [hleft', Env.bind_self]

/-! ## Walks -/

/-- The aliases of a walk, divided behind its first relationship. -/
theorem Model.Relates.nodup_labels {rest : List String} (hr : m.Relates t r)
    (h : (m.aliasOf t :: (r.labels ++ rest)).Nodup) :
    (m.aliasOf t :: r.labels).Nodup ∧ (m.aliasOf r.child :: rest).Nodup := by
  rw [← List.cons_append, List.nodup_append'] at h
  obtain ⟨hfirst, hrest, hdisjoint⟩ := h
  refine ⟨hfirst, List.nodup_cons.2 ⟨fun hmem => ?_, hrest⟩⟩
  exact hdisjoint (List.mem_cons_of_mem _ hr.alias_mem_labels) hmem

/-- **The left joins of a walk** bind the rows that it leads to, and leave the other aliases as they
are. -/
theorem mem_joinAll_walk (hwalk : m.Walk t hops) (hone : ∀ r ∈ hops, r.fansOut = false)
    (hnodup : m.AliasesApart t hops) (E : Engine D) (db : Database D) (rows : Ctes D)
    (env : Env D) :
    (∀ env' ∈ joinAll E db rows (hops.flatMap (·.leftJoins)) [env],
      reaches E db true hops (env (m.aliasOf t)) (env' (m.aliasOf (Model.endOf t hops))) ∧
        ∀ a, a ∉ hops.flatMap (·.labels) → env' a = env a) ∧
    ∀ c, reaches E db true hops (env (m.aliasOf t)) c →
      ∃ env' ∈ joinAll E db rows (hops.flatMap (·.leftJoins)) [env],
        env' (m.aliasOf (Model.endOf t hops)) = c := by
  induction hwalk generalizing env with
  | nil =>
    rw [List.flatMap_nil, Sql.joinAll_nil, List.forall_mem_singleton]
    exact ⟨⟨rfl, fun _ _ => rfl⟩, fun c hc => ⟨env, List.mem_singleton_self env, hc.symm⟩⟩
  | @cons t r rest hr _ ih =>
    rw [List.forall_mem_cons] at hone
    rw [Model.AliasesApart, List.flatMap_cons] at hnodup
    obtain ⟨hfirst, hrest⟩ := hr.nodup_labels hnodup
    obtain ⟨hsound, hcomplete⟩ := hr.mem_joinAll_leftJoins hfirst E db rows env
    simp only [List.flatMap_cons, Sql.joinAll_append, Model.endOf_cons,
      Sql.joinAll_flatMap E db (rest.flatMap (·.leftJoins)) (joinAll E db rows r.leftJoins [env]),
      List.mem_flatMap, reaches, hone.1, Bool.not_false, Bool.and_true, if_true, Bool.true_or]
    constructor
    · intro env' henv'
      obtain ⟨env₁, henv₁, henv'⟩ := henv'
      obtain ⟨hfollows, hframe₁⟩ := hsound env₁ henv₁
      obtain ⟨hreaches, hframe⟩ := (ih hone.2 hrest env₁).1 env' henv'
      refine ⟨⟨_, hfollows, hreaches⟩, fun a ha => ?_⟩
      rw [List.mem_append, not_or] at ha
      rw [hframe a ha.2, hframe₁ a ha.1]
    · intro c hc
      obtain ⟨x, hx, hc⟩ := hc
      obtain ⟨env₁, henv₁, rfl⟩ := hcomplete x hx
      obtain ⟨env', henv', hend⟩ := (ih hone.2 hrest env₁).2 c hc
      exact ⟨env', ⟨env₁, henv₁, henv'⟩, hend⟩

/-- Left joins of steps that find at most one row make one environment of one. -/
theorem exists_joinAll_leftJoins (hsingle : ∀ r ∈ hops, ∀ j ∈ r.joins, j.Single E db)
    (rows : Ctes D) (env : Env D) :
    ∃ env', joinAll E db rows (hops.flatMap (·.leftJoins)) [env] = [env'] := by
  have hstep : ∀ join ∈ hops.flatMap (·.leftJoins),
      ∃ j : JoinStep, join = ⟨.left, j.tableRef, j.on⟩ ∧ j.Single E db := by
    intro join hjoin
    obtain ⟨r, hr, hjoin⟩ := List.mem_flatMap.1 hjoin
    obtain ⟨j, hj, rfl⟩ := List.mem_map.1 hjoin
    exact ⟨j, rfl, hsingle r hr j hj⟩
  refine Sql.joinAll_left E db (fun join hjoin => ?_) (fun join hjoin env => ?_) env
  · obtain ⟨j, rfl, -⟩ := hstep join hjoin
    rfl
  · obtain ⟨j, rfl, hone⟩ := hstep join hjoin
    exact hone rows env

/-- **The left joins of a one-to-one walk** bind the one row that it leads to. -/
theorem joinAll_singles (hwalk : m.Walk t hops) (hone : ∀ r ∈ hops, r.fansOut = false)
    (hsingle : ∀ r ∈ hops, ∀ j ∈ r.joins, j.Single E db) (hnodup : m.AliasesApart t hops)
    (rows : Ctes D) (env : Env D) :
    ∃ env', joinAll E db rows (hops.flatMap (·.leftJoins)) [env] = [env'] ∧
      reaches E db true hops (env (m.aliasOf t)) (env' (m.aliasOf (Model.endOf t hops))) ∧
      ∀ a, a ∉ hops.flatMap (·.labels) → env' a = env a := by
  obtain ⟨env', hjoin⟩ := exists_joinAll_leftJoins hsingle rows env
  obtain ⟨hreaches, hframe⟩ := (mem_joinAll_walk hwalk hone hnodup E db rows env).1 env'
    (hjoin ▸ List.mem_singleton_self env')
  exact ⟨env', hjoin, hreaches, hframe⟩

theorem reaches_single (hwalk : m.Walk t hops) (hone : ∀ r ∈ hops, r.fansOut = false)
    (hsingle : ∀ r ∈ hops, ∀ j ∈ r.joins, j.Single E db) (hnodup : m.AliasesApart t hops)
    (ha : reaches E db true hops first a)
    (hb : reaches E db true hops first b) : a = b := by
  -- The one environment that the joins make binds both rows.
  obtain ⟨env, hjoin⟩ := exists_joinAll_leftJoins hsingle (fun _ => [])
    (Env.empty.bind (m.aliasOf t) first)
  obtain ⟨-, hcomplete⟩ := mem_joinAll_walk hwalk hone hnodup E db (fun _ => [])
    (Env.empty.bind (m.aliasOf t) first)
  rw [Env.bind_self, hjoin] at hcomplete
  obtain ⟨env₁, h₁, rfl⟩ := hcomplete a ha
  obtain ⟨env₂, h₂, rfl⟩ := hcomplete b hb
  rw [List.mem_singleton.1 h₁, List.mem_singleton.1 h₂]

/-- So a one-to-one walk leads to exactly one row, if only to NULLs. -/
theorem existsUnique_reaches (hwalk : m.Walk t hops) (hone : ∀ r ∈ hops, r.fansOut = false)
    (hsingle : ∀ r ∈ hops, ∀ j ∈ r.joins, j.Single E db) (hnodup : m.AliasesApart t hops)
    (first : Row D) :
    ∃! last, reaches E db true hops first last := by
  obtain ⟨env', -, hlast, -⟩ := joinAll_singles hwalk hone hsingle hnodup (fun _ => [])
    (Env.empty.bind (m.aliasOf t) first)
  rw [Env.bind_self] at hlast
  exact ⟨_, hlast, fun _ h => reaches_single hwalk hone hsingle hnodup h hlast⟩

theorem Model.OneToOne.single (hdb : m.OneToOne E db) (hwalk : m.Walk t hops) (ht : m.Covers t)
    (hone : ∀ r ∈ hops, r.cardinality = .oneToOne) : ∀ r ∈ hops, ∀ j ∈ r.joins, j.Single E db := by
  intro r hr
  obtain ⟨u, hu, hrel⟩ := hwalk.relates ht r hr
  exact hdb u r hu hrel (hone r hr)

theorem joinAll_walk (hwalk : m.Walk t hops) (ht : m.Covers t)
    (hone : ∀ r ∈ hops, r.cardinality = .oneToOne) (hdb : m.OneToOne E db)
    (hnodup : m.AliasesApart t hops) (rows : Ctes D) (env : Env D) :
    ∃ env', joinAll E db rows (hops.flatMap (·.leftJoins)) [env] = [env'] ∧
      reaches E db true hops (env (m.aliasOf t)) (env' (m.aliasOf (Model.endOf t hops))) ∧
      ∀ a, a ∉ hops.flatMap (·.labels) → env' a = env a :=
  joinAll_singles hwalk (fun r hr => r.fansOut_eq_false_iff.2 (hone r hr))
    (hdb.single hwalk ht hone) hnodup rows env

theorem reaches_unique (hwalk : m.Walk t hops) (ht : m.Covers t)
    (hone : ∀ r ∈ hops, r.cardinality = .oneToOne) (hdb : m.OneToOne E db)
    (hnodup : m.AliasesApart t hops) (ha : reaches E db true hops first a)
    (hb : reaches E db true hops first b) : a = b :=
  reaches_single hwalk (fun r hr => r.fansOut_eq_false_iff.2 (hone r hr))
    (hdb.single hwalk ht hone) hnodup ha hb

theorem reaches_append {extended : Bool} {rs ss : List Relationship} :
    reaches E db extended (rs ++ ss) first last ↔
      ∃ x, reaches E db extended rs first x ∧
        reaches E db (extended || rs.any (·.fansOut)) ss x last := by
  induction rs generalizing extended first with
  | nil => simp [reaches]
  | cons r rs ih =>
    simp only [List.cons_append, reaches, ih, List.any_cons, Bool.or_assoc]
    constructor
    · intro h
      obtain ⟨y, hy, x, hx, hlast⟩ := h
      exact ⟨x, ⟨y, hy, hx⟩, hlast⟩
    · intro h
      obtain ⟨x, ⟨y, hy, hx⟩, hlast⟩ := h
      exact ⟨y, hy, x, hx, hlast⟩

/-- What a path leads to behind its first fan-out. -/
theorem exists_reaches_divided {before rest : List Relationship} {r : Relationship}
    (hfan : r.fansOut = true) {Q : Row D → Prop} {row : Row D} :
    (∃ c, reaches E db true (before ++ r :: rest) row c ∧ Q c) ↔
      ∃ b, reaches E db true before row b ∧
        ∃ a, r.Follows (JoinStep.Links E db) b a ∧ ∃ c, reaches E db true rest a c ∧ Q c := by
  simp only [reaches_append, Bool.true_or, reaches, hfan, Bool.not_true, Bool.and_false,
    Bool.false_eq_true, if_false]
  constructor
  · rintro ⟨c, ⟨b, hb, a, ha, hc⟩, hQ⟩
    exact ⟨b, hb, a, ha, c, hc, hQ⟩
  · rintro ⟨b, hb, a, ha, c, hc, hQ⟩
    exact ⟨c, ⟨b, hb, a, ha, hc⟩, hQ⟩

/-- A one-to-one walk before the fan-out leads to one row, and what lies behind is found from
there. -/
theorem exists_divided_row {before : List Relationship} {r : Relationship}
    (hwalk : m.Walk t before) (hone : ∀ s ∈ before, s.fansOut = false)
    (hsingle : ∀ s ∈ before, ∀ j ∈ s.joins, j.Single E db) (hnodup : m.AliasesApart t before)
    (hfan : r.fansOut = true) (rest : List Relationship) (row : Row D) :
    ∃ b, (∀ Q : Row D → Prop, (∃ b, reaches E db true before row b ∧ Q b) ↔ Q b) ∧
      ∀ Q : Row D → Prop, (∃ a, r.Follows (JoinStep.Links E db) b a ∧
        ∃ c, reaches E db true rest a c ∧ Q c) ↔
          ∃ c, reaches E db true (before ++ r :: rest) row c ∧ Q c := by
  obtain ⟨b, hb, hunique⟩ := existsUnique_reaches hwalk hone hsingle hnodup row
  have hat : ∀ Q : Row D → Prop, (∃ b, reaches E db true before row b ∧ Q b) ↔ Q b :=
    fun Q => ⟨fun ⟨a, ha, hQ⟩ => hunique a ha ▸ hQ, fun hQ => ⟨b, hb, hQ⟩⟩
  exact ⟨b, hat, fun Q => by rw [exists_reaches_divided hfan, hat]⟩

/-! ## Rows of NULLs -/

theorem not_links_null : ¬ j.Links E db Row.null row := by
  intro h
  obtain ⟨-, ⟨v, hv, -⟩, -⟩ := h
  cases hv

theorem leftLinks_null : j.LeftLinks E db Row.null row ↔ row = Row.null := by
  refine ⟨fun h => ?_, fun h => .inr ⟨fun _ => not_links_null, h⟩⟩
  exact h.elim (fun h => absurd h not_links_null) (·.2)

theorem not_follows_null : ¬ r.Follows (JoinStep.Links E db) Row.null row := by
  rw [Relationship.Follows]
  split
  · exact not_links_null
  · intro h
    obtain ⟨x, hx, -⟩ := h
    exact not_links_null hx

/-- Through left joins a relationship leads to a linked row or to NULLs. -/
theorem follows_or_null (h : r.Follows (JoinStep.LeftLinks E db) first row) :
    r.Follows (JoinStep.Links E db) first row ∨ row = Row.null := by
  rw [Relationship.Follows] at h ⊢
  split at h
  · exact h.imp_right (·.2)
  · obtain ⟨x, hx, hrow⟩ := h
    rcases hx with hx | ⟨-, rfl⟩
    · exact hrow.imp (fun hrow => ⟨x, hx, hrow⟩) (·.2)
    · exact .inr (leftLinks_null.1 hrow)

theorem follows_left (h : r.Follows (JoinStep.Links E db) first row) :
    r.Follows (JoinStep.LeftLinks E db) first row := by
  rw [Relationship.Follows] at h ⊢
  split at h
  · exact .inl h
  · obtain ⟨x, hx, hrow⟩ := h
    exact ⟨x, .inl hx, .inl hrow⟩

/-- No row is found across a fan-out from a row of NULLs. -/
theorem not_reaches_null (h : ∃ r ∈ hops, r.fansOut = true) :
    ¬ reaches E db true hops Row.null last := by
  induction hops with
  | nil => simp at h
  | cons r rest ih =>
    intro hex
    obtain ⟨x, hx, hlast⟩ := hex
    by_cases hmany : r.fansOut
    · simp only [hmany, Bool.not_true, Bool.and_false, Bool.false_eq_true, if_false] at hx
      exact not_follows_null hx
    · have hrest : ∃ s ∈ rest, s.fansOut = true := by simpa [hmany] using h
      simp only [hmany, Bool.not_false, Bool.and_true, if_true] at hx
      rcases follows_or_null hx with hx | rfl
      · exact not_follows_null hx
      · exact ih hrest (by simpa using hlast)

/-- Before a fan-out it makes no difference whether a missing row is a row of NULLs. -/
theorem reaches_extended (h : ∃ r ∈ hops, r.fansOut = true) :
    reaches E db false hops first last ↔ reaches E db true hops first last := by
  induction hops generalizing first with
  | nil => simp at h
  | cons r rest ih =>
    by_cases hmany : r.fansOut
    · simp [reaches, hmany]
    · have hrest : ∃ s ∈ rest, s.fansOut = true := by simpa [hmany] using h
      simp only [reaches, hmany, Bool.not_false, Bool.and_true, Bool.false_eq_true, if_false,
        if_true, Bool.or_false, ih hrest]
      constructor
      · intro hex
        obtain ⟨x, hx, hlast⟩ := hex
        exact ⟨x, follows_left hx, hlast⟩
      · intro hex
        obtain ⟨x, hx, hlast⟩ := hex
        rcases follows_or_null hx with hx | rfl
        · exact ⟨x, hx, hlast⟩
        · exact absurd hlast (not_reaches_null hrest)

end EntityQuery
