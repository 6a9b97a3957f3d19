import EntityQuery.Proofs.Predicate.Columns
import EntityQuery.Proofs.Predicate.Elements
import EntityQuery.Proofs.Predicate.Failing
import EntityQuery.Proofs.Sql.Counting

/-!
# What is found along a path

What a condition on related rows finds does not depend on where it is written. `Predicate.Asks` says
of a predicate that in every scope over a table, and behind any CTEs, it is written as a condition
that finds the rows with some property. Nothing is assumed of the database: where a one-to-one
relationship leads to several rows, the condition is true of one of them.

**Keys.** A CTE keeps the keys it collects whatever is written behind it (`Collects`), because the
CTEs have different names. So the tests of several CTEs may stand side by side behind one walk
(`finds_tests`).

**Paths.** A family of predicates, one for each path, that is divided at the first fan-out into a
check of related rows finds at the end of every path what it finds without a fan-out (`asks_path`).
For comparisons with ANY that is `asks_compare_any`.
-/

namespace EntityQuery

open EntityQuery.Sql (Expr Query Engine Database Ctes Env Row Record Truth joinAll bindCtes)

/-! ## Some or all -/

namespace Quantifier

/-- One of those in `S` has the property, or all have it. -/
def Over {α : Type} : Quantifier → (α → Prop) → (α → Prop) → Prop
  | any, S, P => ∃ a, S a ∧ P a
  | all, S, P => ∀ a, S a → P a

section

variable {α β : Type} {S P P' : α → Prop}

theorem over_congr (q : Quantifier) (h : ∀ a, S a → (P a ↔ P' a)) :
    q.Over S P ↔ q.Over S P' := by
  cases q with
  | any => exact exists_congr fun a => and_congr_right (h a)
  | all => exact forall₂_congr h

theorem over_map (q : Quantifier) {as : List α} {f : α → β} {P : β → Prop} :
    q.Over (· ∈ as.map f) P ↔ q.Over (· ∈ as) fun a => P (f a) := by
  cases q <;> simp [Over]

/-- Of a single one, both say the same. -/
theorem over_unique (q : Quantifier) {b : α} (hb : S b) (hunique : ∀ a, S a → a = b) :
    q.Over S P ↔ P b := by
  cases q with
  | any => exact ⟨fun ⟨a, ha, hP⟩ => hunique a ha ▸ hP, fun hP => ⟨b, hb, hP⟩⟩
  | all => exact ⟨fun h => h b hb, fun hP a ha => (hunique a ha).symm ▸ hP⟩

theorem not_over_flip (q : Quantifier) : ¬ q.flip.Over S P ↔ q.Over S fun a => ¬ P a := by
  cases q <;> simp [Over, flip]

end

theorem truth_eq_true (q : Quantifier) {as : List Truth} :
    q.truth as = some true ↔ q.Over (· ∈ as) (· = some true) := by
  cases q with
  | any => exact Truth.any_eq_true.trans (by simp [Over])
  | all =>
    induction as with
    | nil => simp [truth, Truth.all, Over]
    | cons a as ih =>
      rw [truth_cons]
      simp only [Over, List.forall_mem_cons] at ih ⊢
      rw [← ih]
      rcases a with _ | _ | _ <;> rcases all.truth as with _ | _ | _ <;>
        simp [connective, Connective.truth, Truth.and]

end Quantifier

variable {D : Type} [DecidableEq D] {E : Engine D} {db : Database D} {ctes : List Sql.Cte}
  {inverted : Bool} {rows : Ctes D} {origin : JoinOrigin} {f : Frame}

/-! ## Tests of keys -/

/-- The test whether a key was found in the CTE; `inverted`, whether none was. -/
def keyTest (inverted : Bool) (name : String) : Expr :=
  .isNull (.ofTable name linkColumn) (!inverted)

theorem truth_keyTest {name : String} {group : List (Env D)} {env : Env D} :
    E.truth ((keyTest inverted name).eval E db rows group env) = some true ↔
      ((env name linkColumn).isSome ↔ inverted = false) := by
  rw [keyTest, truth_isNull, Bool.not_eq_true']
  simp only [Expr.ofTable, Expr.eval]

/-- The CTE has the key of the row. -/
def Relationship.HasKey (r : Relationship) (rows : Ctes D) (name : String) (parent : Row D) :
    Prop :=
  ∃ v, parent r.firstJoin.leftColumn = some v ∧ ∃ x ∈ rows name, x linkColumn = some v

/-- The joins of several CTEs at one row bind a row each: one with its key, if it is there. -/
theorem joinAll_keyJoins (E : Engine D) (db : Database D) {r : Relationship} {names : List String}
    (hnodup : names.Nodup) (hparent : r.firstJoin.left ∉ names)
    (hkeys : ∀ name ∈ names, ((rows name).map fun row => row linkColumn).Nodup) (env : Env D) :
    ∃ env', joinAll E db rows (names.map r.keyJoin) [env] = [env'] ∧
      (∀ a, a ∉ names → env' a = env a) ∧
      ∀ name ∈ names,
        (env' name linkColumn).isSome ↔ r.HasKey rows name (env r.firstJoin.left) := by
  induction names generalizing env with
  | nil => exact ⟨env, Sql.joinAll_nil E db _, fun _ _ => rfl, by simp⟩
  | cons name names ih =>
    rw [List.nodup_cons] at hnodup
    rw [List.mem_cons, not_or] at hparent
    rw [List.forall_mem_cons] at hkeys
    obtain ⟨row, hjoin, hrow⟩ :=
      joinOne_keys E db hkeys.1 hparent.1 r.firstJoin.leftColumn env
    obtain ⟨env', hrest, hframe, hnames⟩ :=
      ih hnodup.2 hparent.2 hkeys.2 (env.bind name row)
    refine ⟨env', ?_, fun a ha => ?_, List.forall_mem_cons.2 ⟨?_, ?_⟩⟩
    · rw [List.map_cons, Sql.joinAll_cons, List.flatMap_singleton, ← hrest]
      exact congrArg _ hjoin
    · rw [List.mem_cons, not_or] at ha
      rw [hframe a ha.2, Env.bind_of_ne ha.1]
    · rw [hframe name hnodup.1, Env.bind_self]
      exact hrow
    · rwa [Env.bind_of_ne hparent.1] at hnames

/-- The tests of several CTEs behind a walk. -/
theorem finds_tests (E : Engine D) (db : Database D) {m : Model} {t : Table}
    {before : List Relationship} {r : Relationship} {names : List String} {q : Quantifier}
    {x : Expr} (hwalk : m.Walk t before) (hr : m.Relates (Model.endOf t before) r)
    (hone : ∀ s ∈ before, s.fansOut = false) (hnaming : m.naming.AvoidsCtes)
    (hbefore : m.AliasesApart t before) (hnodup : names.Nodup)
    (hctes : ∀ name ∈ names, ∃ i, name = Build.cteName i)
    (hkeys : ∀ name ∈ names, ((rows name).map fun row => row linkColumn).Nodup)
    (hx : Expr.combine q.connective.binary (names.map (keyTest inverted)) = some x) :
    Finds E db rows (before.flatMap (·.leftJoins) ++ names.map r.keyJoin) x
      (before.flatMap (·.labels)) (m.aliasOf t) fun row =>
        ∃ p, reaches E db true before row p ∧
          q.Over (· ∈ names) fun name => r.HasKey rows name p ↔ inverted = false := by
  have hleft : r.firstJoin.left = m.aliasOf (Model.endOf t before) := hr.firstJoin_left
  have hparent : r.firstJoin.left ∉ names := by
    intro hmem
    obtain ⟨i, hi⟩ := hctes _ hmem
    rw [hleft] at hi
    exact hnaming _ i hi
  have htruth : ∀ env : Env D, E.truth (x.eval E db rows [env] env) = some true ↔
      q.Over (· ∈ names) fun name => (env name linkColumn).isSome ↔ inverted = false := by
    intro env
    rw [truth_combine q hx, q.truth_eq_true, q.over_map, q.over_map]
    exact q.over_congr fun name _ => truth_keyTest
  intro env
  obtain ⟨hsound, hcomplete⟩ := mem_joinAll_walk hwalk hone hbefore E db rows env
  have htests := fun env₁ => joinAll_keyJoins E db hnodup hparent hkeys env₁
  have hmem : ∀ env', env' ∈ joinAll E db rows
      (before.flatMap (·.leftJoins) ++ names.map r.keyJoin) [env] ↔
      ∃ env₁ ∈ joinAll E db rows (before.flatMap (·.leftJoins)) [env],
        env' ∈ joinAll E db rows (names.map r.keyJoin) [env₁] := by
    intro env'
    rw [Sql.joinAll_append, Sql.joinAll_flatMap E db (names.map r.keyJoin), List.mem_flatMap]
  constructor
  · intro env' henv' a ha hnot
    obtain ⟨env₁, henv₁, henv'⟩ := (hmem env').1 henv'
    obtain ⟨env₂, hjoin, hframe, -⟩ := htests env₁
    rw [hjoin, List.mem_singleton] at henv'
    have hname : a ∉ names := by
      intro hmem
      obtain ⟨i, hi⟩ := hctes a hmem
      exact hnot i hi
    rw [henv', hframe a hname, (hsound env₁ henv₁).2 a ha]
  · simp only [hmem, htruth]
    constructor
    · rintro ⟨env', ⟨env₁, henv₁, henv'⟩, htrue⟩
      obtain ⟨env₂, hjoin, -, hfound⟩ := htests env₁
      rw [hjoin, List.mem_singleton] at henv'
      subst henv'
      refine ⟨_, (hsound env₁ henv₁).1, ?_⟩
      rw [← hleft]
      exact (q.over_congr fun name hname => iff_congr (hfound name hname) Iff.rfl).1 htrue
    · rintro ⟨p, hp, htrue⟩
      obtain ⟨env₁, henv₁, rfl⟩ := hcomplete p hp
      obtain ⟨env₂, hjoin, -, hfound⟩ := htests env₁
      refine ⟨env₂, ⟨env₁, henv₁, hjoin ▸ List.mem_singleton_self env₂⟩, ?_⟩
      rw [← hleft] at htrue
      exact (q.over_congr fun name hname => iff_congr (hfound name hname) Iff.rfl).2 htrue

/-! ## Collected keys -/

/-- Whatever CTEs follow, the one of this name has the keys of the rows from which the relationship
leads to one with `Q`, each once. -/
def Collects (E : Engine D) (db : Database D) (ctes : List Sql.Cte) (r : Relationship)
    (name : String) (Q : Row D → Prop) : Prop :=
  ∀ later rows, ctes <+: later → Numbered later →
    rows.AgreeOn (cteNames later) (bindCtes E db (fun _ => []) later) →
    ((rows name).map fun row => row linkColumn).Nodup ∧
      ∀ parent, r.HasKey rows name parent ↔ ∃ c, r.Follows (JoinStep.Links E db) parent c ∧ Q c

theorem Collects.mono {ctes' : List Sql.Cte} {r : Relationship} {name : String} {Q : Row D → Prop}
    (h : Collects E db ctes r name Q) (hsub : ctes <+: ctes') : Collects E db ctes' r name Q :=
  fun later rows hlater => h later rows (hsub.trans hlater)

/-- The rows of a CTE are found with the CTEs before it. -/
theorem rows_of_prefix {later : List Sql.Cte} {keys : Query}
    (hsub : ctes ++ [⟨Build.cteName ctes.length, keys⟩] <+: later) (hlater : Numbered later)
    (hrows : rows.Binds E db later) :
    rows (Build.cteName ctes.length) =
      (keys.records E db (bindCtes E db (fun _ => []) ctes) Env.empty).map Record.row := by
  obtain ⟨rest, rfl⟩ := hsub
  rw [hrows _ (by simp [cteNames]), ← Sql.agreeOn_bindCtes hlater.nodup _ (by simp),
    Sql.bindCtes_append, if_pos rfl]

/-- The CTE of a condition collects the keys of what the condition finds. -/
theorem collects_keys {m : Model} {t : Table} {r : Relationship} {body : Scope} {x : Expr}
    {names : List String} {Q : Row D → Prop} (hr : m.Relates t r) (hnaming : m.naming.AvoidsCtes)
    (hnodup : (r.labels ++ names).Nodup) (hgrows : (Scope.ofRelationship r).Grows body)
    (hfinds : Finds E db (bindCtes E db (fun _ => []) ctes) (body.joins.map (·.join)) x names
      (m.aliasOf r.child) Q) :
    Collects E db (ctes ++ [⟨Build.cteName ctes.length,
        body.apply (keysQuery r.linkKey (body.baseFilters ++ [x]) none) false⟩])
      r (Build.cteName ctes.length) Q := by
  obtain ⟨hlabels, -, hdisjoint⟩ := List.nodup_append'.1 hnodup
  intro later rows hsub hlater hrows
  have hcte := rows_of_prefix hsub hlater hrows
  constructor
  · rw [hcte, List.map_map]
    exact (selectsKeys_keysQuery r _ none body).nodup E db _ _
  · intro parent
    rw [Relationship.HasKey, hcte]
    exact exists_key_iff hr hlabels hgrows (hfinds.at_child hr hnaming hdisjoint) parent

/-- **Tests side by side.** Behind a walk, the tests of several CTEs ask what the CTEs collect. -/
theorem finds_collected {m : Model} {t : Table} {before : List Relationship} {r : Relationship}
    {tests : List (String × (Row D → Prop))} {q : Quantifier} {x : Expr} (hwalk : m.Walk t before)
    (hr : m.Relates (Model.endOf t before) r) (hone : ∀ s ∈ before, s.fansOut = false)
    (hnaming : m.naming.AvoidsCtes) (hbefore : m.AliasesApart t before)
    (hnodup : (tests.map (·.1)).Nodup)
    (htests : ∀ test ∈ tests, (∃ i, test.1 = Build.cteName i) ∧ Collects E db ctes r test.1 test.2)
    (hnumbered : Numbered ctes)
    (hrows : rows.Binds E db ctes)
    (hx : Expr.combine q.connective.binary (tests.map fun test => keyTest inverted test.1) =
      some x) :
    Finds E db rows (before.flatMap (·.leftJoins) ++ tests.map fun test => r.keyJoin test.1) x
      (before.flatMap (·.labels)) (m.aliasOf t) fun row =>
        ∃ b, reaches E db true before row b ∧
          q.Over (· ∈ tests) fun test =>
            (∃ a, r.Follows (JoinStep.Links E db) b a ∧ test.2 a) ↔ inverted = false := by
  have hcollected := fun test htest =>
    (htests test htest).2 ctes rows List.prefix_rfl hnumbered hrows
  have hfinds := finds_tests E db hwalk hr hone hnaming hbefore hnodup
    (List.forall_mem_map.2 fun test htest => (htests test htest).1)
    (List.forall_mem_map.2 fun test htest => (hcollected test htest).1)
    (by rw [List.map_map]; exact hx)
  rw [List.map_map] at hfinds
  refine hfinds.imp (List.Subset.refl _) fun row => exists_congr fun b =>
    and_congr_right fun _ => ?_
  rw [q.over_map]
  exact q.over_congr fun test htest => iff_congr ((hcollected test htest).2 b) Iff.rfl

/-! ## Predicates that find rows -/

/-- In every scope over the table, and behind any CTEs, the predicate is written as a condition that
finds the rows with `Q`. -/
def Predicate.Asks (E : Engine D) (db : Database D) (m : Model) (t : Table) (p : Predicate)
    (names : List String) (Q : Row D → Prop) : Prop :=
  ∀ (s : Scope) (ctes : List Sql.Cte) (origin : JoinOrigin), s.root = t → s.joins = [] →
    Numbered ctes →
    ∃ x g, (p.compile m origin).Gives ⟨s, ctes⟩ (some x) g ∧
      ∀ rows, rows.AgreeOn (cteNames g.ctes) (bindCtes E db (fun _ => []) g.ctes) →
        Finds E db rows (g.scope.joins.map (·.join)) x names (m.aliasOf t) Q

/-- A check of related rows is written as the test of a CTE that collects them. -/
theorem exists_render_related {m : Model} {via : Path} {route : Route} {s : Scope} {c : Predicate}
    {names : List String} {Q : Row D → Prop}
    (hroute : m.resolveRelationship f.scope.root via = .ok route)
    (hs : f.scope.joinHops route.before origin = .ok s) (hnumbered : Numbered f.ctes)
    (hfresh : ∀ i, f.ctes.length ≤ i → JoinKey.cte (Build.cteName i) ∉ s.joins.map (·.key))
    (hnaming : m.naming.AvoidsCtes) (hnodup : (route.last.labels ++ names).Nodup)
    (hc : c.Asks E db m route.last.child names Q) (inverted : Bool) :
    ∃ i g, f.ctes.length ≤ i ∧ g.ctes.length = i + 1 ∧ Numbered g.ctes ∧
      ((Predicate.related via c inverted none).render m origin).Gives f
        (some (keyTest inverted (Build.cteName i))) g ∧
      g.scope.joins.map (·.join) =
        s.joins.map (·.join) ++ [route.last.keyJoin (Build.cteName i)] ∧
      g.scope.joins.map (·.key) = s.joins.map (·.key) ++ [.cte (Build.cteName i)] ∧
      Collects E db g.ctes route.last (Build.cteName i) Q := by
  obtain ⟨-, hlast⟩ := Model.walk_of_resolveRelationship hroute
  obtain ⟨x, g, hx, hfinds⟩ := hc (.ofRelationship route.last) f.ctes .filter rfl rfl hnumbered
  have hgrows := grows_compile hx
  have hlength : f.ctes.length ≤ g.ctes.length := hgrows.ctes.length_le
  have hrender : ((Predicate.related via c inverted none).render m origin).Gives f
      (some (keyTest inverted (Build.cteName g.ctes.length)))
      (Frame.withKeys s g.ctes route.last (g.scope.apply (keysQuery route.last.linkKey
        (g.scope.baseFilters ++ [x]) none) false) origin) :=
    gives_render_related.2 ⟨route, s, some x, g, none, g.scope, g.ctes, hroute, hs, hx,
      gives_joinThreshold.2 (.inl ⟨rfl, rfl, rfl⟩), rfl, rfl⟩
  obtain ⟨hjoins, hkeys⟩ := map_withKeys (hfresh _ hlength)
  have hnumbered' : Numbered g.ctes :=
    (writes_compile (Predicate.onTables_true c) hx).numbered hnumbered
  exact ⟨g.ctes.length, _, hlength, by simp [Frame.withKeys], hnumbered'.append, hrender, hjoins,
    hkeys, collects_keys hlast hnaming hnodup hgrows.scope (hfinds _ fun _ _ => rfl)⟩

section

variable {m : Model} {t : Table} {p : Predicate} {via : Path} {route : Route} {names : List String}
  {Q Q' : Row D → Prop} {r : Relationship} {before : List Relationship} {c : Predicate}

/-- Two checks through one path are written with a CTE each, both joined behind one walk. -/
theorem exists_renderAll_related {d : Predicate} (hjoins : f.scope.joins = [])
    (hnumbered : Numbered f.ctes) (hroute : m.resolveRelationship f.scope.root via = .ok route)
    (hnaming : m.naming.AvoidsCtes) (hbefore : (route.before.flatMap (·.labels)).Nodup)
    (hnodup : (route.last.labels ++ names).Nodup) (hc : c.Asks E db m route.last.child names Q)
    (hd : d.Asks E db m route.last.child names Q') (inverted : Bool) :
    ∃ i k g, i ≠ k ∧ Numbered g.ctes ∧
      (renderAll m [.related via c inverted none, .related via d inverted none] origin).Gives f
        [keyTest inverted (Build.cteName i), keyTest inverted (Build.cteName k)] g ∧
      g.scope.joins.map (·.join) = route.before.flatMap (·.leftJoins) ++
        [route.last.keyJoin (Build.cteName i), route.last.keyJoin (Build.cteName k)] ∧
      Collects E db g.ctes route.last (Build.cteName i) Q ∧
      Collects E db g.ctes route.last (Build.cteName k) Q' := by
  obtain ⟨hwalk, -⟩ := Model.walk_of_resolveRelationship hroute
  obtain ⟨s₁, hs₁⟩ := Scope.exists_joinHops hwalk origin
  obtain ⟨hjs, hks⟩ := joins_joinHops hwalk hjoins hbefore hs₁
  have htables : ∀ i, JoinKey.cte (Build.cteName i) ∉ s₁.joins.map (·.key) := by
    intro i
    rw [hks]
    exact cte_notMem_walkKeys _ _
  obtain ⟨i, g, -, hlength, hnumbered₁, hrender₁, hjoins₁, hkeys₁, hcollects₁⟩ :=
    exists_render_related hroute hs₁ hnumbered (fun i _ => htables i) hnaming hnodup hc inverted
  -- The second check finds the walk joined, and the key of the first CTE beside it.
  have hroot : g.scope.root = f.scope.root :=
    (writes_render (Predicate.onTables_true _) hrender₁).grows.scope.root
  obtain ⟨s₂, hs₂⟩ := Scope.exists_joinHops (hroot ▸ hwalk) origin
  obtain ⟨hjoins₂, hkeys₂⟩ := Scope.joinHops_again hs₁
    (by rw [hkeys₁]; exact List.subset_append_left _ _) hs₂
  have hfresh : ∀ k, g.ctes.length ≤ k →
      JoinKey.cte (Build.cteName k) ∉ s₂.joins.map (·.key) := by
    intro k hk hmem
    rw [hkeys₂, hkeys₁, List.mem_append, List.mem_singleton] at hmem
    have := cteName_inj.1 (JoinKey.cte.inj (hmem.resolve_left (htables k)))
    omega
  obtain ⟨k, h, hk, -, hnumbered₂, hrender₂, hjoins₃, -, hcollects₂⟩ :=
    exists_render_related (hroot ▸ hroute) hs₂ hnumbered₁ hfresh hnaming hnodup hd inverted
  have hgrows := (writes_render (Predicate.onTables_true _) hrender₂).grows
  refine ⟨i, k, h, by omega, hnumbered₂, ?_, ?_, hcollects₁.mono hgrows.ctes, hcollects₂⟩
  · exact gives_renderAll_cons.2 ⟨_, g, _, hrender₁, gives_renderAll_cons.2 ⟨_, h, [], hrender₂,
      gives_renderAll_nil.2 ⟨rfl, rfl⟩, rfl⟩, rfl⟩
  · rw [hjoins₃, hjoins₂, hjoins₁, hjs, List.append_assoc]
    rfl

section

variable (hroute : m.resolveRelationship t via = .ok route)
  (hone : ∀ r ∈ route.before, r.fansOut = false) (hnaming : m.naming.AvoidsCtes)
  (hbefore : m.AliasesApart t route.before) (hnodup : (route.last.labels ++ names).Nodup)
  (hc : c.Asks E db m route.last.child names Q)

include hroute hone hnaming hbefore hnodup hc

/-- **One check of related rows.** -/
theorem asks_related (hp : p.normal m t = .ok (.related via c inverted none)) :
    p.Asks E db m t (route.before.flatMap (·.labels)) fun row =>
      ∃ b, reaches E db true route.before row b ∧
        ((∃ a, route.last.Follows (JoinStep.Links E db) b a ∧ Q a) ↔ inverted = false) := by
  intro s ctes origin hroot hjoins hnumbered
  subst hroot
  obtain ⟨hwalk, hlast⟩ := Model.walk_of_resolveRelationship hroute
  obtain ⟨s', hs⟩ := Scope.exists_joinHops hwalk origin
  obtain ⟨hjs, hks⟩ := joins_joinHops hwalk hjoins (List.nodup_cons.1 hbefore).2 hs
  have hfresh : ∀ i, ctes.length ≤ i → JoinKey.cte (Build.cteName i) ∉ s'.joins.map (·.key) := by
    intro i _
    rw [hks]
    exact cte_notMem_walkKeys _ _
  obtain ⟨i, g, -, -, hnumbered', hrender, hjoins', -, hcollects⟩ :=
    exists_render_related (f := ⟨s, ctes⟩) hroute hs hnumbered hfresh hnaming hnodup hc inverted
  refine ⟨_, g, gives_compile.2 ⟨_, hp, hrender⟩, fun rows hrows => ?_⟩
  have hnames : ([(Build.cteName i, Q)].map (·.1)).Nodup := List.nodup_singleton _
  rw [hjoins', hjs]
  refine (finds_collected (q := .any) hwalk hlast hone hnaming hbefore hnames
    (List.forall_mem_singleton.2 ⟨⟨i, rfl⟩, hcollects⟩) hnumbered' hrows rfl).imp
    (List.Subset.refl _) fun row => exists_congr fun b => and_congr_right fun _ => ?_
  simp [Quantifier.Over]

/-- **Two checks through one path**, joined by a connective. -/
theorem asks_pair {d : Predicate} {q : Quantifier} (hp : p.normal m t = .ok (.group q.connective
      [.related via c inverted none, .related via d inverted none]))
    (hd : d.Asks E db m route.last.child names Q') :
    p.Asks E db m t (route.before.flatMap (·.labels)) fun row =>
      ∃ b, reaches E db true route.before row b ∧
        q.Over (· ∈ [Q, Q']) fun R =>
          (∃ a, route.last.Follows (JoinStep.Links E db) b a ∧ R a) ↔ inverted = false := by
  intro s ctes origin hroot hjoins hnumbered
  subst hroot
  obtain ⟨hwalk, hlast⟩ := Model.walk_of_resolveRelationship hroute
  obtain ⟨i, k, g, hne, hnumbered', hall, hjs, hcollects, hcollects'⟩ :=
    exists_renderAll_related (f := ⟨s, ctes⟩) hjoins hnumbered hroute hnaming
      (List.nodup_cons.1 hbefore).2 hnodup hc hd inverted
  obtain ⟨x, hx⟩ : ∃ x, Expr.combine q.connective.binary
      [keyTest inverted (Build.cteName i), keyTest inverted (Build.cteName k)] = some x := ⟨_, rfl⟩
  refine ⟨x, g, gives_compile.2 ⟨_, hp, gives_render_group.2 ⟨_, hall, hx.symm⟩⟩,
    fun rows hrows => ?_⟩
  have hnames : ([(Build.cteName i, Q), (Build.cteName k, Q')].map (·.1)).Nodup := by
    simpa using mt cteName_inj.1 hne
  have htests : ∀ test ∈ [(Build.cteName i, Q), (Build.cteName k, Q')],
      (∃ j, test.1 = Build.cteName j) ∧ Collects E db g.ctes route.last test.1 test.2 := by
    rw [List.forall_mem_cons, List.forall_mem_singleton]
    exact ⟨⟨⟨i, rfl⟩, hcollects⟩, ⟨k, rfl⟩, hcollects'⟩
  rw [hjs]
  refine (finds_collected hwalk hlast hone hnaming hbefore hnames htests hnumbered' hrows hx).imp
    (List.Subset.refl _) fun row => exists_congr fun b => and_congr_right fun _ => ?_
  cases q <;> simp [Quantifier.Over]

end

/-! ## Comparisons without a fan-out -/

/-- The operand is written as this condition, with nothing beside it. -/
def Operand.Plain (m : Model) (operand : Operand) (target : Target) (op : Operator)
    (q : Quantifier) (x : Expr) : Prop :=
  ∀ f, (operand.render m target op q).Gives f x f

/-- What is true of a row that a walk leads to is found beside the joins of the walk. -/
theorem finds_walk {hops : List Relationship} {x : Expr} (hwalk : m.Walk t hops)
    (hone : ∀ r ∈ hops, r.fansOut = false) (hnodup : m.AliasesApart t hops)
    (hx : ∀ env, E.truth (x.eval E db rows [env] env) = some true ↔
      Q (env (m.aliasOf (Model.endOf t hops)))) :
    Finds E db rows (hops.flatMap (·.leftJoins)) x (hops.flatMap (·.labels)) (m.aliasOf t)
      fun row => ∃ c, reaches E db true hops row c ∧ Q c := by
  intro env
  obtain ⟨hsound, hcomplete⟩ := mem_joinAll_walk hwalk hone hnodup E db rows env
  refine ⟨fun env' henv' a ha _ => (hsound env' henv').2 a ha, ?_⟩
  simp only [hx]
  constructor
  · rintro ⟨env', henv', hQ⟩
    exact ⟨_, (hsound env' henv').1, hQ⟩
  · rintro ⟨c, hc, hQ⟩
    obtain ⟨env', henv', rfl⟩ := hcomplete c hc
    exact ⟨env', henv', hQ⟩

section

variable {path : Path} {res : Resolution} {operand : Operand} {q : Quantifier} {op : Operator}
  {x : Expr}

theorem gives_render_plain {s : Scope} (hres : m.resolve f.scope.root path = .ok res)
    (hone : res.crossesMany = false) (hs : f.scope.joinHops res.hops origin = .ok s)
    (hx : operand.Plain m ⟨m.columnExpr res.table res.column, res.column.type, path⟩ op q x) :
    ((Predicate.compare path op operand q).render m origin).Gives f (some x) ⟨s, f.ctes⟩ :=
  gives_render_compare.2 ⟨_, _, x, gives_joinColumn.2 ⟨res, s, hres, hone, hs, rfl, rfl⟩, hx _, rfl⟩

variable (hres : m.resolve t path = .ok res) (hone : res.crossesMany = false)
  (hnodup : m.AliasesApart t res.hops)
  (hx : operand.Plain m ⟨m.columnExpr res.table res.column, res.column.type, path⟩ op q x)

include hres hone hnodup hx

/-- **One comparison** of the column that a path leads to. -/
theorem asks_plain (hp : p.normal m t = .ok (.compare path op operand q))
    (hQ : ∀ rows env, E.truth (x.eval E db rows [env] env) = some true ↔
      Q (env (m.aliasOf res.table))) :
    p.Asks E db m t (res.hops.flatMap (·.labels)) fun row =>
      ∃ c, reaches E db true res.hops row c ∧ Q c := by
  intro s ctes origin hroot hjoins _
  subst hroot
  obtain ⟨hwalk, htable⟩ := Model.walk_of_resolve hres
  obtain ⟨s', hs⟩ := Scope.exists_joinHops hwalk origin
  obtain ⟨hjs, -⟩ := joins_joinHops hwalk hjoins (List.nodup_cons.1 hnodup).2 hs
  refine ⟨x, _, gives_compile.2 ⟨_, hp, gives_render_plain (f := ⟨s, ctes⟩) hres hone hs hx⟩,
    fun rows _ => ?_⟩
  rw [htable] at hQ
  rw [hjs]
  exact finds_walk hwalk (Resolution.crossesMany_eq_false.1 hone) hnodup (hQ rows)

/-- **Two comparisons of one column**, joined by a connective. The second finds the walk joined. -/
theorem asks_plain_pair {op' : Operator} {operand' : Operand} {q' k : Quantifier} {x' y : Expr}
    (hp : p.normal m t = .ok (.group k.connective
      [.compare path op operand q, .compare path op' operand' q']))
    (hx' : operand'.Plain m ⟨m.columnExpr res.table res.column, res.column.type, path⟩ op' q' x')
    (hy : Expr.combine k.connective.binary [x, x'] = some y)
    (hQ : ∀ rows env, E.truth (y.eval E db rows [env] env) = some true ↔
      Q (env (m.aliasOf res.table))) :
    p.Asks E db m t (res.hops.flatMap (·.labels)) fun row =>
      ∃ c, reaches E db true res.hops row c ∧ Q c := by
  intro s ctes origin hroot hjoins _
  subst hroot
  obtain ⟨hwalk, htable⟩ := Model.walk_of_resolve hres
  obtain ⟨s₁, hs₁⟩ := Scope.exists_joinHops hwalk origin
  obtain ⟨hjs, -⟩ := joins_joinHops hwalk hjoins (List.nodup_cons.1 hnodup).2 hs₁
  have hroot : s₁.root = s.root := (Scope.grows_joinHops hs₁).root
  obtain ⟨s₂, hs₂⟩ := Scope.exists_joinHops (hroot ▸ hwalk) origin
  obtain ⟨hagain, -⟩ := Scope.joinHops_again hs₁ (List.Subset.refl _) hs₂
  have hfirst := gives_render_plain (f := ⟨s, ctes⟩) hres hone hs₁ hx
  have hsecond := gives_render_plain (f := ⟨s₁, ctes⟩) (hroot ▸ hres) hone hs₂ hx'
  have hall : (renderAll m [.compare path op operand q, .compare path op' operand' q']
      origin).Gives ⟨s, ctes⟩ [x, x'] ⟨s₂, ctes⟩ :=
    gives_renderAll_cons.2 ⟨_, _, _, hfirst, gives_renderAll_cons.2 ⟨_, _, [], hsecond,
      gives_renderAll_nil.2 ⟨rfl, rfl⟩, rfl⟩, rfl⟩
  refine ⟨y, _, gives_compile.2 ⟨_, hp, gives_render_group.2 ⟨_, hall, hy.symm⟩⟩, fun rows _ => ?_⟩
  rw [htable] at hQ
  rw [hagain, hjs]
  exact finds_walk hwalk (Resolution.crossesMany_eq_false.1 hone) hnodup (hQ rows)

end

/-! ## Paths -/

theorem Predicate.Asks.imp {names' : List String} (h : p.Asks E db m t names Q)
    (hnames : names ⊆ names') (hQ : ∀ row, Q row ↔ Q' row) : p.Asks E db m t names' Q' := by
  intro s ctes origin hroot hjoins hnumbered
  obtain ⟨x, g, hx, hfinds⟩ := h s ctes origin hroot hjoins hnumbered
  exact ⟨x, g, hx, fun rows hrows => (hfinds rows hrows).imp hnames hQ⟩

/-- A row passes what is asked of it. -/
theorem Predicate.Asks.passes (h : p.Asks E db m t names Q) (origin : JoinOrigin) :
    ∃ e g, (p.compile m origin).Gives ⟨.ofTable m t, []⟩ e g ∧
      ∀ row, g.Passes E db m e row ↔ Q row := by
  obtain ⟨x, g, hx, hfinds⟩ := h (.ofTable m t) [] origin rfl rfl numbered_nil
  refine ⟨some x, g, hx, fun row => ?_⟩
  have hgrows := (grows_compile hx).scope
  have hfound := (hfinds _ (fun _ _ => rfl) (Env.empty.bind (m.aliasOf t) row)).2
  have hbase : g.scope.baseJoins = [] := hgrows.baseJoins
  have hroot : g.scope.root = t := hgrows.root
  rw [Env.bind_self] at hfound
  simp only [Frame.Passes, Scope.joinsFor_false, hbase, hroot, List.nil_append, Sql.holdsOption,
    decide_eq_true_eq]
  exact hfound

/-- **Along every path.** A family of predicates that ask for a related row at the first fan-out
finds at the end of every path what it finds without one. -/
theorem asks_path {P : Path → Predicate} {Q : EntityColumn → Row D → Prop} (hm : m.Unambiguous)
    (hnaming : m.naming.AvoidsCtes)
    (hdirect : ∀ t path res, m.resolve t path = .ok res → m.firstMany? t path = none →
      res.crossesMany = false → m.AliasesApart t res.hops →
      (P path).Asks E db m t (res.hops.flatMap (·.labels)) fun row =>
        ∃ c, reaches E db true res.hops row c ∧ Q res.column c)
    (hdivided : ∀ t path i r, m.firstMany? t path = some (i, r) →
      (path.drop (i + 1)).isEmpty = false →
      (P path).normal m t = .ok (.related (path.take (i + 1)) (P (path.drop (i + 1))) false none))
    {path : Path} {res : Resolution} (ht : m.Covers t) (hres : m.resolve t path = .ok res)
    (hnodup : m.AliasesApart t res.hops) :
    (P path).Asks E db m t (res.hops.flatMap (·.labels)) fun row =>
      ∃ c, reaches E db true res.hops row c ∧ Q res.column c := by
  -- By induction on the length of the path: what lies behind a fan-out is asked of related rows.
  induction hlength : path.length using Nat.strongRecOn generalizing path t res with
  | _ n ih =>
    subst hlength
    cases hmany : m.firstMany? t path with
    | none =>
      exact hdirect t path res hres hmany (Model.crossesMany_of_firstMany? hres hmany) hnodup
    | some found =>
      obtain ⟨i, r⟩ := found
      obtain ⟨hrest, -⟩ := hm.resolve_split ht hres hmany
      obtain ⟨before, res', hroute, hres', hhops, -, hcolumn, hfan, hone⟩ :=
        Model.resolve_split hres hmany hrest
      obtain ⟨-, hlast⟩ := Model.walk_of_resolveRelationship hroute
      rw [hhops] at hnodup
      obtain ⟨hbefore, hbehind, hchild⟩ := hlast.nodup_divided hnodup
      have hinner := ih _ (Model.length_drop_lt hmany) hlast.covers_child hres' hchild rfl
      refine (asks_related hroute hone hnaming hbefore hbehind hinner
        (hdivided t path i r hmany hrest)).imp ?_ fun row => ?_
      · rw [hhops, List.flatMap_append]
        exact List.subset_append_left _ _
      · rw [hhops, exists_reaches_divided hfan, hcolumn]
        exact exists_congr fun b => and_congr_right fun _ => iff_true_right rfl

theorem correlate_compare_any {path : Path} {op : Operator} {operand : Operand} {i : Nat}
    (hq : operand.Quantifies op .any) (hmany : m.firstMany? t path = some (i, r))
    (hrest : (path.drop (i + 1)).isEmpty = false) :
    (Predicate.compare path op operand .any).correlate m t =
      .ok (.related (path.take (i + 1)) (.compare (path.drop (i + 1)) op operand .any)
        false none) := by
  rw [Predicate.correlate, if_neg hq.1, Predicate.correlateCompare, hmany]
  dsimp only
  rw [if_neg (by simp [hrest]), Predicate.correlateAt]
  · exact fun vs hop h => (hq.2 vs h).2 (by rw [hop])

theorem correlate_compare_all {path : Path} {op op' : Operator} {operand : Operand} {i : Nat}
    (hq : operand.Quantifies op .all) (hop : op.inverse? = some op')
    (hvalues : ∀ s, operand ≠ .subquery s) (hmany : m.firstMany? t path = some (i, r))
    (hrest : (path.drop (i + 1)).isEmpty = false) :
    (Predicate.compare path op operand .all).correlate m t =
      .ok (.related (path.take (i + 1)) (.compare (path.drop (i + 1)) op' operand .any)
        true none) := by
  have hfailing : (Predicate.compare (path.drop (i + 1)) op operand .all).invert = _ :=
    Predicate.inverse_compare_of hop hvalues (path.drop (i + 1)) .all
  rw [Predicate.correlate, if_neg hq.1, Predicate.correlateCompare, hmany]
  dsimp only
  rw [if_neg (by simp [hrest]), Predicate.correlateAt, hfailing]
  · rfl
  · exact fun vs hop h => (hq.2 vs h).1 (by rw [hop])

/-- **A comparison with ANY** along a path. -/
theorem asks_compare_any {op : Operator} {operand : Operand} {Q : Option String → Option D → Prop}
    (hm : m.Unambiguous) (hnaming : m.naming.AvoidsCtes) (hq : operand.Quantifies op .any)
    (hx : ∀ target, ∃ x, operand.Plain m target op .any x ∧ ∀ rows env,
      E.truth (x.eval E db rows [env] env) = some true ↔
        Q target.type (target.column.eval E db rows [env] env)) {path : Path} {res : Resolution}
    (ht : m.Covers t) (hres : m.resolve t path = .ok res) (hnodup : m.AliasesApart t res.hops) :
    (Predicate.compare path op operand .any).Asks E db m t (res.hops.flatMap (·.labels)) fun row =>
      ∃ c, reaches E db true res.hops row c ∧ Q res.column.type (c res.column.name) := by
  refine asks_path (P := fun path => .compare path op operand .any)
    (Q := fun column c => Q column.type (c column.name)) hm hnaming ?_ ?_ ht hres hnodup
  · intro t path res hres hmany hone hnodup
    obtain ⟨x, hplain, htruth⟩ :=
      hx ⟨m.columnExpr res.table res.column, res.column.type, path⟩
    exact asks_plain hres hone hnodup hplain (normal_compare_direct hq.1 hmany) htruth
  · intro t path i r hmany hrest
    have hself : ∀ path, (Predicate.compare path op operand .any).simplify =
        .compare path op operand .any := fun path => by rw [Predicate.simplify, if_neg hq.1]
    refine Predicate.normal_eq_ok.2
      ⟨_, (hself path).symm ▸ correlate_compare_any hq hmany hrest, ?_⟩
    rw [Predicate.simplify, hself]

end

end EntityQuery
