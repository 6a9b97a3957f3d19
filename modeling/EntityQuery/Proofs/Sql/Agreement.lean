import EntityQuery.Proofs.Sql.Closed

/-!
# What an evaluation depends on

The value of a closed expression depends only on the rows of the aliases it can see and on the
CTEs it can see: environments that agree on them give the same value (`Expr.eval_congr`), and so
for the records of a closed query (`Query.records_congr`). In particular a query that sees no row
around it has the same records everywhere.

Two evaluations run side by side, so their lists of environments agree place by place.
-/

namespace EntityQuery.Sql

variable {D : Type}

/-- The same rows for the given aliases. -/
def Env.AgreeOn (vis : List String) (env env' : Env D) : Prop := ∀ name ∈ vis, env name = env' name

/-- The same rows for the given CTEs. -/
def Ctes.AgreeOn (names : List String) (rows rows' : Ctes D) : Prop :=
  ∀ name ∈ names, rows name = rows' name

/-- Agreement place by place. -/
abbrev AgreeAll (vis : List String) : List (Env D) → List (Env D) → Prop :=
  List.Forall₂ (Env.AgreeOn vis)

namespace Env.AgreeOn

variable {vis : List String} {env env' : Env D}

theorem bind (h : env.AgreeOn vis env') (name : String) (row : Row D) :
    (env.bind name row).AgreeOn (name :: vis) (env'.bind name row) := by
  intro l hl
  by_cases hname : l = name
  · subst hname
    simp
  · rw [Env.bind_of_ne hname, Env.bind_of_ne hname]
    exact h l ((List.mem_cons.1 hl).resolve_left hname)

/-- Outside the cleared aliases the environments agree as before. -/
theorem clear (h : env.AgreeOn vis env') (names : List String) :
    (env.clear names).AgreeOn (names ++ vis) (env'.clear names) := by
  intro l hl
  by_cases hname : l ∈ names
  · simp [Env.clear, hname]
  · simpa [Env.clear, hname] using h l ((List.mem_append.1 hl).resolve_left hname)

theorem mono {vis' : List String} (h : env.AgreeOn vis env') (hsub : vis' ⊆ vis) :
    env.AgreeOn vis' env' :=
  fun name hname => h name (hsub hname)

end Env.AgreeOn

/-! ## Lists of environments -/

section

variable {α β : Type} {vis : List String} {envs envs' : List (Env D)}

theorem map_eq_of_forall₂ {R : α → α → Prop} {f g : α → β} {l l' : List α}
    (h : List.Forall₂ R l l') (hfg : ∀ a b, R a b → f a = g b) : l.map f = l'.map g := by
  induction h with
  | nil => rfl
  | cons hab _ ih => rw [List.map_cons, List.map_cons, hfg _ _ hab, ih]

theorem AgreeAll.mono {vis' : List String} (h : AgreeAll vis envs envs') (hsub : vis' ⊆ vis) :
    AgreeAll vis' envs envs' :=
  h.imp fun _ _ hab => hab.mono hsub

theorem AgreeAll.filter {p q : Env D → Bool} (h : AgreeAll vis envs envs')
    (hpq : ∀ env env', env.AgreeOn vis env' → p env = q env') :
    AgreeAll vis (envs.filter p) (envs'.filter q) :=
  List.rel_filter (fun _ _ hab => Bool.eq_iff_iff.1 (hpq _ _ hab)) h

theorem AgreeAll.headD {env env' : Env D} (h : AgreeAll vis envs envs')
    (henv : env.AgreeOn vis env') : (envs.headD env).AgreeOn vis (envs'.headD env') := by
  cases h with
  | nil => exact henv
  | cons hab _ => exact hab

theorem AgreeAll.joinMatches {env env' : Env D} (kind : JoinKind) (h : AgreeAll vis envs envs')
    (henv : env.AgreeOn vis env') :
    AgreeAll vis (joinMatches kind envs env) (joinMatches kind envs' env') := by
  cases h with
  | nil =>
    cases kind with
    | inner => exact .nil
    | left => exact .cons henv .nil
  | cons hab hrest => cases kind <;> exact .cons hab hrest

theorem AgreeAll.flatMap {vis' : List String} {f g : Env D → List (Env D)}
    (h : AgreeAll vis envs envs')
    (hfg : ∀ env env', env.AgreeOn vis env' → AgreeAll vis' (f env) (g env')) :
    AgreeAll vis' (envs.flatMap f) (envs'.flatMap g) :=
  List.rel_flatMap h fun _ _ hab => hfg _ _ hab

/-- The rows of one table beside environments that agree. -/
theorem AgreeAll.bind {env env' : Env D} (henv : env.AgreeOn vis env') (name : String)
    (rows : List (Row D)) :
    AgreeAll (name :: vis) (rows.map (env.bind name)) (rows.map (env'.bind name)) := by
  induction rows with
  | nil => exact .nil
  | cons row rows ih => exact .cons (henv.bind name row) ih

theorem AgreeAll.groupsBy [DecidableEq D] {key key' : Env D → List (Option D)}
    (h : AgreeAll vis envs envs')
    (hkey : ∀ env env', env.AgreeOn vis env' → key env = key' env') :
    List.Forall₂ (AgreeAll vis) (groupsBy key envs) (groupsBy key' envs') := by
  rw [Sql.groupsBy, Sql.groupsBy, map_eq_of_forall₂ h hkey]
  generalize (envs'.map key').dedup = keys
  induction keys with
  | nil => exact .nil
  | cons k keys ih =>
    refine .cons (h.filter fun env env' henv => ?_) ih
    rw [hkey env env' henv]

end

/-! ## Evaluation -/

section

variable {db : Database D} {ctes : List String} {rows rows' : Ctes D}

theorem tableRows_congr (hrows : rows.AgreeOn ctes rows') {t : TableRef} (h : t.Known ctes) :
    tableRows db rows t = tableRows db rows' t := by
  rw [tableRows, tableRows]
  split
  · rfl
  · rename_i hlabel
    exact hrows _ (h hlabel)

/-- What is seen of the CTEs, of a group and of a row beside it. -/
structure AgreeAt (ctes vis : List String) (rows rows' : Ctes D) (group group' : List (Env D))
    (env env' : Env D) : Prop where
  rows : rows.AgreeOn ctes rows'
  group : AgreeAll vis group group'
  env : env.AgreeOn vis env'

variable [DecidableEq D] {E : Engine D}

mutual

/-- **A closed expression has one value in environments that agree on what it sees.** -/
theorem Expr.eval_congr {vis : List String} {group group' : List (Env D)} {env env' : Env D}
    (hs : AgreeAt ctes vis rows rows' group group' env env') (e : Expr) (h : e.Closed ctes vis) :
    e.eval E db rows group env = e.eval E db rows' group' env' := by
  match e with
  | .column ⟨some table, name⟩ =>
    rw [Expr.eval, Expr.eval, hs.env table h]
  | .column ⟨none, _⟩ | .literal _ | .param _ _ | .star _ => simp only [Expr.eval]
  | .binary a _ b =>
    rw [Expr.eval, Expr.eval, Expr.eval_congr hs a h.1, Expr.eval_congr hs b h.2]
  | .call _ args _ =>
    have hargs := evalAll_congr hs args h
    have hgroups := map_eq_of_forall₂ hs.group fun row row' hrow =>
      evalAll_congr ⟨hs.rows, .cons hrow .nil, hrow⟩ args h
    rw [Expr.eval, Expr.eval, hargs, hgroups]
  | .case branches otherwise =>
    rw [Expr.eval, Expr.eval, evalOption_congr hs otherwise h.2,
      evalBranches_congr hs branches _ h.1]
  | .subquery q => rw [Expr.eval, Expr.eval, Query.records_congr hs.rows hs.env q h]
  | .inList e vs _ =>
    rw [Expr.eval, Expr.eval, Expr.eval_congr hs e h.1, evalAll_congr hs vs h.2]
  | .inQuery e q _ =>
    rw [Expr.eval, Expr.eval, Expr.eval_congr hs e h.1, Query.records_congr hs.rows hs.env q h.2]
  | .isNull e _ => rw [Expr.eval, Expr.eval, Expr.eval_congr hs e h]
  | .paren e => rw [Expr.eval, Expr.eval, Expr.eval_congr hs e h]

theorem evalAll_congr {vis : List String} {group group' : List (Env D)} {env env' : Env D}
    (hs : AgreeAt ctes vis rows rows' group group' env env') (es : List Expr)
    (h : ClosedAll ctes vis es) :
    evalAll E db rows group env es = evalAll E db rows' group' env' es := by
  match es with
  | [] => simp only [evalAll]
  | e :: es =>
    rw [evalAll, evalAll, Expr.eval_congr hs e h.1, evalAll_congr hs es h.2]

theorem evalBranches_congr {vis : List String} {group group' : List (Env D)} {env env' : Env D}
    (hs : AgreeAt ctes vis rows rows' group group' env env') (bs : List (Expr × Expr))
    (otherwise : Option D) (h : ClosedBranches ctes vis bs) :
    evalBranches E db rows group env bs otherwise =
      evalBranches E db rows' group' env' bs otherwise := by
  match bs with
  | [] => simp only [evalBranches]
  | (e, f) :: bs =>
    rw [evalBranches, evalBranches, Expr.eval_congr hs e h.1.1,
      Expr.eval_congr hs f h.1.2, evalBranches_congr hs bs _ h.2]

theorem evalOption_congr {vis : List String} {group group' : List (Env D)} {env env' : Env D}
    (hs : AgreeAt ctes vis rows rows' group group' env env') (e : Option Expr)
    (h : ClosedOption ctes vis e) :
    evalOption E db rows group env e = evalOption E db rows' group' env' e := by
  match e with
  | none => simp only [evalOption]
  | some e => rw [evalOption, evalOption, Expr.eval_congr hs e h]

theorem holdsOption_congr {vis : List String} {group group' : List (Env D)} {env env' : Env D}
    (hs : AgreeAt ctes vis rows rows' group group' env env') (e : Option Expr)
    (h : ClosedOption ctes vis e) :
    holdsOption E db rows group env e = holdsOption E db rows' group' env' e := by
  match e with
  | none => simp only [holdsOption]
  | some e => rw [holdsOption, holdsOption, Expr.eval_congr hs e h]

theorem evalItems_congr {vis : List String} {group group' : List (Env D)} {env env' : Env D}
    (hs : AgreeAt ctes vis rows rows' group group' env env') (items : List SelectItem)
    (h : ClosedItems ctes vis items) :
    evalItems E db rows group env items = evalItems E db rows' group' env' items := by
  match items with
  | [] => simp only [evalItems]
  | ⟨e, label⟩ :: items =>
    rw [evalItems, evalItems, Expr.eval_congr hs e h.1, evalItems_congr hs items h.2]

/-- Joins that see what they name keep the agreement, and extend it to their tables. -/
theorem joinAll_congr (hrows : rows.AgreeOn ctes rows') {vis : List String}
    {envs envs' : List (Env D)} (henvs : AgreeAll vis envs envs') (js : List Join)
    (h : ClosedJoins ctes vis js) :
    AgreeAll ((js.map (·.table.boundName)).reverse ++ vis) (joinAll E db rows js envs)
      (joinAll E db rows' js envs') := by
  match js with
  | [] => simpa only [joinAll, List.map_nil, List.reverse_nil, List.nil_append] using henvs
  | ⟨kind, table, on⟩ :: js =>
    have hstep : AgreeAll (table.boundName :: vis)
        (envs.flatMap (joinOne E db rows ⟨kind, table, on⟩))
        (envs'.flatMap (joinOne E db rows' ⟨kind, table, on⟩)) := by
      refine henvs.flatMap fun env env' henv => ?_
      have hfound : AgreeAll (table.boundName :: vis) (joinFound E db rows ⟨kind, table, on⟩ env)
          (joinFound E db rows' ⟨kind, table, on⟩ env') := by
        rw [joinFound, joinFound, ← tableRows_congr hrows h.1]
        refine (AgreeAll.bind henv _ _).filter fun row row' hrow => ?_
        rw [Expr.eval_congr ⟨hrows, .cons hrow .nil, hrow⟩ on h.2.1]
      exact hfound.joinMatches kind (henv.bind _ _)
    rw [joinAll_cons, joinAll_cons]
    simpa using joinAll_congr hrows hstep js h.2.2

theorem sourceEnvs_congr (hrows : rows.AgreeOn ctes rows') {vis : List String} {env env' : Env D}
    (henv : env.AgreeOn vis env') (s : Option Source) (h : ClosedSource ctes vis s) :
    AgreeAll (sourceNames s ++ vis) (sourceEnvs E db rows env s)
      (sourceEnvs E db rows' env' s) := by
  match s with
  | none =>
    rw [sourceEnvs, sourceEnvs]
    exact .cons henv .nil
  | some (.table t) =>
    rw [sourceEnvs, sourceEnvs, ← tableRows_congr hrows h]
    exact AgreeAll.bind henv _ _
  | some (.derived q label) =>
    rw [sourceEnvs, sourceEnvs, Query.records_congr hrows henv q h]
    exact AgreeAll.bind henv _ _

/-- **A closed query has the same records in environments that agree on what it sees.** -/
theorem Query.records_congr (hrows : rows.AgreeOn ctes rows') {vis : List String}
    {env env' : Env D} (henv : env.AgreeOn vis env') (q : Query) (h : q.Closed ctes vis) :
    q.records E db rows env = q.records E db rows' env' := by
  match q with
  | ⟨withs, items, distinct, top, source, joins, condition, groupBy, having, orderBy, window,
      forJson⟩ =>
    obtain ⟨rfl, hsource, hjoins, hitems, hcondition, hgroup, hhaving, -⟩ := h
    have hsub : sourceNames source ++ joins.map (·.table.boundName) ++ vis ⊆
        (joins.map (·.table.boundName)).reverse ++ (sourceNames source ++ vis) := by
      intro name
      simp only [List.mem_append, List.mem_reverse, or_assoc]
      exact or_left_comm.1
    have henvs := (joinAll_congr hrows (sourceEnvs_congr hrows henv source hsource)
      joins hjoins).mono hsub
    have hmissing := henv.clear (sourceNames source ++ joins.map (·.table.boundName))
    have hkept := henvs.filter fun row row' hrow =>
      holdsOption_congr ⟨hrows, .cons hrow .nil, hrow⟩ condition hcondition
    set q : Query := ⟨[], items, distinct, top, source, joins, condition, groupBy, having, orderBy,
      window, forJson⟩
    have hgroups : List.Forall₂ (AgreeAll (q.boundNames ++ vis)) (q.groups E db rows env)
        (q.groups E db rows' env') := by
      rw [Query.groups, Query.groups]
      split
      · exact AgreeAll.groupsBy hkept fun row row' hrow =>
          evalAll_congr ⟨hrows, .cons hrow .nil, hrow⟩ groupBy hgroup
      · split
        · exact .cons hkept .nil
        · exact List.rel_map (fun row row' hrow => .cons hrow .nil) hkept
    have hresults : q.results E db rows env = q.results E db rows' env' := by
      rw [Query.results, Query.results]
      refine map_eq_of_forall₂ (List.rel_filter (fun group group' hgroup => ?_) hgroups)
        fun group group' hgroup => ?_
      · exact Bool.eq_iff_iff.1
          (holdsOption_congr ⟨hrows, hgroup, hgroup.headD hmissing⟩ having hhaving)
      · exact evalItems_congr ⟨hrows, hgroup, hgroup.headD hmissing⟩ items hitems
    rw [Query.records_eq, Query.records_eq, bindCtes, bindCtes, hresults]

end

end

end EntityQuery.Sql
