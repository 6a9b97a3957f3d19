import EntityQuery.Proofs.Sql.Agreement
import Mathlib.Data.List.Induction

/-!
# Counting rows

When two queries have equally many records, and what a query that counts gives.

**Joins.** A left join that finds at most one row changes an environment only at its own alias, so
joins of that kind at the end of a FROM clause can be left out as far as the other aliases go
(`AgreeAll.joinAll_left`).

**CTEs.** CTEs with other names behind those that a query sees change nothing for it
(`agreeOn_bindCtes`).

**Repetition.** Two select lists with the same expressions repeat the same rows, whatever the
labels, so as many are left (`length_dedup_map`, `evalItems_eq_iff`).

**COUNT.** What a database makes of `COUNT(*)` is the number of rows of the group
(`Engine.CountsRows`); over all rows of a FROM clause it is the number of those that the condition
keeps (`Query.records_count`).
-/

namespace EntityQuery.Sql

variable {D : Type} [DecidableEq D] {E : Engine D} {db : Database D} {rows : Ctes D}

/-! ## Joins that add no rows -/

/-- Whatever such a join finds, it is bound to its own alias. -/
theorem exists_joinOne_left {j : Join} {env : Env D} (hkind : j.kind = .left)
    (hfound : (joinFound E db rows j env).length ≤ 1) :
    ∃ row, joinOne E db rows j env = [env.bind j.table.boundName row] := by
  obtain ⟨env', h⟩ := joinOne_left E db hkind hfound
  have hmem : env' ∈ joinOne E db rows j env := by simp [h]
  rw [joinOne, hkind] at hmem
  rw [h]
  cases hf : joinFound E db rows j env with
  | nil =>
    rw [hf] at hmem
    exact ⟨Row.null, by rw [List.mem_singleton.1 hmem]⟩
  | cons first rest =>
    have hmem' : env' ∈ joinFound E db rows j env := by
      rw [hf] at hmem ⊢
      exact hmem
    obtain ⟨row, -, rfl⟩ := List.mem_map.1 (List.mem_filter.1 hmem').1
    exact ⟨row, rfl⟩

omit [DecidableEq D] in
theorem AgreeAll.trans {vis : List String} {as bs cs : List (Env D)} (h : AgreeAll vis as bs)
    (h' : AgreeAll vis bs cs) : AgreeAll vis as cs := by
  induction h generalizing cs with
  | nil => exact h'
  | cons hab _ ih =>
    cases h' with
    | cons hbc hrest =>
      refine .cons (fun name hname => ?_) (ih hrest)
      rw [hab name hname, hbc name hname]

theorem AgreeAll.joinAll_left {js : List Join} {vis : List String}
    (hjs : ∀ j ∈ js, ∀ env, j.kind = .left ∧ (joinFound E db rows j env).length ≤ 1)
    (hvis : ∀ j ∈ js, j.table.boundName ∉ vis) (envs : List (Env D)) :
    AgreeAll vis envs (joinAll E db rows js envs) := by
  induction js generalizing envs with
  | nil =>
    rw [joinAll_nil]
    exact List.forall₂_same.2 fun _ _ _ _ => rfl
  | cons j js ih =>
    rw [List.forall_mem_cons] at hjs hvis
    have hstep : AgreeAll vis envs (envs.flatMap (joinOne E db rows j)) := by
      induction envs with
      | nil => exact .nil
      | cons env envs ihenvs =>
        obtain ⟨row, hrow⟩ := exists_joinOne_left (hjs.1 env).1 (hjs.1 env).2
        rw [List.flatMap_cons, hrow]
        refine .cons (fun name hname => ?_) ihenvs
        rw [Env.bind_of_ne]
        intro heq
        exact hvis.1 (heq ▸ hname)
    rw [joinAll_cons]
    exact hstep.trans (ih hjs.2 hvis.2 _)

/-! ## Further CTEs -/

theorem agreeOn_bindCtes {withs rest : List Cte}
    (h : ((withs ++ rest).map (·.name)).Nodup) :
    (bindCtes E db rows withs).AgreeOn (withs.map (·.name))
      (bindCtes E db rows (withs ++ rest)) := by
  rw [List.map_append, List.nodup_append'] at h
  obtain ⟨-, -, hdisjoint⟩ := h
  intro name hname
  induction rest using List.reverseRecOn with
  | nil => rw [List.append_nil]
  | append_singleton rest c ih =>
    rw [← List.append_assoc, bindCtes_append, if_neg, ih]
    · intro n hn hn'
      exact hdisjoint hn (by simp_all)
    · intro heq
      exact hdisjoint hname (by simp [heq])

/-! ## Repeated records -/

/-- Two views of a list that tell the same elements apart keep the same ones. -/
theorem map_dedup_map {α β γ δ : Type} [DecidableEq β] [DecidableEq γ] {f : α → β} {g : α → γ}
    {F : β → δ} {G : γ → δ} {l : List α} (h : ∀ a ∈ l, ∀ b ∈ l, f a = f b ↔ g a = g b)
    (hFG : ∀ a ∈ l, F (f a) = G (g a)) : (l.map f).dedup.map F = (l.map g).dedup.map G := by
  induction l with
  | nil => rfl
  | cons a l ih =>
    have hmem : f a ∈ l.map f ↔ g a ∈ l.map g := by
      simp only [List.mem_map]
      constructor
      · rintro ⟨b, hb, heq⟩
        exact ⟨b, hb, (h b (List.mem_cons_of_mem a hb) a List.mem_cons_self).1 heq⟩
      · rintro ⟨b, hb, heq⟩
        exact ⟨b, hb, (h b (List.mem_cons_of_mem a hb) a List.mem_cons_self).2 heq⟩
    have hrest := ih
      (fun b hb c hc => h b (List.mem_cons_of_mem a hb) c (List.mem_cons_of_mem a hc))
      fun b hb => hFG b (List.mem_cons_of_mem a hb)
    rw [List.map_cons, List.map_cons]
    by_cases ha : f a ∈ l.map f
    · rw [List.dedup_cons_of_mem ha, List.dedup_cons_of_mem (hmem.1 ha), hrest]
    · rw [List.dedup_cons_of_notMem ha, List.dedup_cons_of_notMem (mt hmem.2 ha),
        List.map_cons, List.map_cons, hrest, hFG a List.mem_cons_self]

theorem length_dedup_map {α β γ : Type} [DecidableEq β] [DecidableEq γ] {f : α → β} {g : α → γ}
    {l : List α} (h : ∀ a ∈ l, ∀ b ∈ l, f a = f b ↔ g a = g b) :
    (l.map f).dedup.length = (l.map g).dedup.length := by
  have hmap := congrArg List.length (map_dedup_map (F := fun _ => ()) (G := fun _ => ()) h
    fun _ _ => rfl)
  rwa [List.length_map, List.length_map] at hmap

/-- Two records of one select list are equal if the values are. -/
theorem evalItems_eq_iff {group group' : List (Env D)} {env env' : Env D}
    {items : List SelectItem} :
    evalItems E db rows group env items = evalItems E db rows group' env' items ↔
      ∀ e ∈ items.map (·.expr),
        e.eval E db rows group env = e.eval E db rows group' env' := by
  induction items with
  | nil => simp [evalItems]
  | cons i items ih =>
    cases i
    simp [evalItems, ih]

/-! ## COUNT -/

/-- `COUNT(*)` counts the rows of a group. -/
structure Engine.CountsRows (E : Engine D) : Prop where
  isAggregate : E.isAggregate "COUNT" = true
  count : ∀ n, E.aggregate "COUNT" false (List.replicate n [some (E.ofBool true)]) =
    some (E.ofInt n)

namespace Query

variable {env : Env D} {q : Query}

/-- Without HAVING every group gives a record. -/
theorem results_of_having (h : q.having = none) :
    q.results E db rows env = (q.groups E db rows env).map fun group =>
      evalItems E db rows group (group.headD (env.clear q.boundNames)) q.items := by
  rw [results, h]
  simp [holdsOption]

/-- **Counting the rows** that the condition keeps. -/
theorem records_count (hE : E.CountsRows) {label : String}
    (hitems : q.items = [⟨.countAll, some label⟩]) (hdistinct : q.distinct = false)
    (hgroup : q.groupBy = []) (hhaving : q.having = none) :
    q.records E db rows env =
      [[(some label, some (E.ofInt (q.kept E db (bindCtes E db rows q.ctes) env).length))]] := by
  have hgroups (ctes : Ctes D) : q.groups E db ctes env = [q.kept E db ctes env] := by
    simp [groups, hgroup, hitems, Expr.countAll, Expr.apply, Expr.aggregates, hE.isAggregate]
  rw [records_eq]
  simp only [hdistinct, Bool.false_eq_true, if_false, results_of_having hhaving, hgroups, hitems,
    List.map_singleton, evalItems, Expr.countAll, Expr.apply, Expr.eval, hE.isAggregate, if_true,
    evalAll, List.map_const', hE.count]

/-- CTEs in front of a query that has none. -/
theorem records_withCtes (hctes : q.ctes = []) (ctes : List Cte) :
    { q with ctes }.records E db rows env = q.records E db (bindCtes E db rows ctes) env := by
  rw [records_eq, records_eq, hctes, bindCtes]
  rfl

/-- Neither the order nor the part that is returned, nor its form, changes the records. -/
theorem records_reshape (q : Query) (orderBy : List OrderItem) (top : Option Nat)
    (window : Option Window) (forJson : Option ForJson) :
    { q with orderBy, top, window, forJson }.records E db rows env = q.records E db rows env := by
  rw [records_eq, records_eq]
  rfl

/-- A row of the FROM clause gives a record of its own, unless there is an aggregate. -/
theorem length_records_plain (hdistinct : q.distinct = false) (hgroup : q.groupBy = [])
    (hhaving : q.having = none) (hitems : q.items.any (·.expr.aggregates E.isAggregate) = false) :
    (q.records E db rows env).length = (q.kept E db (bindCtes E db rows q.ctes) env).length := by
  have hgroups (ctes : Ctes D) : q.groups E db ctes env = (q.kept E db ctes env).map ([·]) := by
    simp [groups, hgroup, hhaving, hitems]
  rw [records_eq]
  simp only [hdistinct, Bool.false_eq_true, if_false, results_of_having hhaving, hgroups,
    List.length_map]

/-- **Another select list gives as many records**, if it has an aggregate where this one has one
and, for a query without repetition, tells the same rows apart. -/
theorem length_records_items (items : List SelectItem) (hhaving : q.having = none)
    (haggregates : items.any (·.expr.aggregates E.isAggregate) =
      q.items.any (·.expr.aggregates E.isAggregate))
    (hitems : q.distinct = true → ∀ ctes group group' env env',
      (∀ e ∈ items.map (·.expr), e.eval E db ctes group env = e.eval E db ctes group' env') ↔
        ∀ e ∈ q.items.map (·.expr), e.eval E db ctes group env = e.eval E db ctes group' env') :
    ({ q with items }.records E db rows env).length = (q.records E db rows env).length := by
  have hgroups (ctes : Ctes D) :
      { q with items }.groups E db ctes env = q.groups E db ctes env := by
    rw [groups, groups, haggregates]
    rfl
  rw [records_eq, records_eq]
  simp only [results_of_having (q := { q with items }) hhaving, results_of_having hhaving, hgroups]
  by_cases hdistinct : q.distinct = true
  · simp only [hdistinct, if_true]
    refine length_dedup_map fun a _ b _ => ?_
    rw [evalItems_eq_iff, evalItems_eq_iff]
    exact hitems hdistinct _ _ _ _ _
  · simp only [hdistinct, Bool.false_eq_true, if_false, List.length_map]

end Query

end EntityQuery.Sql
