import EntityQuery.Proofs.Graph.Aliases
import EntityQuery.Proofs.Predicate.Writing

/-!
# The joins of a scope

A scope only grows: a new join is put at the end, and a join whose key is there already changes
nothing but the mark of why it is needed. `Scope.Grows` and `Frame.Grows` say so, and writing a
predicate is a case of it (`Writes.grows`).

A property of all joins of a scope therefore needs to be checked for new joins only
(`forall_joinHops`, `forall_joinCte`).
-/

namespace EntityQuery

open EntityQuery.Sql (Expr Query Join)

namespace Scope

variable {s s' : Scope} {new : ScopedJoin} {js : List ScopedJoin} {origin : JoinOrigin}
  {hops : List Relationship} {news : List ScopedJoin}

/-- Adding a join leaves all but the origins of the others. -/
theorem map_addTo {α : Type} {φ : ScopedJoin → α}
    (hφ : ∀ j origin, φ { j with origin := origin } = φ j) :
    (addTo new js).map φ =
      if new.key ∈ js.map (·.key) then js.map φ else js.map φ ++ [φ new] := by
  induction js with
  | nil => simp [addTo]
  | cons j js ih =>
    by_cases hkey : j.key = new.key
    · rw [if_pos (by simp [hkey]), addTo, if_pos hkey, List.map_cons, List.map_cons, hφ]
    · have hkey' : new.key ≠ j.key := fun h => hkey h.symm
      simp only [addTo, if_neg hkey, List.map_cons, ih, List.mem_cons, hkey', false_or]
      split <;> simp

theorem map_key_addTo :
    (addTo new js).map (·.key) =
      if new.key ∈ js.map (·.key) then js.map (·.key) else js.map (·.key) ++ [new.key] :=
  map_addTo fun _ _ => rfl

theorem map_join_addTo :
    (addTo new js).map (·.join) =
      if new.key ∈ js.map (·.key) then js.map (·.join) else js.map (·.join) ++ [new.join] :=
  map_addTo fun _ _ => rfl

/-- A join of the scope after the addition was there before, up to its origin, or is new. -/
theorem mem_addTo {j : ScopedJoin} (h : j ∈ addTo new js) :
    (∃ i ∈ js, i.key = j.key ∧ i.join = j.join) ∨ j = new := by
  induction js with
  | nil => exact .inr (List.mem_singleton.1 h)
  | cons i js ih =>
    simp only [addTo] at h
    split at h
    · rcases List.mem_cons.1 h with rfl | h
      · exact .inl ⟨i, List.mem_cons_self, rfl, rfl⟩
      · exact .inl ⟨j, List.mem_cons_of_mem i h, rfl, rfl⟩
    · rcases List.mem_cons.1 h with rfl | h
      · exact .inl ⟨j, List.mem_cons_self, rfl, rfl⟩
      · rcases ih h with ⟨i', hi', hkeys⟩ | rfl
        · exact .inl ⟨i', List.mem_cons_of_mem i hi', hkeys⟩
        · exact .inr rfl

/-! ## Growing -/

/-- The same FROM clause with further joins. -/
structure Grows (s s' : Scope) : Prop where
  root : s'.root = s.root
  source : s'.source = s.source
  baseJoins : s'.baseJoins = s.baseJoins
  baseFilters : s'.baseFilters = s.baseFilters
  joins : s.joins.map (·.join) <+: s'.joins.map (·.join)

theorem Grows.refl (s : Scope) : s.Grows s := ⟨rfl, rfl, rfl, rfl, List.prefix_rfl⟩

theorem Grows.trans {s'' : Scope} (h : s.Grows s') (h' : s'.Grows s'') : s.Grows s'' :=
  ⟨h'.root.trans h.root, h'.source.trans h.source, h'.baseJoins.trans h.baseJoins,
    h'.baseFilters.trans h.baseFilters, h.joins.trans h'.joins⟩

theorem grows_addJoin (s : Scope) (new : ScopedJoin) : s.Grows (s.addJoin new) where
  root := rfl
  source := rfl
  baseJoins := rfl
  baseFilters := rfl
  joins := by
    simp only [addJoin, map_join_addTo]
    split
    · exact List.prefix_rfl
    · exact List.prefix_append _ _

theorem grows_foldl (s : Scope) (news : List ScopedJoin) : s.Grows (news.foldl addJoin s) := by
  induction news generalizing s with
  | nil => exact .refl s
  | cons new news ih => exact (grows_addJoin s new).trans (ih _)

theorem joinHops_eq_ok (h : s.joinHops hops origin = .ok s') :
    s' = (hops.flatMap (joinsOf origin)).foldl addJoin s := by
  simp only [joinHops] at h
  split at h
  · cases h
    rfl
  · split at h
    · cases h
      rfl
    · contradiction

theorem grows_joinHops (h : s.joinHops hops origin = .ok s') : s.Grows s' := by
  rw [joinHops_eq_ok h]
  exact grows_foldl s _

theorem grows_joinCte (s : Scope) (name : String) (on : Expr) (origin : JoinOrigin) :
    s.Grows (s.joinCte name on origin) :=
  grows_addJoin s _

/-- Joins with new keys are put behind those that are there. -/
theorem map_foldl_addJoin (h : (s.joins.map (·.key) ++ news.map (·.key)).Nodup) :
    (news.foldl addJoin s).joins.map (·.join) = s.joins.map (·.join) ++ news.map (·.join) ∧
      (news.foldl addJoin s).joins.map (·.key) = s.joins.map (·.key) ++ news.map (·.key) := by
  induction news generalizing s with
  | nil => simp
  | cons new news ih =>
    have hnew : new.key ∉ s.joins.map (·.key) := by
      intro hmem
      exact (List.nodup_append'.1 h).2.2 hmem List.mem_cons_self
    have hkeys : (s.addJoin new).joins.map (·.key) = s.joins.map (·.key) ++ [new.key] := by
      rw [addJoin, map_key_addTo, if_neg hnew]
    have hjoins : (s.addJoin new).joins.map (·.join) = s.joins.map (·.join) ++ [new.join] := by
      rw [addJoin, map_join_addTo, if_neg hnew]
    have htail := ih (s := s.addJoin new) (by rw [hkeys]; simpa using h)
    rw [List.foldl_cons, htail.1, htail.2, hjoins, hkeys]
    simp

theorem keys_foldl (s : Scope) (news : List ScopedJoin) :
    s.joins.map (·.key) ⊆ (news.foldl addJoin s).joins.map (·.key) ∧
      ∀ new ∈ news, new.key ∈ (news.foldl addJoin s).joins.map (·.key) := by
  induction news generalizing s with
  | nil => exact ⟨List.Subset.refl _, by simp⟩
  | cons new news ih =>
    obtain ⟨hold, hnews⟩ := ih (s.addJoin new)
    have hadd : s.joins.map (·.key) ⊆ (s.addJoin new).joins.map (·.key) ∧
        new.key ∈ (s.addJoin new).joins.map (·.key) := by
      rw [addJoin, map_key_addTo]
      split
      · exact ⟨List.Subset.refl _, by assumption⟩
      · exact ⟨List.subset_append_left _ _, by simp⟩
    exact ⟨List.Subset.trans hadd.1 hold, List.forall_mem_cons.2 ⟨hold hadd.2, hnews⟩⟩

/-- What has been joined is not joined again. -/
theorem map_foldl_of_keys (h : ∀ new ∈ news, new.key ∈ s.joins.map (·.key)) :
    (news.foldl addJoin s).joins.map (·.join) = s.joins.map (·.join) ∧
      (news.foldl addJoin s).joins.map (·.key) = s.joins.map (·.key) := by
  induction news generalizing s with
  | nil => exact ⟨rfl, rfl⟩
  | cons new news ih =>
    rw [List.forall_mem_cons] at h
    have hkeys : (s.addJoin new).joins.map (·.key) = s.joins.map (·.key) := by
      rw [addJoin, map_key_addTo, if_pos h.1]
    have hjoins : (s.addJoin new).joins.map (·.join) = s.joins.map (·.join) := by
      rw [addJoin, map_join_addTo, if_pos h.1]
    rw [List.foldl_cons, ← hkeys, ← hjoins]
    exact ih (by rw [hkeys]; exact h.2)

/-- A walk adds nothing to a scope that has its joins. -/
theorem joinHops_again {u u' : Scope} {origin' : JoinOrigin} (hs : s.joinHops hops origin = .ok s')
    (hkeys : s'.joins.map (·.key) ⊆ u.joins.map (·.key)) (hu : u.joinHops hops origin' = .ok u') :
    u'.joins.map (·.join) = u.joins.map (·.join) ∧ u'.joins.map (·.key) = u.joins.map (·.key) := by
  rw [joinHops_eq_ok hu]
  refine map_foldl_of_keys fun new hnew => hkeys ?_
  have hold : ∃ old ∈ hops.flatMap (joinsOf origin), old.key = new.key := by
    obtain ⟨r, hr, hnew⟩ := List.mem_flatMap.1 hnew
    obtain ⟨j, hj, rfl⟩ := List.mem_map.1 hnew
    exact ⟨_, List.mem_flatMap.2 ⟨r, hr, List.mem_map_of_mem hj⟩, rfl⟩
  obtain ⟨old, hold, hkey⟩ := hold
  rw [← hkey, joinHops_eq_ok hs]
  exact (keys_foldl s _).2 old hold

/-! ## Properties of all joins -/

variable {P : Join → Prop}

theorem forall_addJoin (h : ∀ j ∈ s.joins, P j.join) (hnew : P new.join) :
    ∀ j ∈ (s.addJoin new).joins, P j.join := by
  intro j hj
  rcases mem_addTo hj with ⟨i, hi, -, hjoin⟩ | rfl
  · rw [← hjoin]
    exact h i hi
  · exact hnew

theorem forall_foldl (h : ∀ j ∈ s.joins, P j.join) (hnews : ∀ j ∈ news, P j.join) :
    ∀ j ∈ (news.foldl addJoin s).joins, P j.join := by
  induction news generalizing s with
  | nil => exact h
  | cons new news ih =>
    rw [List.forall_mem_cons] at hnews
    exact ih (forall_addJoin h hnews.1) hnews.2

theorem forall_joinHops (hs : s.joinHops hops origin = .ok s') (h : ∀ j ∈ s.joins, P j.join)
    (hhops : ∀ r ∈ hops, ∀ j ∈ r.joins, P ⟨.left, j.tableRef, j.on⟩) :
    ∀ j ∈ s'.joins, P j.join := by
  rw [joinHops_eq_ok hs]
  refine forall_foldl h fun j hj => ?_
  obtain ⟨r, hr, hj⟩ := List.mem_flatMap.1 hj
  obtain ⟨step, hstep, rfl⟩ := List.mem_map.1 hj
  exact hhops r hr step hstep

theorem forall_joinCte {name : String} {on : Expr} (h : ∀ j ∈ s.joins, P j.join)
    (hnew : P ⟨.left, ⟨none, name, none⟩, on⟩) : ∀ j ∈ (s.joinCte name on origin).joins, P j.join :=
  forall_addJoin h hnew

theorem joinsFor_false (s : Scope) : s.joinsFor false = s.baseJoins ++ s.joins.map (·.join) := by
  simp [joinsFor]

/-- All joins of a query over the scope. -/
theorem mem_joinsFor {filterOnly : Bool} {j : Join} (h : j ∈ s.joinsFor filterOnly) :
    j ∈ s.baseJoins ∨ ∃ i ∈ s.joins, i.join = j := by
  rcases List.mem_append.1 h with h | h
  · exact .inl h
  · obtain ⟨i, hi, rfl⟩ := List.mem_map.1 h
    exact .inr ⟨i, (List.mem_filter.1 hi).1, rfl⟩

end Scope

/-! ## Walks -/

section

variable {m : Model} {hops : List Relationship}

/-- The keys of a walk's joins. -/
def walkKeys (hops : List Relationship) : List JoinKey :=
  (hops.flatMap (·.joins)).map (JoinKey.table ·.identity)

theorem map_key_joinsOf (hops : List Relationship) (origin : JoinOrigin) :
    (hops.flatMap (Scope.joinsOf origin)).map (·.key) = walkKeys hops := by
  simp [walkKeys, List.map_flatMap, Scope.joinsOf, Function.comp_def]

theorem map_join_joinsOf (hops : List Relationship) (origin : JoinOrigin) :
    (hops.flatMap (Scope.joinsOf origin)).map (·.join) = hops.flatMap (·.leftJoins) := by
  simp [List.map_flatMap, Scope.joinsOf, Relationship.leftJoins, Function.comp_def]

theorem walkKeys_append (rs ss : List Relationship) :
    walkKeys (rs ++ ss) = walkKeys rs ++ walkKeys ss := by
  rw [walkKeys, List.flatMap_append, List.map_append, walkKeys, walkKeys]

theorem cte_notMem_walkKeys (name : String) (hops : List Relationship) :
    JoinKey.cte name ∉ walkKeys hops := by
  simp [walkKeys]

/-- Different aliases have different keys. -/
theorem nodup_walkKeys (hrelates : ∀ r ∈ hops, ∃ u, m.Relates u r)
    (hnodup : (hops.flatMap (·.labels)).Nodup) : (walkKeys hops).Nodup := by
  rw [Model.flatMap_labels hrelates] at hnodup
  have hids := hnodup.of_map
  rw [walkKeys, ← Function.comp_def, ← List.map_map]
  exact hids.map fun a b h => by cases h; rfl

/-- A walk whose keys are different is joined relationship by relationship. -/
theorem Scope.map_joinHops {s s' : Scope} {origin : JoinOrigin} (hjoins : s.joins = [])
    (hkeys : (walkKeys hops).Nodup) (hs : s.joinHops hops origin = .ok s') :
    s'.joins.map (·.join) = hops.flatMap (·.leftJoins) ∧
      s'.joins.map (·.key) = walkKeys hops := by
  have hnew : (s.joins.map (·.key) ++
      (hops.flatMap (joinsOf origin)).map (·.key)).Nodup := by
    rwa [hjoins, map_key_joinsOf]
  obtain ⟨hj, hk⟩ := map_foldl_addJoin hnew
  rw [joinHops_eq_ok hs, hj, hk, hjoins, map_key_joinsOf, map_join_joinsOf]
  exact ⟨rfl, rfl⟩

end

/-! ## Frames -/

/-- The scope and the list of CTEs grow. -/
structure Frame.Grows (f g : Frame) : Prop where
  scope : f.scope.Grows g.scope
  ctes : f.ctes <+: g.ctes

namespace Frame.Grows

variable {f g h : Frame}

theorem refl (f : Frame) : f.Grows f := ⟨.refl _, List.prefix_rfl⟩

theorem trans (hfg : f.Grows g) (hgh : g.Grows h) : f.Grows h :=
  ⟨hfg.scope.trans hgh.scope, hfg.ctes.trans hgh.ctes⟩

end Frame.Grows

variable {m : Model} {P : Table → Prop} {f g : Frame} {counted : Option (Expr × Nat)}
  {threshold : Option Threshold} {ctes : List Sql.Cte}

theorem grows_joinColumn {path : Path} {origin : JoinOrigin} {target : Target}
    (h : (joinColumn m path origin).Gives f target g) : f.Grows g := by
  obtain ⟨r, s, -, -, hs, -, rfl⟩ := gives_joinColumn.1 h
  exact ⟨Scope.grows_joinHops hs, List.prefix_rfl⟩

theorem gives_joinThreshold :
    (joinThreshold m threshold).Gives f counted g ↔
      (threshold = none ∧ counted = none ∧ g = f) ∨
        ∃ t target, threshold = some t ∧ (joinColumn m t.column .filter).Gives f target g ∧
          counted = some (target.column, t.count) := by
  cases threshold with
  | none => simp [joinThreshold, Build.gives_pure]
  | some t =>
    simp only [joinThreshold, Build.gives_bind, Build.gives_pure, reduceCtorEq, false_and,
      false_or, Option.some.injEq]
    constructor
    · intro h
      obtain ⟨target, _, htarget, rfl, rfl⟩ := h
      exact ⟨t, target, rfl, htarget, rfl⟩
    · intro h
      obtain ⟨_, target, rfl, htarget, rfl⟩ := h
      exact ⟨target, g, htarget, rfl, rfl⟩

theorem grows_joinThreshold (h : (joinThreshold m threshold).Gives f counted g) : f.Grows g := by
  rcases gives_joinThreshold.1 h with ⟨-, -, rfl⟩ | ⟨t, target, -, htarget, -⟩
  · exact .refl _
  · exact grows_joinColumn htarget

/-- What joining a column keeps and gives holds of the column of a threshold, if there is one. -/
theorem joinThreshold_induction {I : Frame → Prop} {Q : Expr → Prop} (h : I f)
    (hcounted : (joinThreshold m threshold).Gives f counted g)
    (hcolumn : ∀ {path target}, (joinColumn m path .filter).Gives f target g →
      I g ∧ Q target.column) : I g ∧ ∀ c ∈ counted, Q c.1 := by
  rcases gives_joinThreshold.1 hcounted with ⟨-, rfl, rfl⟩ | ⟨t, target, -, htarget, rfl⟩
  · exact ⟨h, by simp⟩
  · obtain ⟨hg, htarget⟩ := hcolumn htarget
    exact ⟨hg, by simpa using htarget⟩

/-- **Writing only adds joins and CTEs.** -/
theorem Writes.grows {task : Task} {es : List Expr} (h : Writes m P task f es g) : f.Grows g := by
  induction h with
  | compile _ _ ih => exact ih
  | group _ ih => exact ih
  | compare htarget _ ih => exact (grows_joinColumn htarget).trans ih
  | columns hl hr _ => exact (grows_joinColumn hl).trans (grows_joinColumn hr)
  | related _ hs _ hcounted ih =>
    -- The body has a scope of its own, so only its CTEs are kept.
    have hctes := (ih.trans (grows_joinThreshold hcounted)).ctes
    exact ⟨(Scope.grows_joinHops hs).trans (Scope.grows_joinCte _ _ _ _),
      hctes.trans (List.prefix_append _ _)⟩
  | value _ => exact .refl _
  | values _ => exact .refl _
  | subquery _ _ hselected _ ih => exact ⟨.refl _, ((grows_joinColumn hselected).trans ih).ctes⟩
  | nil => exact .refl _
  | cons _ _ ih₁ ih₂ => exact ih₁.trans ih₂
  | noFilter => exact .refl _
  | filter _ ih => exact ih

theorem grows_compile {p : Predicate} {origin : JoinOrigin} {e : Option Expr}
    (h : (p.compile m origin).Gives f e g) : f.Grows g :=
  (writes_compile p.onTables_true h).grows

/-! ## The names of CTEs -/

/-- The CTEs are numbered in their order. -/
def Numbered (ctes : List Sql.Cte) : Prop :=
  ctes.map (·.name) = (List.range ctes.length).map Build.cteName

theorem cteName_inj {i j : Nat} : Build.cteName i = Build.cteName j ↔ i = j := by
  refine ⟨fun h => ?_, congrArg _⟩
  have hdigits : Nat.toDigits 10 i = Nat.toDigits 10 j := by
    have htext := congrArg String.toList h
    simp only [Build.cteName, String.toList_append, List.append_cancel_left_eq] at htext
    rwa [← Nat.toList_repr, ← Nat.toList_repr]
  have hvalue := congrArg (Nat.ofDigitChars 10 · 0) hdigits
  simpa [Nat.ofDigitChars_toDigits] using hvalue

theorem numbered_nil : Numbered [] := rfl

theorem Numbered.append {q : Query} (h : Numbered ctes) :
    Numbered (ctes ++ [⟨Build.cteName ctes.length, q⟩]) := by
  rw [Numbered] at h
  simp [Numbered, h, List.range_succ]

theorem Numbered.name_eq {c : Sql.Cte} (h : Numbered ctes) (hc : c ∈ ctes) :
    ∃ i < ctes.length, c.name = Build.cteName i := by
  have hname : c.name ∈ ctes.map (·.name) := List.mem_map_of_mem hc
  rw [h, List.mem_map] at hname
  obtain ⟨i, hi, hname⟩ := hname
  exact ⟨i, List.mem_range.1 hi, hname.symm⟩

/-- CTEs have different names. -/
theorem Numbered.nodup (h : Numbered ctes) : (ctes.map (·.name)).Nodup := by
  rw [h]
  exact List.nodup_range.map fun _ _ => cteName_inj.1

theorem ctes_joinColumn {path : Path} {origin : JoinOrigin} {target : Target}
    (h : (joinColumn m path origin).Gives f target g) : g.ctes = f.ctes := by
  obtain ⟨r, s, -, -, -, -, rfl⟩ := gives_joinColumn.1 h
  rfl

theorem ctes_joinThreshold (h : (joinThreshold m threshold).Gives f counted g) :
    g.ctes = f.ctes := by
  rcases gives_joinThreshold.1 h with ⟨-, -, rfl⟩ | ⟨t, target, -, htarget, -⟩
  · rfl
  · exact ctes_joinColumn htarget

theorem Writes.numbered {task : Task} {es : List Expr} (h : Writes m P task f es g)
    (hf : Numbered f.ctes) : Numbered g.ctes := by
  induction h with
  | compile _ _ ih => exact ih hf
  | group _ ih => exact ih hf
  | compare htarget _ ih => exact ih (ctes_joinColumn htarget ▸ hf)
  | columns hl hr _ => rwa [ctes_joinColumn hr, ctes_joinColumn hl]
  | related _ _ _ hcounted ih =>
    have hctes := ih hf
    rw [← ctes_joinThreshold hcounted] at hctes
    exact hctes.append
  | value _ => exact hf
  | values _ => exact hf
  | subquery _ _ hselected _ ih => exact ih (ctes_joinColumn hselected ▸ hf)
  | nil => exact hf
  | cons _ _ ih₁ ih₂ => exact ih₂ (ih₁ hf)
  | noFilter => exact hf
  | filter _ ih => exact ih hf

end EntityQuery
