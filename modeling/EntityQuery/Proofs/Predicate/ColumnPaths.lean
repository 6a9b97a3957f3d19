import EntityQuery.Proofs.Predicate.Duality
import EntityQuery.Proofs.Predicate.Sound

/-!
# The columns that a predicate reads

`Predicate.columnPaths` lists the columns of a predicate by their paths from the query root; in the
condition of a `related`, the path of the `related` comes first.

**Rewriting.** Simplifying and negating a predicate change neither columns nor places, so they keep
the set of column paths (`mem_pathsFrom_simplify`, `mem_pathsFrom_invert`). Correlation cuts paths
and looks up the rest from the cut, so it reads no column that was not read before
(`Correlates.pathsFrom_subset`); it may drop one, since of an empty list it asks for a row only.

**Validation** goes to the child at every `related`, where the column paths go on behind the path of
the `related`. Both lead to the same table, so every column path of a validated predicate resolves
(`resolves_of_validate`).
-/

namespace EntityQuery

variable {m : Model} {t : Table} {x base : Path}

namespace Predicate

variable {p c : Predicate} {ps : List Predicate}

theorem mem_pathsFromAll : x ∈ pathsFromAll base ps ↔ ∃ p ∈ ps, x ∈ p.pathsFrom base := by
  induction ps with
  | nil => simp [pathsFromAll]
  | cons p ps ih => simp [pathsFromAll, ih]

theorem mem_pathsFrom_related {via : Path} {inverted : Bool} {threshold : Option Threshold} :
    x ∈ (related via p inverted threshold).pathsFrom base ↔
      x ∈ p.pathsFrom (base ++ via) ∨ ∃ c ∈ threshold, x = base ++ via ++ c.column := by
  rw [pathsFrom, List.mem_append, Option.mem_toList, Option.map_eq_some_iff]
  simp only [Option.mem_def, eq_comm]

/-! ## Simplification -/

/-- What simplification takes apart and puts together, it does without touching a path. -/
theorem hereditary_pathsFrom (x : Path) : Hereditary fun base p => x ∉ p.pathsFrom base where
  group := by simp [pathsFrom, mem_pathsFromAll]
  compare := id
  value _ := id
  values _ := id
  related base via := ⟨base ++ via, fun threshold =>
    ⟨¬ ∃ c ∈ threshold, x = base ++ via ++ c.column, fun _ _ => by
      rw [mem_pathsFrom_related, not_or, and_comm]⟩⟩

theorem mem_pathsFrom_simplify : x ∈ p.simplify.pathsFrom base ↔ x ∈ p.pathsFrom base :=
  not_iff_not.1 (hereditary_pathsFrom x).simplify

/-! ## Negation -/

theorem mem_pathsFrom_invert (h : Inverse p c) : x ∈ c.pathsFrom base ↔ x ∈ p.pathsFrom base := by
  induction p using tree_induction generalizing c with
  | group op members ih =>
    obtain ⟨ms, hms, rfl⟩ := inverse_group.1 h
    rw [pathsFrom, pathsFrom]
    clear h
    induction hms with
    | nil => rfl
    | cons hp _ ihs =>
      rw [List.forall_mem_cons] at ih
      rw [pathsFromAll, pathsFromAll, List.mem_append, List.mem_append, ih.1 hp,
        ihs ih.2]
  | compare path op operand q =>
    by_cases hop : op = .notLikeOrNull
    · subst hop
      obtain ⟨-, rfl⟩ := inverse_notLikeOrNull h
      simp [pathsFrom, pathsFromAll]
    · obtain ⟨op', -, rfl⟩ := inverse_compare hop h
      rfl
  | columns left op right =>
    obtain ⟨op', -, rfl⟩ := inverse_columns.1 h
    rfl
  | related via condition inverted threshold _ =>
    rw [inverse_related.1 h]
    rfl

/-! ## Correlation -/

/-- The paths of all columns that are compared with each other are told apart. -/
def columnsApart (m : Model) (t : Table) : LeafTest where
  compare _ _ := True
  columns left right := m.TellsApart t left right
  related _ := True

/-- What is asked behind a cut is about the column that the path leads to. -/
theorem Asked.pathsFrom_subset {rest : Path} {op : Operator} {operand : Operand}
    {threshold : Option Threshold} (h : Asked rest op operand p threshold) :
    p.pathsFrom base ⊆ [base ++ rest] := by
  cases h with
  | any | values => exact List.Subset.refl _
  | failing hc => exact fun x => (mem_pathsFrom_invert hc).1
  | row => exact List.nil_subset _

/-- **Correlation reads no other columns.** -/
theorem Correlates.pathsFrom_subset (h : Correlates m t p c) (hp : p.OnLeaves (columnsApart m t)) :
    c.pathsFrom base ⊆ p.pathsFrom base := by
  have hwhole : ∀ (path : Path) (i : Nat),
      base ++ path.take (i + 1) ++ path.drop (i + 1) = base ++ path := by
    intro path i
    rw [Path.append_assoc, Path.take_append_drop]
  induction h with
  | kept _ => exact List.Subset.refl _
  | cons _ _ ih₁ ih₂ =>
    simp only [pathsFrom, pathsFromAll] at ih₂ ⊢
    exact List.append_subset.2 ⟨List.subset_append_of_subset_left _ (ih₁ hp.1),
      List.subset_append_of_subset_right _ (ih₂ hp.2)⟩
  | unlike _ _ ih₁ ih₂ =>
    simp only [pathsFrom, pathsFromAll, List.append_nil]
    exact List.append_subset.2 ⟨ih₁ True.intro, ih₂ True.intro⟩
  | across _ hasked =>
    intro x hx
    rw [pathsFrom, ← hwhole]
    rcases mem_pathsFrom_related.1 hx with hx | ⟨c, hc, rfl⟩
    · exact hasked.pathsFrom_subset hx
    · rw [hasked.column c hc]
      exact List.mem_singleton_self _
  | columns hleft hright hid =>
    have htake := (show m.TellsApart t _ _ from hp).split hleft hright hid
    simp only [pathsFrom, Option.map_none, Option.toList_none, List.append_nil, hwhole]
    rw [htake.1, hwhole]
    exact List.Subset.refl _
  | nested _ _ =>
    intro x
    simp only [mem_pathsFrom_related, Option.not_mem_none, false_and, exists_false, or_false,
      Path.append_assoc, Path.take_append_drop]
    exact id

end Predicate

/-! ## Validation -/

/-- A path from the end of a walk goes on behind the path of the walk. -/
theorem Model.Resolves.append {hops : List Relationship} {path : Path}
    (h : m.Resolves (Model.endOf t hops) path) (hwalk : m.walk? t base = some hops) :
    m.Resolves t (base ++ path) := by
  obtain ⟨res, hres⟩ := h
  obtain ⟨segments⟩ := path
  rcases List.eq_nil_or_concat segments with rfl | ⟨init, last, rfl⟩
  · cases hres
  · rw [List.concat_eq_append] at hres ⊢
    obtain ⟨hinit, htable, hcolumn⟩ := Model.resolve_concat_eq_ok hres
    rw [htable, ← Model.endOf_append] at hcolumn
    have hall := Model.walkMembers?_append.2 ⟨hops, res.hops, hwalk, hinit, rfl⟩
    have hfound := Model.resolve_concat hall hcolumn
    rw [List.append_assoc] at hfound
    exact ⟨_, hfound⟩

theorem validateAll_eq_ok {ps : List Predicate} :
    validateAll m t ps = .ok () ↔ ∀ p ∈ ps, p.validate m t = .ok () := by
  induction ps with
  | nil => simp [validateAll]
  | cons p ps ih =>
    rw [validateAll, List.forall_mem_cons, ← ih, bind_eq_ok]
    exact ⟨fun ⟨_, hp, hps⟩ => ⟨hp, hps⟩, fun h => ⟨(), h.1, h.2⟩⟩

/-- **The column paths of a validated predicate resolve**, from wherever it is looked at. -/
theorem Predicate.resolves_of_validate {p : Predicate} {hops : List Relationship}
    (hwalk : m.walk? t base = some hops) (h : p.validate m (Model.endOf t hops) = .ok ()) :
    ∀ x ∈ p.pathsFrom base, m.Resolves t x := by
  induction p using tree_induction generalizing base hops with
  | group op members ih =>
    rw [validate, validateAll_eq_ok] at h
    rintro x hx
    obtain ⟨p, hp, hx⟩ := mem_pathsFromAll.1 hx
    exact ih p hp hwalk (h p hp) x hx
  | compare path op operand q =>
    obtain ⟨r, hr, -⟩ := bind_eq_ok.1 h
    exact List.forall_mem_singleton.2 (Model.Resolves.append ⟨r, hr⟩ hwalk)
  | columns left op right =>
    obtain ⟨r, hr, h⟩ := bind_eq_ok.1 h
    obtain ⟨s, hs, -⟩ := bind_eq_ok.1 h
    exact List.forall_mem_cons.2 ⟨Model.Resolves.append ⟨r, hr⟩ hwalk,
      List.forall_mem_singleton.2 (Model.Resolves.append ⟨s, hs⟩ hwalk)⟩
  | related via condition inverted threshold ih =>
    obtain ⟨route, hroute, h⟩ := bind_eq_ok.1 h
    obtain ⟨_, hcondition, h⟩ := bind_eq_ok.1 h
    -- The table at the end of the longer walk is the child that the condition is about.
    have hvia := Model.walkMembers?_append.2
      ⟨hops, route.hops, hwalk, Model.resolveRelationship_eq_ok hroute, rfl⟩
    have hend : Model.endOf t (hops ++ route.hops) = route.last.child := by
      rw [Route.hops, ← List.append_assoc, Model.endOf_concat]
    intro x hx
    rcases mem_pathsFrom_related.1 hx with hx | ⟨c, hc, rfl⟩
    · exact ih hvia (hend ▸ hcondition) x hx
    · cases hc
      obtain ⟨r, hr, -⟩ := bind_eq_ok.1 h
      exact Model.Resolves.append ⟨r, hend ▸ hr⟩ hvia

/-- **Rewritten predicates read the same columns.** Simplification and negation keep the set of
column paths, correlation adds none where identities tell compared paths apart, and the column paths
of a validated predicate resolve. -/
theorem rewrites_read_same_columns (m : Model) (t : Table) (p : Predicate) :
    (∀ x, x ∈ p.simplify.columnPaths ↔ x ∈ p.columnPaths) ∧
    (∀ q, p.invert = .ok q → ∀ x, x ∈ q.columnPaths ↔ x ∈ p.columnPaths) ∧
    (p.OnLeaves (Predicate.columnsApart m t) → ∀ q, p.correlate m t = .ok q →
      q.columnPaths ⊆ p.columnPaths) ∧
    (p.validate m t = .ok () → ∀ x ∈ p.columnPaths, ∃ r, m.resolve t x = .ok r) := by
  refine ⟨fun _ => Predicate.mem_pathsFrom_simplify,
    fun _ hq _ => Predicate.mem_pathsFrom_invert hq,
    fun hp _ hq => (Predicate.correlates_of_ok p hq).pathsFrom_subset hp, fun h => ?_⟩
  have hstart : m.walk? t Path.empty = some [] := rfl
  exact Predicate.resolves_of_validate hstart h

namespace Shop

/-- Lines by sku and by tag, which become one `related`; a comparison that is expanded, two columns
of a line, and all of two skus, which is counted. -/
def various : Predicate :=
  .group .or
    [.related ⟨["lines"]⟩ (.compare ⟨["sku"]⟩ .eq (.value (.text "a")) .any) false none,
      .related ⟨["lines"]⟩ (.related ⟨["tags"]⟩
        (.compare ⟨["label"]⟩ .like (.value (.text "n%")) .any) true none) false none,
      .compare ⟨["customer", "name"]⟩ .notLikeOrNull (.value (.text "x%")) .all,
      .columns ⟨["lines", "id"]⟩ .lt ⟨["lines", "sku"]⟩,
      .compare ⟨["lines", "sku"]⟩ .eq (.values [.text "a", .text "b"]) .all]

end Shop

theorem rewrites_read_same_columns_various :
    let m := Shop.model Shop.plain
    ∃ q c, Shop.various.invert = .ok q ∧ Shop.various.correlate m Shop.orders = .ok c ∧
      (∀ x, x ∈ Shop.various.simplify.columnPaths ↔ x ∈ Shop.various.columnPaths) ∧
      (∀ x, x ∈ q.columnPaths ↔ x ∈ Shop.various.columnPaths) ∧
      c.columnPaths ⊆ Shop.various.columnPaths ∧
      ⟨["lines", "tags", "label"]⟩ ∈ Shop.various.columnPaths ∧
      ∀ x ∈ Shop.various.columnPaths, ∃ r, m.resolve Shop.orders x = .ok r := by
  have happart : Shop.various.OnLeaves
      (Predicate.columnsApart (Shop.model Shop.plain) Shop.orders) :=
    ⟨⟨⟩, ⟨⟩, ⟨⟩, Model.tellsApart_of_injective Shop.faithful_plain.derive _ _, ⟨⟩, ⟨⟩⟩
  obtain ⟨q, hq⟩ : ∃ q, Shop.various.invert = .ok q := ⟨_, rfl⟩
  obtain ⟨c, hc⟩ : ∃ c, Shop.various.correlate (Shop.model Shop.plain) Shop.orders = .ok c := by
    have hcolumns : Predicate.correlateColumns (Shop.model Shop.plain) Shop.orders
        ⟨["lines", "id"]⟩ .lt ⟨["lines", "sku"]⟩ = .ok _ := if_pos ⟨rfl, rfl⟩
    simp only [Shop.various, Predicate.correlate, Predicate.correlateAll, hcolumns]
    exact ⟨_, rfl⟩
  obtain ⟨hsimplify, hinvert, hcorrelate, hvalidate⟩ :=
    rewrites_read_same_columns (Shop.model Shop.plain) Shop.orders Shop.various
  exact ⟨q, c, hq, hc, hsimplify, hinvert q hq, hcorrelate happart c hc, by decide, hvalidate rfl⟩

end EntityQuery
