import EntityQuery.Predicate.Hereditary

/-!
# Leaves of predicates

Many invariants of the rewriting of predicates speak only of the leaves that stand outside the
conditions of related rows: of the path and operator of a comparison, of the two paths of a
comparison of columns, of the path of a `related`.

**Tests** (`LeafTest`). One property for each kind of leaf. `Predicate.OnLeaves` says that all
leaves of a predicate pass.

**Simplification keeps every test.** Merging changes operands and conditions only, so what held of
the two members holds of the merged one. Only the expansion of `notLikeOrNull` makes new leaves,
and `onLeaves_simplify` asks for them separately.
-/

namespace EntityQuery

/-- A property of leaves, by their kind. -/
structure LeafTest where
  compare : Path → Operator → Prop
  columns : Path → Path → Prop
  related : Path → Prop

/-- A test on the simplified predicate follows from a test on the predicate itself. The two differ
only in what they ask of `notLikeOrNull`, which is expanded. -/
structure LeafTest.Expands (T U : LeafTest) : Prop where
  compare : ∀ path op, op ≠ .notLikeOrNull → T.compare path op → U.compare path op
  null : ∀ path, T.compare path .notLikeOrNull → U.compare path .eq
  unlike : ∀ path, T.compare path .notLikeOrNull → U.compare path .notLike
  columns : ∀ left right, T.columns left right → U.columns left right
  related : ∀ via, T.related via → U.related via

/-- A test that does not look at operators is kept. -/
theorem LeafTest.expands_self {T : LeafTest}
    (h : ∀ path op op', T.compare path op = T.compare path op') : T.Expands T where
  compare _ _ _ := id
  null path := (h path _ _).mp
  unlike path := (h path _ _).mp
  columns _ _ := id
  related _ := id

/-- The test that all leaves pass. -/
def LeafTest.all : LeafTest := ⟨fun _ _ => True, fun _ _ => True, fun _ => True⟩

namespace Predicate

mutual

/-- All leaves outside the conditions of related rows pass the test. -/
def OnLeaves (T : LeafTest) : Predicate → Prop
  | group _ members => OnLeavesAll T members
  | compare path op _ _ => T.compare path op
  | columns left _ right => T.columns left right
  | related via _ _ _ => T.related via

/-- All leaves of all members pass the test. -/
def OnLeavesAll (T : LeafTest) : List Predicate → Prop
  | [] => True
  | p :: ps => p.OnLeaves T ∧ OnLeavesAll T ps

end

variable {T : LeafTest} {connective : Connective} {members ps : List Predicate} {p : Predicate}

theorem onLeavesAll_iff : OnLeavesAll T ps ↔ ∀ p ∈ ps, p.OnLeaves T := by
  induction ps with
  | nil => simp [OnLeavesAll]
  | cons p ps ih => simp [OnLeavesAll, ih]

/-! ## Simplifying -/

/-- A test looks at what stands outside the conditions of related rows. -/
theorem gathered_onLeaves (T : LeafTest) :
    Gathered fun (outside : Bool) p => outside = true → p.OnLeaves T where
  group := by
    intro outside op ps
    rw [OnLeaves, onLeavesAll_iff]
    exact ⟨fun h p hp ho => h ho p hp, fun h ho p hp => h p hp ho⟩
  value _ := id
  values _ := id
  related outside via := ⟨false, fun _ => ⟨outside = true → T.related via, by simp [OnLeaves]⟩⟩

theorem onLeavesAll_insert (h : OnLeavesAll T members) (hp : p.OnLeaves T) :
    OnLeavesAll T (insert connective members p) := by
  rw [onLeavesAll_iff] at h ⊢
  exact fun x hx => (gathered_onLeaves T).insert.2 ⟨fun y hy _ => h y hy, fun _ => hp⟩ x hx rfl

theorem onLeaves_simplify {T U : LeafTest} (hTU : T.Expands U) (p : Predicate)
    (h : p.OnLeaves T) : p.simplify.OnLeaves U := by
  have hU := gathered_onLeaves U
  induction p using tree_induction with
  | group op members ih =>
    rw [OnLeaves, onLeavesAll_iff] at h
    rw [simplify, simplifyUnder_eq]
    refine hU.close.2 (hU.insertAll.2 ⟨by simp, List.forall_mem_flatMap.2 fun p hp => ?_⟩) rfl
    exact (hU.membersUnder op).2 fun _ => ih p hp (h p hp)
  | compare path op operand q =>
    rw [simplify]
    split
    · rename_i hop
      subst hop
      exact ⟨hTU.null path h, hTU.unlike path h, ⟨⟩⟩
    · rename_i hop
      exact hTU.compare path op hop h
  | columns left op right =>
    rw [simplify]
    exact hTU.columns left right h
  | related via condition inverted threshold =>
    rw [simplify]
    exact hTU.related via h

theorem onLeavesAll_simplifyUnder {T U : LeafTest} (hTU : T.Expands U) (op : Connective)
    (h : OnLeavesAll T ps) : OnLeavesAll U (simplifyUnder op ps) := by
  rw [onLeavesAll_iff] at h ⊢
  rw [simplifyUnder_eq, List.forall_mem_flatMap]
  intro p hp q hq
  have hsimplified := onLeaves_simplify hTU p (h p hp)
  exact ((gathered_onLeaves U).membersUnder op).2 (fun _ => hsimplified) q hq rfl

/-- No comparison is `notLikeOrNull`. -/
def expanded : LeafTest where
  compare _ op := op ≠ .notLikeOrNull
  columns _ _ := True
  related _ := True

theorem onLeaves_all (p : Predicate) : p.OnLeaves .all := by
  induction p using tree_induction with
  | group op members ih => exact onLeavesAll_iff.2 ih
  | _ => trivial

theorem expands_expanded : LeafTest.all.Expands expanded where
  compare _ _ hop _ := hop
  null _ _ := by simp [expanded]
  unlike _ _ := by simp [expanded]
  columns _ _ _ := True.intro
  related _ _ := True.intro

/-- A simplified predicate has no `notLikeOrNull` left. -/
theorem onLeaves_expanded_simplify (p : Predicate) : p.simplify.OnLeaves expanded :=
  onLeaves_simplify expands_expanded p (onLeaves_all p)

end Predicate

end EntityQuery
