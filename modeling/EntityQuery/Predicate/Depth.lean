import EntityQuery.Predicate.Correlated

/-!
# Depth of predicates

The depth of a predicate is the length of the longest chain of members in it, where a subquery
counts as one more. Neither simplification nor correlation makes a predicate deeper, and a
condition behind a relationship is less deep than the predicate it stands in. This is why a
predicate is written down in finitely many steps, although a model with cycles has no end.
-/

namespace EntityQuery

mutual

/-- The length of the longest chain of members. -/
def Predicate.depth : Predicate → Nat
  | .group _ members => depthAll members
  | .compare path _ operand _ => path.length + operand.depth
  | .columns left _ right => max left.length right.length
  | .related via condition _ _ => via.length + condition.depth

/-- The depth of the deepest predicate. -/
def depthAll : List Predicate → Nat
  | [] => 0
  | p :: ps => max p.depth (depthAll ps)

/-- A subquery is one deeper than its filter. -/
def Operand.depth : Operand → Nat
  | .value _ | .values _ => 0
  | .subquery q => q.depth + 1

def SubQuery.depth : SubQuery → Nat
  | ⟨_, _, filter⟩ => depthFilter filter

def depthFilter : Option Predicate → Nat
  | none => 0
  | some p => p.depth

end

theorem depthAll_le {ps : List Predicate} {n : Nat} :
    depthAll ps ≤ n ↔ ∀ p ∈ ps, p.depth ≤ n := by
  induction ps with
  | nil => simp [depthAll]
  | cons p ps ih => rw [depthAll, List.forall_mem_cons, ← ih, Nat.max_le]

namespace Predicate

/-- Each relationship takes its members off the depth that is left. -/
theorem hereditary_depth : Hereditary fun n p => p.depth ≤ n where
  group := depthAll_le
  compare := id
  value _ := Nat.le_trans (Nat.add_le_add_left (Nat.zero_le _) _)
  values _ := Nat.le_trans (Nat.add_le_add_left (Nat.zero_le _) _)
  related n via := ⟨n - via.length, fun _ => ⟨via.length ≤ n, fun _ _ => by
    rw [depth]
    omega⟩⟩

theorem depth_simplify (p : Predicate) : p.simplify.depth ≤ p.depth :=
  hereditary_depth.simplify.2 (Nat.le_refl _)

theorem Correlates.depth {m : Model} {t : Table} {p c : Predicate} (h : Correlates m t p c) :
    c.depth ≤ p.depth := by
  induction h with
  | kept _ => exact Nat.le_refl _
  | cons _ _ ih₁ ih₂ =>
    simp only [Predicate.depth, depthAll] at ih₂ ⊢
    omega
  | unlike _ _ ih₁ ih₂ =>
    simp only [Predicate.depth, depthAll, Operand.depth] at ih₁ ih₂ ⊢
    omega
  | across hmany hasked =>
    have hi := Model.firstMany?_lt hmany
    have hc := hasked.hereditary hereditary_depth (q := .any) (Nat.le_refl _)
    simp only [Predicate.depth, Path.length_take, Path.length_drop] at hc ⊢
    omega
  | columns hleft hright _ =>
    have hi := Model.firstMany?_lt hleft
    have hj := Model.firstMany?_lt hright
    simp only [Predicate.depth, Path.length_take, Path.length_drop]
    omega
  | nested hmany hlt =>
    simp only [Predicate.depth, Path.length_take, Path.length_drop]
    omega

theorem depth_correlate {m : Model} {t : Table} (p : Predicate) {c : Predicate}
    (h : p.correlate m t = .ok c) : c.depth ≤ p.depth :=
  (correlates_of_ok p h).depth

end Predicate

end EntityQuery
