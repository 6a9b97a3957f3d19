import EntityQuery.Predicate.Correlated

/-!
# Tables of subqueries

A predicate brings in tables of its own, one for each subquery in it, at any depth. Rewriting a
predicate adds none: if all tables of a predicate have a property, so have those of its simplified
and its correlated form.
-/

namespace EntityQuery

mutual

/-- All tables of subqueries have the property. -/
def Predicate.OnTables (P : Table → Prop) : Predicate → Prop
  | .group _ members => OnTablesAll P members
  | .compare _ _ operand _ => operand.OnTables P
  | .columns .. => True
  | .related _ condition _ _ => condition.OnTables P

def OnTablesAll (P : Table → Prop) : List Predicate → Prop
  | [] => True
  | p :: ps => p.OnTables P ∧ OnTablesAll P ps

def Operand.OnTables (P : Table → Prop) : Operand → Prop
  | .value _ | .values _ => True
  | .subquery q => q.OnTables P

def SubQuery.OnTables (P : Table → Prop) : SubQuery → Prop
  | ⟨table, _, filter⟩ => P table ∧ OnTablesFilter P filter

def OnTablesFilter (P : Table → Prop) : Option Predicate → Prop
  | none => True
  | some p => p.OnTables P

end

variable {P : Table → Prop}

mutual

theorem Predicate.onTables_true (p : Predicate) : p.OnTables fun _ => True := by
  match p with
  | .group _ members => exact onTablesAll_true members
  | .compare _ _ operand _ => exact operand.onTables_true
  | .columns .. => exact ⟨⟩
  | .related _ condition _ _ => exact condition.onTables_true

theorem onTablesAll_true (ps : List Predicate) : OnTablesAll (fun _ => True) ps := by
  match ps with
  | [] => exact ⟨⟩
  | p :: ps => exact ⟨p.onTables_true, onTablesAll_true ps⟩

theorem Operand.onTables_true (operand : Operand) : operand.OnTables fun _ => True := by
  match operand with
  | .value _ | .values _ => exact ⟨⟩
  | .subquery ⟨_, _, none⟩ => exact ⟨⟨⟩, ⟨⟩⟩
  | .subquery ⟨_, _, some p⟩ => exact ⟨⟨⟩, p.onTables_true⟩

end

theorem onTablesFilter_true (filter : Option Predicate) :
    OnTablesFilter (fun _ => True) filter := by
  cases filter with
  | none => exact ⟨⟩
  | some p => exact p.onTables_true

namespace Predicate

/-! ## Simplification -/

theorem onTablesAll_iff {ps : List Predicate} : OnTablesAll P ps ↔ ∀ p ∈ ps, p.OnTables P := by
  induction ps with
  | nil => simp [OnTablesAll]
  | cons p ps ih => simp [OnTablesAll, ih]

/-- The same is asked of conditions wherever they stand. -/
theorem hereditary_onTables : Hereditary fun (_ : Unit) p => p.OnTables P where
  group := onTablesAll_iff
  compare := id
  value _ _ := ⟨⟩
  values _ _ := ⟨⟩
  related _ _ := ⟨⟨⟩, fun _ => ⟨True, fun _ _ => by rw [true_and, OnTables]⟩⟩

theorem onTables_simplify (p : Predicate) (h : p.OnTables P) : p.simplify.OnTables P :=
  (hereditary_onTables.simplify (t := ⟨⟩)).2 h

/-! ## Correlation -/

theorem Correlates.onTables {m : Model} {t : Table} {p c : Predicate} (h : Correlates m t p c)
    (hp : p.OnTables P) : c.OnTables P := by
  induction h with
  | kept _ => exact hp
  | cons _ _ ih₁ ih₂ => exact ⟨ih₁ hp.1, ih₂ hp.2⟩
  | unlike _ _ ih₁ ih₂ => exact ⟨ih₁ ⟨⟩, ih₂ hp, ⟨⟩⟩
  | across _ hasked => exact hasked.hereditary hereditary_onTables (u := ⟨⟩) (q := .any) hp
  | columns _ _ _ => exact ⟨⟩
  | nested _ _ => exact hp

end Predicate

namespace Shop

/-- Some line of the order has a tag with this label. -/
def tagged : Predicate := .compare ⟨["lines", "tags", "label"]⟩ .eq (.value (.text "new")) .any

theorem onTables_tagged (P : Table → Prop) : tagged.OnTables P := ⟨⟩

end Shop

end EntityQuery
