import EntityQuery.Predicate.Rendering
import EntityQuery.Proofs.Success

/-!
# Nested SELECT statements, and the expressions of comparisons

**SELECTs.** `Expr.selects` and `Query.selects` list every SELECT that stands in an expression or
a query, at any depth, so that a property of all of them can be stated at once.

**Comparisons.** The expressions that a comparison is written as are put together from the column,
parameters and constants by a few constructors only. A property that these constructors keep
(`Expr.Kept`) therefore holds of every comparison if it holds of the column: of `scalar`, `list`
and `compareColumns`, whatever the operator and the values.
-/

namespace EntityQuery

namespace Sql

variable {q : Query}

mutual

/-- The SELECTs inside an expression. -/
def Expr.selects : Expr → List Query
  | .column _ | .literal _ | .param _ _ | .star _ => []
  | .binary a _ b => a.selects ++ b.selects
  | .call _ args _ => selectsAll args
  | .case branches otherwise => selectsBranches branches ++ selectsOption otherwise
  | .subquery q => q.selects
  | .inList e vs _ => e.selects ++ selectsAll vs
  | .inQuery e q _ => e.selects ++ q.selects
  | .isNull e _ | .paren e => e.selects

def selectsAll : List Expr → List Query
  | [] => []
  | e :: rest => e.selects ++ selectsAll rest

def selectsBranches : List (Expr × Expr) → List Query
  | [] => []
  | (e, f) :: rest => e.selects ++ f.selects ++ selectsBranches rest

def selectsOption : Option Expr → List Query
  | none => []
  | some e => e.selects

def selectsItems : List SelectItem → List Query
  | [] => []
  | ⟨e, _⟩ :: rest => e.selects ++ selectsItems rest

def selectsSource : Option Source → List Query
  | some (.derived q _) => q.selects
  | some (.table _) | none => []

def selectsJoins : List Join → List Query
  | [] => []
  | ⟨_, _, on⟩ :: rest => on.selects ++ selectsJoins rest

def selectsOrder : List OrderItem → List Query
  | [] => []
  | ⟨e, _⟩ :: rest => e.selects ++ selectsOrder rest

def selectsCtes : List Cte → List Query
  | [] => []
  | ⟨_, q⟩ :: rest => q.selects ++ selectsCtes rest

/-- A query and the SELECTs inside it. -/
def Query.selects : Query → List Query
  | ⟨ctes, items, distinct, top, source, joins, condition, groupBy, having, orderBy, window,
      forJson⟩ =>
    ⟨ctes, items, distinct, top, source, joins, condition, groupBy, having, orderBy, window,
      forJson⟩ ::
      (selectsCtes ctes ++ selectsItems items ++ selectsSource source ++ selectsJoins joins ++
        selectsOption condition ++ selectsAll groupBy ++ selectsOption having ++
        selectsOrder orderBy)

end

theorem Query.selects_eq (q : Query) :
    q.selects = q :: (selectsCtes q.ctes ++ selectsItems q.items ++ selectsSource q.source ++
      selectsJoins q.joins ++ selectsOption q.condition ++ selectsAll q.groupBy ++
      selectsOption q.having ++ selectsOrder q.orderBy) := by
  cases q
  rw [Query.selects]

theorem mem_selectsAll {es : List Expr} : q ∈ selectsAll es ↔ ∃ e ∈ es, q ∈ e.selects := by
  induction es with
  | nil => simp [selectsAll]
  | cons e es ih => simp [selectsAll, ih]

theorem mem_selectsItems {items : List SelectItem} :
    q ∈ selectsItems items ↔ ∃ i ∈ items, q ∈ i.expr.selects := by
  induction items with
  | nil => simp [selectsItems]
  | cons i items ih =>
    cases i
    simp [selectsItems, ih]

theorem mem_selectsOrder {items : List OrderItem} :
    q ∈ selectsOrder items ↔ ∃ o ∈ items, q ∈ o.expr.selects := by
  induction items with
  | nil => simp [selectsOrder]
  | cons o items ih =>
    cases o
    simp [selectsOrder, ih]

theorem mem_selectsBranches {branches : List (Expr × Expr)} :
    q ∈ selectsBranches branches ↔ ∃ b ∈ branches, q ∈ b.1.selects ∨ q ∈ b.2.selects := by
  induction branches with
  | nil => simp [selectsBranches]
  | cons b branches ih =>
    cases b
    simp [selectsBranches, ih, or_assoc]

theorem mem_selectsOption {e : Option Expr} : q ∈ selectsOption e ↔ ∃ x ∈ e, q ∈ x.selects := by
  cases e with
  | none => simp [selectsOption]
  | some x => simp [selectsOption]

theorem mem_selectsCtes {ctes : List Cte} :
    q ∈ selectsCtes ctes ↔ ∃ c ∈ ctes, q ∈ c.query.selects := by
  induction ctes with
  | nil => simp [selectsCtes]
  | cons c ctes ih =>
    cases c
    simp [selectsCtes, ih]

theorem mem_selectsJoins {js : List Join} : q ∈ selectsJoins js ↔ ∃ j ∈ js, q ∈ j.on.selects := by
  induction js with
  | nil => simp [selectsJoins]
  | cons j js ih =>
    cases j
    simp [selectsJoins, ih]

/-! ## Properties kept by comparisons -/

/-- The property passes from the parts of a comparison to the whole. -/
structure Expr.Kept (P : Expr → Prop) : Prop where
  literal : ∀ l, P (.literal l)
  param : ∀ v type, P (.param v type)
  binary : ∀ {a b} op, P a → P b → P (.binary a op b)
  inList : ∀ {e vs} negated, P e → (∀ v ∈ vs, P v) → P (.inList e vs negated)
  isNull : ∀ {e} negated, P e → P (.isNull e negated)
  paren : ∀ {e}, P e → P (.paren e)

namespace Expr.Kept

variable {P : Expr → Prop} {es : List Expr} {op : BinaryOp}

theorem protect (h : Kept P) {e : Expr} (he : P e) : P e.protect := by
  rw [Expr.protect]
  split
  · exact h.paren he
  · exact he

theorem combine₂ (h : Kept P) {a b : Expr} (op : BinaryOp) (ha : P a) (hb : P b) :
    P (.combine₂ op a b) :=
  h.binary op (h.protect ha) (h.protect hb)

theorem foldl (h : Kept P) {acc : Expr} (hacc : P acc) (hes : ∀ e ∈ es, P e) :
    P (es.foldl (fun acc x => .binary acc op x.protect) acc) := by
  induction es generalizing acc with
  | nil => exact hacc
  | cons e es ih =>
    rw [List.forall_mem_cons] at hes
    exact ih (h.binary op hacc (h.protect hes.1)) hes.2

theorem combine (h : Kept P) (hes : ∀ e ∈ es, P e) : ∀ e ∈ Expr.combine op es, P e := by
  cases es with
  | nil => simp [Expr.combine]
  | cons e es =>
    rw [List.forall_mem_cons] at hes
    intro x hx
    cases hx
    exact h.foldl (h.protect hes.1) hes.2

theorem combine_getD (h : Kept P) {e : Expr} (hes : ∀ e ∈ es, P e) (he : P e) :
    P ((Expr.combine op es).getD e) := by
  cases hc : Expr.combine op es with
  | none => exact he
  | some x => exact h.combine hes x hc

end Expr.Kept

/-- A property of all SELECTs passes from the parts of a comparison to the whole. -/
theorem Expr.kept_selects (S : Query → Prop) : Expr.Kept fun e => ∀ q ∈ e.selects, S q where
  literal _ := by simp [selects]
  param _ _ := by simp [selects]
  binary _ ha hb := by
    simp only [selects, List.mem_append]
    exact fun q hq => hq.elim (ha q) (hb q)
  inList _ he hvs := by
    simp only [selects, List.mem_append, mem_selectsAll]
    rintro q (hq | ⟨v, hv, hq⟩)
    · exact he q hq
    · exact hvs v hv q hq
  isNull _ he := by simpa only [selects] using he
  paren he := by simpa only [selects] using he

end Sql

open Sql (Expr)

namespace Target

variable {P : Expr → Prop} {t : Target} {e : Expr}

theorem kept_words (h : Expr.Kept P) (ht : P t.column) {op connective : Sql.BinaryOp} {v : Value}
    (he : t.words op connective v = .ok e) : P e := by
  simp only [words] at he
  split at he
  · contradiction
  · rename_i word _
    cases he
    refine h.combine_getD (fun x hx => ?_) (h.literal _)
    obtain ⟨s, -, rfl⟩ := List.mem_map.1 hx
    exact h.binary op ht (h.param _ _)

theorem kept_scalar (h : Expr.Kept P) (ht : P t.column) {op : Operator} {v : Value}
    (he : t.scalar op v = .ok e) : P e := by
  simp only [scalar] at he
  split at he
  · split at he
    · cases he
      exact h.isNull _ ht
    · cases he
      exact h.isNull _ ht
    · contradiction
  · split at he
    · exact kept_words h ht he
    · exact kept_words h ht he
    · cases he
      exact h.combine₂ _ (h.isNull _ ht) (h.binary _ ht (h.param _ _))
    · split at he
      · cases he
        exact h.binary _ ht (h.param _ _)
      · contradiction

theorem kept_list (h : Expr.Kept P) (ht : P t.column) {op : Operator} {vs : List Value}
    {q : Quantifier} (he : t.list op vs q = .ok e) : P e := by
  have hparams : ∀ x ∈ vs.map t.param, P x := by
    intro x hx
    obtain ⟨v, -, rfl⟩ := List.mem_map.1 hx
    exact h.param _ _
  simp only [list] at he
  split at he
  · cases he
    exact h.inList _ ht (by simp)
  · exact kept_scalar h ht he
  · split at he
    · cases he
      exact h.inList _ ht hparams
    · cases he
      exact h.inList _ ht hparams
    · contradiction
    · contradiction
    · simp only [bind_eq_ok, pure_eq_ok] at he
      obtain ⟨parts, hparts, rfl⟩ := he
      refine h.combine_getD (fun x hx => ?_) (h.literal _)
      obtain ⟨v, -, hv⟩ := exists_of_mapM_eq_ok hparts x hx
      exact kept_scalar h ht hv

end Target

theorem JoinFilter.kept_expr {P : Expr → Prop} (h : Expr.Kept P) {label : String}
    (f : JoinFilter) (hcolumn : P (.ofTable label f.column)) : P (f.expr label) := by
  simp only [JoinFilter.expr]
  split
  · exact h.isNull _ hcolumn
  · exact h.isNull _ hcolumn
  · exact h.binary _ hcolumn (h.param _ _)

/-- The condition of a join reads columns of the joined table and one column on the left. -/
theorem JoinStep.kept_on {P : Expr → Prop} (h : Expr.Kept P) (j : JoinStep)
    (hleft : P (.ofTable j.left j.leftColumn)) (hright : ∀ column, P (.ofTable j.label column)) :
    P j.on := by
  have hcondition : P j.condition := h.binary _ hleft (hright _)
  refine h.combine_getD (fun e he => ?_) hcondition
  rcases List.mem_cons.1 he with rfl | he
  · exact hcondition
  · obtain ⟨f, -, rfl⟩ := List.mem_map.1 he
    exact f.kept_expr h (hright _)

theorem kept_compareColumns {P : Expr → Prop} (h : Expr.Kept P) {left right : Target}
    (hl : P left.column) (hr : P right.column) {op : Operator} {e : Expr}
    (he : compareColumns left right op = .ok e) : P e := by
  simp only [compareColumns] at he
  split at he
  · cases he
    exact h.combine₂ _ (h.isNull _ hl) (h.binary _ hl hr)
  · split at he
    · cases he
      exact h.binary _ hl hr
    · contradiction

end EntityQuery
