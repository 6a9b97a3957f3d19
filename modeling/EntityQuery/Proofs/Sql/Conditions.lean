import EntityQuery.Proofs.Sql.Reading

/-!
# The conditions of a statement

`Query.conditions` lists the conditions of one SELECT: those of its joins, WHERE, HAVING, and those
of every CASE in it. Together with `Query.selects` it reaches all conditions of a statement, in
CTEs, subqueries and derived tables too.

**Reading back** (`Expr.ReadBack`). A condition is read back if its tokens, in every dialect, are
read as the same tree without its parentheses, and no AND chain stands bare in an OR chain nor an
OR chain in an AND chain. Conditions that fit their place are read back
(`Expr.IsCondition.readBack`).

**Building.** `combine` puts conditions together to a condition (`Expr.isCondition_combine`). A
query is readable, which says that every condition in it fits, exactly if its clauses are
(`Query.readable_iff`).
-/

namespace EntityQuery.Sql

variable {condition : Option Expr} {q : Query} {ctes : List Cte}

/-! ## The conditions of a SELECT -/

mutual

/-- The expression and those inside it; subqueries are opaque. -/
def Expr.parts : Expr → List Expr
  | .column c => [.column c]
  | .literal l => [.literal l]
  | .param value type => [.param value type]
  | .binary a op b => .binary a op b :: (a.parts ++ b.parts)
  | .call name args distinct => .call name args distinct :: partsAll args
  | .case branches otherwise =>
    .case branches otherwise :: (partsBranches branches ++ partsOption otherwise)
  | .subquery q => [.subquery q]
  | .inList e vs negated => .inList e vs negated :: (e.parts ++ partsAll vs)
  | .inQuery e q negated => .inQuery e q negated :: e.parts
  | .isNull e negated => .isNull e negated :: e.parts
  | .star table => [.star table]
  | .paren e => .paren e :: e.parts

def partsAll : List Expr → List Expr
  | [] => []
  | e :: rest => e.parts ++ partsAll rest

def partsBranches : List (Expr × Expr) → List Expr
  | [] => []
  | (e, f) :: rest => e.parts ++ f.parts ++ partsBranches rest

def partsOption : Option Expr → List Expr
  | none => []
  | some e => e.parts

end

/-- The conditions of the branches of a CASE. -/
def Expr.branchConditions : Expr → List Expr
  | .case branches _ => branches.map (·.1)
  | _ => []

/-- The conditions of all CASEs in the expression. -/
def Expr.whens (e : Expr) : List Expr := e.parts.flatMap branchConditions

namespace Query

/-- The expressions of a SELECT. -/
def exprs (q : Query) : List Expr :=
  q.items.map (·.expr) ++ q.joins.map (·.on) ++ q.condition.toList ++ q.groupBy ++
    q.having.toList ++ q.orderBy.map (·.expr)

/-- The conditions of a SELECT, without those of SELECTs inside it. -/
def conditions (q : Query) : List Expr :=
  q.joins.map (·.on) ++ q.condition.toList ++ q.having.toList ++ q.exprs.flatMap Expr.whens

end Query

/-! ## Reading back -/

/-- The connective of a chain. -/
def Expr.connective? : Expr → Option BinaryOp
  | .binary _ op _ => if op.isLogical then some op else none
  | _ => none

/-- A chain has no chain of the other connective under it without parentheses. -/
def Expr.Unmixed (e : Expr) : Prop :=
  ∀ a op b, .binary a op b ∈ e.parts → op.isLogical → ∀ x ∈ [a, b], ∀ op' ∈ x.connective?, op' = op

/-- The tokens are read as the tree they were printed from, up to parentheses. -/
structure Expr.ReadBack (e : Expr) : Prop where
  condition? : ∀ d, Token.condition? (e.tokens d) = some e.bare
  unmixed : e.Unmixed

mutual

theorem Expr.Fits.parts {e : Expr} {place : Place} (h : e.Fits place) :
    ∀ x ∈ e.parts, ∃ place, x.Fits place :=
  match e, h with
  | .column _, h | .literal _, h | .param _ _, h | .star _, h => List.forall_mem_singleton.2 ⟨_, h⟩
  | .binary a op b, h => by
    refine List.forall_mem_cons.2 ⟨⟨_, h⟩, List.forall_mem_append.2 ?_⟩
    rw [Expr.Fits] at h
    split at h
    · exact ⟨h.2.1.parts, h.2.2.parts⟩
    · exact ⟨h.2.1.parts, h.2.2.parts⟩
  | .call _ _ _, h => List.forall_mem_cons.2 ⟨⟨_, h⟩, h.2.parts⟩
  | .inList _ _ _, h =>
    List.forall_mem_cons.2 ⟨⟨_, h⟩, List.forall_mem_append.2 ⟨h.2.1.parts, h.2.2.parts⟩⟩
  | .inQuery _ _ _, h => List.forall_mem_cons.2 ⟨⟨_, h⟩, h.2.1.parts⟩
  | .isNull _ _, h => List.forall_mem_cons.2 ⟨⟨_, h⟩, h.2.parts⟩
  | .paren _, h =>
    have ⟨_, he⟩ := h
    List.forall_mem_cons.2 ⟨⟨_, h⟩, he.parts⟩

theorem FitAll.parts {es : List Expr} (h : FitAll es) : ∀ x ∈ partsAll es, ∃ place, x.Fits place :=
  match es, h with
  | [], _ => List.forall_mem_nil _
  | _ :: _, h => List.forall_mem_append.2 ⟨h.1.parts, h.2.parts⟩

end

namespace Expr

variable {e : Expr} {place : Place} {es : List Expr} {op : BinaryOp} {a b : Expr}

/-- What stands in a condition has no CASE. -/
theorem Fits.whens_eq_nil (h : e.Fits place) : e.whens = [] := by
  refine List.flatMap_eq_nil_iff.2 fun x hx => ?_
  obtain ⟨place, hfits⟩ := h.parts x hx
  cases x with
  | case branches otherwise => exact absurd hfits id
  | _ => rfl

theorem Fits.connective? (h : e.Fits place) : ∀ op ∈ e.connective?, place = .chain op := by
  cases e with
  | binary a op b =>
    intro op' hop'
    rw [Fits] at h
    simp only [Expr.connective?] at hop'
    split at h
    · rename_i hop
      rw [if_pos hop] at hop'
      cases hop'
      exact h.1
    · rename_i hop
      rw [if_neg hop] at hop'
      cases hop'
  | _ => exact fun _ hop => absurd hop (Option.not_mem_none _)

theorem Fits.unmixed (h : e.Fits place) : e.Unmixed := by
  intro a op b hmem hop
  obtain ⟨place, hfits⟩ := h.parts _ hmem
  rw [Fits, if_pos hop] at hfits
  obtain ⟨-, ha, hb⟩ := hfits
  refine List.forall_mem_cons.2 ⟨fun op' hop' => ?_, List.forall_mem_singleton.2 fun op' hop' => ?_⟩
  · cases ha.connective? op' hop'
    rfl
  · cases hb.connective? op' hop'

/-- **Conditions are read back.** -/
theorem IsCondition.readBack (h : e.IsCondition) : e.ReadBack := by
  refine ⟨h.condition?_tokens, ?_⟩
  obtain ⟨op, h⟩ := h
  exact h.unmixed

/-! ## Building conditions -/

/-- Only chains need parentheses in a chain. -/
theorem IsCondition.fits_protect (h : e.IsCondition) : e.protect.Fits .comparison := by
  rw [protect]
  split
  · exact h
  · rename_i hlogical
    obtain ⟨op', h⟩ := h
    cases e with
    | binary a op b =>
      have hop : ¬ op.isLogical := by
        cases op <;> simp [isLogical, BinaryOp.isLogical] at hlogical ⊢
      rw [Fits, if_neg hop] at h ⊢
      exact ⟨rfl, h.2⟩
    | inList e vs negated => exact ⟨rfl, h.2⟩
    | inQuery e q negated => exact ⟨rfl, h.2⟩
    | isNull e negated => exact ⟨rfl, h.2⟩
    | _ => exact h

theorem Fits.of_comparison (h : e.Fits .comparison) (op : BinaryOp) : e.Fits (.chain op) := by
  cases e with
  | binary a op' b =>
    rw [Fits] at h ⊢
    split at h
    · cases h.1
    · rename_i hop
      rw [if_neg hop]
      exact ⟨rfl, h.2⟩
  | inList e vs negated => exact ⟨rfl, h.2⟩
  | inQuery e q negated => exact ⟨rfl, h.2⟩
  | isNull e negated => exact ⟨rfl, h.2⟩
  | _ => exact h

theorem fits_chain (hop : op.isLogical) (ha : a.Fits (.chain op)) (hb : b.IsCondition) :
    (binary a op b.protect).Fits (.chain op) := by
  rw [Fits, if_pos hop]
  exact ⟨rfl, ha, hb.fits_protect⟩

theorem isCondition_combine₂ (hop : op.isLogical) (ha : a.IsCondition) (hb : b.IsCondition) :
    (combine₂ op a b).IsCondition :=
  ⟨op, fits_chain hop (ha.fits_protect.of_comparison op) hb⟩

theorem fits_foldl (hop : op.isLogical) {acc : Expr} (hacc : acc.Fits (.chain op))
    (hes : ∀ e ∈ es, e.IsCondition) :
    (es.foldl (fun acc x => binary acc op x.protect) acc).Fits (.chain op) := by
  induction es generalizing acc with
  | nil => exact hacc
  | cons e es ih =>
    rw [List.forall_mem_cons] at hes
    exact ih (fits_chain hop hacc hes.1) hes.2

/-- **Conditions combine to a condition**, whatever their own connectives. -/
theorem isCondition_combine (hop : op.isLogical) (hes : ∀ e ∈ es, e.IsCondition) :
    ∀ e ∈ combine op es, e.IsCondition := by
  cases es with
  | nil => exact fun _ h => absurd h (Option.not_mem_none _)
  | cons e es =>
    rw [List.forall_mem_cons] at hes
    intro x hx
    cases hx
    exact ⟨op, fits_foldl hop (hes.1.fits_protect.of_comparison op) hes.2⟩

theorem isCondition_combine_getD (hop : op.isLogical) (hes : ∀ e ∈ es, e.IsCondition)
    (he : e.IsCondition) : ((combine op es).getD e).IsCondition := by
  cases hc : combine op es with
  | none => exact he
  | some x => exact isCondition_combine hop hes x hc

theorem isCondition_compare (hop : op.isLogical = false) (ha : a.Fits .operand)
    (hb : b.Fits .operand) : (binary a op b).IsCondition := by
  refine ⟨.and, ?_⟩
  rw [Fits, if_neg (by simp [hop])]
  exact ⟨rfl, ha, hb⟩

theorem isCondition_isNull (he : e.Fits .operand) (negated : Bool) :
    (isNull e negated).IsCondition :=
  ⟨.and, rfl, he⟩

end Expr

/-! ## Readable queries -/

/-- All conditions in the query fit. -/
def Query.Readable (q : Query) : Prop := ∀ s ∈ q.selects, ∀ c ∈ s.conditions, c.IsCondition

/-- All conditions of CASEs and SELECTs in the expression fit. -/
structure Expr.Readable (e : Expr) : Prop where
  whens : ∀ c ∈ e.whens, c.IsCondition
  selects : ∀ s ∈ e.selects, ∀ c ∈ s.conditions, c.IsCondition

theorem fitJoins_iff {joins : List Join} : FitJoins joins ↔ ∀ j ∈ joins, j.on.IsCondition := by
  induction joins with
  | nil => simp [FitJoins]
  | cons j joins ih =>
    cases j
    simp [FitJoins, ih, Expr.IsCondition]

theorem fitOption_iff : FitOption condition ↔ ∀ c ∈ condition, c.IsCondition := by
  cases condition with
  | none => simp [FitOption]
  | some c => simp [FitOption, Expr.IsCondition]

theorem fitAll_iff {es : List Expr} : FitAll es ↔ ∀ e ∈ es, e.Fits .operand := by
  induction es with
  | nil => simp [FitAll]
  | cons e es ih => simp [FitAll, ih]

theorem Expr.flatMap_whens_eq_nil {es : List Expr} (h : ∀ e ∈ es, e.IsCondition) :
    es.flatMap whens = [] := by
  refine List.flatMap_eq_nil_iff.2 fun e he => ?_
  obtain ⟨op, hfits⟩ := h e he
  exact hfits.whens_eq_nil

theorem Query.conditions_rows {e : Expr} {t : TableRef} {joins : List Join} (he : e.Fits .operand)
    (hjoins : FitJoins joins) (hcondition : FitOption condition) :
    ∀ c ∈ (Query.rows e t joins condition).conditions, c.IsCondition := by
  have hon : ∀ c ∈ joins.map (·.on), c.IsCondition :=
    List.forall_mem_map.2 (fitJoins_iff.1 hjoins)
  have hwhere : ∀ c ∈ condition.toList, c.IsCondition := by
    simpa using fitOption_iff.1 hcondition
  simp only [conditions, exprs, rows, List.flatMap_append, List.map_cons, List.map_nil,
    Option.toList_none, List.flatMap_cons, List.flatMap_nil, he.whens_eq_nil,
    Expr.flatMap_whens_eq_nil hon, Expr.flatMap_whens_eq_nil hwhere, List.append_nil]
  exact List.forall_mem_append.2 ⟨hon, hwhere⟩

theorem mem_selectsSource {source : Option Source} {s : Query} :
    s ∈ selectsSource source ↔ ∃ q label, source = some (.derived q label) ∧ s ∈ q.selects := by
  rcases source with _ | _ | ⟨q, label⟩ <;> simp [selectsSource]

/-- The SELECTs inside a query stand in WITH, in FROM or in its expressions. -/
theorem Query.mem_selects {s : Query} :
    s ∈ q.selects ↔ s = q ∨ (∃ c ∈ q.ctes, s ∈ c.query.selects) ∨
      (∃ q' label, q.source = some (.derived q' label) ∧ s ∈ q'.selects) ∨
      ∃ e ∈ q.exprs, s ∈ e.selects := by
  rw [selects_eq]
  simp only [exprs, List.mem_cons, List.mem_append, mem_selectsCtes, mem_selectsItems,
    mem_selectsSource, mem_selectsJoins, mem_selectsOption, mem_selectsAll, mem_selectsOrder,
    List.mem_map, Option.mem_toList, Option.mem_def]
  grind

/-- A query is readable exactly if its expressions and the queries in WITH and FROM are, and its
own conditions fit. -/
theorem Query.readable_iff_exprs :
    q.Readable ↔ (∀ c ∈ q.ctes, c.query.Readable) ∧
      (∀ q' label, q.source = some (.derived q' label) → q'.Readable) ∧
      (∀ e ∈ q.exprs, e.Readable) ∧
      ∀ c ∈ q.joins.map (·.on) ++ q.condition.toList ++ q.having.toList, c.IsCondition := by
  constructor
  · intro h
    have hq := h q (mem_selects.2 (.inl rfl))
    refine ⟨fun c hc s hs => ?_, fun q' label hq' s hs => ?_, fun e he => ⟨fun c hc => ?_,
      fun s hs => ?_⟩, fun c hc => hq c (List.mem_append_left _ hc)⟩
    · exact h s (mem_selects.2 (.inr (.inl ⟨c, hc, hs⟩)))
    · exact h s (mem_selects.2 (.inr (.inr (.inl ⟨q', label, hq', hs⟩))))
    · exact hq c (List.mem_append_right _ (List.mem_flatMap.2 ⟨e, he, hc⟩))
    · exact h s (mem_selects.2 (.inr (.inr (.inr ⟨e, he, hs⟩))))
  · rintro ⟨hctes, hsource, hexprs, hconditions⟩ s hs
    rcases mem_selects.1 hs with rfl | ⟨c, hc, hs⟩ | ⟨q', label, hq', hs⟩ | ⟨e, he, hs⟩
    · refine List.forall_mem_append.2 ⟨hconditions, fun c hc => ?_⟩
      obtain ⟨e, he, hc⟩ := List.mem_flatMap.1 hc
      exact (hexprs e he).whens c hc
    · exact hctes c hc s hs
    · exact hsource q' label hq' s hs
    · exact (hexprs e he).selects s hs

mutual

theorem Expr.Fits.forall_selects {e : Expr} {place : Place} (h : e.Fits place) :
    ∀ s ∈ e.selects, ∀ c ∈ s.conditions, c.IsCondition :=
  match e, h with
  | .column _, _ | .literal _, _ | .param _ _, _ | .star _, _ => List.forall_mem_nil _
  | .binary a op b, h => by
    rw [Expr.Fits] at h
    split at h
    · exact List.forall_mem_append.2 ⟨h.2.1.forall_selects, h.2.2.forall_selects⟩
    · exact List.forall_mem_append.2 ⟨h.2.1.forall_selects, h.2.2.forall_selects⟩
  | .call _ _ _, h => h.2.forall_selects
  | .inList _ _ _, h => List.forall_mem_append.2 ⟨h.2.1.forall_selects, h.2.2.forall_selects⟩
  | .inQuery _ q _, h => List.forall_mem_append.2 ⟨h.2.1.forall_selects, h.2.2.readable⟩
  | .isNull _ _, h => h.2.forall_selects
  | .paren _, ⟨_, he⟩ => he.forall_selects

theorem FitAll.forall_selects {es : List Expr} (h : FitAll es) :
    ∀ s ∈ selectsAll es, ∀ c ∈ s.conditions, c.IsCondition :=
  match es, h with
  | [], _ => List.forall_mem_nil _
  | _ :: _, h => List.forall_mem_append.2 ⟨h.1.forall_selects, h.2.forall_selects⟩

theorem FitJoins.forall_selects {joins : List Join} (h : FitJoins joins) :
    ∀ s ∈ selectsJoins joins, ∀ c ∈ s.conditions, c.IsCondition :=
  match joins, h with
  | [], _ => List.forall_mem_nil _
  | ⟨_, _, _⟩ :: _, ⟨⟨_, hon⟩, hrest⟩ =>
    List.forall_mem_append.2 ⟨hon.forall_selects, hrest.forall_selects⟩

theorem FitOption.forall_selects {condition : Option Expr} (h : FitOption condition) :
    ∀ s ∈ selectsOption condition, ∀ c ∈ s.conditions, c.IsCondition :=
  match condition, h with
  | none, _ => List.forall_mem_nil _
  | some _, ⟨_, he⟩ => he.forall_selects

theorem Query.Fits.readable {q : Query} (h : q.Fits) : q.Readable :=
  match q, h with
  | ⟨_, items, _, _, _, joins, condition, _, _, _, _, _⟩,
      ⟨⟨rfl, rfl, rfl, rfl, rfl, rfl, rfl, rfl, t, rfl⟩, hitems, hjoins, hcondition⟩ =>
    match items, hitems with
    | [⟨_, none⟩], he => by
      simp only [Query.Readable, Query.selects, selectsCtes, selectsItems, selectsSource,
        selectsAll, selectsOption, selectsOrder, List.append_nil, List.nil_append,
        List.forall_mem_cons, List.forall_mem_append]
      exact ⟨Query.conditions_rows he hjoins hcondition,
        ⟨he.forall_selects, hjoins.forall_selects⟩, hcondition.forall_selects⟩

end

namespace Expr

variable {x : Expr}

theorem Fits.readable {e : Expr} {place : Place} (h : e.Fits place) : e.Readable where
  whens := by
    rw [h.whens_eq_nil]
    exact List.forall_mem_nil _
  selects := h.forall_selects

theorem IsCondition.readable {e : Expr} (h : e.IsCondition) : e.Readable := by
  obtain ⟨op, h⟩ := h
  exact h.readable

theorem readable_column (c : Column) : (column c).Readable :=
  Fits.readable (show (column c).Fits .operand from True.intro)

theorem readable_literal (l : Literal) : (literal l).Readable :=
  Fits.readable (show (literal l).Fits .operand from True.intro)

theorem readable_param (value : Value) (type : Option String) : (param value type).Readable :=
  Fits.readable (show (param value type).Fits .operand from True.intro)

theorem readable_star (table : Option String) : (star table).Readable :=
  Fits.readable (show (star table).Fits .operand from True.intro)

theorem mem_partsAll {es : List Expr} : x ∈ partsAll es ↔ ∃ e ∈ es, x ∈ e.parts := by
  induction es with
  | nil => simp [partsAll]
  | cons e es ih => simp [partsAll, ih]

theorem mem_partsBranches {branches : List (Expr × Expr)} :
    x ∈ partsBranches branches ↔ ∃ b ∈ branches, x ∈ b.1.parts ∨ x ∈ b.2.parts := by
  induction branches with
  | nil => simp [partsBranches]
  | cons b branches ih =>
    cases b
    simp [partsBranches, ih, or_assoc]

theorem mem_partsOption {e : Option Expr} : x ∈ partsOption e ↔ ∃ y ∈ e, x ∈ y.parts := by
  cases e with
  | none => simp [partsOption]
  | some y => simp [partsOption]

theorem Readable.forall_branchConditions {e : Expr} (h : e.Readable) (hx : x ∈ e.parts) :
    ∀ c ∈ x.branchConditions, c.IsCondition :=
  fun c hc => h.whens c (List.mem_flatMap.2 ⟨x, hx, hc⟩)

theorem readable_call {name : String} {args : List Expr} {distinct : Bool}
    (h : ∀ e ∈ args, e.Readable) : (call name args distinct).Readable where
  whens := by
    rw [whens, List.forall_mem_flatMap, parts]
    refine List.forall_mem_cons.2 ⟨List.forall_mem_nil _, fun x hx => ?_⟩
    obtain ⟨e, he, hx⟩ := mem_partsAll.1 hx
    exact (h e he).forall_branchConditions hx
  selects := by
    intro s hs
    obtain ⟨e, he, hs⟩ := mem_selectsAll.1 hs
    exact (h e he).selects s hs

theorem readable_subquery (h : q.Readable) : (subquery q).Readable where
  whens := List.forall_mem_nil _
  selects := h

theorem readable_case {branches : List (Expr × Expr)} {otherwise : Option Expr}
    (hbranches : ∀ b ∈ branches, b.1.IsCondition ∧ b.2.Readable)
    (hotherwise : ∀ e ∈ otherwise, e.Readable) : (case branches otherwise).Readable where
  whens := by
    rw [whens, List.forall_mem_flatMap, parts]
    refine List.forall_mem_cons.2 ⟨List.forall_mem_map.2 fun b hb => (hbranches b hb).1,
      List.forall_mem_append.2 ⟨fun x hx => ?_, fun x hx => ?_⟩⟩
    · obtain ⟨b, hb, hx | hx⟩ := mem_partsBranches.1 hx
      · exact (hbranches b hb).1.readable.forall_branchConditions hx
      · exact (hbranches b hb).2.forall_branchConditions hx
    · obtain ⟨e, he, hx⟩ := mem_partsOption.1 hx
      exact (hotherwise e he).forall_branchConditions hx
  selects := by
    refine List.forall_mem_append.2 ⟨fun s hs => ?_, fun s hs => ?_⟩
    · obtain ⟨b, hb, hs | hs⟩ := mem_selectsBranches.1 hs
      · exact (hbranches b hb).1.readable.selects s hs
      · exact (hbranches b hb).2.selects s hs
    · obtain ⟨e, he, hs⟩ := mem_selectsOption.1 hs
      exact (hotherwise e he).selects s hs

end Expr

/-- **A query is readable exactly if its clauses are.** -/
theorem Query.readable_iff :
    q.Readable ↔ (∀ c ∈ q.ctes, c.query.Readable) ∧ (∀ i ∈ q.items, i.expr.Readable) ∧
      (∀ q' label, q.source = some (.derived q' label) → q'.Readable) ∧
      (∀ j ∈ q.joins, j.on.IsCondition) ∧ (∀ c ∈ q.condition, c.IsCondition) ∧
      (∀ e ∈ q.groupBy, e.Readable) ∧ (∀ c ∈ q.having, c.IsCondition) ∧
      ∀ o ∈ q.orderBy, o.expr.Readable := by
  rw [readable_iff_exprs]
  simp only [exprs, List.forall_mem_append, List.forall_mem_map, Option.mem_toList]
  constructor
  · rintro ⟨hctes, hsource, ⟨⟨⟨⟨⟨hitems, -⟩, -⟩, hgroup⟩, -⟩, horder⟩, ⟨hjoins, hcondition⟩,
      hhaving⟩
    exact ⟨hctes, hitems, hsource, hjoins, hcondition, hgroup, hhaving, horder⟩
  · rintro ⟨hctes, hitems, hsource, hjoins, hcondition, hgroup, hhaving, horder⟩
    exact ⟨hctes, hsource, ⟨⟨⟨⟨⟨hitems, fun j hj => (hjoins j hj).readable⟩,
      fun c hc => (hcondition c hc).readable⟩, hgroup⟩, fun c hc => (hhaving c hc).readable⟩,
      horder⟩, ⟨hjoins, hcondition⟩, hhaving⟩

/-- A select list under a condition. -/
theorem Query.readable_empty {items : List SelectItem} (hctes : ∀ c ∈ ctes, c.query.Readable)
    (hitems : ∀ i ∈ items, i.expr.Readable) (hcondition : ∀ c ∈ condition, c.IsCondition) :
    { Query.empty with ctes, items, condition }.Readable := by
  rw [readable_iff]
  simpa [Query.empty] using ⟨hctes, hitems, hcondition⟩

/-- A select list over the rows of a query. -/
theorem Query.readable_derived {items : List SelectItem} {label : String}
    (hctes : ∀ c ∈ ctes, c.query.Readable) (hitems : ∀ i ∈ items, i.expr.Readable)
    (hq : q.Readable) :
    { Query.empty with ctes, items, source := some (.derived q label) }.Readable := by
  rw [readable_iff]
  simpa [Query.empty] using ⟨hctes, hitems, hq⟩

/-- Conditions that are added one by one. -/
theorem Query.Readable.filter (h : q.Readable) {e : Expr} (he : e.IsCondition) :
    (q.filter e).Readable := by
  rw [readable_iff] at h ⊢
  obtain ⟨hctes, hitems, hsource, hjoins, hcondition, hrest⟩ := h
  refine ⟨hctes, hitems, hsource, hjoins, fun c hc => ?_, hrest⟩
  cases hq : q.condition with
  | none =>
    simp only [Query.filter, hq, Option.mem_some_iff] at hc
    exact hc ▸ he
  | some f =>
    simp only [Query.filter, hq, Option.mem_some_iff] at hc
    exact hc ▸ Expr.isCondition_combine₂ rfl (hcondition f hq) he

theorem Query.Readable.withCtes (h : q.Readable) (hctes : ∀ c ∈ ctes, c.query.Readable) :
    { q with ctes }.Readable := by
  rw [readable_iff] at h ⊢
  exact ⟨hctes, h.2⟩

/-- How many rows are taken, and in which form, is no condition. -/
theorem Query.Readable.reshape (h : q.Readable) (top : Option Nat) (window : Option Window)
    (forJson : Option ForJson) : { q with top, window, forJson }.Readable := by
  rw [readable_iff] at h ⊢
  exact h

end EntityQuery.Sql
