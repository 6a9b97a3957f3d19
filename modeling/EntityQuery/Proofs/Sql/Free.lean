import EntityQuery.Proofs.Sql.Closed

/-!
# Free columns

The columns that an expression or a query takes from the rows around it: a SELECT binds the aliases
of its FROM clause, and what it reads of other tables is free in it. Expressions bind nothing, but
the subqueries in them do, so `Expr.free` sees the correlated columns that `Expr.columnsRead`, which
does not look into subqueries, leaves out.

A closed query has visible free columns only (`Query.Closed.visible`).
-/

namespace EntityQuery.Sql

variable {c : Column}

/-- The column belongs to one of the tables. -/
def Column.isOf (names : List String) (c : Column) : Bool := c.table.any names.contains

mutual

/-- The columns that an expression reads from its own row or from rows around it. -/
def Expr.free : Expr → List Column
  | .column c => [c]
  | .literal _ | .param _ _ | .star _ => []
  | .binary a _ b => a.free ++ b.free
  | .call _ args _ => freeAll args
  | .case branches otherwise => freeBranches branches ++ freeOption otherwise
  | .subquery q => q.free
  | .inList e vs _ => e.free ++ freeAll vs
  | .inQuery e q _ => e.free ++ q.free
  | .isNull e _ | .paren e => e.free

def freeAll : List Expr → List Column
  | [] => []
  | e :: rest => e.free ++ freeAll rest

def freeBranches : List (Expr × Expr) → List Column
  | [] => []
  | (e, f) :: rest => e.free ++ f.free ++ freeBranches rest

def freeOption : Option Expr → List Column
  | none => []
  | some e => e.free

def freeItems : List SelectItem → List Column
  | [] => []
  | ⟨e, _⟩ :: rest => e.free ++ freeItems rest

/-- A derived table does not see the tables beside it. -/
def freeSource : Option Source → List Column
  | some (.derived q _) => q.free
  | some (.table _) | none => []

def freeJoins : List Join → List Column
  | [] => []
  | ⟨_, _, on⟩ :: rest => on.free ++ freeJoins rest

def freeOrder : List OrderItem → List Column
  | [] => []
  | ⟨e, _⟩ :: rest => e.free ++ freeOrder rest

def freeCtes : List Cte → List Column
  | [] => []
  | ⟨_, q⟩ :: rest => q.free ++ freeCtes rest

/-- The columns that a query reads from the rows around it. -/
def Query.free : Query → List Column
  | ⟨ctes, items, _, _, source, joins, condition, groupBy, having, orderBy, _, _⟩ =>
    freeCtes ctes ++ freeSource source ++
      (freeJoins joins ++ freeItems items ++ freeOption condition ++ freeAll groupBy ++
        freeOption having ++ freeOrder orderBy).filter
          (!·.isOf (sourceNames source ++ joins.map (·.table.boundName)))

end

theorem mem_freeAll {es : List Expr} : c ∈ freeAll es ↔ ∃ e ∈ es, c ∈ e.free := by
  induction es with
  | nil => simp [freeAll]
  | cons e es ih => simp [freeAll, ih]

theorem mem_freeBranches {branches : List (Expr × Expr)} :
    c ∈ freeBranches branches ↔ ∃ b ∈ branches, c ∈ b.1.free ∨ c ∈ b.2.free := by
  induction branches with
  | nil => simp [freeBranches]
  | cons b branches ih =>
    cases b
    simp [freeBranches, ih, or_assoc]

theorem mem_freeOption {e : Option Expr} : c ∈ freeOption e ↔ ∃ x ∈ e, c ∈ x.free := by
  cases e <;> simp [freeOption]

theorem mem_freeItems {items : List SelectItem} :
    c ∈ freeItems items ↔ ∃ i ∈ items, c ∈ i.expr.free := by
  induction items with
  | nil => simp [freeItems]
  | cons i items ih =>
    cases i
    simp [freeItems, ih]

theorem mem_freeJoins {js : List Join} : c ∈ freeJoins js ↔ ∃ j ∈ js, c ∈ j.on.free := by
  induction js with
  | nil => simp [freeJoins]
  | cons j js ih =>
    cases j
    simp [freeJoins, ih]

theorem mem_freeOrder {items : List OrderItem} :
    c ∈ freeOrder items ↔ ∃ o ∈ items, c ∈ o.expr.free := by
  induction items with
  | nil => simp [freeOrder]
  | cons o items ih =>
    cases o
    simp [freeOrder, ih]

theorem Query.free_eq (q : Query) :
    q.free = freeCtes q.ctes ++ freeSource q.source ++
      (freeJoins q.joins ++ freeItems q.items ++ freeOption q.condition ++ freeAll q.groupBy ++
        freeOption q.having ++ freeOrder q.orderBy).filter (!·.isOf q.boundNames) := by
  cases q
  rw [Query.free, Query.boundNames]

mutual

/-- The columns read outside subqueries are among the free ones. -/
theorem Expr.columnsRead_sublist (e : Expr) : e.columnsRead.Sublist e.free := by
  match e with
  | .column _ => exact .refl _
  | .literal _ | .param _ _ | .star _ | .subquery _ => exact List.nil_sublist _
  | .binary a _ b => exact a.columnsRead_sublist.append b.columnsRead_sublist
  | .call _ args _ => exact columnsReadAll_sublist args
  | .case branches otherwise =>
    exact (columnsReadBranches_sublist branches).append (columnsReadOption_sublist otherwise)
  | .inList e vs _ => exact e.columnsRead_sublist.append (columnsReadAll_sublist vs)
  | .inQuery e _ _ => exact e.columnsRead_sublist.trans (List.sublist_append_left _ _)
  | .isNull e _ | .paren e => exact e.columnsRead_sublist

theorem columnsReadAll_sublist (es : List Expr) : (columnsReadAll es).Sublist (freeAll es) := by
  match es with
  | [] => exact .refl _
  | e :: es => exact e.columnsRead_sublist.append (columnsReadAll_sublist es)

theorem columnsReadBranches_sublist (branches : List (Expr × Expr)) :
    (columnsReadBranches branches).Sublist (freeBranches branches) := by
  match branches with
  | [] => exact .refl _
  | (e, f) :: rest =>
    exact (e.columnsRead_sublist.append f.columnsRead_sublist).append
      (columnsReadBranches_sublist rest)

theorem columnsReadOption_sublist (e : Option Expr) :
    (columnsReadOption e).Sublist (freeOption e) := by
  match e with
  | none => exact .refl _
  | some e => exact e.columnsRead_sublist

end

/-! ## Expressions whose free columns have a property -/

/-- Every free column has the property. -/
def Expr.Takes (A : Column → Prop) (e : Expr) : Prop := ∀ c ∈ e.free, A c

/-- Every free column has the property. -/
def Query.Takes (A : Column → Prop) (q : Query) : Prop := ∀ c ∈ q.free, A c

section

variable {A B : Column → Prop}

theorem Expr.Takes.mono (h : ∀ c, A c → B c) {e : Expr} (he : e.Takes A) : e.Takes B :=
  fun c hc => h c (he c hc)

theorem Expr.takes_column : (Expr.column c).Takes A ↔ A c := by
  simp [Takes, free]

theorem Expr.takes_call {name : String} {args : List Expr} {distinct : Bool}
    (h : ∀ e ∈ args, e.Takes A) : (Expr.call name args distinct).Takes A := by
  intro c hc
  rw [free, mem_freeAll] at hc
  obtain ⟨e, he, hc⟩ := hc
  exact h e he c hc

theorem Expr.takes_case {branches : List (Expr × Expr)} {otherwise : Option Expr}
    (h : ∀ b ∈ branches, b.1.Takes A ∧ b.2.Takes A) (hotherwise : ∀ e ∈ otherwise, e.Takes A) :
    (Expr.case branches otherwise).Takes A := by
  intro c hc
  rw [free, List.mem_append, mem_freeBranches, mem_freeOption] at hc
  rcases hc with ⟨b, hb, hc | hc⟩ | ⟨e, he, hc⟩
  · exact (h b hb).1 c hc
  · exact (h b hb).2 c hc
  · exact hotherwise e he c hc

theorem Expr.takes_subquery {q : Query} : (Expr.subquery q).Takes A ↔ q.Takes A := by
  simp [Expr.Takes, Query.Takes, free]

theorem Expr.kept_takes (A : Column → Prop) : Expr.Kept (Expr.Takes A) where
  literal _ := by simp [Takes, free]
  param _ _ := by simp [Takes, free]
  binary _ ha hb := by
    simp only [Takes, free, List.mem_append]
    exact fun c hc => hc.elim (ha c) (hb c)
  inList _ he hvs := by
    simp only [Takes, free, List.mem_append, mem_freeAll]
    rintro c (hc | ⟨v, hv, hc⟩)
    · exact he c hc
    · exact hvs v hv c hc
  isNull _ he := by simpa only [Takes, free] using he
  paren he := by simpa only [Takes, free] using he

/-- **What a SELECT takes from outside** is what its clauses take of tables that are not its own. -/
theorem Query.takes_of_clauses {q : Query} (hctes : q.ctes = [])
    (hsource : ∀ c ∈ freeSource q.source, A c)
    (hjoins : ∀ j ∈ q.joins, j.on.Takes fun c => c.isOf q.boundNames = true ∨ A c)
    (hitems : ∀ i ∈ q.items, i.expr.Takes fun c => c.isOf q.boundNames = true ∨ A c)
    (hcondition : ∀ e ∈ q.condition, e.Takes fun c => c.isOf q.boundNames = true ∨ A c)
    (hgroup : ∀ e ∈ q.groupBy, e.Takes fun c => c.isOf q.boundNames = true ∨ A c)
    (hhaving : ∀ e ∈ q.having, e.Takes fun c => c.isOf q.boundNames = true ∨ A c)
    (horder : ∀ o ∈ q.orderBy, o.expr.Takes fun c => c.isOf q.boundNames = true ∨ A c) :
    q.Takes A := by
  intro c hc
  simp only [Query.free_eq, hctes, freeCtes, List.nil_append, List.mem_append, List.mem_filter,
    mem_freeJoins, mem_freeItems, mem_freeOption, mem_freeAll, mem_freeOrder, Bool.not_eq_true']
    at hc
  rcases hc with hc | ⟨hc, hother⟩
  · exact hsource c hc
  · have hown : c.isOf q.boundNames = true ∨ A c := by
      rcases hc with ((((⟨j, hj, hc⟩ | ⟨i, hi, hc⟩) | ⟨e, he, hc⟩) | ⟨e, he, hc⟩) | ⟨e, he, hc⟩) |
        ⟨o, ho, hc⟩
      · exact hjoins j hj c hc
      · exact hitems i hi c hc
      · exact hcondition e he c hc
      · exact hgroup e he c hc
      · exact hhaving e he c hc
      · exact horder o ho c hc
    exact hown.resolve_left (by simp [hother])

end

/-! ## Closed queries -/

/-- The table of the column is one of those; a column without a table is a name in the result. -/
def Column.Visible (vis : List String) (c : Column) : Prop := ∀ table ∈ c.table, table ∈ vis

section

variable {ctes vis vis' : List String}

theorem Column.Visible.mono (hvis : vis ⊆ vis') (h : c.Visible vis) : c.Visible vis' :=
  fun table htable => hvis (h table htable)

theorem Column.Visible.isOf {names : List String} (h : c.Visible (names ++ vis)) :
    c.isOf names = true ∨ c.Visible vis := by
  obtain ⟨table, name⟩ := c
  cases table with
  | none => exact .inr (by simp [Column.Visible])
  | some table =>
    rcases List.mem_append.1 (h table rfl) with hown | hother
    · exact .inl (by simpa [Column.isOf] using hown)
    · refine .inr fun x hx => ?_
      cases hx
      exact hother

mutual

/-- **The free columns of a closed expression are visible.** -/
theorem Expr.Closed.visible {vis : List String} (e : Expr) (h : e.Closed ctes vis) :
    e.Takes (Column.Visible vis) := by
  match e with
  | .column ⟨some table, name⟩ =>
    refine Expr.takes_column.2 fun x hx => ?_
    cases hx
    exact h
  | .column ⟨none, _⟩ => exact Expr.takes_column.2 (by simp [Column.Visible])
  | .literal _ | .param _ _ | .star _ => simp [Expr.Takes, Expr.free]
  | .binary a op b =>
    exact (Expr.kept_takes _).binary op (Expr.Closed.visible a h.1) (Expr.Closed.visible b h.2)
  | .call _ args _ => exact Expr.takes_call (ClosedAll.visible args h)
  | .case branches otherwise =>
    exact Expr.takes_case (ClosedBranches.visible branches h.1)
      (ClosedOption.visible otherwise h.2)
  | .subquery q => exact Expr.takes_subquery.2 (Query.Closed.visible q h)
  | .inList e vs negated =>
    exact (Expr.kept_takes _).inList negated (Expr.Closed.visible e h.1) (ClosedAll.visible vs h.2)
  | .inQuery e q _ =>
    intro c hc
    rw [Expr.free, List.mem_append] at hc
    exact hc.elim (Expr.Closed.visible e h.1 c) (Query.Closed.visible q h.2 c)
  | .isNull e negated => exact (Expr.kept_takes _).isNull negated (Expr.Closed.visible e h)
  | .paren e => exact (Expr.kept_takes _).paren (Expr.Closed.visible e h)

theorem ClosedAll.visible {vis : List String} (es : List Expr) (h : ClosedAll ctes vis es) :
    ∀ e ∈ es, e.Takes (Column.Visible vis) := by
  match es with
  | [] => exact List.forall_mem_nil _
  | e :: es =>
    exact List.forall_mem_cons.2 ⟨Expr.Closed.visible e h.1, ClosedAll.visible es h.2⟩

theorem ClosedBranches.visible {vis : List String} (bs : List (Expr × Expr))
    (h : ClosedBranches ctes vis bs) :
    ∀ b ∈ bs, b.1.Takes (Column.Visible vis) ∧ b.2.Takes (Column.Visible vis) := by
  match bs with
  | [] => exact List.forall_mem_nil _
  | (e, f) :: bs =>
    exact List.forall_mem_cons.2 ⟨⟨Expr.Closed.visible e h.1.1, Expr.Closed.visible f h.1.2⟩,
      ClosedBranches.visible bs h.2⟩

theorem ClosedOption.visible {vis : List String} (e : Option Expr) (h : ClosedOption ctes vis e) :
    ∀ x ∈ e, x.Takes (Column.Visible vis) := by
  match e with
  | none => simp
  | some e =>
    intro x hx
    cases hx
    exact Expr.Closed.visible e h

theorem ClosedItems.visible {vis : List String} (items : List SelectItem)
    (h : ClosedItems ctes vis items) : ∀ i ∈ items, i.expr.Takes (Column.Visible vis) := by
  match items with
  | [] => exact List.forall_mem_nil _
  | ⟨e, _⟩ :: items =>
    exact List.forall_mem_cons.2 ⟨Expr.Closed.visible e h.1, ClosedItems.visible items h.2⟩

theorem ClosedOrder.visible {vis : List String} (items : List OrderItem)
    (h : ClosedOrder ctes vis items) : ∀ o ∈ items, o.expr.Takes (Column.Visible vis) := by
  match items with
  | [] => exact List.forall_mem_nil _
  | ⟨e, _⟩ :: items =>
    exact List.forall_mem_cons.2 ⟨Expr.Closed.visible e h.1, ClosedOrder.visible items h.2⟩

theorem ClosedJoins.visible {vis : List String} (js : List Join) (h : ClosedJoins ctes vis js) :
    ∀ j ∈ js, j.on.Takes (Column.Visible (js.map (·.table.boundName) ++ vis)) := by
  match js with
  | [] => exact List.forall_mem_nil _
  | ⟨_, table, on⟩ :: js =>
    refine List.forall_mem_cons.2 ⟨?_, fun j hj => ?_⟩
    · refine (Expr.Closed.visible on h.2.1).mono fun c hc => hc.mono ?_
      exact List.cons_subset_cons _ (List.subset_append_right _ _)
    · refine (ClosedJoins.visible js h.2.2 j hj).mono fun c hc => hc.mono fun name hname => ?_
      simp only [List.map_cons, List.cons_append, List.mem_cons, List.mem_append] at hname ⊢
      tauto

theorem ClosedSource.visible {vis : List String} (s : Option Source)
    (h : ClosedSource ctes vis s) : ∀ c ∈ freeSource s, c.Visible vis := by
  match s with
  | none | some (.table _) => simp [freeSource]
  | some (.derived q _) => exact Query.Closed.visible q h

theorem Query.Closed.visible {vis : List String} (q : Query) (h : q.Closed ctes vis) :
    q.Takes (Column.Visible vis) := by
  match q with
  | ⟨withs, items, _, _, source, joins, condition, groupBy, having, orderBy, _, _⟩ =>
    obtain ⟨hwiths, hsource, hjoins, hitems, hcondition, hgroup, hhaving, horder⟩ := h
    have hown {e : Expr} (he : e.Takes (Column.Visible (sourceNames source ++
        joins.map (·.table.boundName) ++ vis))) : e.Takes fun c =>
          c.isOf (sourceNames source ++ joins.map (·.table.boundName)) = true ∨ c.Visible vis :=
      he.mono fun c hc => hc.isOf
    refine Query.takes_of_clauses hwiths (ClosedSource.visible source hsource) (fun j hj => ?_)
      (fun i hi => hown (ClosedItems.visible items hitems i hi))
      (fun e he => hown (ClosedOption.visible condition hcondition e he))
      (fun e he => hown (ClosedAll.visible groupBy hgroup e he))
      (fun e he => hown (ClosedOption.visible having hhaving e he))
      (fun o ho => hown (ClosedOrder.visible orderBy horder o ho))
    refine hown ((ClosedJoins.visible joins hjoins j hj).mono fun c hc => hc.mono fun x hx => ?_)
    simp only [List.mem_append] at hx ⊢
    tauto

end

/-- The columns that a closed expression reads from its own row are visible. -/
theorem Expr.Closed.columnsRead {e : Expr} (h : e.Closed ctes vis) :
    ∀ c ∈ e.columnsRead, (Expr.column c).Closed ctes vis := by
  intro c hc
  have hvisible := Expr.Closed.visible e h c (e.columnsRead_sublist.subset hc)
  match c with
  | ⟨none, _⟩ => trivial
  | ⟨some table, _⟩ => exact hvisible table rfl

end

end EntityQuery.Sql
