import EntityQuery.Proofs.Sql.Evaluation
import EntityQuery.Proofs.Sql.Selects

/-!
# Closed queries

A query is closed if everything it names is there. `Query.Closed ctes vis q` says so of a query
that stands where the CTEs `ctes` are defined and the aliases `vis` of the enclosing queries can be
seen:

* a qualified column names an alias of its own SELECT or of an enclosing one;
* the condition of a join sees the FROM item, the joins before it and its own table;
* a table without an alias is one of the CTEs;
* the query defines no CTEs of its own.

`Query.ClosedStatement` is the same for a whole statement, which defines CTEs: the body of a CTE
sees no row at all, and only the CTEs before it.

What is visible may grow: `Expr.Closed.mono` and its companions. Whether a SELECT gives an alias
to two of its tables is a question of its own (`Query.boundNames`).
-/

namespace EntityQuery.Sql

/-- A table without an alias is a known CTE. -/
def TableRef.Known (ctes : List String) (t : TableRef) : Prop := t.label = none → t.name ∈ ctes

mutual

def Expr.Closed (ctes vis : List String) : Expr → Prop
  | .column ⟨some table, _⟩ => table ∈ vis
  | .column ⟨none, _⟩ | .literal _ | .param _ _ | .star none => True
  | .star (some table) => table ∈ vis
  | .binary a _ b => a.Closed ctes vis ∧ b.Closed ctes vis
  | .call _ args _ => ClosedAll ctes vis args
  | .case branches otherwise => ClosedBranches ctes vis branches ∧ ClosedOption ctes vis otherwise
  | .subquery q => q.Closed ctes vis
  | .inList e vs _ => e.Closed ctes vis ∧ ClosedAll ctes vis vs
  | .inQuery e q _ => e.Closed ctes vis ∧ q.Closed ctes vis
  | .isNull e _ | .paren e => e.Closed ctes vis

def ClosedAll (ctes vis : List String) : List Expr → Prop
  | [] => True
  | e :: rest => e.Closed ctes vis ∧ ClosedAll ctes vis rest

def ClosedBranches (ctes vis : List String) : List (Expr × Expr) → Prop
  | [] => True
  | (e, f) :: rest => (e.Closed ctes vis ∧ f.Closed ctes vis) ∧ ClosedBranches ctes vis rest

def ClosedOption (ctes vis : List String) : Option Expr → Prop
  | none => True
  | some e => e.Closed ctes vis

def ClosedItems (ctes vis : List String) : List SelectItem → Prop
  | [] => True
  | ⟨e, _⟩ :: rest => e.Closed ctes vis ∧ ClosedItems ctes vis rest

def ClosedOrder (ctes vis : List String) : List OrderItem → Prop
  | [] => True
  | ⟨e, _⟩ :: rest => e.Closed ctes vis ∧ ClosedOrder ctes vis rest

/-- Every join sees what stands before it. -/
def ClosedJoins (ctes vis : List String) : List Join → Prop
  | [] => True
  | ⟨_, table, on⟩ :: rest =>
    table.Known ctes ∧ on.Closed ctes (table.boundName :: vis) ∧
      ClosedJoins ctes (table.boundName :: vis) rest

/-- A derived table sees the enclosing rows. -/
def ClosedSource (ctes vis : List String) : Option Source → Prop
  | none => True
  | some (.table t) => t.Known ctes
  | some (.derived q _) => q.Closed ctes vis

def Query.Closed (ctes vis : List String) : Query → Prop
  | ⟨withs, items, _, _, source, joins, condition, groupBy, having, orderBy, _, _⟩ =>
    let all := sourceNames source ++ joins.map (·.table.boundName) ++ vis
    withs = [] ∧ ClosedSource ctes vis source ∧
      ClosedJoins ctes (sourceNames source ++ vis) joins ∧ ClosedItems ctes all items ∧
      ClosedOption ctes all condition ∧ ClosedAll ctes all groupBy ∧
      ClosedOption ctes all having ∧ ClosedOrder ctes all orderBy

end

/-- The CTEs of a statement: the body of each sees no row, and those before it only. -/
def ClosedCtes (ctes : List Cte) : Prop :=
  ∀ (before : List Cte) (c : Cte) (after : List Cte), ctes = before ++ c :: after →
    c.query.Closed (before.map (·.name)) []

theorem closedCtes_nil : ClosedCtes [] := by
  intro before c after h
  simp at h

/-- The CTEs have different names and closed bodies, and the rest of the statement is closed. -/
structure Query.ClosedStatement (q : Query) : Prop where
  names : (q.ctes.map (·.name)).Nodup
  ctes : ClosedCtes q.ctes
  query : ({ q with ctes := [] } : Query).Closed (q.ctes.map (·.name)) []

section

variable {ctes ctes' vis vis' : List String}

theorem closedAll_iff {es : List Expr} :
    ClosedAll ctes vis es ↔ ∀ e ∈ es, e.Closed ctes vis := by
  induction es with
  | nil => simp [ClosedAll]
  | cons e es ih => simp [ClosedAll, ih]

theorem closedOption_iff {e : Option Expr} :
    ClosedOption ctes vis e ↔ ∀ x ∈ e, x.Closed ctes vis := by
  cases e <;> simp [ClosedOption]

theorem closedItems_iff {items : List SelectItem} :
    ClosedItems ctes vis items ↔ ∀ i ∈ items, i.expr.Closed ctes vis := by
  induction items with
  | nil => simp [ClosedItems]
  | cons i items ih =>
    cases i
    simp [ClosedItems, ih]

theorem closedOrder_iff {items : List OrderItem} :
    ClosedOrder ctes vis items ↔ ∀ i ∈ items, i.expr.Closed ctes vis := by
  induction items with
  | nil => simp [ClosedOrder]
  | cons i items ih =>
    cases i
    simp [ClosedOrder, ih]

theorem closedBranches_iff {branches : List (Expr × Expr)} :
    ClosedBranches ctes vis branches ↔
      ∀ b ∈ branches, b.1.Closed ctes vis ∧ b.2.Closed ctes vis := by
  induction branches with
  | nil => simp [ClosedBranches]
  | cons b branches ih =>
    cases b
    simp [ClosedBranches, ih]

theorem closedJoins_cons {j : Join} {js : List Join} :
    ClosedJoins ctes vis (j :: js) ↔
      j.table.Known ctes ∧ j.on.Closed ctes (j.table.boundName :: vis) ∧
        ClosedJoins ctes (j.table.boundName :: vis) js := by
  cases j
  rfl

theorem closedJoins_append {js ks : List Join} :
    ClosedJoins ctes vis (js ++ ks) ↔
      ClosedJoins ctes vis js ∧
        ClosedJoins ctes ((js.map (·.table.boundName)).reverse ++ vis) ks := by
  induction js generalizing vis with
  | nil => simp [ClosedJoins]
  | cons j js ih => simp [closedJoins_cons, ih, and_assoc]

theorem TableRef.Known.mono {t : TableRef} (hctes : ctes ⊆ ctes') (h : t.Known ctes) :
    t.Known ctes' :=
  fun hl => hctes (h hl)

mutual

/-- What is closed stays so when more is visible. -/
theorem Expr.Closed.mono (hctes : ctes ⊆ ctes') {vis vis' : List String} (hvis : vis ⊆ vis')
    (e : Expr) (h : e.Closed ctes vis) : e.Closed ctes' vis' := by
  match e with
  | .column ⟨some _, _⟩ | .star (some _) => exact hvis h
  | .column ⟨none, _⟩ | .literal _ | .param _ _ | .star none => exact h
  | .binary a _ b => exact ⟨Expr.Closed.mono hctes hvis a h.1, Expr.Closed.mono hctes hvis b h.2⟩
  | .call _ args _ => exact ClosedAll.mono hctes hvis args h
  | .case branches otherwise =>
    exact ⟨ClosedBranches.mono hctes hvis branches h.1, ClosedOption.mono hctes hvis otherwise h.2⟩
  | .subquery q => exact Query.Closed.mono hctes hvis q h
  | .inList e vs _ => exact ⟨Expr.Closed.mono hctes hvis e h.1, ClosedAll.mono hctes hvis vs h.2⟩
  | .inQuery e q _ => exact ⟨Expr.Closed.mono hctes hvis e h.1, Query.Closed.mono hctes hvis q h.2⟩
  | .isNull e _ | .paren e => exact Expr.Closed.mono hctes hvis e h

theorem ClosedAll.mono (hctes : ctes ⊆ ctes') {vis vis' : List String} (hvis : vis ⊆ vis')
    (es : List Expr) (h : ClosedAll ctes vis es) : ClosedAll ctes' vis' es := by
  match es with
  | [] => exact h
  | e :: es => exact ⟨Expr.Closed.mono hctes hvis e h.1, ClosedAll.mono hctes hvis es h.2⟩

theorem ClosedBranches.mono (hctes : ctes ⊆ ctes') {vis vis' : List String} (hvis : vis ⊆ vis')
    (bs : List (Expr × Expr)) (h : ClosedBranches ctes vis bs) : ClosedBranches ctes' vis' bs := by
  match bs with
  | [] => exact h
  | (e, f) :: bs =>
    exact ⟨⟨Expr.Closed.mono hctes hvis e h.1.1, Expr.Closed.mono hctes hvis f h.1.2⟩,
      ClosedBranches.mono hctes hvis bs h.2⟩

theorem ClosedOption.mono (hctes : ctes ⊆ ctes') {vis vis' : List String} (hvis : vis ⊆ vis')
    (e : Option Expr) (h : ClosedOption ctes vis e) : ClosedOption ctes' vis' e := by
  match e with
  | none => exact h
  | some e => exact Expr.Closed.mono hctes hvis e h

theorem ClosedItems.mono (hctes : ctes ⊆ ctes') {vis vis' : List String} (hvis : vis ⊆ vis')
    (items : List SelectItem) (h : ClosedItems ctes vis items) : ClosedItems ctes' vis' items := by
  match items with
  | [] => exact h
  | ⟨e, _⟩ :: items =>
    exact ⟨Expr.Closed.mono hctes hvis e h.1, ClosedItems.mono hctes hvis items h.2⟩

theorem ClosedOrder.mono (hctes : ctes ⊆ ctes') {vis vis' : List String} (hvis : vis ⊆ vis')
    (items : List OrderItem) (h : ClosedOrder ctes vis items) : ClosedOrder ctes' vis' items := by
  match items with
  | [] => exact h
  | ⟨e, _⟩ :: items =>
    exact ⟨Expr.Closed.mono hctes hvis e h.1, ClosedOrder.mono hctes hvis items h.2⟩

theorem ClosedJoins.mono (hctes : ctes ⊆ ctes') {vis vis' : List String} (hvis : vis ⊆ vis')
    (js : List Join) (h : ClosedJoins ctes vis js) : ClosedJoins ctes' vis' js := by
  match js with
  | [] => exact h
  | ⟨_, table, on⟩ :: js =>
    have hcons := List.cons_subset_cons table.boundName hvis
    exact ⟨h.1.mono hctes, Expr.Closed.mono hctes hcons on h.2.1,
      ClosedJoins.mono hctes hcons js h.2.2⟩

theorem ClosedSource.mono (hctes : ctes ⊆ ctes') {vis vis' : List String} (hvis : vis ⊆ vis')
    (s : Option Source) (h : ClosedSource ctes vis s) : ClosedSource ctes' vis' s := by
  match s with
  | none => exact h
  | some (.table _) => exact TableRef.Known.mono hctes h
  | some (.derived q _) => exact Query.Closed.mono hctes hvis q h

theorem Query.Closed.mono (hctes : ctes ⊆ ctes') {vis vis' : List String} (hvis : vis ⊆ vis')
    (q : Query) (h : q.Closed ctes vis) : q.Closed ctes' vis' := by
  match q with
  | ⟨withs, items, _, _, source, joins, condition, groupBy, having, orderBy, _, _⟩ =>
    obtain ⟨hwiths, hsource, hjoins, hitems, hcondition, hgroup, hhaving, horder⟩ := h
    have happend (names : List String) : names ++ vis ⊆ names ++ vis' :=
      List.append_subset.2 ⟨List.subset_append_left _ _, List.subset_append_of_subset_right _ hvis⟩
    have hall := happend (sourceNames source ++ joins.map (·.table.boundName))
    exact ⟨hwiths, ClosedSource.mono hctes hvis source hsource,
      ClosedJoins.mono hctes (happend _) joins hjoins,
      ClosedItems.mono hctes hall items hitems, ClosedOption.mono hctes hall condition hcondition,
      ClosedAll.mono hctes hall groupBy hgroup, ClosedOption.mono hctes hall having hhaving,
      ClosedOrder.mono hctes hall orderBy horder⟩

end

/-- A property of the visible aliases passes from the parts of a comparison to the whole. -/
theorem Expr.kept_closed (ctes vis : List String) : Expr.Kept (Expr.Closed ctes vis) where
  literal _ := True.intro
  param _ _ := True.intro
  binary _ ha hb := ⟨ha, hb⟩
  inList _ he hvs := ⟨he, closedAll_iff.2 hvs⟩
  isNull _ he := he
  paren he := he

theorem Query.closed_iff {q : Query} :
    q.Closed ctes vis ↔
      q.ctes = [] ∧ ClosedSource ctes vis q.source ∧
        ClosedJoins ctes (sourceNames q.source ++ vis) q.joins ∧
        ClosedItems ctes (q.boundNames ++ vis) q.items ∧
        ClosedOption ctes (q.boundNames ++ vis) q.condition ∧
        ClosedAll ctes (q.boundNames ++ vis) q.groupBy ∧
        ClosedOption ctes (q.boundNames ++ vis) q.having ∧
        ClosedOrder ctes (q.boundNames ++ vis) q.orderBy := by
  cases q
  rfl

end

end EntityQuery.Sql
