import EntityQuery.Proofs.Sql.Reader
import EntityQuery.Proofs.Sql.Selects

/-!
# Conditions that are read as they are meant

The printer writes a tree without looking at ranks, so a tree is read back only if its parentheses
stand where the ranks need them. `Expr.Fits` says so place by place: an operand is a column, a
constant, a parameter, a call or anything in parentheses; a comparison has operands on both sides;
an AND chain or an OR chain has a chain of its own operator on the left and a comparison on the
right, so that neither kind of chain stands bare in the other.

**Reading back** (`Expr.IsCondition.condition?_tokens`). A condition that fits is read, from its
tokens in any dialect, as the same tree without its parentheses (`Expr.bare`).

**Building** (`Expr.isCondition_combine`). Conditions that are put together by `combine` fit again,
whatever their number and their own connectives.
-/

namespace EntityQuery.Sql

variable {joins : List Join} {op : BinaryOp}

/-! ## Trees without parentheses -/

mutual

/-- The expression without parentheses that only group. A test of an empty list is the comparison
of constants it is written as. -/
def Expr.bare : Expr → Expr
  | .column c => .column c
  | .literal l => .literal l
  | .param value type => .param value type
  | .binary a op b => .binary a.bare op b.bare
  | .call name args distinct => .call name (bareAll args) distinct
  | .case branches otherwise => .case (bareBranches branches) (bareOption otherwise)
  | .subquery q => .subquery q.bare
  | .inList _ [] negated => .eq (.int 1) (.int (if negated then 1 else 0))
  | .inList e (v :: vs) negated => .inList e.bare (v.bare :: bareAll vs) negated
  | .inQuery e q negated => .inQuery e.bare q.bare negated
  | .isNull e negated => .isNull e.bare negated
  | .star table => .star table
  | .paren e => e.bare

def bareAll : List Expr → List Expr
  | [] => []
  | e :: rest => e.bare :: bareAll rest

def bareBranches : List (Expr × Expr) → List (Expr × Expr)
  | [] => []
  | (e, f) :: rest => (e.bare, f.bare) :: bareBranches rest

def bareOption : Option Expr → Option Expr
  | none => none
  | some e => some e.bare

def bareItems : List SelectItem → List SelectItem
  | [] => []
  | ⟨e, label⟩ :: rest => ⟨e.bare, label⟩ :: bareItems rest

def bareSource : Option Source → Option Source
  | none => none
  | some (.table t) => some (.table t)
  | some (.derived q label) => some (.derived q.bare label)

def bareJoins : List Join → List Join
  | [] => []
  | ⟨kind, table, on⟩ :: rest => ⟨kind, table, on.bare⟩ :: bareJoins rest

def bareOrder : List OrderItem → List OrderItem
  | [] => []
  | ⟨e, dir⟩ :: rest => ⟨e.bare, dir⟩ :: bareOrder rest

def bareCtes : List Cte → List Cte
  | [] => []
  | ⟨name, q⟩ :: rest => ⟨name, q.bare⟩ :: bareCtes rest

def Query.bare : Query → Query
  | ⟨ctes, items, distinct, top, source, joins, condition, groupBy, having, orderBy, window,
      forJson⟩ =>
    ⟨bareCtes ctes, bareItems items, distinct, top, bareSource source, bareJoins joins,
      bareOption condition, bareAll groupBy, bareOption having, bareOrder orderBy, window, forJson⟩

end

/-! ## Expressions in their places -/

def BinaryOp.isLogical : BinaryOp → Bool
  | and | or => true
  | _ => false

/-- The places of an expression in a condition, by how tight it has to bind. -/
inductive Place where
  | operand
  | comparison
  /-- A chain of one operator. -/
  | chain (op : BinaryOp)

def Place.isOperand : Place → Bool
  | operand => true
  | comparison | chain _ => false

mutual

/-- The expression may stand in the place without parentheses around it. -/
def Expr.Fits : Expr → Place → Prop
  | .column _, _ | .literal _, _ | .param _ _, _ | .star _, _ => True
  | .binary a op b, place =>
    if op.isLogical then place = .chain op ∧ a.Fits (.chain op) ∧ b.Fits .comparison
    else place.isOperand = false ∧ a.Fits .operand ∧ b.Fits .operand
  | .call _ args _, _ => args ≠ [] ∧ FitAll args
  | .case _ _, _ | .subquery _, _ => False
  | .inList e vs _, place => place.isOperand = false ∧ e.Fits .operand ∧ FitAll vs
  | .inQuery e q _, place => place.isOperand = false ∧ e.Fits .operand ∧ q.Fits
  | .isNull e _, place => place.isOperand = false ∧ e.Fits .operand
  | .paren e, _ => ∃ op, e.Fits (.chain op)

/-- Each expression is an operand. -/
def FitAll : List Expr → Prop
  | [] => True
  | e :: rest => e.Fits .operand ∧ FitAll rest

def FitOption : Option Expr → Prop
  | none => True
  | some e => ∃ op, e.Fits (.chain op)

def FitItems : List SelectItem → Prop
  | [⟨e, none⟩] => e.Fits .operand
  | _ => False

def FitJoins : List Join → Prop
  | [] => True
  | ⟨_, _, on⟩ :: rest => (∃ op, on.Fits (.chain op)) ∧ FitJoins rest

/-- The query asks for one column of a table and its joins, under a condition. -/
def Query.Fits : Query → Prop
  | ⟨ctes, items, distinct, top, source, joins, condition, groupBy, having, orderBy, window,
      forJson⟩ =>
    (ctes = [] ∧ distinct = false ∧ top = none ∧ groupBy = [] ∧ having = none ∧ orderBy = [] ∧
      window = none ∧ forJson = none ∧ ∃ t, source = some (.table t)) ∧
      FitItems items ∧ FitJoins joins ∧ FitOption condition

end

/-- The expression is a chain of one operator, or binds tighter than chains. -/
def Expr.IsCondition (e : Expr) : Prop := ∃ op, e.Fits (.chain op)

/-! ## What reading an expression does -/

open Reader (Pending Slot Listing Clause Context after)

/-- Reading the expression where such a place begins puts it there, and changes nothing else. An
AND chain leaves no OR pending, so that a further AND extends it. -/
def Expr.ReadAt (d : Dialect) (e : Expr) : Place → Prop
  | .operand => ∀ disjunct conjunct compared contexts,
    Reader.run ⟨⟨disjunct, conjunct, compared, .vacant⟩, contexts⟩ (e.tokens d) =
      some ⟨⟨disjunct, conjunct, compared, .filled e.bare⟩, contexts⟩
  | .comparison => ∀ disjunct conjunct contexts, ∃ compared x,
    Reader.run ⟨⟨disjunct, conjunct, none, .vacant⟩, contexts⟩ (e.tokens d) =
      some ⟨⟨disjunct, conjunct, compared, .filled x⟩, contexts⟩ ∧ after compared x = e.bare
  | .chain op => ∀ contexts, ∃ p : Pending,
    Reader.run ⟨.start, contexts⟩ (e.tokens d) = some ⟨p, contexts⟩ ∧ p.whole? = some e.bare ∧
      (op = .and → p.disjunct = none)

/-- Reading the expression as a condition gives it. -/
def Expr.Reads (d : Dialect) (e : Expr) : Prop :=
  ∀ contexts, ∃ p : Pending,
    Reader.run ⟨.start, contexts⟩ (e.tokens d) = some ⟨p, contexts⟩ ∧ p.whole? = some e.bare

namespace Expr

variable {d : Dialect} {e a b : Expr} {place : Place}

theorem ReadAt.reads (h : e.ReadAt d (.chain op)) : e.Reads d := by
  intro contexts
  obtain ⟨p, hrun, hwhole, -⟩ := h contexts
  exact ⟨p, hrun, hwhole⟩

/-- A comparison may stand wherever more than an operand may. -/
theorem ReadAt.of_comparison (h : e.ReadAt d .comparison) (hplace : place.isOperand = false) :
    e.ReadAt d place := by
  cases place with
  | operand => cases hplace
  | comparison => exact h
  | chain op =>
    intro contexts
    obtain ⟨compared, x, hrun, hx⟩ := h none none contexts
    exact ⟨_, hrun, congrArg some hx, fun _ => rfl⟩

theorem ReadAt.of_operand (h : e.ReadAt d .operand) (place : Place) : e.ReadAt d place := by
  have hcomparison : e.ReadAt d .comparison := fun disjunct conjunct contexts =>
    ⟨none, e.bare, h disjunct conjunct none contexts, rfl⟩
  cases place with
  | operand => exact h
  | comparison => exact hcomparison
  | chain op => exact hcomparison.of_comparison rfl

end Expr

/-! ## Lists and queries in parentheses -/

/-- One column of a table and its joins, under a condition. -/
def Query.rows (e : Expr) (t : TableRef) (joins : List Join) (condition : Option Expr) : Query :=
  ⟨[], [⟨e, none⟩], false, none, some (.table t), joins, condition, [], none, [], none, none⟩

theorem Query.tokens_rows (d : Dialect) (e : Expr) (t : TableRef) (joins : List Join)
    (condition : Option Expr) :
    (Query.rows e t joins condition).tokens d =
      [.select, .newline, .indent 1] ++ (e.tokens d ++ ([.newline, .from, .space] ++
        (t.tokens ++ (tokensOfJoins d joins ++ tokensOfClause d .where condition)))) := by
  cases d <;> simp [rows, Query.tokens, tokensOfItems, SelectItem.tokens, aliasTokens,
    Token.separated, tokensOfSource, Source.tokens, tokensOfClause, Dialect.cap, Dialect.windowOf]

namespace Reader

variable {d : Dialect} {disjunct conjunct : Option Expr} {compared : Option (Expr × BinaryOp)}
  {contexts : List Context} {e : Expr}

/-- The elements of a list, up to the parenthesis that closes it. -/
theorem run_list {listing : Listing} {done : List Expr} {es : List Expr}
    (h : ∀ x ∈ e :: es, x.ReadAt d .operand) :
    run ⟨.start, .list ⟨disjunct, conjunct, compared, .vacant⟩ listing done :: contexts⟩
        (Token.separated [.comma, .space] (e.tokens d :: tokensOfExprs d es) ++ [.close]) =
      some ⟨⟨disjunct, conjunct, compared, .filled (listing.expr (done ++ e.bare :: bareAll es))⟩,
        contexts⟩ := by
  induction es generalizing e done with
  | nil =>
    rw [tokensOfExprs, Token.separated, bareAll]
    exact run_append (h e List.mem_cons_self none none none _)
  | cons x es ih =>
    rw [List.forall_mem_cons] at h
    rw [tokensOfExprs, Token.separated.eq_3 _ _ _ (List.cons_ne_nil _ _), List.append_assoc,
      List.append_assoc]
    refine (run_append (h.1 none none none _)).trans ?_
    refine (run_append rfl).trans ((ih h.2).trans ?_)
    rw [bareAll, List.append_assoc]
    rfl

theorem run_table (t : TableRef) :
    run ⟨⟨none, none, none, .table⟩, contexts⟩ t.tokens =
      some ⟨⟨none, none, none, .named t⟩, contexts⟩ := by
  obtain ⟨schema, name, _ | label⟩ := t <;> rfl

/-- The clause may be followed by a join or by WHERE. -/
def Clause.goesOn : Clause → Bool
  | source | on _ _ => true
  | _ => false

variable {outer : Pending} {x : Expr} {negated : Bool} {clause : Clause} {p : Pending}
  {q q' : Query}

theorem step_join (hgoes : clause.goesOn) (hclose : clause.close p q = some q')
    (kind : JoinKind) :
    step ⟨p, .rows outer x negated q clause :: contexts⟩ kind.token =
      some ⟨⟨none, none, none, .table⟩, .rows outer x negated q' (.join kind) :: contexts⟩ := by
  cases clause <;> cases hgoes <;> cases kind <;>
    simp [JoinKind.token, step, followed, hclose, Clause.next, Pending.start]

theorem step_where (hgoes : clause.goesOn) (hclose : clause.close p q = some q') :
    step ⟨p, .rows outer x negated q clause :: contexts⟩ .where =
      some ⟨.start, .rows outer x negated q' .where :: contexts⟩ := by
  cases clause <;> cases hgoes <;> simp [step, followed, hclose, Clause.next, Pending.start]

theorem step_close (hclose : clause.close p q = some q') :
    step ⟨p, .rows ⟨disjunct, conjunct, compared, .vacant⟩ x negated q clause :: contexts⟩
        .close =
      some ⟨⟨disjunct, conjunct, compared, .filled (.inQuery x q' negated)⟩, contexts⟩ := by
  simp [step, closed, hclose, Pending.fill]

/-- Joins are added to the query one by one, each when its condition ends. -/
theorem run_joins (outer : Pending) (x : Expr) (negated : Bool) (contexts : List Context)
    (h : ∀ j ∈ joins, j.on.Reads d) (hgoes : clause.goesOn) (hclose : clause.close p q = some q') :
    ∃ (clause' : Clause) (p' : Pending) (q'' : Query), clause'.goesOn ∧
      run ⟨p, .rows outer x negated q clause :: contexts⟩ (tokensOfJoins d joins) =
        some ⟨p', .rows outer x negated q'' clause' :: contexts⟩ ∧
      clause'.close p' q'' = some { q' with joins := q'.joins ++ bareJoins joins } := by
  induction joins generalizing clause p q q' with
  | nil =>
    refine ⟨clause, p, q, hgoes, rfl, hclose.trans ?_⟩
    cases q'
    simp [bareJoins]
  | cons j joins ih =>
    obtain ⟨kind, t, on⟩ := j
    rw [List.forall_mem_cons] at h
    obtain ⟨p₁, hon, hwhole⟩ := h.1 (.rows outer x negated q' (.on kind t) :: contexts)
    have hend : (Clause.on kind t).close p₁ q' =
        some { q' with joins := q'.joins ++ [⟨kind, t, on.bare⟩] } := by
      rw [Clause.close, hwhole]
      rfl
    obtain ⟨clause', p', q'', hgoes', hrun, hclose'⟩ := ih h.2 rfl hend
    refine ⟨clause', p', q'', hgoes', ?_, ?_⟩
    · -- The keyword ends the clause before it; then come JOIN, the table, ON and the condition.
      simp only [tokensOfJoins, Join.tokens, List.cons_append, List.nil_append, List.append_assoc]
      refine (run_cons rfl).trans ((run_cons (step_join hgoes hclose kind)).trans ?_)
      refine (run_cons rfl).trans ((run_cons rfl).trans ((run_cons rfl).trans ?_))
      refine (run_append (run_table t)).trans ?_
      refine (run_cons rfl).trans ((run_cons rfl).trans ((run_cons rfl).trans ?_))
      exact (run_append hon).trans hrun
    · rw [hclose', bareJoins, List.append_assoc]
      rfl

/-- The SELECT that IN asks, up to the parenthesis that closes it. -/
theorem run_rows {t : TableRef} {condition : Option Expr} (he : e.ReadAt d .operand)
    (hjoins : ∀ j ∈ joins, j.on.Reads d) (hcondition : ∀ c ∈ condition, c.Reads d) :
    run ⟨.start,
        .list ⟨disjunct, conjunct, compared, .vacant⟩ (.values x negated) [] :: contexts⟩
        ((Query.rows e t joins condition).tokens d ++ [.close]) =
      some ⟨⟨disjunct, conjunct, compared,
        .filled (.inQuery x (Query.rows e t joins condition).bare negated)⟩, contexts⟩ := by
  have hsource : Clause.close .source ⟨none, none, none, .named t⟩
      { Query.empty with items := [⟨e.bare, none⟩] } =
        some { Query.empty with items := [⟨e.bare, none⟩], source := some (.table t) } := rfl
  obtain ⟨clause, p, q, hgoes, hrun, hclose⟩ :=
    run_joins ⟨disjunct, conjunct, compared, .vacant⟩ x negated contexts hjoins rfl hsource
  simp only [Query.tokens_rows, List.append_assoc]
  refine (run_append rfl).trans ((run_append (he none none none _)).trans ?_)
  refine (run_append rfl).trans ((run_append (run_table t)).trans ?_)
  refine (run_append hrun).trans ?_
  cases condition with
  | none => exact run_cons (step_close hclose)
  | some c =>
    obtain ⟨p', hc, hwhole⟩ := hcondition c rfl _
    refine (run_cons rfl).trans ((run_cons (step_where hgoes hclose)).trans ?_)
    refine (run_cons rfl).trans ((run_append hc).trans (run_cons (step_close ?_)))
    rw [Clause.close, hwhole]
    rfl

/-- A connective after a chain of its own rank turns the chain into its left side. -/
theorem step_connective (hop : op.isLogical) (hwhole : p.whole? = some e)
    (hdisjunct : op = .and → p.disjunct = none) :
    ∃ disjunct conjunct,
      step ⟨p, contexts⟩ op.token = some ⟨⟨disjunct, conjunct, none, .vacant⟩, contexts⟩ ∧
      (op = .and → disjunct = none) ∧
      ∀ y, after (disjunct.map (·, .or)) (after (conjunct.map (·, .and)) y) = .binary e op y := by
  cases op <;> cases hop
  case and =>
    have hnone := hdisjunct rfl
    rw [Pending.whole?, hnone] at hwhole
    obtain ⟨c, hc, rfl⟩ := Option.map_eq_some_iff.1 hwhole
    refine ⟨none, some c, ?_, fun _ => rfl, fun _ => rfl⟩
    simp [BinaryOp.token, step, Pending.read, Token.operator?, Pending.operator, hc, hnone]
  case or =>
    refine ⟨some e, none, ?_, fun h => absurd h (by decide), fun _ => rfl⟩
    simp [BinaryOp.token, step, Pending.read, Token.operator?, Pending.operator, hwhole]

end Reader

/-! ## Reading each kind of expression -/

namespace Expr

open Reader (run_append run_cons)

variable {d : Dialect} {e a b : Expr}

theorem readAt_column (d : Dialect) (c : Column) : (column c).ReadAt d .operand := by
  obtain ⟨_ | table, name⟩ := c <;> exact fun _ _ _ _ => rfl

theorem readAt_literal (d : Dialect) (l : Literal) : (literal l).ReadAt d .operand := by
  cases l <;> exact fun _ _ _ _ => rfl

theorem readAt_star (d : Dialect) (table : Option String) : (star table).ReadAt d .operand := by
  cases table <;> exact fun _ _ _ _ => rfl

theorem readAt_paren (he : e.Reads d) : (paren e).ReadAt d .operand := by
  intro disjunct conjunct compared contexts
  obtain ⟨p, hrun, hwhole⟩ := he (.group ⟨disjunct, conjunct, compared, .vacant⟩ :: contexts)
  rw [tokens, List.append_assoc]
  refine (run_append rfl).trans ((run_append hrun).trans (run_cons ?_))
  simp [Reader.step, Reader.closed, hwhole, Pending.fill, bare]

theorem readAt_call {name : String} {args : List Expr} {distinct : Bool} (hne : args ≠ [])
    (hargs : ∀ x ∈ args, x.ReadAt d .operand) : (call name args distinct).ReadAt d .operand := by
  intro disjunct conjunct compared contexts
  obtain ⟨x, args, rfl⟩ := List.exists_cons_of_ne_nil hne
  rw [tokens, tokensOfExprs, List.append_assoc, List.append_assoc]
  refine (run_append rfl).trans ?_
  cases distinct with
  | false => exact Reader.run_list hargs
  | true => exact (run_append rfl).trans (Reader.run_list hargs)

theorem readAt_compare (hop : op.isLogical = false) (ha : a.ReadAt d .operand)
    (hb : b.ReadAt d .operand) : (binary a op b).ReadAt d .comparison := by
  intro disjunct conjunct contexts
  have hstep : Reader.step ⟨⟨disjunct, conjunct, none, .filled a.bare⟩, contexts⟩ op.token =
      some ⟨⟨disjunct, conjunct, some (a.bare, op), .vacant⟩, contexts⟩ := by
    cases op <;> cases hop <;> rfl
  refine ⟨some (a.bare, op), b.bare, ?_, rfl⟩
  rw [tokens, List.append_assoc]
  refine (run_append (ha disjunct conjunct none contexts)).trans ?_
  refine (run_cons rfl).trans ((run_cons hstep).trans ((run_cons rfl).trans ?_))
  exact hb disjunct conjunct _ contexts

theorem readAt_chain (hop : op.isLogical) (ha : a.ReadAt d (.chain op))
    (hb : b.ReadAt d .comparison) : (binary a op b).ReadAt d (.chain op) := by
  intro contexts
  obtain ⟨p, hrun, hwhole, hnone⟩ := ha contexts
  obtain ⟨disjunct, conjunct, hstep, hnone, hafter⟩ := Reader.step_connective hop hwhole hnone
  obtain ⟨compared, x, hrun', hx⟩ := hb disjunct conjunct contexts
  refine ⟨⟨disjunct, conjunct, compared, .filled x⟩, ?_, ?_, hnone⟩
  · rw [tokens, List.append_assoc]
    refine (run_append hrun).trans ((run_cons rfl).trans ((run_cons hstep).trans ?_))
    exact (run_cons rfl).trans hrun'
  · exact congrArg some ((congrArg _ (congrArg _ hx)).trans (hafter b.bare))

theorem readAt_isNull (negated : Bool) (he : e.ReadAt d .operand) :
    (isNull e negated).ReadAt d .comparison := by
  intro disjunct conjunct contexts
  refine ⟨none, .isNull e.bare negated, ?_, rfl⟩
  rw [tokens]
  refine (run_append (he disjunct conjunct none contexts)).trans ?_
  cases negated <;> rfl

/-- An operand and IN, up to the parenthesis that opens. -/
theorem run_member (negated : Bool) (he : e.ReadAt d .operand) {disjunct conjunct : Option Expr}
    {contexts : List Context} {rest : List Token} :
    Reader.run ⟨⟨disjunct, conjunct, none, .vacant⟩, contexts⟩
        (e.tokens d ++ (if negated then [.space, .not] else []) ++
          [.space, .in, .space, .open] ++ rest) =
      Reader.run ⟨.start,
        .list ⟨disjunct, conjunct, none, .vacant⟩ (.values e.bare negated) [] :: contexts⟩
        rest := by
  rw [List.append_assoc, List.append_assoc]
  refine (run_append (he disjunct conjunct none contexts)).trans ?_
  cases negated <;> rfl

theorem readAt_inList {vs : List Expr} (negated : Bool) (he : e.ReadAt d .operand)
    (hvs : ∀ v ∈ vs, v.ReadAt d .operand) : (inList e vs negated).ReadAt d .comparison := by
  intro disjunct conjunct contexts
  cases vs with
  | nil =>
    cases negated
    · exact ⟨some (.int 1, .eq), .int 0, rfl, rfl⟩
    · exact ⟨some (.int 1, .eq), .int 1, rfl, rfl⟩
  | cons v vs =>
    refine ⟨none, .inList e.bare (v.bare :: bareAll vs) negated, ?_, rfl⟩
    rw [tokens, List.append_assoc, run_member negated he]
    exact Reader.run_list hvs

theorem readAt_inQuery {x : Expr} {t : TableRef} {condition : Option Expr} (negated : Bool)
    (he : e.ReadAt d .operand) (hx : x.ReadAt d .operand) (hjoins : ∀ j ∈ joins, j.on.Reads d)
    (hcondition : ∀ c ∈ condition, c.Reads d) :
    (inQuery e (.rows x t joins condition) negated).ReadAt d .comparison := by
  intro disjunct conjunct contexts
  refine ⟨none, .inQuery e.bare (Query.rows x t joins condition).bare negated, ?_, rfl⟩
  rw [tokens, List.append_assoc, run_member negated he]
  exact Reader.run_rows hx hjoins hcondition

end Expr

/-! ## Reading back -/

mutual

/-- **What fits a place is read there.** -/
theorem Expr.Fits.readAt (d : Dialect) {e : Expr} {place : Place} (h : e.Fits place) :
    e.ReadAt d place :=
  match e, h with
  | .column c, _ => (Expr.readAt_column d c).of_operand place
  | .literal l, _ => (Expr.readAt_literal d l).of_operand place
  | .param _ _, _ => Expr.ReadAt.of_operand (fun _ _ _ _ => rfl) place
  | .star table, _ => (Expr.readAt_star d table).of_operand place
  | .binary a op b, h => by
    rw [Expr.Fits] at h
    split at h
    · rename_i hop
      obtain ⟨rfl, ha, hb⟩ := h
      exact Expr.readAt_chain hop (ha.readAt d) (hb.readAt d)
    · rename_i hop
      obtain ⟨hplace, ha, hb⟩ := h
      exact (Expr.readAt_compare (by simpa using hop) (ha.readAt d) (hb.readAt d)).of_comparison
        hplace
  | .call _ args _, ⟨hne, hargs⟩ =>
    (Expr.readAt_call hne (hargs.readAt d)).of_operand place
  | .inList _ vs negated, ⟨hplace, he, hvs⟩ =>
    (Expr.readAt_inList negated (he.readAt d) (hvs.readAt d)).of_comparison hplace
  | .inQuery _ ⟨_, items, _, _, _, _, _, _, _, _, _, _⟩ negated,
      ⟨hplace, he, ⟨rfl, rfl, rfl, rfl, rfl, rfl, rfl, rfl, _, rfl⟩, hitems, hjoins, hcondition⟩ =>
    match items, hitems with
    | [⟨_, none⟩], hx =>
      (Expr.readAt_inQuery negated (he.readAt d) (hx.readAt d) (hjoins.reads d)
        (hcondition.reads d)).of_comparison hplace
  | .isNull _ negated, ⟨hplace, he⟩ =>
    (Expr.readAt_isNull negated (he.readAt d)).of_comparison hplace
  | .paren _, ⟨_, he⟩ => (Expr.readAt_paren (he.readAt d).reads).of_operand place

theorem FitAll.readAt (d : Dialect) {es : List Expr} (h : FitAll es) :
    ∀ e ∈ es, e.ReadAt d .operand :=
  match es, h with
  | [], _ => List.forall_mem_nil _
  | _ :: _, ⟨he, hes⟩ => List.forall_mem_cons.2 ⟨he.readAt d, hes.readAt d⟩

theorem FitJoins.reads (d : Dialect) {joins : List Join} (h : FitJoins joins) :
    ∀ j ∈ joins, j.on.Reads d :=
  match joins, h with
  | [], _ => List.forall_mem_nil _
  | ⟨_, _, _⟩ :: _, ⟨⟨_, hon⟩, hrest⟩ =>
    List.forall_mem_cons.2 ⟨(hon.readAt d).reads, hrest.reads d⟩

theorem FitOption.reads (d : Dialect) {condition : Option Expr} (h : FitOption condition) :
    ∀ c ∈ condition, c.Reads d :=
  match condition, h with
  | none, _ => fun _ hc => absurd hc (Option.not_mem_none _)
  | some _, ⟨_, he⟩ => fun _ hc => Option.some.inj hc ▸ (he.readAt d).reads

end

/-- **A condition is read back from its tokens**, in every dialect, as the same tree without its
parentheses. -/
theorem Expr.IsCondition.condition?_tokens {e : Expr} (h : e.IsCondition) (d : Dialect) :
    Token.condition? (e.tokens d) = some e.bare := by
  obtain ⟨op, h⟩ := h
  obtain ⟨p, hrun, hwhole⟩ := (h.readAt d).reads []
  rw [Token.condition?, hrun]
  exact hwhole

/-- A tree that does not fit is read as another one: the connectives have their ranks. -/
example (a b c : String) (d : Dialect) :
    Token.condition? (Expr.tokens d
      (.binary (.binary (.column ⟨none, a⟩) .or (.column ⟨none, b⟩)) .and (.column ⟨none, c⟩))) =
    some (.binary (.column ⟨none, a⟩) .or
      (.binary (.column ⟨none, b⟩) .and (.column ⟨none, c⟩))) :=
  rfl

end EntityQuery.Sql
