import EntityQuery.Proofs.Sql.Parameters

/-!
# Queries without their values

The text of a statement does not show the values of its parameters. `Query.erased` takes them out of
a query and leaves everything else, and printing commutes with that (`Query.erased_tokens`). So
queries that are the same without values have the same text, and their parameters have the same
types in the same places (`Query.sameForm`).
-/

namespace EntityQuery.Sql

/-! ## Erasing values -/

mutual

/-- The expression with every parameter's value replaced by null. -/
def Expr.erased : Expr → Expr
  | .column c => .column c
  | .literal l => .literal l
  | .param _ type => .param .null type
  | .binary a op b => .binary a.erased op b.erased
  | .call name args distinct => .call name (erasedAll args) distinct
  | .case branches otherwise => .case (erasedBranches branches) (erasedOption otherwise)
  | .subquery q => .subquery q.erased
  | .inList e vs negated => .inList e.erased (erasedAll vs) negated
  | .inQuery e q negated => .inQuery e.erased q.erased negated
  | .isNull e negated => .isNull e.erased negated
  | .star table => .star table
  | .paren e => .paren e.erased

def erasedAll : List Expr → List Expr
  | [] => []
  | e :: rest => e.erased :: erasedAll rest

def erasedBranches : List (Expr × Expr) → List (Expr × Expr)
  | [] => []
  | (e, f) :: rest => (e.erased, f.erased) :: erasedBranches rest

def erasedOption : Option Expr → Option Expr
  | none => none
  | some e => some e.erased

def erasedItems : List SelectItem → List SelectItem
  | [] => []
  | ⟨e, label⟩ :: rest => ⟨e.erased, label⟩ :: erasedItems rest

def erasedSource : Option Source → Option Source
  | some (.derived q label) => some (.derived q.erased label)
  | some (.table t) => some (.table t)
  | none => none

def erasedJoins : List Join → List Join
  | [] => []
  | ⟨kind, table, on⟩ :: rest => ⟨kind, table, on.erased⟩ :: erasedJoins rest

def erasedOrder : List OrderItem → List OrderItem
  | [] => []
  | ⟨e, dir⟩ :: rest => ⟨e.erased, dir⟩ :: erasedOrder rest

def erasedCtes : List Cte → List Cte
  | [] => []
  | ⟨name, q⟩ :: rest => ⟨name, q.erased⟩ :: erasedCtes rest

def Query.erased : Query → Query
  | ⟨ctes, items, distinct, top, source, joins, condition, groupBy, having, orderBy, window,
      forJson⟩ =>
    ⟨erasedCtes ctes, erasedItems items, distinct, top, erasedSource source, erasedJoins joins,
      erasedOption condition, erasedAll groupBy, erasedOption having, erasedOrder orderBy, window,
      forJson⟩

end

theorem erasedOption_eq_map (e : Option Expr) : erasedOption e = e.map (·.erased) := by
  cases e <;> rfl

/-! ## Printing -/

namespace Token

def erased : Token → Token
  | param _ type => param .null type
  | t => t

@[simp]
theorem erased_eq_self {t : Token} (h : t.param? = none) : t.erased = t := by
  cases t with
  | param value type => cases h
  | _ => rfl

/-- What has no parameters stays as it is. -/
@[simp]
theorem map_erased_eq_self {tokens : List Token} (h : params tokens = []) :
    tokens.map erased = tokens := by
  rw [params, List.filterMap_eq_nil_iff] at h
  exact (List.map_congr_left fun t ht => erased_eq_self (h t ht)).trans (List.map_id tokens)

@[simp]
theorem map_erased_separated {sep : List Token} (hsep : params sep = [])
    (tss : List (List Token)) :
    (separated sep tss).map erased = separated sep (tss.map (·.map erased)) := by
  induction tss with
  | nil => rfl
  | cons ts rest ih =>
    cases rest with
    | nil => rfl
    | cons ts' rest =>
      rw [separated, List.map_append, List.map_append, ih, map_erased_eq_self hsep]
      · rfl
      · exact List.cons_ne_nil ts' rest

end Token

section

variable (d : Dialect)

theorem map_erased_withTokens {ctes : List Cte}
    (h : (tokensOfCtes d ctes).map (·.map Token.erased) = tokensOfCtes d (erasedCtes ctes)) :
    (withTokens d ctes).map Token.erased = withTokens d (erasedCtes ctes) := by
  cases ctes with
  | nil => rfl
  | cons c rest =>
    obtain ⟨name, q⟩ := c
    simp [withTokens, h, erasedCtes]

theorem map_erased_groupTokens {groupBy : List Expr}
    (h : (tokensOfExprs d groupBy).map (·.map Token.erased) =
      tokensOfExprs d (erasedAll groupBy)) :
    (groupTokens d groupBy).map Token.erased = groupTokens d (erasedAll groupBy) := by
  cases groupBy with
  | nil => rfl
  | cons e rest => simp [groupTokens, h, erasedAll]

theorem map_erased_orderTokens {orderBy : List OrderItem}
    (h : (tokensOfOrder d orderBy).map (·.map Token.erased) =
      tokensOfOrder d (erasedOrder orderBy)) (windowed : Bool) :
    (orderTokens d windowed orderBy).map Token.erased =
      orderTokens d windowed (erasedOrder orderBy) := by
  cases orderBy with
  | nil => cases d <;> cases windowed <;> rfl
  | cons o rest =>
    obtain ⟨e, dir⟩ := o
    simp [orderTokens, h, erasedOrder]

end

mutual

/-- **Printing an expression commutes with erasing.** -/
theorem Expr.erased_tokens (d : Dialect) (e : Expr) :
    (e.tokens d).map Token.erased = e.erased.tokens d := by
  match e with
  | .column c => simp [Expr.tokens, Expr.erased]
  | .literal l => simp [Expr.tokens, Expr.erased]
  | .param value type => rfl
  | .binary a op b => simp [Expr.tokens, Expr.erased, a.erased_tokens d, b.erased_tokens d]
  | .call name args distinct =>
    have hargs := erased_tokensOfExprs d args
    cases distinct <;> simp [Expr.tokens, Expr.erased, hargs]
  | .case branches otherwise =>
    simp [Expr.tokens, Expr.erased, erased_tokensOfBranches d branches,
      erased_tokensOfElse d otherwise]
  | .subquery q => simp [Expr.tokens, Expr.erased, q.erased_tokens d]
  | .inList _ [] negated => cases negated <;> rfl
  | .inList e (v :: vs) negated =>
    have hvs := erased_tokensOfExprs d vs
    cases negated <;>
      simp [Expr.tokens, Expr.erased, erasedAll, e.erased_tokens d, v.erased_tokens d, hvs]
  | .inQuery e q negated =>
    cases negated <;> simp [Expr.tokens, Expr.erased, e.erased_tokens d, q.erased_tokens d]
  | .isNull e negated => cases negated <;> simp [Expr.tokens, Expr.erased, e.erased_tokens d]
  | .star table => simp [Expr.tokens, Expr.erased]
  | .paren e => simp [Expr.tokens, Expr.erased, e.erased_tokens d]

theorem erased_tokensOfExprs (d : Dialect) (es : List Expr) :
    (tokensOfExprs d es).map (·.map Token.erased) = tokensOfExprs d (erasedAll es) := by
  match es with
  | [] => rfl
  | e :: rest => simp [tokensOfExprs, erasedAll, e.erased_tokens d, erased_tokensOfExprs d rest]

theorem erased_tokensOfBranches (d : Dialect) (branches : List (Expr × Expr)) :
    (tokensOfBranches d branches).map Token.erased =
      tokensOfBranches d (erasedBranches branches) := by
  match branches with
  | [] => rfl
  | (e, f) :: rest =>
    simp [tokensOfBranches, erasedBranches, e.erased_tokens d, f.erased_tokens d,
      erased_tokensOfBranches d rest]

theorem erased_tokensOfElse (d : Dialect) (e : Option Expr) :
    (tokensOfElse d e).map Token.erased = tokensOfElse d (erasedOption e) := by
  match e with
  | none => rfl
  | some e => simp [tokensOfElse, erasedOption, e.erased_tokens d]

theorem erased_tokensOfClause (d : Dialect) {keyword : Token} (hkeyword : keyword.param? = none)
    (e : Option Expr) :
    (tokensOfClause d keyword e).map Token.erased = tokensOfClause d keyword (erasedOption e) := by
  match e with
  | none => rfl
  | some e => simp [tokensOfClause, erasedOption, hkeyword, e.erased_tokens d]

theorem erased_tokensOfSource (d : Dialect) (source : Option Source) :
    (tokensOfSource d source).map Token.erased = tokensOfSource d (erasedSource source) := by
  match source with
  | none => rfl
  | some (.table t) => simp [tokensOfSource, Source.tokens, erasedSource]
  | some (.derived q label) =>
    simp [tokensOfSource, Source.tokens, erasedSource, q.erased_tokens d]

theorem erased_tokensOfItems (d : Dialect) (items : List SelectItem) :
    (tokensOfItems d items).map (·.map Token.erased) = tokensOfItems d (erasedItems items) := by
  match items with
  | [] => rfl
  | ⟨e, label⟩ :: rest =>
    simp [tokensOfItems, SelectItem.tokens, erasedItems, e.erased_tokens d,
      erased_tokensOfItems d rest]

theorem erased_tokensOfJoins (d : Dialect) (joins : List Join) :
    (tokensOfJoins d joins).map Token.erased = tokensOfJoins d (erasedJoins joins) := by
  match joins with
  | [] => rfl
  | ⟨kind, table, on⟩ :: rest =>
    simp [tokensOfJoins, Join.tokens, erasedJoins, on.erased_tokens d, erased_tokensOfJoins d rest]

theorem erased_tokensOfOrder (d : Dialect) (items : List OrderItem) :
    (tokensOfOrder d items).map (·.map Token.erased) = tokensOfOrder d (erasedOrder items) := by
  match items with
  | [] => rfl
  | ⟨e, dir⟩ :: rest =>
    simp [tokensOfOrder, OrderItem.tokens, erasedOrder, e.erased_tokens d,
      erased_tokensOfOrder d rest]

theorem erased_tokensOfCtes (d : Dialect) (ctes : List Cte) :
    (tokensOfCtes d ctes).map (·.map Token.erased) = tokensOfCtes d (erasedCtes ctes) := by
  match ctes with
  | [] => rfl
  | ⟨name, q⟩ :: rest =>
    simp [tokensOfCtes, Cte.tokens, erasedCtes, q.erased_tokens d, erased_tokensOfCtes d rest]

/-- **Printing a query commutes with erasing.** -/
theorem Query.erased_tokens (d : Dialect) (q : Query) :
    (q.tokens d).map Token.erased = q.erased.tokens d := by
  match q with
  | ⟨ctes, items, distinct, top, source, joins, condition, groupBy, having, orderBy, window,
      forJson⟩ =>
    have hctes := erased_tokensOfCtes d ctes
    have hitems := erased_tokensOfItems d items
    have hgroup := erased_tokensOfExprs d groupBy
    have horder := erased_tokensOfOrder d orderBy
    have hcondition := erased_tokensOfClause d (show Token.where.param? = none from rfl) condition
    have hhaving := erased_tokensOfClause d (show Token.having.param? = none from rfl) having
    rw [Query.tokens_eq, Query.tokens_eq, Query.erased]
    simp only [List.map_append, map_erased_withTokens d hctes, erased_tokensOfSource d source,
      erased_tokensOfJoins d joins, hcondition, map_erased_groupTokens d hgroup, hhaving,
      map_erased_orderTokens d horder, Token.map_erased_eq_self (params_headTokens d distinct top),
      Token.map_erased_eq_self (params_tailTokens d _ forJson),
      Token.map_erased_separated (show Token.params [.comma] = [] from rfl), hitems]

end

/-! ## Statements -/

/-- Two statements with one text and parameters of the same types: they differ in values only. -/
structure Statement.SameForm (a b : Statement) : Prop where
  sql : a.sql = b.sql
  length : a.params.length = b.params.length
  types : a.params.map (·.type) = b.params.map (·.type)

namespace Token

/-- The text shows no values. -/
theorem texts_map_erased (d : Dialect) (i : Nat) (tokens : List Token) :
    texts d i (tokens.map erased) = texts d i tokens := by
  induction tokens generalizing i with
  | nil => rfl
  | cons t rest ih =>
    cases hparam : t.param? with
    | none => rw [List.map_cons, erased_eq_self hparam, texts_cons hparam, texts_cons hparam, ih]
    | some p =>
      cases t with
      | param value type => exact congrArg (d.placeholder i :: ·) (ih (i + 1))
      | _ => cases hparam

theorem types_map_erased (tokens : List Token) :
    (params (tokens.map erased)).map (·.2) = (params tokens).map (·.2) := by
  induction tokens with
  | nil => rfl
  | cons t rest ih =>
    rw [List.map_cons, params_cons, params_cons, List.map_append, List.map_append, ih]
    cases t <;> rfl

theorem types_parameters (i : Nat) (ps : List (Value × Option String)) :
    (parameters i ps).map (·.type) = ps.map (·.2) := by
  induction ps generalizing i with
  | nil => rfl
  | cons p ps ih => rw [parameters, List.map_cons, List.map_cons, ih]

theorem sameForm_render {d : Dialect} {tokens tokens' : List Token}
    (h : tokens.map erased = tokens'.map erased) :
    (render d tokens).SameForm (render d tokens') := by
  have htypes : (render d tokens).params.map (·.type) = (render d tokens').params.map (·.type) := by
    rw [render, render, types_parameters, types_parameters]
    show (params tokens).map _ = (params tokens').map _
    rw [← types_map_erased, h, types_map_erased]
  refine ⟨?_, ?_, htypes⟩
  · rw [render, render, ← texts_map_erased, h, texts_map_erased]
  · have hlength := congrArg List.length htypes
    rwa [List.length_map, List.length_map] at hlength

end Token

/-- **Values do not reach the text**: queries that are the same without values are written alike. -/
theorem Query.sameForm {q q' : Query} (h : q.erased = q'.erased) (d : Dialect) :
    (q.statement d).SameForm (q'.statement d) := by
  refine Token.sameForm_render ?_
  rw [q.erased_tokens d, q'.erased_tokens d, h]

/-! ## Building expressions and queries -/

namespace Expr

theorem isLogical_erased (e : Expr) : e.erased.isLogical = e.isLogical := by
  cases e with
  | binary a op b => cases op <;> rfl
  | _ => rfl

theorem erased_protect (e : Expr) : e.protect.erased = e.erased.protect := by
  rw [protect, protect, isLogical_erased]
  split <;> rfl

theorem erased_foldl (op : BinaryOp) (e : Expr) (es : List Expr) :
    (es.foldl (fun acc x => binary acc op x.protect) e).erased =
      (es.map (·.erased)).foldl (fun acc x => binary acc op x.protect) e.erased := by
  induction es generalizing e with
  | nil => rfl
  | cons x es ih => rw [List.foldl_cons, ih, List.map_cons, List.foldl_cons, erased, erased_protect]

theorem erased_combine (op : BinaryOp) (es : List Expr) :
    (combine op es).map (·.erased) = combine op (es.map (·.erased)) := by
  cases es with
  | nil => rfl
  | cons e es =>
    rw [combine, Option.map_some, erased_foldl, erased_protect]
    rfl

end Expr

theorem erasedJoins_append (js ks : List Join) :
    erasedJoins (js ++ ks) = erasedJoins js ++ erasedJoins ks := by
  induction js with
  | nil => rfl
  | cons j js ih =>
    obtain ⟨kind, table, on⟩ := j
    simp only [List.cons_append, erasedJoins, ih]

theorem erasedCtes_append (cs ds : List Cte) :
    erasedCtes (cs ++ ds) = erasedCtes cs ++ erasedCtes ds := by
  induction cs with
  | nil => rfl
  | cons c cs ih =>
    obtain ⟨name, q⟩ := c
    simp only [List.cons_append, erasedCtes, ih]

theorem length_erasedCtes (cs : List Cte) : (erasedCtes cs).length = cs.length := by
  induction cs with
  | nil => rfl
  | cons c cs ih =>
    obtain ⟨name, q⟩ := c
    simp only [erasedCtes, List.length_cons, ih]

end EntityQuery.Sql
