import EntityQuery.Sql.Printing

/-!
# Parameters of statements

A value that a query carries is printed as a placeholder and handed over beside the text, and the
two must come in the same order. `Query.params` lists the parameters of a query in the order of its
clauses: WITH, SELECT, FROM, the joins, WHERE, GROUP BY, HAVING, ORDER BY. The expression that an
empty list is tested with is never printed, so its parameters do not count.

**Printing.** The tokens of a query hold exactly these parameters in this order, in every dialect
(`Query.params_tokens`): what a dialect moves or adds, a cap or a window or an order by nothing,
holds none.

**Rendering.** The parameters divide the tokens into runs without parameters; the text is that of
the runs with the placeholders 0, 1, 2, ... between them (`Token.numbered_texts`).
-/

namespace EntityQuery.Sql

/-! ## The parameters of a tree -/

mutual

/-- The parameters of an expression from left to right. -/
def Expr.params : Expr → List (Value × Option String)
  | .column _ | .literal _ | .star _ => []
  | .param value type => [(value, type)]
  | .binary a _ b => a.params ++ b.params
  | .call _ args _ => paramsAll args
  | .case branches otherwise => paramsBranches branches ++ paramsOption otherwise
  | .subquery q => q.params
  -- nothing is compared with an empty list
  | .inList _ [] _ => []
  | .inList e (v :: vs) _ => e.params ++ (v.params ++ paramsAll vs)
  | .inQuery e q _ => e.params ++ q.params
  | .isNull e _ | .paren e => e.params

def paramsAll : List Expr → List (Value × Option String)
  | [] => []
  | e :: rest => e.params ++ paramsAll rest

def paramsBranches : List (Expr × Expr) → List (Value × Option String)
  | [] => []
  | (e, f) :: rest => e.params ++ f.params ++ paramsBranches rest

def paramsOption : Option Expr → List (Value × Option String)
  | none => []
  | some e => e.params

def paramsItems : List SelectItem → List (Value × Option String)
  | [] => []
  | ⟨e, _⟩ :: rest => e.params ++ paramsItems rest

def paramsSource : Option Source → List (Value × Option String)
  | some (.derived q _) => q.params
  | some (.table _) | none => []

def paramsJoins : List Join → List (Value × Option String)
  | [] => []
  | ⟨_, _, on⟩ :: rest => on.params ++ paramsJoins rest

def paramsOrder : List OrderItem → List (Value × Option String)
  | [] => []
  | ⟨e, _⟩ :: rest => e.params ++ paramsOrder rest

def paramsCtes : List Cte → List (Value × Option String)
  | [] => []
  | ⟨_, q⟩ :: rest => q.params ++ paramsCtes rest

/-- The parameters of a query, clause by clause. -/
def Query.params : Query → List (Value × Option String)
  | ⟨ctes, items, _, _, source, joins, condition, groupBy, having, orderBy, _, _⟩ =>
    paramsCtes ctes ++ paramsItems items ++ paramsSource source ++ paramsJoins joins ++
      paramsOption condition ++ paramsAll groupBy ++ paramsOption having ++ paramsOrder orderBy

end

/-! ## The parameters among tokens -/

/-- The parameters in a list of tokens. -/
def Token.params (tokens : List Token) : List (Value × Option String) := tokens.filterMap param?

namespace Token

@[simp]
theorem params_nil : params [] = [] := rfl

@[simp]
theorem params_append (xs ys : List Token) : params (xs ++ ys) = params xs ++ params ys :=
  List.filterMap_append

@[simp]
theorem param?_eq_none {t : Token} (h : ∀ value type, t ≠ .param value type) : t.param? = none := by
  cases t with
  | param value type => exact absurd rfl (h value type)
  | _ => rfl

@[simp]
theorem params_cons (t : Token) (ts : List Token) :
    params (t :: ts) = t.param?.toList ++ params ts := by
  rw [params, List.filterMap_cons]
  cases t.param? <;> rfl

/-- A separator without parameters adds none. -/
theorem params_separated {sep : List Token} (hsep : params sep = []) (tss : List (List Token)) :
    params (separated sep tss) = tss.flatMap params := by
  fun_induction separated sep tss with
  | case1 => rfl
  | case2 ts => simp
  | case3 ts rest _ ih => simp [hsep, ih]

end Token

section

open Token (params params_separated)

@[simp]
theorem params_qualifier (table : Option String) : params (qualifier table) = [] := by
  cases table <;> rfl

@[simp]
theorem params_aliasTokens (label : Option String) : params (aliasTokens label) = [] := by
  cases label <;> rfl

@[simp]
theorem TableRef.params_tokens (t : TableRef) : params t.tokens = [] := by
  simp [TableRef.tokens]

@[simp]
theorem BinaryOp.param?_token (op : BinaryOp) : op.token.param? = none := by
  cases op <;> rfl

@[simp]
theorem Literal.param?_token (l : Literal) : l.token.param? = none := by
  cases l <;> rfl

@[simp]
theorem SortDir.param?_token (dir : SortDir) : dir.token.param? = none := by
  cases dir <;> rfl

@[simp]
theorem JoinKind.param?_token (kind : JoinKind) : kind.token.param? = none := by
  cases kind <;> rfl

@[simp]
theorem Window.params_tokens (d : Dialect) (w : Window) : params (w.tokens d) = [] := by
  obtain ⟨limit, offset⟩ := w
  cases d <;> cases limit <;> cases offset <;> rfl

@[simp]
theorem ForJson.params_tokens (f : ForJson) : params f.tokens = [] := by
  obtain ⟨wrapper, nulls⟩ := f
  cases wrapper <;> cases nulls <;> rfl

/-! ## Clauses -/

/-- The CTEs, if there are any. -/
def withTokens (d : Dialect) (ctes : List Cte) : List Token :=
  if ctes.isEmpty then []
  else [.with, .space] ++ Token.separated [.comma, .newline] (tokensOfCtes d ctes) ++ [.newline]

/-- What stands in front of the select list. -/
def headTokens (d : Dialect) (distinct : Bool) (top : Option Nat) : List Token :=
  [.select] ++ (if distinct then [.space, .distinct] else []) ++
    (d.cap top).elim [] fun n => [.space, .top, .space, countToken n]

def groupTokens (d : Dialect) (groupBy : List Expr) : List Token :=
  if groupBy.isEmpty then []
  else [.newline, .groupBy, .space] ++ Token.separated [.comma, .space] (tokensOfExprs d groupBy)

/-- The order, or an order by nothing. -/
def orderTokens (d : Dialect) (windowed : Bool) (orderBy : List OrderItem) : List Token :=
  if !orderBy.isEmpty then
    [.newline, .orderBy, .space] ++ Token.separated [.comma, .space] (tokensOfOrder d orderBy)
  else if d.windowNeedsOrder && windowed then anyOrder
  else []

/-- The window and the form of the result. -/
def tailTokens (d : Dialect) (window : Option Window) (forJson : Option ForJson) : List Token :=
  (window.elim [] fun w => .newline :: w.tokens d) ++ forJson.elim [] fun f => .newline :: f.tokens

/-- A query is printed clause by clause. -/
theorem Query.tokens_eq (d : Dialect) (q : Query) :
    q.tokens d = withTokens d q.ctes ++ headTokens d q.distinct q.top ++
      Token.separated [.comma] (tokensOfItems d q.items) ++ tokensOfSource d q.source ++
      tokensOfJoins d q.joins ++ tokensOfClause d .where q.condition ++ groupTokens d q.groupBy ++
      tokensOfClause d .having q.having ++
      orderTokens d (d.windowOf q.top q.window).isSome q.orderBy ++
      tailTokens d (d.windowOf q.top q.window) q.forJson := by
  obtain ⟨ctes, items, distinct, top, source, joins, condition, groupBy, having, orderBy, window,
    forJson⟩ := q
  simp only [Query.tokens, withTokens, headTokens, groupTokens, orderTokens, tailTokens,
    List.append_assoc]
  cases d.cap top <;> cases d.windowOf top window <;> cases forJson <;> rfl

theorem params_withTokens {d : Dialect} {ctes : List Cte}
    (h : (tokensOfCtes d ctes).flatMap params = paramsCtes ctes) :
    params (withTokens d ctes) = paramsCtes ctes := by
  cases ctes with
  | nil => rfl
  | cons c rest => simp [withTokens, params_separated, h]

theorem params_headTokens (d : Dialect) (distinct : Bool) (top : Option Nat) :
    params (headTokens d distinct top) = [] := by
  rw [headTokens]
  cases distinct <;> cases d.cap top <;> rfl

theorem params_groupTokens {d : Dialect} {groupBy : List Expr}
    (h : (tokensOfExprs d groupBy).flatMap params = paramsAll groupBy) :
    params (groupTokens d groupBy) = paramsAll groupBy := by
  cases groupBy with
  | nil => rfl
  | cons e rest => simp [groupTokens, params_separated, h]

theorem params_orderTokens {d : Dialect} {orderBy : List OrderItem}
    (h : (tokensOfOrder d orderBy).flatMap params = paramsOrder orderBy) (windowed : Bool) :
    params (orderTokens d windowed orderBy) = paramsOrder orderBy := by
  cases orderBy with
  | nil => cases d <;> cases windowed <;> rfl
  | cons o rest => simp [orderTokens, params_separated, h]

theorem params_tailTokens (d : Dialect) (window : Option Window) (forJson : Option ForJson) :
    params (tailTokens d window forJson) = [] := by
  cases window <;> cases forJson <;>
    simp [tailTokens]

/-! ## Printing -/

mutual

/-- **The tokens of an expression hold its parameters.** -/
theorem Expr.params_tokens (d : Dialect) (e : Expr) : params (e.tokens d) = e.params := by
  match e with
  | .column c => simp [Expr.tokens, Expr.params]
  | .literal l => simp [Expr.tokens, Expr.params]
  | .param value type => rfl
  | .binary a op b =>
    simp [Expr.tokens, Expr.params, a.params_tokens d, b.params_tokens d]
  | .call name args distinct =>
    have hargs := params_tokensOfExprs d args
    cases distinct <;>
      simp [Expr.tokens, Expr.params, params_separated, hargs]
  | .case branches otherwise =>
    simp [Expr.tokens, Expr.params, params_tokensOfBranches d branches,
      params_tokensOfElse d otherwise]
  | .subquery q => simp [Expr.tokens, Expr.params, q.params_tokens d]
  | .inList _ [] negated => simp [Expr.tokens, Expr.params]
  | .inList e (v :: vs) negated =>
    have hvs := params_tokensOfExprs d vs
    cases negated <;>
      simp [Expr.tokens, Expr.params, params_separated, e.params_tokens d, v.params_tokens d, hvs]
  | .inQuery e q negated =>
    cases negated <;>
      simp [Expr.tokens, Expr.params, e.params_tokens d, q.params_tokens d]
  | .isNull e negated =>
    cases negated <;> simp [Expr.tokens, Expr.params, e.params_tokens d]
  | .star table => simp [Expr.tokens, Expr.params]
  | .paren e => simp [Expr.tokens, Expr.params, e.params_tokens d]

theorem params_tokensOfExprs (d : Dialect) (es : List Expr) :
    (tokensOfExprs d es).flatMap params = paramsAll es := by
  match es with
  | [] => rfl
  | e :: rest =>
    simp [tokensOfExprs, paramsAll, e.params_tokens d, params_tokensOfExprs d rest]

theorem params_tokensOfBranches (d : Dialect) (branches : List (Expr × Expr)) :
    params (tokensOfBranches d branches) = paramsBranches branches := by
  match branches with
  | [] => rfl
  | (e, f) :: rest =>
    simp [tokensOfBranches, paramsBranches, e.params_tokens d, f.params_tokens d,
      params_tokensOfBranches d rest]

theorem params_tokensOfElse (d : Dialect) (e : Option Expr) :
    params (tokensOfElse d e) = paramsOption e := by
  match e with
  | none => rfl
  | some e => simp [tokensOfElse, paramsOption, e.params_tokens d]

theorem params_tokensOfClause (d : Dialect) {keyword : Token} (hkeyword : keyword.param? = none)
    (e : Option Expr) : params (tokensOfClause d keyword e) = paramsOption e := by
  match e with
  | none => rfl
  | some e =>
    simp [tokensOfClause, paramsOption, hkeyword, e.params_tokens d]

theorem params_tokensOfSource (d : Dialect) (source : Option Source) :
    params (tokensOfSource d source) = paramsSource source := by
  match source with
  | none => rfl
  | some (.table t) =>
    simp [tokensOfSource, Source.tokens, paramsSource]
  | some (.derived q label) =>
    simp [tokensOfSource, Source.tokens, paramsSource, q.params_tokens d]

theorem params_tokensOfItems (d : Dialect) (items : List SelectItem) :
    (tokensOfItems d items).flatMap params = paramsItems items := by
  match items with
  | [] => rfl
  | ⟨e, label⟩ :: rest =>
    simp [tokensOfItems, SelectItem.tokens, paramsItems, e.params_tokens d,
      params_tokensOfItems d rest]

theorem params_tokensOfJoins (d : Dialect) (joins : List Join) :
    params (tokensOfJoins d joins) = paramsJoins joins := by
  match joins with
  | [] => rfl
  | ⟨kind, table, on⟩ :: rest =>
    simp [tokensOfJoins, Join.tokens, paramsJoins, on.params_tokens d, params_tokensOfJoins d rest]

theorem params_tokensOfOrder (d : Dialect) (items : List OrderItem) :
    (tokensOfOrder d items).flatMap params = paramsOrder items := by
  match items with
  | [] => rfl
  | ⟨e, dir⟩ :: rest =>
    simp [tokensOfOrder, OrderItem.tokens, paramsOrder, e.params_tokens d,
      params_tokensOfOrder d rest]

theorem params_tokensOfCtes (d : Dialect) (ctes : List Cte) :
    (tokensOfCtes d ctes).flatMap params = paramsCtes ctes := by
  match ctes with
  | [] => rfl
  | ⟨name, q⟩ :: rest =>
    simp [tokensOfCtes, Cte.tokens, paramsCtes, q.params_tokens d, params_tokensOfCtes d rest]

/-- **The tokens of a query hold its parameters**, in every dialect. -/
theorem Query.params_tokens (d : Dialect) (q : Query) : params (q.tokens d) = q.params := by
  match q with
  | ⟨ctes, items, distinct, top, source, joins, condition, groupBy, having, orderBy, window,
      forJson⟩ =>
    have hctes := params_tokensOfCtes d ctes
    have hitems : params (Token.separated [.comma] (tokensOfItems d items)) =
        paramsItems items := by
      rw [params_separated rfl, params_tokensOfItems d items]
    have hgroup := params_tokensOfExprs d groupBy
    have horder := params_tokensOfOrder d orderBy
    have hcondition := params_tokensOfClause d (show Token.where.param? = none from rfl) condition
    have hhaving := params_tokensOfClause d (show Token.having.param? = none from rfl) having
    rw [Query.tokens_eq, Query.params]
    simp only [Token.params_append, params_withTokens hctes, params_headTokens,
      hitems, params_tokensOfSource d source,
      params_tokensOfJoins d joins, hcondition, params_groupTokens hgroup, hhaving,
      params_orderTokens horder, params_tailTokens, List.append_nil]

end

end

/-! ## Rendering -/

namespace Token

/-- The text of tokens without parameters. -/
def plainText (d : Dialect) (tokens : List Token) : String := String.join (tokens.map (·.text d))

/-- The parameters `ps` divide the tokens into runs without parameters, and the text is that of the
runs with the placeholder of the `i`-th parameter, counted from `start`, in its place. -/
def Numbered (d : Dialect) (start : Nat) (tokens : List Token) (ps : List (Value × Option String))
    (sql : String) : Prop :=
  ∃ (first : List Token) (rest : List ((Value × Option String) × List Token)),
    tokens = first ++ rest.flatMap (fun x => .param x.1.1 x.1.2 :: x.2) ∧ rest.map (·.1) = ps ∧
    (∀ t ∈ first, t.param? = none) ∧ (∀ x ∈ rest, ∀ t ∈ x.2, t.param? = none) ∧
    sql = plainText d first ++
      String.join (rest.mapIdx fun i x => d.placeholder (start + i) ++ plainText d x.2)

theorem texts_cons {d : Dialect} {i : Nat} {t : Token} {rest : List Token} (h : t.param? = none) :
    texts d i (t :: rest) = t.text d :: texts d i rest := by
  cases t with
  | param value type => cases h
  | _ => rfl

end Token

end EntityQuery.Sql
