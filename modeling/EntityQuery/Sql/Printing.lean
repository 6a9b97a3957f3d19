import EntityQuery.Sql.Query
import EntityQuery.Sql.Token

/-!
# Printing queries

The tokens of expressions and queries in a dialect. `Query.statement` is the text with its
parameters.
-/

namespace EntityQuery.Sql

/-- The word or sign of an operator. -/
def BinaryOp.token : BinaryOp → Token
  | eq => .eq
  | ne => .ne
  | lt => .lt
  | gt => .gt
  | lte => .lte
  | gte => .gte
  | and => .and
  | or => .or
  | like => .like
  | notLike => .notLike

def Literal.token : Literal → Token
  | int n => .int n
  | text s => .string s
  | null => .null

/-- A name in front of a dot. -/
def qualifier : Option String → List Token
  | none => []
  | some table => [.identifier table, .dot]

/-- A name given with AS. -/
def aliasTokens : Option String → List Token
  | none => []
  | some label => [.space, .as, .space, .identifier label]

def TableRef.tokens (t : TableRef) : List Token :=
  .qualified t.schema t.name :: aliasTokens t.label

def SortDir.token : SortDir → Token
  | asc => .asc
  | desc => .desc

def JoinKind.token : JoinKind → Token
  | inner => .inner
  | left => .left

/-- A number of rows. -/
def countToken (n : Nat) : Token := .int (rowCount n)

namespace Window

/-- Limit and offset as two clauses. -/
def clauses (w : Window) : List Token :=
  let limit := match w.limit with
    | none => []
    | some n => [.limit, .space, countToken n]
  let offset := match w.offset with
    | none => []
    | some n => [.offset, .space, countToken n]
  let gap := if w.limit.isSome && w.offset.isSome then [.space] else []
  limit ++ gap ++ offset

/-- Offset, then the rows to fetch. -/
def offsetFetch (w : Window) : List Token :=
  [.offset, .space, countToken (w.offset.getD 0), .space, .rows] ++
    match w.limit with
    | none => []
    | some n =>
      [.space, .fetch, .space, .next, .space, countToken n, .space, .rows, .space, .only]

/-- The window as the dialect writes it. -/
def tokens (d : Dialect) (w : Window) : List Token :=
  match d with
  | .sqlServer => w.offsetFetch
  | _ => w.clauses

end Window

/-- The clause that turns a result into a document. -/
def ForJson.tokens (f : ForJson) : List Token :=
  .forJsonPath ::
    ((if f.includeNullValues then [.comma, .space, .includeNullValues] else []) ++
      (if f.withoutArrayWrapper then [.comma, .space, .withoutArrayWrapper] else []))

/-- A cap on the rows goes in front of the select list where the dialect has a place for it. -/
def Dialect.cap (d : Dialect) (top : Option Nat) : Option Nat :=
  if d.hasTop then top else none

/-- The window of a query. Elsewhere a cap without another window becomes one. -/
def Dialect.windowOf (d : Dialect) (top : Option Nat) : Option Window → Option Window
  | some w => some w
  | none => if d.hasTop then none else top.map fun n => ⟨some n, none⟩

/-- An order by nothing, for a window that needs one. -/
def anyOrder : List Token :=
  [.newline, .orderBy, .space, .open, .select, .space, .null, .close]

mutual

/-- The tokens of an expression. -/
def Expr.tokens (d : Dialect) : Expr → List Token
  | .column c => qualifier c.table ++ [.identifier c.name]
  | .literal l => [l.token]
  | .param value type => [.param value type]
  | .binary left op right =>
    left.tokens d ++ [.space, op.token, .space] ++ right.tokens d
  | .call name args distinct =>
    [.function name, .open] ++ (if distinct then [.distinct, .space] else []) ++
      Token.separated [.comma, .space] (tokensOfExprs d args) ++ [.close]
  | .case branches otherwise =>
    [.case] ++ tokensOfBranches d branches ++ tokensOfElse d otherwise ++ [.space, .end]
  | .subquery query => [.open] ++ query.tokens d ++ [.close]
  -- an empty list holds nothing, and no database takes one
  | .inList _ [] negated => [.int 1, .space, .eq, .space, .int (if negated then 1 else 0)]
  | .inList e (value :: values) negated =>
    e.tokens d ++ (if negated then [.space, .not] else []) ++ [.space, .in, .space, .open] ++
      Token.separated [.comma, .space] (value.tokens d :: tokensOfExprs d values) ++ [.close]
  | .inQuery e query negated =>
    e.tokens d ++ (if negated then [.space, .not] else []) ++ [.space, .in, .space, .open] ++
      query.tokens d ++ [.close]
  | .isNull e negated => e.tokens d ++ [.space, if negated then .isNotNull else .isNull]
  | .star table => qualifier table ++ [.star]
  | .paren e => [.open] ++ e.tokens d ++ [.close]

/-- The expressions of a list, each by itself. -/
def tokensOfExprs (d : Dialect) : List Expr → List (List Token)
  | [] => []
  | e :: rest => e.tokens d :: tokensOfExprs d rest

def tokensOfBranches (d : Dialect) : List (Expr × Expr) → List Token
  | [] => []
  | (e, f) :: rest =>
    [.space, .when, .space] ++ e.tokens d ++ [.space, .then, .space] ++ f.tokens d ++
      tokensOfBranches d rest

def tokensOfElse (d : Dialect) : Option Expr → List Token
  | none => []
  | some e => [.space, .else, .space] ++ e.tokens d

/-- A clause that holds one expression, on a line of its own. -/
def tokensOfClause (d : Dialect) (keyword : Token) : Option Expr → List Token
  | none => []
  | some e => [.newline, keyword, .space] ++ e.tokens d

def Source.tokens (d : Dialect) : Source → List Token
  | .table t => t.tokens
  | .derived query label => [.open] ++ query.tokens d ++ [.close] ++ aliasTokens (some label)

/-- The FROM clause. -/
def tokensOfSource (d : Dialect) : Option Source → List Token
  | none => []
  | some source => [.newline, .from, .space] ++ source.tokens d

def SelectItem.tokens (d : Dialect) : SelectItem → List Token
  | ⟨e, label⟩ => e.tokens d ++ aliasTokens label

/-- The select list, a line for each value. -/
def tokensOfItems (d : Dialect) : List SelectItem → List (List Token)
  | [] => []
  | item :: rest => ([.newline, .indent 1] ++ item.tokens d) :: tokensOfItems d rest

def Join.tokens (d : Dialect) : Join → List Token
  | ⟨kind, table, on⟩ =>
    [kind.token, .space, .join, .space] ++ table.tokens ++ [.space, .on, .space] ++ on.tokens d

/-- The joins, a line for each. -/
def tokensOfJoins (d : Dialect) : List Join → List Token
  | [] => []
  | join :: rest => [.newline] ++ join.tokens d ++ tokensOfJoins d rest

def OrderItem.tokens (d : Dialect) : OrderItem → List Token
  | ⟨e, dir⟩ => e.tokens d ++ [.space, dir.token]

def tokensOfOrder (d : Dialect) : List OrderItem → List (List Token)
  | [] => []
  | item :: rest => item.tokens d :: tokensOfOrder d rest

/-- A CTE, with its query on lines of its own. -/
def Cte.tokens (d : Dialect) : Cte → List Token
  | ⟨name, query⟩ =>
    [.identifier name, .space, .as, .space, .open, .newline] ++ query.tokens d ++
      [.newline, .close]

def tokensOfCtes (d : Dialect) : List Cte → List (List Token)
  | [] => []
  | cte :: rest => cte.tokens d :: tokensOfCtes d rest

/-- The clauses in the order that SQL asks for. -/
def Query.tokens (d : Dialect) : Query → List Token
  | ⟨ctes, items, distinct, top, source, joins, condition, groupBy, having, orderBy, window,
      forJson⟩ =>
    let window := d.windowOf top window
    (if ctes.isEmpty then []
      else [.with, .space] ++ Token.separated [.comma, .newline] (tokensOfCtes d ctes) ++
        [.newline]) ++
    [.select] ++ (if distinct then [.space, .distinct] else []) ++
    (match d.cap top with
      | none => []
      | some n => [.space, .top, .space, countToken n]) ++
    Token.separated [.comma] (tokensOfItems d items) ++
    tokensOfSource d source ++
    tokensOfJoins d joins ++
    tokensOfClause d .where condition ++
    (if groupBy.isEmpty then []
      else [.newline, .groupBy, .space] ++
        Token.separated [.comma, .space] (tokensOfExprs d groupBy)) ++
    tokensOfClause d .having having ++
    (if !orderBy.isEmpty then
        [.newline, .orderBy, .space] ++ Token.separated [.comma, .space] (tokensOfOrder d orderBy)
      else if d.windowNeedsOrder && window.isSome then anyOrder
      else []) ++
    (match window with
      | none => []
      | some w => .newline :: w.tokens d) ++
    (match forJson with
      | none => []
      | some f => .newline :: f.tokens)

end

/-- The text of a query. -/
def Query.statement (d : Dialect) (q : Query) : Statement := Token.render d (q.tokens d)

def Expr.statement (d : Dialect) (e : Expr) : Statement := Token.render d (e.tokens d)

end EntityQuery.Sql
