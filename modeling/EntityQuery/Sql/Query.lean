import EntityQuery.Value

/-!
# SQL queries

The syntax of expressions and SELECT statements. The two are mutual: an expression may hold a
subquery. Nothing here depends on a dialect.
-/

namespace EntityQuery.Sql

/-- A constant that stands in the text. -/
inductive Literal where
  | int (n : Int)
  | text (s : String)
  | null
  deriving DecidableEq

/-- A comparison or a connective. -/
inductive BinaryOp where
  | eq | ne | lt | gt | lte | gte | and | or | like | notLike
  deriving DecidableEq

inductive SortDir where
  | asc | desc
  deriving DecidableEq, Inhabited

/-- Whether a row without a partner is dropped or kept. -/
inductive JoinKind where
  | inner | left
  deriving DecidableEq

/-- A column, by its own name or through a table's. -/
structure Column where
  table : Option String
  name : String
  deriving DecidableEq

/-- A stored table and the name it has inside a query. -/
structure TableRef where
  schema : Option String
  name : String
  label : Option String
  deriving DecidableEq

/-- The part of a result that is returned. -/
structure Window where
  limit : Option Nat
  offset : Option Nat
  deriving DecidableEq

/-- A number of rows as it is written: databases count in signed 64-bit integers, and the largest
one stands for all beyond it. -/
def rowCount (n : Nat) : Nat := min n (twoPow 63 - 1)

/-- Options of a result that is returned as one JSON document. -/
structure ForJson where
  withoutArrayWrapper : Bool
  includeNullValues : Bool
  deriving DecidableEq

mutual

/-- An SQL expression. -/
inductive Expr where
  | column (c : Column)
  | literal (l : Literal)
  | param (value : Value) (type : Option String)
  | binary (left : Expr) (op : BinaryOp) (right : Expr)
  | call (name : String) (args : List Expr) (distinct : Bool)
  | case (branches : List (Expr × Expr)) (otherwise : Option Expr)
  | subquery (query : Query)
  | inList (e : Expr) (values : List Expr) (negated : Bool)
  | inQuery (e : Expr) (query : Query) (negated : Bool)
  | isNull (e : Expr) (negated : Bool)
  | star (table : Option String)
  | paren (e : Expr)

/-- What a query reads from: a table, or the rows of a query. -/
inductive Source where
  | table (t : TableRef)
  | derived (query : Query) (label : String)

/-- A selected value and its name. -/
structure SelectItem where
  expr : Expr
  label : Option String

/-- A joined table and the condition for it. -/
structure Join where
  kind : JoinKind
  table : TableRef
  on : Expr

/-- An order by one value. -/
structure OrderItem where
  expr : Expr
  dir : SortDir

/-- A common table expression: a query with a name, visible in the query it precedes. -/
structure Cte where
  name : String
  query : Query

/-- A SELECT, clause by clause. -/
structure Query where
  ctes : List Cte
  items : List SelectItem
  distinct : Bool
  /-- The most rows that are returned. -/
  top : Option Nat
  source : Option Source
  joins : List Join
  condition : Option Expr
  groupBy : List Expr
  having : Option Expr
  orderBy : List OrderItem
  window : Option Window
  forJson : Option ForJson

end

/-! ## Building expressions -/

namespace Expr

/-- A column of a table. -/
def ofTable (table name : String) : Expr := column ⟨some table, name⟩

def int (n : Int) : Expr := literal (.int n)

/-- A function call without DISTINCT. -/
def apply (name : String) (args : List Expr) : Expr := call name args false

def countAll : Expr := apply "COUNT" [star none]

def countDistinct (e : Expr) : Expr := call "COUNT" [e] true

def eq (a b : Expr) : Expr := binary a .eq b

/-- AND and OR chains. -/
def isLogical : Expr → Bool
  | binary _ .and _ | binary _ .or _ => true
  | _ => false

/-- A chain in parentheses, all else as it is. -/
def protect (e : Expr) : Expr := if e.isLogical then paren e else e

/-- Joins the expressions by `op`, from the left, each nested chain in parentheses. -/
def combine (op : BinaryOp) : List Expr → Option Expr
  | [] => none
  | e :: rest => some (rest.foldl (fun acc x => binary acc op x.protect) e.protect)

/-- Both expressions joined by `op`. -/
def combine₂ (op : BinaryOp) (a b : Expr) : Expr := binary a.protect op b.protect

end Expr

/-! ## The columns an expression reads -/

mutual

/-- The columns of an expression in the order of its text; subqueries are opaque. -/
def Expr.columnsRead : Expr → List Column
  | .column c => [c]
  | .binary left _ right => left.columnsRead ++ right.columnsRead
  | .call _ args _ => columnsReadAll args
  | .case branches otherwise => columnsReadBranches branches ++ columnsReadOption otherwise
  | .inList e values _ => e.columnsRead ++ columnsReadAll values
  | .inQuery e _ _ | .isNull e _ | .paren e => e.columnsRead
  | .literal _ | .param _ _ | .subquery _ | .star _ => []

def columnsReadAll : List Expr → List Column
  | [] => []
  | e :: rest => e.columnsRead ++ columnsReadAll rest

def columnsReadBranches : List (Expr × Expr) → List Column
  | [] => []
  | (e, f) :: rest => e.columnsRead ++ f.columnsRead ++ columnsReadBranches rest

def columnsReadOption : Option Expr → List Column
  | none => []
  | some e => e.columnsRead

end

/-- The columns of an expression, each once. -/
def Expr.columns (e : Expr) : List Column := e.columnsRead.eraseDups

/-! ## Building queries -/

namespace Query

def empty : Query := ⟨[], [], false, none, none, [], none, [], none, [], none, none⟩

/-- Adds a condition to the WHERE clause. -/
def filter (q : Query) (e : Expr) : Query :=
  { q with condition := match q.condition with
      | none => some e
      | some f => some (.combine₂ .and f e) }

end Query

end EntityQuery.Sql
