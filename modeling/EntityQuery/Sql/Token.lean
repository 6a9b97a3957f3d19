import EntityQuery.Sql.Dialect
import EntityQuery.Value

/-!
# SQL tokens and statements

SQL is written as a list of tokens, whose text depends on the dialect. Parameters are tokens too;
they are numbered when the whole list is rendered, so placeholders count in the order of the text.
-/

namespace EntityQuery.Sql

/-- A piece of the text of a statement. -/
inductive Token where
  | select | «from» | «where» | and | or | as | on | join | inner | left
  | groupBy | having | orderBy | asc | desc | limit | offset | fetch | next | rows | only | top
  | case | when | «then» | «else» | «end» | «in» | not | like | notLike | isNull | isNotNull
  | distinct | «with» | null | forJsonPath | withoutArrayWrapper | includeNullValues
  | comma | dot | star | open | close
  | eq | ne | lt | gt | lte | gte
  | space | newline
  | indent (levels : Nat)
  | identifier (name : String)
  | qualified (schema : Option String) (name : String)
  | int (n : Int)
  | string (s : String)
  | param (value : Value) (type : Option String)
  | function (name : String)

/-- A value that is sent beside the text. -/
structure Parameter where
  name : String
  value : Value
  /-- The declared type of the column that the parameter is compared with. -/
  type : Option String

/-- A text and the values for its placeholders. -/
structure Statement where
  sql : String
  params : List Parameter

namespace Token

/-- The text of a token; a parameter on its own has the first placeholder. -/
def text (d : Dialect) : Token → String
  | select => "SELECT"
  | «from» => "FROM"
  | «where» => "WHERE"
  | and => "AND"
  | or => "OR"
  | as => "AS"
  | on => "ON"
  | join => "JOIN"
  | inner => "INNER"
  | left => "LEFT"
  | groupBy => "GROUP BY"
  | having => "HAVING"
  | orderBy => "ORDER BY"
  | asc => "ASC"
  | desc => "DESC"
  | limit => "LIMIT"
  | offset => "OFFSET"
  | fetch => "FETCH"
  | next => "NEXT"
  | rows => "ROWS"
  | only => "ONLY"
  | top => "TOP"
  | case => "CASE"
  | when => "WHEN"
  | «then» => "THEN"
  | «else» => "ELSE"
  | «end» => "END"
  | «in» => "IN"
  | not => "NOT"
  | like => "LIKE"
  | notLike => "NOT LIKE"
  | isNull => "IS NULL"
  | isNotNull => "IS NOT NULL"
  | distinct => "DISTINCT"
  | «with» => "WITH"
  | null => "NULL"
  | forJsonPath => "FOR JSON PATH"
  | withoutArrayWrapper => "WITHOUT_ARRAY_WRAPPER"
  | includeNullValues => "INCLUDE_NULL_VALUES"
  | comma => ","
  | dot => "."
  | star => "*"
  | .open => "("
  | close => ")"
  | eq => "="
  | ne => "<>"
  | lt => "<"
  | gt => ">"
  | lte => "<="
  | gte => ">="
  | space => " "
  | newline => "\n"
  | indent levels => String.ofList (List.replicate (2 * levels) ' ')
  | identifier name => d.quoteIdentifier name
  | qualified none name => d.quoteIdentifier name
  | qualified (some schema) name => d.quoteIdentifier schema ++ "." ++ d.quoteIdentifier name
  | int n => toString n
  | string s => d.quoteString s
  | param _ _ => d.placeholder 0
  | function name => d.functionName name

/-- The value and type of a parameter token. -/
def param? : Token → Option (Value × Option String)
  | param value type => some (value, type)
  | _ => none

/-- The texts of the tokens, the next parameter having index `i`. -/
def texts (d : Dialect) : (i : Nat) → List Token → List String
  | _, [] => []
  | i, param _ _ :: rest => d.placeholder i :: texts d (i + 1) rest
  | i, t :: rest => t.text d :: texts d i rest

/-- Named parameters, the first having index `i`. -/
def parameters (i : Nat) : List (Value × Option String) → List Parameter
  | [] => []
  | (value, type) :: rest => ⟨"p" ++ toString i, value, type⟩ :: parameters (i + 1) rest

/-- The text of the tokens, and their parameters. -/
def render (d : Dialect) (tokens : List Token) : Statement :=
  ⟨String.join (texts d 0 tokens), parameters 0 (tokens.filterMap param?)⟩

/-- Lists of tokens with a separator between them. -/
def separated (sep : List Token) : List (List Token) → List Token
  | [] => []
  | [ts] => ts
  | ts :: rest => ts ++ sep ++ separated sep rest

end Token

end EntityQuery.Sql
