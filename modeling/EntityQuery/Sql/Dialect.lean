import EntityQuery.Text.Blank
import EntityQuery.Text.Uppercase

/-!
# SQL dialects

What the supported databases disagree on: quoting, placeholders, windows over a result, JSON
construction and function names.
-/

namespace EntityQuery.Sql

/-- The supported databases. -/
inductive Dialect where
  | sqlServer
  | mySql
  | postgreSql
  deriving DecidableEq, Inhabited

/-- The names of the functions that build JSON inside a query. -/
structure JsonFunctions where
  /-- Builds an object from keys and values in turn. -/
  object : String
  /-- Collects rows into an array. -/
  arrayOfRows : String
  /-- Builds an array; without arguments the empty one. -/
  array : String

namespace Dialect

/-- The name of a dialect in settings and messages. -/
def name : Dialect → String
  | sqlServer => "sqlserver"
  | mySql => "mysql"
  | postgreSql => "postgresql"

/-- The names that a dialect may be given by. -/
def ofName? : String → Option Dialect
  | "sqlserver" | "tsql" | "mssql" => some sqlServer
  | "mysql" => some mySql
  | "postgresql" | "postgres" => some postgreSql
  | _ => none

/-! ## Quoting -/

/-- Text between quotes in which the closing quote is written twice. -/
def enclose (opening closing : Char) (cs : List Char) : List Char :=
  opening :: (Text.double closing cs ++ [closing])

/-- The characters of a quoted identifier. -/
def identifierChars : Dialect → List Char → List Char
  | sqlServer => enclose '[' ']'
  | mySql => enclose '\x60' '\x60'
  | postgreSql => enclose '"' '"'

/-- The characters of a string literal. MySQL also takes the backslash as an escape; SQL Server
marks text outside ASCII. -/
def stringChars : Dialect → List Char → List Char
  | sqlServer, cs =>
    if cs.all (·.toNat < 128) then enclose '\'' '\'' cs else 'N' :: enclose '\'' '\'' cs
  | mySql, cs => enclose '\'' '\'' (Text.double '\\' cs)
  | postgreSql, cs => enclose '\'' '\'' cs

/-- A name in the quotes of the dialect. -/
def quoteIdentifier (d : Dialect) (s : String) : String :=
  String.ofList (d.identifierChars s.toList)

def quoteString (d : Dialect) (s : String) : String :=
  String.ofList (d.stringChars s.toList)

/-- The placeholder of the parameter with the given index. -/
def placeholder : Dialect → Nat → String
  | sqlServer, i => "@p" ++ toString i
  | mySql, _ => "?"
  | postgreSql, i => "$" ++ toString (i + 1)

/-! ## Features -/

/-- A window needs an order. -/
def windowNeedsOrder : Dialect → Bool
  | sqlServer => true
  | _ => false

/-- A result is capped in front of the select list. -/
def hasTop : Dialect → Bool
  | sqlServer => true
  | _ => false

/-- An aggregate may range over the distinct values of several arguments. -/
def hasWideDistinct : Dialect → Bool
  | mySql => true
  | _ => false

/-- The JSON functions; none when the whole result is turned into one JSON document instead. -/
def jsonFunctions? : Dialect → Option JsonFunctions
  | sqlServer => none
  | mySql => some ⟨"JSON_OBJECT", "JSON_ARRAYAGG", "JSON_ARRAY"⟩
  | postgreSql => some ⟨"jsonb_build_object", "jsonb_agg", "jsonb_build_array"⟩

/-- Another name for a function, found by its upper-case name. -/
def renameUpper? : Dialect → String → Option String
  | sqlServer, "LENGTH" => some "LEN"
  | sqlServer, "SUBSTR" => some "SUBSTRING"
  | sqlServer, "NOW" => some "GETDATE"
  | sqlServer, "CURRENT_TIMESTAMP" => some "GETDATE"
  | sqlServer, "NVL" => some "ISNULL"
  | sqlServer, "IFNULL" => some "ISNULL"
  | mySql, "NVL" => some "IFNULL"
  | mySql, "ISNULL" => some "IFNULL"
  | mySql, "SUBSTR" => some "SUBSTRING"
  | mySql, "LEN" => some "CHAR_LENGTH"
  | postgreSql, "NVL" => some "COALESCE"
  | postgreSql, "IFNULL" => some "COALESCE"
  | postgreSql, "ISNULL" => some "COALESCE"
  | postgreSql, "LEN" => some "LENGTH"
  | _, _ => none

/-- Another name for a function, however it is spelled. -/
def renameFunction? (d : Dialect) (name : String) : Option String :=
  d.renameUpper? (Text.upper name)

/-- The name under which a function is called. -/
def functionName (d : Dialect) (name : String) : String :=
  (d.renameFunction? name).getD (Text.upper name)

end Dialect

end EntityQuery.Sql
