import EntityQuery.Error
import EntityQuery.Settings

/-!
# Descriptions of statements and errors

A description is a document that shows a value of the library to a tool or a log.
-/

namespace EntityQuery

/-- An optional part; nothing is null. -/
def Document.ofOption {α : Type} (f : α → Document) : Option α → Document
  | some a => f a
  | none => .null

def Document.ofList {α : Type} (f : α → Document) (xs : List α) : Document := .list (xs.map f)

/-- A value, with a tag where a plain document would lose what it is. -/
def Value.describe : Value → Document
  | .float d => .table [("float", .text d.text)]
  | .bytes bs => .table [("bytes", Value.document (.bytes bs))]
  | v => v.document

def Sql.Parameter.describe (p : Sql.Parameter) : Document :=
  .table [("name", .text p.name), ("value", p.value.describe),
    ("type", .ofOption .text p.type)]

def Sql.Statement.fields (s : Sql.Statement) : List (String × Document) :=
  [("sql", .text s.sql), ("params", .ofList (·.describe) s.params)]

def Sql.Statement.describe (s : Sql.Statement) : Document := .table s.fields

def QueryError.describe (e : QueryError) : Document :=
  .table [("error", .text e.name), ("kind", .text e.kind.name), ("message", .text e.message)]

def Settings.describe (s : Settings) : Document :=
  .table [("dialect", .text s.dialect.name), ("default_schema", .ofOption .text s.defaultSchema),
    ("eager_depth", .int s.eagerDepth), ("ttl_seconds", .int s.ttlSeconds),
    ("ttl_millis", .text (toString (s.ttlSeconds * 1000)))]

end EntityQuery
