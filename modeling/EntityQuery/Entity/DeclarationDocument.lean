import EntityQuery.Entity.Declaration

/-!
# Declarations as documents

Declarations are read from documents and written back. Fields that are not given are left out;
lists are always written.
-/

namespace EntityQuery

open Document (Format optional? withDefault? listOf?)

/-! ## Reading -/

def ColumnDecl.ofDocument? (format : Format) (d : Document) : Option ColumnDecl := do
  let field ← d.record? format ["member", "column", "sql_type"]
  return {
    member := ← (← field "member").text?
    column := ← optional? Document.text? (field "column")
    type := ← optional? Document.text? (field "sql_type") }

def LinkDecl.ofDocument? (format : Format) (d : Document) : Option LinkDecl := do
  let field ← d.record? format ["schema", "table", "left", "right"]
  return {
    schema := ← optional? Document.text? (field "schema")
    table := ← (← field "table").text?
    left := ← (← field "left").text?
    right := ← (← field "right").text? }

def ConditionDecl.ofDocument? (format : Format) (d : Document) : Option ConditionDecl := do
  let field ← d.record? format ["join", "column", "operator", "value"]
  return {
    join := ← withDefault? Document.count? 0 (field "join")
    column := ← (← field "column").text?
    operator := ← withDefault? Document.text? "=" (field "operator")
    value := ← Value.ofDocument? (← field "value") }

def Cardinality.ofDocument? (format : Format) (d : Document) : Option Cardinality :=
  (d.name? format).bind Cardinality.ofName?

def RelationDecl.ofDocument? (format : Format) (d : Document) : Option RelationDecl := do
  let field ← d.record? format
    ["member", "kind", "target", "left", "right", "link", "conditions"]
  return {
    member := ← (← field "member").text?
    cardinality := ← Cardinality.ofDocument? format (← field "kind")
    target := ← (← field "target").text?
    left := ← optional? Document.text? (field "left")
    right := ← optional? Document.text? (field "right")
    link := ← optional? (LinkDecl.ofDocument? format) (field "link")
    conditions := ← listOf? (ConditionDecl.ofDocument? format) (field "conditions") }

def EntityDecl.ofDocument? (format : Format) (d : Document) : Option EntityDecl := do
  let field ← d.record? format
    ["name", "table", "schema", "primary_key", "columns", "relationships"]
  return {
    name := ← (← field "name").text?
    table := ← (← field "table").text?
    schema := ← optional? Document.text? (field "schema")
    primaryKey := ← optional? Document.text? (field "primary_key")
    columns := ← listOf? (ColumnDecl.ofDocument? format) (field "columns")
    relations := ← listOf? (RelationDecl.ofDocument? format) (field "relationships") }

/-- The declarations of a model file in TOML, whose entities stand under `entity`. -/
def EntityDecl.listOfFile? (d : Document) : Option (List EntityDecl) := do
  let field ← d.record? .toml ["entity"]
  listOf? (EntityDecl.ofDocument? .toml) (field "entity")

/-! ## Writing -/

/-- A field that is left out when there is nothing to say. -/
def optionalField (name : String) : Option String → List (String × Document)
  | none => []
  | some s => [(name, .text s)]

def ColumnDecl.document (c : ColumnDecl) : Document :=
  .table ([("member", .text c.member)] ++ optionalField "column" c.column ++
    optionalField "sql_type" c.type)

def LinkDecl.document (l : LinkDecl) : Document :=
  .table (optionalField "schema" l.schema ++
    [("table", .text l.table), ("left", .text l.left), ("right", .text l.right)])

def ConditionDecl.document (c : ConditionDecl) : Document :=
  .table [("join", .int c.join), ("column", .text c.column), ("operator", .text c.operator),
    ("value", c.value.document)]

def RelationDecl.document (r : RelationDecl) : Document :=
  .table ([("member", .text r.member), ("kind", .text r.cardinality.name),
      ("target", .text r.target)] ++
    optionalField "left" r.left ++ optionalField "right" r.right ++
    (match r.link with
      | none => []
      | some l => [("link", l.document)]) ++
    [("conditions", .list (r.conditions.map ConditionDecl.document))])

def EntityDecl.document (e : EntityDecl) : Document :=
  .table ([("name", .text e.name), ("table", .text e.table)] ++
    optionalField "schema" e.schema ++ optionalField "primary_key" e.primaryKey ++
    [("columns", .list (e.columns.map ColumnDecl.document)),
      ("relationships", .list (e.relations.map RelationDecl.document))])

end EntityQuery
