import EntityQuery.Entity.DeclarationDocument
import EntityQuery.Error
import EntityQuery.Identity
import EntityQuery.Sql.Query

/-!
# Checked models

`Model.build` checks the declared entities once; every later step may rely on what it found. In a
model all names of relationships are database names, and the conditions of a relationship stand at
the join they belong to.
-/

namespace EntityQuery

/-- A column of an entity: its member, its name in the database and its declared type. -/
structure EntityColumn where
  member : String
  name : String
  type : Option String
  deriving DecidableEq

/-- A condition on a joined table, by the name of a column. -/
structure JoinFilter where
  column : String
  op : Sql.BinaryOp
  value : Value
  deriving DecidableEq

structure Link where
  schema : Option String
  table : String
  left : String
  right : String
  filters : List JoinFilter
  deriving DecidableEq

structure Relation where
  member : String
  cardinality : Cardinality
  target : String
  /-- The column of the parent that is compared. -/
  left : String
  /-- The column of the target that is compared. -/
  right : String
  link : Option Link
  /-- Conditions on the target. -/
  filters : List JoinFilter
  deriving DecidableEq

structure Entity where
  name : String
  table : String
  schema : Option String
  primaryKey : Option String
  columns : List EntityColumn
  relations : List Relation
  deriving DecidableEq

structure Model where
  entities : List Entity
  /-- The declarations the model was built from. -/
  declarations : List EntityDecl
  /-- The schema of the tables that declare none. -/
  defaultSchema : Option String
  naming : Naming

/-! ## Checking declarations -/

/-- The operators of a join condition. -/
def conditionOperator? (text : String) : Option Sql.BinaryOp :=
  match String.ofList (Text.lowerWord (Text.trim text.toList)) with
  | "=" | "==" | "eq" => some .eq
  | "<>" | "!=" | "ne" => some .ne
  | ">" | "gt" => some .gt
  | ">=" | "gte" => some .gte
  | "<" | "lt" => some .lt
  | "<=" | "lte" => some .lte
  | "like" => some .like
  | "not like" => some .notLike
  | _ => none

namespace EntityDecl

/-- The declared entity with the given name. -/
def find? (all : List EntityDecl) (name : String) : Option EntityDecl :=
  all.find? (·.name == name)

/-- The first name that an earlier entity has, or that has been `seen` before. -/
def duplicate? (seen : List String) : List EntityDecl → Option String
  | [] => none
  | e :: rest => if e.name ∈ seen then some e.name else duplicate? (e.name :: seen) rest

end EntityDecl

namespace RelationDecl

/-- Fails if there is a first missing key among the entities that `need` one. -/
def requireKeys (need : KeyNeed) : List EntityDecl → Except QueryError Unit
  | [] => .ok ()
  | e :: rest =>
    if e.primaryKey.isNone then .error (.missingPrimaryKey e.name need) else requireKeys need rest

/-- The column of `owner` that a relationship compares: the given member, or the primary key. -/
def keyColumn (parent : EntityDecl) (r : RelationDecl) (member : Option String)
    (owner : EntityDecl) : Except QueryError String :=
  match member.or owner.primaryKey with
  | none => .error (.missingPrimaryKey owner.name (.joinColumn parent.name r.member))
  | some member =>
    match owner.dbName? member with
    | some column => .ok column
    | none => .error (.unresolvableKey parent.name r.member s!"{owner.name}.{member}")

/-- A link table is declared exactly for many-to-many relationships. -/
def checkLink (parent : EntityDecl) (r : RelationDecl) : Except QueryError (Option LinkDecl) :=
  match r.cardinality, r.link with
  | .manyToMany, some link => .ok (some link)
  | .manyToMany, none => .error (.invalidRelationship parent.name r.member .linkMissing)
  | _, some _ => .error (.invalidRelationship parent.name r.member .linkUnexpected)
  | _, none => .ok none

/-- The number of joins from the parent to the target. -/
def joins (r : RelationDecl) : Nat := if r.link.isSome then 2 else 1

/-- Reads a condition. Columns of a link table are given by their database names, those of the
target by their members. -/
def checkCondition (parent : EntityDecl) (r : RelationDecl) (target : EntityDecl)
    (c : ConditionDecl) : Except QueryError JoinFilter := do
  if r.joins ≤ c.join then
    throw (.invalidJoinIndex parent.name r.member c.join r.joins)
  let column ←
    if r.link.isSome && c.join == 0 then pure c.column
    else match target.dbName? c.column with
      | some column => pure column
      | none => throw (.unknownMember target.name c.column)
  match conditionOperator? c.operator with
  | some op => return ⟨column, op, c.value⟩
  | none => throw (.invalidRelationship parent.name r.member (.unknownOperator c.operator))

/-- The filters of the join with the given index. -/
def filtersAt (join : Nat) (filters : List (Nat × JoinFilter)) : List JoinFilter :=
  filters.filterMap fun (j, f) => if j = join then some f else none

def check (all : List EntityDecl) (parent : EntityDecl) (r : RelationDecl) :
    Except QueryError Relation := do
  if parent.columns.any (·.member == r.member) then
    throw (.invalidRelationship parent.name r.member .memberIsColumn)
  let target ← match EntityDecl.find? all r.target with
    | some target => pure target
    | none => throw (.unknownEntity r.target)
  if r.cardinality.fansOut then
    requireKeys (.fanOut r.cardinality parent.name r.member) [parent, target]
  let left ← keyColumn parent r r.left parent
  let right ← keyColumn parent r r.right target
  let link ← checkLink parent r
  let filters ← r.conditions.mapM fun c => do
    return (c.join, ← checkCondition parent r target c)
  return {
    member := r.member
    cardinality := r.cardinality
    target := r.target
    left := left
    right := right
    link := link.map fun l => ⟨l.schema, l.table, l.left, l.right, filtersAt 0 filters⟩
    filters := filtersAt (r.joins - 1) filters }

end RelationDecl

def EntityDecl.check (all : List EntityDecl) (e : EntityDecl) : Except QueryError Entity := do
  if let some key := e.primaryKey then
    if (e.column? key).isNone then
      throw (.unknownMember e.name key)
  let relations ← e.relations.mapM (RelationDecl.check all e)
  return {
    name := e.name
    table := e.table
    schema := e.schema
    primaryKey := e.primaryKey
    columns := e.columns.map fun c => ⟨c.member, c.dbName, c.type⟩
    relations := relations }

namespace Model

/-- Checks the declarations: distinct names first, then entity by entity. -/
def build (naming : Naming) (defaultSchema : Option String) (all : List EntityDecl) :
    Except QueryError Model := do
  if let some name := EntityDecl.duplicate? [] all then
    throw (.duplicateEntity name)
  let entities ← all.mapM (EntityDecl.check all)
  return ⟨entities, all, defaultSchema, naming⟩

def entity? (m : Model) (name : String) : Option Entity := m.entities.find? (·.name == name)

/-- The names of the entities in order. -/
def entityNames (m : Model) : List String :=
  (m.declarations.map (·.name)).mergeSort fun a b => a ≤ b

/-- A digest of the declarations that does not depend on their order. -/
def fingerprint (m : Model) : String :=
  let sorted := m.declarations.mergeSort fun a b => a.name ≤ b.name
  let text := (Document.list (sorted.map EntityDecl.document)).compact
  String.ofList (Text.hex (Digest.sha256 (Text.utf8 text)))

end Model

end EntityQuery
