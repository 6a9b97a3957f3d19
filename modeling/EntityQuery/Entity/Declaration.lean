import EntityQuery.Value

/-!
# Declared entities

What an application says about its tables: columns and the relationships between entities.
Members are the names used in paths; a column may have another name in the database. Nothing is
checked here.
-/

namespace EntityQuery

/-- How many rows may be on the two sides of a relationship. -/
inductive Cardinality where
  | oneToOne | oneToMany | manyToMany
  deriving DecidableEq

namespace Cardinality

/-- One row may have several related rows. -/
def fansOut : Cardinality → Bool
  | oneToOne => false
  | oneToMany | manyToMany => true

def text : Cardinality → String
  | oneToOne => "1:1"
  | oneToMany => "1:N"
  | manyToMany => "N:N"

def name : Cardinality → String
  | oneToOne => "one_to_one"
  | oneToMany => "one_to_many"
  | manyToMany => "many_to_many"

def ofName? : String → Option Cardinality
  | "one_to_one" => some oneToOne
  | "one_to_many" => some oneToMany
  | "many_to_many" => some manyToMany
  | _ => none

end Cardinality

structure ColumnDecl where
  member : String
  column : Option String
  type : Option String
  deriving DecidableEq

/-- The table between the two sides of a many-to-many relationship; `left` refers to the parent
and `right` to the target. -/
structure LinkDecl where
  schema : Option String
  table : String
  left : String
  right : String
  deriving DecidableEq

/-- A condition on one join of a relationship. Join 0 reaches the target, or the link table if
there is one, and then join 1 reaches the target. -/
structure ConditionDecl where
  join : Nat
  column : String
  operator : String
  value : Value
  deriving DecidableEq

structure RelationDecl where
  member : String
  cardinality : Cardinality
  target : String
  /-- The member of the parent that is compared; its primary key if not given. -/
  left : Option String
  /-- The member of the target that is compared; its primary key if not given. -/
  right : Option String
  link : Option LinkDecl
  conditions : List ConditionDecl
  deriving DecidableEq

structure EntityDecl where
  name : String
  table : String
  schema : Option String
  primaryKey : Option String
  columns : List ColumnDecl
  relations : List RelationDecl
  deriving DecidableEq

/-- The name in the database. -/
def ColumnDecl.dbName (c : ColumnDecl) : String := c.column.getD c.member

namespace EntityDecl

def column? (e : EntityDecl) (member : String) : Option ColumnDecl :=
  e.columns.find? (·.member == member)

/-- The database name of a member. -/
def dbName? (e : EntityDecl) (member : String) : Option String :=
  (e.column? member).map (·.dbName)

/-- Puts a column in the place of the first one with its member, or at the end. -/
def putColumn (c : ColumnDecl) : List ColumnDecl → List ColumnDecl
  | [] => [c]
  | d :: rest => if d.member = c.member then c :: rest else d :: putColumn c rest

/-- Declares a column, replacing an earlier declaration of its member. -/
def withColumn (e : EntityDecl) (c : ColumnDecl) : EntityDecl :=
  { e with columns := putColumn c e.columns }

/-- Declares the primary key, and its column if there is none yet. -/
def withPrimaryKey (e : EntityDecl) (member : String) : EntityDecl :=
  { e with
    primaryKey := some member
    columns := if (e.column? member).isSome then e.columns
      else e.columns ++ [⟨member, none, none⟩] }

def withRelation (e : EntityDecl) (r : RelationDecl) : EntityDecl :=
  { e with relations := e.relations ++ [r] }

end EntityDecl

end EntityQuery
