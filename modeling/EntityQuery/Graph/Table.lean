import EntityQuery.Entity.Model

/-!
# Table positions

From a root entity a model unfolds into a graph of table positions, one for each chain of
relationships; it has no end where the model has cycles. A `Table` is one position, with the
identity that its SQL alias comes from. The relationships of a position are built when they are
asked for.
-/

namespace EntityQuery

open EntityQuery.Text (utf8)

/-- A position above another, and the member that leads down from it. -/
structure Ancestor where
  entity : String
  identity : Identity
  member : String
  deriving DecidableEq

structure Table where
  entity : Entity
  identity : Identity
  /-- The positions above, the nearest first. -/
  lineage : List Ancestor
  deriving DecidableEq

/-- One join: `left.leftColumn = label.rightColumn`, with the conditions on the joined table. -/
structure JoinStep where
  schema : Option String
  table : String
  label : String
  identity : Identity
  left : String
  leftColumn : String
  rightColumn : String
  filters : List JoinFilter
  deriving DecidableEq

structure Relationship where
  member : String
  cardinality : Cardinality
  parent : Table
  child : Table
  /-- The join of the link table, if there is one. -/
  linkJoin : Option JoinStep
  /-- The join of the child. -/
  childJoin : JoinStep

/-! ## Joins -/

def JoinFilter.expr (f : JoinFilter) (label : String) : Sql.Expr :=
  let column := Sql.Expr.ofTable label f.column
  match f.value, f.op with
  | .null, .eq => .isNull column false
  | .null, .ne => .isNull column true
  | value, op => .binary column op (.param value none)

namespace JoinStep

def tableRef (j : JoinStep) : Sql.TableRef := ⟨j.schema, j.table, some j.label⟩

/-- The comparison of the two columns. -/
def condition (j : JoinStep) : Sql.Expr :=
  .eq (.ofTable j.left j.leftColumn) (.ofTable j.label j.rightColumn)

def filterExprs (j : JoinStep) : List Sql.Expr := j.filters.map (·.expr j.label)

/-- The comparison and all conditions. -/
def on (j : JoinStep) : Sql.Expr :=
  (Sql.Expr.combine .and (j.condition :: j.filterExprs)).getD j.condition

end JoinStep

namespace Relationship

def fansOut (r : Relationship) : Bool := r.cardinality.fansOut

/-- The joins from the parent to the child. -/
def joins (r : Relationship) : List JoinStep := r.linkJoin.toList ++ [r.childJoin]

def firstJoin (r : Relationship) : JoinStep := r.linkJoin.getD r.childJoin

/-- The parent's column in the first join. -/
def parentColumn (r : Relationship) : Sql.Column :=
  ⟨some r.firstJoin.left, r.firstJoin.leftColumn⟩

def parentKey (r : Relationship) : Sql.Expr := .column r.parentColumn

/-- The other column of the first join. -/
def linkKey (r : Relationship) : Sql.Expr :=
  .ofTable r.firstJoin.label r.firstJoin.rightColumn

/-- The child's row belongs to the parent's. -/
def correlation (r : Relationship) : Sql.Expr := .eq r.linkKey r.parentKey

end Relationship

/-! ## Columns -/

namespace Table

def column? (t : Table) (member : String) : Option EntityColumn :=
  t.entity.columns.find? (·.member == member)

def primaryKey? (t : Table) : Option EntityColumn := t.entity.primaryKey.bind t.column?

end Table

/-! ## Positions of a model -/

namespace Model

def aliasOf (m : Model) (t : Table) : String := m.naming.tableAlias t.identity

def columnAlias (m : Model) (t : Table) (c : EntityColumn) : String :=
  m.naming.columnAlias t.identity c.name

def schemaOf (m : Model) (e : Entity) : Option String := e.schema.or m.defaultSchema

def tableRef (m : Model) (t : Table) : Sql.TableRef :=
  ⟨m.schemaOf t.entity, t.entity.table, some (m.aliasOf t)⟩

/-- The column of a position as an expression. -/
def columnExpr (m : Model) (t : Table) (c : EntityColumn) : Sql.Expr :=
  .ofTable (m.aliasOf t) c.name

/-- The position below `t` through a relation to `target`. -/
def childTable (m : Model) (t : Table) (r : Relation) (target : Entity) : Table where
  entity := target
  identity := m.naming.derive
    [t.identity.bytes, utf8 t.entity.name, utf8 r.member, utf8 target.table]
  lineage := ⟨t.entity.name, t.identity, r.member⟩ :: t.lineage

/-- The identity of the link table between `t` and the target of a relation. -/
def linkIdentity (m : Model) (t : Table) (r : Relation) (link : Link) : Identity :=
  m.naming.derive [t.identity.bytes, utf8 "link:", utf8 link.table, utf8 r.member]

/-- The relationship of `t` that a relation to `target` gives. -/
def unfold (m : Model) (t : Table) (r : Relation) (target : Entity) : Relationship :=
  let child := m.childTable t r target
  let reach (left leftColumn : String) : JoinStep :=
    ⟨m.schemaOf target, target.table, m.aliasOf child, child.identity, left, leftColumn, r.right,
      r.filters⟩
  match r.link with
  | none => ⟨r.member, r.cardinality, t, child, none, reach (m.aliasOf t) r.left⟩
  | some link =>
    let identity := m.linkIdentity t r link
    let label := m.naming.tableAlias identity
    let linkJoin : JoinStep :=
      ⟨link.schema.or m.defaultSchema, link.table, label, identity, m.aliasOf t, r.left, link.left,
        link.filters⟩
    ⟨r.member, r.cardinality, t, child, some linkJoin, reach label link.right⟩

/-- The relationships of a position, as declared. -/
def relationships (m : Model) (t : Table) : List Relationship :=
  t.entity.relations.filterMap fun r => (m.entity? r.target).map (m.unfold t r)

/-- The first relationship of a position with the given member. -/
def relationship? (m : Model) (t : Table) (member : String) : Option Relationship :=
  t.entity.relations.findSome? fun r =>
    if r.member = member then (m.entity? r.target).map (m.unfold t r) else none

/-- A root position of an entity. -/
def root (e : Entity) (identity : Identity) : Table := ⟨e, identity, []⟩

end Model

end EntityQuery
