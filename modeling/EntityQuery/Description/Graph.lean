import EntityQuery.Description.Statement
import EntityQuery.Scope
import EntityQuery.Sql.Printing

/-!
# Descriptions of table positions

SQL in these descriptions is in the default dialect.
-/

namespace EntityQuery

/-- An expression as text in the default dialect. -/
def Sql.Expr.brief (e : Sql.Expr) : Document := .text (e.statement .postgreSql).sql

def JoinStep.describe (j : JoinStep) : Document :=
  .table [("schema", .ofOption .text j.schema), ("table", .text j.table),
    ("alias", .text j.label), ("uuid", .text j.identity.text), ("left_alias", .text j.left),
    ("left_column", .text j.leftColumn), ("right_column", .text j.rightColumn),
    ("on", (j.on.statement .postgreSql).describe)]

namespace Model

def describeRelationship (m : Model) (r : Relationship) : Document :=
  .table [("member", .text r.member), ("kind", .text r.cardinality.text),
    ("fanout", .bool r.fansOut), ("child", .text r.child.entity.name),
    ("child_alias", .text (m.aliasOf r.child)), ("parent_key", r.parentKey.brief),
    ("link_key", r.linkKey.brief), ("joins", .ofList (·.describe) r.joins)]

def describeColumn (m : Model) (t : Table) (c : EntityColumn) : Document :=
  .table [("member", .text c.member), ("name", .text c.name),
    ("alias", .text (m.columnAlias t c)), ("type", .ofOption .text c.type)]

def describeTable (m : Model) (t : Table) : Document :=
  .table [("entity", .text t.entity.name), ("name", .text t.entity.table),
    ("schema", .ofOption .text (m.schemaOf t.entity)), ("uuid", .text t.identity.text),
    ("alias", .text (m.aliasOf t)),
    ("primary_key", .ofOption (fun c => .text c.member) t.primaryKey?),
    ("columns", .ofList (m.describeColumn t) t.entity.columns),
    ("parent", .ofOption (fun a => .list [.text a.entity, .text a.member]) t.lineage.head?),
    ("parent_table",
      .ofOption (fun a => .text (m.naming.tableAlias a.identity)) t.lineage.head?),
    ("relationships", .ofList m.describeRelationship (m.relationships t))]

/-- A relationship of a walk, by its member and the alias of its child. -/
def describeHop (m : Model) (r : Relationship) : Document :=
  .list [.text r.member, .text (m.aliasOf r.child)]

def describeResolution (m : Model) (r : Resolution) : Document :=
  .table [("hops", .ofList m.describeHop r.hops), ("table", .text (m.aliasOf r.table)),
    ("entity", .text r.table.entity.name), ("column", .text r.column.name),
    ("column_alias", .text (m.columnAlias r.table r.column)),
    ("type", .ofOption .text r.column.type),
    ("first_many", .ofOption (fun i => .int i) r.firstMany?),
    ("crosses_many", .bool r.crossesMany)]

end Model

def JoinOrigin.name : JoinOrigin → String
  | filter => "Filter"
  | select => "Select"

def ScopedJoin.describe (j : ScopedJoin) : Document :=
  .list [.text j.join.table.name, .ofOption .text j.join.table.label, .text j.origin.name]

/-- The joins of a scope. -/
def Scope.describeJoins (s : Scope) : Document :=
  .table [("has_joins", .bool !s.joins.isEmpty), ("joins", .ofList (·.describe) s.joins)]

end EntityQuery
