import EntityQuery.Description.Predicate
import EntityQuery.Select.Assembly

/-!
# Descriptions of selections and compiled queries
-/

namespace EntityQuery

def Grouping.name : Grouping → String
  | key => "Key"
  | aggregate => "Aggregate"
  | neutral => "Neutral"

def Sql.SortDir.name : Sql.SortDir → String
  | asc => "asc"
  | desc => "desc"

def FunctionArg.describe : FunctionArg → Document
  | column path => .table [("col", .text path.text)]
  | value v => .table [("val", v.describe)]
  | star => .text "*"

def OrderBy.describe (o : OrderBy) : Document := .list [.text o.path.text, .text o.dir.name]

def Paging.describe : Paging → Document
  | top n => .table [("top", .int n)]
  | page number size => .table [("page", .int number), ("size", .int size)]
  | limit n offset => .table [("limit", .int n), ("offset", .int offset)]

mutual

/-- A node without its grouping. -/
def SelectNode.fields (m : Model) : SelectNode → List (String × Document)
  | .column path label => [("column", .text path.text), ("alias", .ofOption .text label)]
  | .function name args distinct aggregate label =>
    [("function", .text name), ("args", .ofList (·.describe) args),
      ("distinct", .bool distinct), ("aggregate", .bool aggregate), ("alias", .text label)]
  | .case branches otherwise label =>
    [("case", .ofList (fun (p, v) => .list [p.describe m, v.describe]) branches),
      ("has_else", .bool otherwise.isSome), ("else", .ofOption (·.describe) otherwise),
      ("alias", .text label)]
  | .nested path relationship query =>
    [("nested", .text path.text), ("member", .text relationship.member),
      ("query", query.describe m)]

def describeNodes (m : Model) : List SelectNode → List Document
  | [] => []
  | node :: rest =>
    .table (node.fields m ++ [("grouping", .text node.grouping.name)]) :: describeNodes m rest

def SelectQuery.describe (m : Model) : SelectQuery → Document
  | ⟨root, nodes, filter, order, paging, _, _, _⟩ =>
    .table [("root", .text (m.aliasOf root)), ("nodes", .list (describeNodes m nodes)),
      ("filter", .ofOption (·.describe m) filter), ("order", .ofList (·.describe) order),
      ("paging", .ofOption (·.describe) paging)]

end

def JsonMode.name : JsonMode → String
  | rowPerRow => "row_per_row"
  | aggregate => "aggregate"

/-- A shape as a document. -/
def Shape.document : Shape → Document
  | flat columns =>
    .table [("kind", .text "flat"),
      ("columns",
        .ofList (fun c => .table [("alias", .text c.label), ("key", .text c.key.text)]) columns)]
  | json column mode =>
    .table [("kind", .text "json"), ("column", .text column), ("mode", .text mode.name)]

/-- A compiled query, with or without its count. -/
def CompiledQuery.describe (c : CompiledQuery) (count : Bool) : Document :=
  .table [("dialect", .text c.dialect.name), ("statement", c.statement.describe),
    ("count", if count then c.countStatement.describe else .null), ("shape", c.shape.document)]

end EntityQuery
