import EntityQuery.Proofs.Graph.Walk

/-!
# The graph below a position

The graph that a model unfolds from a position, as a whole: for every path the position where it
ends, with the names that SQL has for it and all its relationships (`Model.graph`).

What matters of a model is which entities it finds by name, its naming and its default schema;
models that agree on these have the same graphs (`Model.Agrees.graph_eq`). The identity of a root
goes into all identities and aliases below it, so the graphs of two roots are compared with one
identity for both (`Model.SameGraph`).
-/

namespace EntityQuery

open Model (endOf)

/-- A position with all that a model says of it. -/
structure GraphNode where
  table : Table
  /-- The table as SQL refers to it. -/
  source : Sql.TableRef
  /-- The aliases of the columns, as declared. -/
  columnAliases : List String
  relationships : List Relationship

namespace Model

/-- The position itself, as a node of a graph. -/
def node (m : Model) (t : Table) : GraphNode where
  table := t
  source := m.tableRef t
  columnAliases := t.entity.columns.map (m.columnAlias t)
  relationships := m.relationships t

/-- The graph below a position: where each path leads. -/
def graph (m : Model) (t : Table) (p : Path) : Option GraphNode :=
  (m.walk? t p).map fun hops => m.node (endOf t hops)

theorem graph_nil (m : Model) (t : Table) : m.graph t ⟨[]⟩ = some (m.node t) := rfl

/-- A path leads on from the child of its first relationship. -/
theorem graph_cons (m : Model) (t : Table) (member : String) (rest : List String) :
    m.graph t ⟨member :: rest⟩ = (m.relationship? t member).bind (m.graph ·.child ⟨rest⟩) := by
  simp only [graph, walk?, walkMembers?]
  cases m.relationship? t member with
  | none => rfl
  | some r =>
    cases hrest : m.walkMembers? r.child rest with
    | none => simp [hrest]
    | some hops => simp [hrest, endOf_cons]

/-! ## Models with the same graphs -/

/-- The models find the same entities and name tables in the same way. -/
structure Agrees (m m' : Model) : Prop where
  entity : ∀ name, m.entity? name = m'.entity? name
  naming : m.naming = m'.naming
  defaultSchema : m.defaultSchema = m'.defaultSchema

namespace Agrees

variable {m m' : Model} (h : m.Agrees m')

include h

theorem unfold_eq (t : Table) (rel : Relation) (target : Entity) :
    m.unfold t rel target = m'.unfold t rel target := by
  simp only [unfold, childTable, linkIdentity, aliasOf, schemaOf, h.naming, h.defaultSchema]

theorem relationship?_eq (t : Table) (member : String) :
    m.relationship? t member = m'.relationship? t member := by
  simp only [relationship?, h.entity, funext (h.unfold_eq t _)]

theorem node_eq (t : Table) : m.node t = m'.node t := by
  have hcolumn : m.columnAlias t = m'.columnAlias t := by
    funext c
    simp only [columnAlias, h.naming]
  simp only [node, tableRef, aliasOf, schemaOf, relationships, hcolumn, h.naming,
    h.defaultSchema, h.entity, funext (h.unfold_eq t _)]

theorem graph_eq (t : Table) : m.graph t = m'.graph t := by
  funext ⟨members⟩
  induction members generalizing t with
  | nil => rw [graph_nil, graph_nil, h.node_eq]
  | cons member rest ih => simp only [graph_cons, h.relationship?_eq, ih]

end Agrees

end Model

/-! ## Roots -/

/-- The graphs below two roots are the same up to the identities of the roots: with one identity for
both they are equal. -/
def Model.SameGraph (m : Model) (t : Table) (m' : Model) (t' : Table) : Prop :=
  ∀ id, m.graph { t with identity := id } = m'.graph { t' with identity := id }

theorem Model.Agrees.sameGraph_root {m m' : Model} (h : m.Agrees m') (e : Entity)
    (id id' : Identity) : SameGraph m (root e id) m' (root e id') :=
  fun common => h.graph_eq (root e common)

end EntityQuery
