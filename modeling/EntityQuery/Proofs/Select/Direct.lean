import EntityQuery.Proofs.Select.Tree

/-!
# What a built selection reads in its own rows

A selection is divided where a path fans out, so what it reads in its own rows is reached without
a fan-out: the columns, and the rows that nested queries belong to (`SelectNode.Direct`). The
arguments of functions are the exception; they are taken as they are given
(`SelectNode.fansOut`).

**Runs.** Every operation keeps a query direct, whatever it does to the nested ones
(`Builds.direct`).
-/

namespace EntityQuery

variable {m : Model} {t : Table} {P : Table → Prop}

/-- The column is reached without a fan-out, if there is one. -/
def Model.Narrow (m : Model) (t : Table) (path : Path) : Prop :=
  ∀ r, m.resolve t path = .ok r → r.crossesMany = false

/-! ## Nodes -/

/-- An argument multiplies the rows. -/
def FunctionArg.fansOut (m : Model) (t : Table) : FunctionArg → Bool
  | .column path => match m.resolve t path with
    | .ok r => r.crossesMany
    | .error _ => false
  | .value _ | .star => false

/-- A function has an argument that multiplies the rows. -/
def SelectNode.fansOut (m : Model) (t : Table) : SelectNode → Bool
  | .function _ args _ _ _ => args.any (·.fansOut m t)
  | .column .. | .case .. | .nested .. => false

/-- A column is reached without a fan-out, and so are the rows that a nested query belongs to. -/
def SelectNode.Direct (m : Model) (t : Table) : SelectNode → Prop
  | .column path _ => m.Narrow t path
  | .nested path _ _ => m.NarrowTo t path
  | .function .. | .case .. => True

namespace SelectQuery

variable {q q' : SelectQuery} {path : Path}

/-- The query starts at `t`, and all its nodes are direct. -/
structure Direct (m : Model) (t : Table) (q : SelectQuery) : Prop where
  root : q.root = t
  nodes : ∀ node ∈ q.nodes, node.Direct m t

theorem direct_ofTable (t : Table) : (ofTable t).Direct m t := ⟨rfl, by simp [ofTable]⟩

theorem Direct.concat (h : q.Direct m t) {node : SelectNode} (hnode : node.Direct m t) :
    { q with nodes := q.nodes ++ [node] }.Direct m t :=
  ⟨h.root, List.forall_mem_append.2 ⟨h.nodes, List.forall_mem_singleton.2 hnode⟩⟩

/-! ## Steps -/

theorem Lists.narrow (hm : m.MembersDiffer) (hroot : m.Covers q.root) (h : q.Lists m path) :
    m.Narrow q.root path := by
  intro r hr
  obtain ⟨r', hr', hone⟩ := h.resolve hm hroot
  cases hr.symm.trans hr'
  exact hone

theorem Steps.direct {A : SelectNode → Prop} (h : Steps m A q q') (hm : m.MembersDiffer)
    (ht : m.Covers t) (hq : q.Direct m t) : q'.Direct m t := by
  induction h with
  | refl => exact hq
  | trans _ _ ih ih' => exact ih' (ih hq)
  | column _ _ hpath =>
    obtain rfl := hq.root
    exact hq.concat (hpath.narrow hm ht)
  | @value _ node _ hnode =>
    refine hq.concat ?_
    cases node with
    | column => cases hnode
    | nested => cases hnode
    | function => exact ⟨⟩
    | case => exact ⟨⟩
  | opened _ hroute hone =>
    refine ⟨hq.root, List.forall_mem_append.2 ⟨fun node hnode => ?_, ?_⟩⟩
    · exact hq.nodes node (List.mem_filter.1 hnode).1
    · refine List.forall_mem_singleton.2 fun route' hroute' => ?_
      rw [← hq.root, hroute] at hroute'
      cases hroute'
      exact hone
  | inside hinner =>
    -- The query of a node may be replaced by any other.
    obtain ⟨before, r, after, hnodes, hset⟩ := exists_setNested hinner
    have hdirect := hq.nodes
    rw [hnodes, List.forall_mem_append, List.forall_mem_cons] at hdirect
    refine ⟨hq.root, ?_⟩
    rw [hset, List.forall_mem_append, List.forall_mem_cons]
    exact hdirect
  | other hroot hnodes => exact ⟨hroot.trans hq.root, hnodes ▸ hq.nodes⟩

/-- **Operations keep queries direct.** -/
theorem Builds.direct (h : Builds m P q q') (hm : m.MembersDiffer) (ht : m.Covers t)
    (hq : q.Direct m t) : q'.Direct m t :=
  h.steps.direct hm ht hq

end SelectQuery

end EntityQuery
