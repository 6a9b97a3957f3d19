import EntityQuery.Proofs.Graph.Division
import EntityQuery.Proofs.Success
import EntityQuery.Select.Builder

/-!
# What the operations on selections do

A path goes on in another query where it enters a nested one, or else where it fans out first
(`enters?`). An operation that takes a path goes down into that query, which is nested there already
or opens and takes the nodes that lie below it, or does its work here. There is one lemma for each
of these operations that says which (`includeRelated_cases`, `addPath_cases`, `focus_cases`).
-/

namespace EntityQuery

open SelectQuery (putNested isBelow rebase)

namespace SelectQuery

variable {m : Model} {q q' inner : SelectQuery} {path via : Path} {label : Option String} {n : Nat}

/-! ## Nested queries -/

/-- The query that opens at a relationship: it takes what lies below. -/
def openedAt (q : SelectQuery) (via : Path) (r : Relationship) : SelectQuery :=
  { ofTable r.child with
    nodes := (q.nodes.filter (isBelow via)).map (rebase via)
    eagerDepth := q.eagerDepth
    ancestors := q.ancestors ++ [q.root.entity.name] }

/-- The query in which it has opened. -/
def withOpened (q : SelectQuery) (via : Path) (r : Relationship) : SelectQuery :=
  { q with nodes := q.nodes.filter (!isBelow via ·) ++ [.nested via r (q.openedAt via r)] }

theorem nested_of_mem_openedAt {r s : Relationship}
    (h : .nested path r inner ∈ (q.openedAt via s).nodes) :
    ∃ p, .nested p r inner ∈ q.nodes ∧ p.continues via = true ∧ path = p.drop via.length := by
  obtain ⟨node, hnode, heq⟩ := List.mem_map.1 h
  obtain ⟨hmem, hbelow⟩ := List.mem_filter.1 hnode
  cases node with
  | nested p r' query =>
    cases heq
    exact ⟨p, hmem, by simpa [isBelow, SelectNode.path?] using hbelow, rfl⟩
  | column => cases heq
  | function => cases heq
  | case => cases heq

theorem column_of_mem_openedAt {s : Relationship}
    (h : .column path label ∈ (q.openedAt via s).nodes) :
    ∃ p, .column p label ∈ q.nodes ∧ p.continues via = true ∧ path = p.drop via.length := by
  obtain ⟨node, hnode, heq⟩ := List.mem_map.1 h
  obtain ⟨hmem, hbelow⟩ := List.mem_filter.1 hnode
  cases node with
  | column p label' =>
    cases heq
    exact ⟨p, hmem, by simpa [isBelow, SelectNode.path?] using hbelow, rfl⟩
  | nested => cases heq
  | function => cases heq
  | case => cases heq

theorem nestedAt?_withOpened {r : Relationship} (h : q.nestedAt? via = none) :
    (q.withOpened via r).nestedAt? via = some (q.openedAt via r) := by
  have hold : (q.nodes.filter (!isBelow via ·)).findSome? (·.nestedAt? via) = none :=
    List.findSome?_eq_none_iff.2 fun node hnode =>
      List.findSome?_eq_none_iff.1 h node (List.mem_filter.1 hnode).1
  rw [nestedAt?, withOpened, List.findSome?_append, hold]
  simp [SelectNode.nestedAt?]

/-- **A query is nested there already, or it opens.** -/
theorem openNested_eq_ok : q.openNested m via = .ok (inner, q') ↔
    (q.nestedAt? via = some inner ∧ q' = q) ∨
      (q.nestedAt? via = none ∧ ∃ route, m.resolveRelationship q.root via = .ok route ∧
        inner = q.openedAt via route.last ∧ q' = q.withOpened via route.last) := by
  rw [openNested]
  cases hinner : q.nestedAt? via with
  | some found => simp [pure, Except.pure, eq_comm]
  | none =>
    have hadd : ∀ x, q.addNested m via = .ok x ↔ ∃ route,
        m.resolveRelationship q.root via = .ok route ∧ x = q.withOpened via route.last := by
      intro x
      simp only [addNested, bind_eq_ok, pure_eq_ok, withOpened, openedAt]
    simp only [bind_eq_ok, hadd]
    constructor
    · rintro ⟨_, ⟨route, hroute, rfl⟩, h⟩
      rw [nestedAt?_withOpened hinner] at h
      cases h
      exact .inr ⟨trivial, route, hroute, rfl, rfl⟩
    · rintro (⟨h, -⟩ | ⟨-, route, hroute, rfl, rfl⟩)
      · cases h
      · refine ⟨_, ⟨route, hroute, rfl⟩, ?_⟩
        rw [nestedAt?_withOpened hinner]
        rfl

/-- Either way it is nested in what is left. -/
theorem nestedAt?_of_openNested (h : q.openNested m via = .ok (inner, q')) :
    q'.nestedAt? via = some inner := by
  rcases openNested_eq_ok.1 h with ⟨hinner, rfl⟩ | ⟨hnew, route, -, rfl, rfl⟩
  · exact hinner
  · exact nestedAt?_withOpened hnew

theorem changeNested_eq_ok {change : SelectQuery → Except QueryError SelectQuery} :
    q.changeNested m via change = .ok q' ↔
      ∃ inner x inner', q.openNested m via = .ok (inner, x) ∧ change inner = .ok inner' ∧
        q' = x.setNested via inner' := by
  simp only [changeNested, bind_eq_ok, pure_eq_ok, Prod.exists]
  constructor
  · rintro ⟨inner, x, hopen, inner', hinner', rfl⟩
    exact ⟨inner, x, inner', hopen, hinner', rfl⟩
  · rintro ⟨inner, x, inner', hopen, hinner', rfl⟩
    exact ⟨inner, x, hopen, inner', hinner', rfl⟩

theorem putNested_append {before after : List SelectNode} {r : Relationship}
    (hbefore : ∀ node ∈ before, node.nestedAt? via = none) (x : SelectQuery) :
    putNested via x (before ++ .nested via r inner :: after) =
      before ++ .nested via r x :: after := by
  induction before with
  | nil => simp [putNested]
  | cons node before ih =>
    rw [List.forall_mem_cons] at hbefore
    rw [List.cons_append, List.cons_append, ← ih hbefore.2]
    cases node with
    | nested path s query =>
      have hne : path ≠ via := by
        intro heq
        simp [SelectNode.nestedAt?, heq] at hbefore
      simp [putNested, hne]
    | column => rfl
    | function => rfl
    | case => rfl

/-- **One node is replaced**, and nothing else. -/
theorem exists_setNested (h : q.nestedAt? via = some inner) :
    ∃ before r after, q.nodes = before ++ .nested via r inner :: after ∧
      ∀ x, (q.setNested via x).nodes = before ++ .nested via r x :: after := by
  obtain ⟨before, node, after, hnodes, hnode, hbefore⟩ := List.findSome?_eq_some_iff.1 h
  cases node with
  | nested path r query =>
    rw [SelectNode.nestedAt?] at hnode
    split at hnode
    · rename_i heq
      subst heq
      cases hnode
      refine ⟨before, r, after, hnodes, fun x => ?_⟩
      rw [setNested, hnodes]
      exact putNested_append hbefore x
    · contradiction
  | column => contradiction
  | function => contradiction
  | case => contradiction

/-- There is a nested query at the place where a path enters it. -/
theorem nestedAt?_of_enclosing? {n : Nat} (h : q.enclosing? path = some n) :
    q.nestedAt? (path.take n) ≠ none := by
  obtain ⟨node, hmem, hnode⟩ := List.exists_of_findSome?_eq_some h
  split at hnode
  · rename_i via r query
    split at hnode
    · rename_i hcontinues
      cases hnode
      rw [Bool.and_eq_true] at hcontinues
      obtain ⟨rest, -, hsegments⟩ := Path.continues_iff.1 hcontinues.2
      have htake : path.take via.length = via := by
        rw [Path.take, hsegments, Path.length, List.take_left]
      rw [htake]
      intro hnone
      have hnot := List.findSome?_eq_none_iff.1 hnone _ hmem
      simp [SelectNode.nestedAt?] at hnot
    · contradiction
  · contradiction

/-! ## Where paths are divided -/

/-- Where a path goes on in another query: one that is nested here already, or else one behind its
first fan-out. -/
def enters? (m : Model) (q : SelectQuery) (path : Path) : Option Nat :=
  (q.enclosing? path).or (m.dividesAt? q.root path)

theorem enters?_lt (h : q.enters? m path = some n) : 0 < n ∧ n < path.length := by
  rcases Option.or_eq_some_iff.1 h with h | ⟨-, h⟩
  · exact enclosing?_lt h
  · exact Model.dividesAt?_lt h

theorem length_drop_of_enters (h : q.enters? m path = some n) :
    (path.drop n).length < path.length :=
  length_drop_lt (enters?_lt h).1 (enters?_lt h).2

/-- A query that has to be opened for it is opened at the first fan-out. -/
theorem narrowTo_enters? (h : q.enters? m path = some n)
    (hnew : q.nestedAt? (path.take n) = none) :
    q.enclosing? path = none ∧ m.NarrowTo q.root (path.take n) := by
  rcases Option.or_eq_some_iff.1 h with h | ⟨hnone, h⟩
  · exact absurd hnew (nestedAt?_of_enclosing? h)
  · exact ⟨hnone, Model.narrowTo_dividesAt? h⟩

/-- **How a relationship is included.** -/
theorem includeRelated_cases (h : q.includeRelated m path = .ok q') :
    (∃ n, q.enters? m path = some n ∧
      q.changeNested m (path.take n) (·.includeRelated m (path.drop n)) = .ok q') ∨
    (q.enters? m path = none ∧ q.includeAt m path = .ok q') := by
  rw [includeRelated] at h
  split at h
  · rename_i n henclosing
    exact .inl ⟨n, by rw [enters?, henclosing]; rfl, h⟩
  · rename_i henclosing
    obtain ⟨route, hroute, h⟩ := bind_eq_ok.1 h
    have henters : q.enters? m path =
        ((route.hops.findIdx? (·.fansOut)).map (· + 1)).filter (· < path.length) := by
      rw [enters?, henclosing, Option.none_or, Model.dividesAt?_of_route hroute]
    split at h
    · rename_i i hi
      rw [hi, Option.map_some] at henters
      split at h
      · rename_i hlt
        rw [Option.filter_some_pos (by simpa using hlt)] at henters
        exact .inl ⟨i + 1, henters, h⟩
      · rename_i hlast
        rw [Option.filter_some_neg (by simpa using hlast)] at henters
        exact .inr ⟨henters, h⟩
    · rename_i hnone
      rw [hnone] at henters
      exact .inr ⟨henters, h⟩

/-- **How a path is selected.** -/
theorem addPath_cases (h : q.addPath m path label = .ok q') :
    (∃ n, q.enters? m path = some n ∧
      q.changeNested m (path.take n) (fun x => x.addPath m (path.drop n) label) = .ok q') ∨
    (q.enters? m path = none ∧ ∃ r, m.resolve q.root path = .ok r ∧ r.crossesMany = false ∧
      q' = q.addColumn path label) ∨
    (q.enclosing? path = none ∧ (∀ r, m.resolve q.root path ≠ .ok r) ∧
      q.includeRelated m path = .ok q') := by
  rw [addPath] at h
  split at h
  · rename_i n henclosing
    exact .inl ⟨n, by rw [enters?, henclosing]; rfl, h⟩
  · rename_i henclosing
    split at h
    · rename_i r hresolve
      have henters : q.enters? m path = r.firstMany?.map (· + 1) := by
        rw [enters?, henclosing, Option.none_or, Model.dividesAt?_of_resolve hresolve]
      split at h
      · rename_i hmany
        rw [henters, hmany]
        refine .inr (.inl ⟨rfl, r, hresolve, ?_, (Except.ok.inj h).symm⟩)
        rw [Resolution.crossesMany, hmany]
        rfl
      · rename_i i hmany
        rw [henters, hmany]
        exact .inl ⟨i + 1, rfl, h⟩
    · rename_i hresolve
      refine .inr (.inr ⟨henclosing, fun r hr => ?_, h⟩)
      cases hresolve.symm.trans hr
    · contradiction

/-- **Which query is changed at a relationship path**, and what it is put back into. -/
theorem focus_cases {focus : Focus} (h : q.focus m path = .ok focus) :
    (∃ n inner x deep, m.dividesAt? q.root path = some n ∧
      q.openNested m (path.take n) = .ok (inner, x) ∧ inner.focus m (path.drop n) = .ok deep ∧
      focus = ⟨deep.inner, fun y => x.setNested (path.take n) ((deep.replace y).orAll m)⟩) ∨
    (m.dividesAt? q.root path = none ∧ ∃ inner x, q.openNested m path = .ok (inner, x) ∧
      focus = ⟨inner, fun y => x.setNested path (y.orAll m)⟩) := by
  have hhere : q.focusAt m path = .ok focus → ∃ inner x, q.openNested m path = .ok (inner, x) ∧
      focus = ⟨inner, fun y => x.setNested path (y.orAll m)⟩ := by
    intro h
    obtain ⟨⟨inner, x⟩, hopen, h⟩ := bind_eq_ok.1 h
    exact ⟨inner, x, hopen, pure_eq_ok.1 h⟩
  rw [SelectQuery.focus] at h
  obtain ⟨route, hroute, h⟩ := bind_eq_ok.1 h
  rw [Model.dividesAt?_of_route hroute]
  split at h
  · rename_i i hi
    rw [hi, Option.map_some]
    split at h
    · rename_i hlt
      obtain ⟨⟨inner, x⟩, hopen, h⟩ := bind_eq_ok.1 h
      obtain ⟨deep, hdeep, h⟩ := bind_eq_ok.1 h
      rw [Option.filter_some_pos (by simpa using hlt)]
      exact .inl ⟨i + 1, inner, x, deep, rfl, hopen, hdeep, pure_eq_ok.1 h⟩
    · rename_i hlast
      rw [Option.filter_some_neg (by simpa using hlast)]
      exact .inr ⟨rfl, hhere h⟩
  · rename_i hnone
    rw [hnone]
    exact .inr ⟨rfl, hhere h⟩

/-! ## Columns -/

theorem addColumn_cases (q : SelectQuery) (path : Path) (label : Option String) :
    q.nodes.any (·.isColumn path) = true ∧ q.addColumn path label = q ∨
      q.nodes.any (·.isColumn path) = false ∧
        q.addColumn path label = { q with nodes := q.nodes ++ [.column path label] } := by
  rw [addColumn]
  cases h : q.nodes.any (·.isColumn path) with
  | true => exact .inl ⟨rfl, rfl⟩
  | false => exact .inr ⟨rfl, rfl⟩

end SelectQuery

end EntityQuery
