import EntityQuery.Proofs.Graph.Members
import EntityQuery.Proofs.Select.Steps

/-!
# Documents and what lies in them

A nested query becomes a document at its path, and what lies below that path belongs to the
document. So a level of a selection must have no column and no other document there
(`SelectQuery.Apart`). Selecting and including a path keep to that: they go on in the document that
a path leads into, and a new document takes what lies below it.

**All columns.** The columns of the tables that are one-to-one relationships away are added to the
level without looking at its documents. So they keep to it only if none of them lies in a document
that is there already (`SelectQuery.clear`). All columns are listed on request, and for a query that
opens to be included, which may have taken documents from the query around it
(`SelectQuery.opens?`).

**Runs.** A selection is apart after a run of calls exactly if all columns were clear each time they
were listed (`apart_run`).
-/

namespace EntityQuery

open SelectQuery (isBelow rebase)

variable {m : Model}

/-- A column under no name of its own, or a nested query. -/
def SelectNode.Plain : SelectNode → Prop
  | .column _ label => label = none
  | .nested .. => True
  | .function .. | .case .. => False

/-! ## Paths -/

namespace Path

variable {path via other : Path}

theorem continues_trans (h : path.continues via = true) (h' : via.continues other = true) :
    path.continues other = true := by
  obtain ⟨rest, hne, hpath⟩ := continues_iff.1 h
  obtain ⟨rest', hne', hvia⟩ := continues_iff.1 h'
  refine continues_iff.2 ⟨rest' ++ rest, by simp [hne], ?_⟩
  rw [hpath, hvia, List.append_assoc]

theorem continues_of_take {n : Nat} (h : (path.take n).continues via = true) :
    path.continues via = true := by
  obtain ⟨rest, hne, htake⟩ := continues_iff.1 h
  refine continues_iff.2 ⟨rest ++ path.segments.drop n, by simp [hne], ?_⟩
  rw [← List.append_assoc, ← htake, take, List.take_append_drop]

theorem not_continues_self (path : Path) : path.continues path = false := by
  simp [continues]

/-- Two paths on the way to a third are on the way to each other. -/
theorem continues_total (h : path.continues via = true) (h' : path.continues other = true) :
    other = via ∨ other.continues via = true ∨ via.continues other = true := by
  obtain ⟨rest, -, hpath⟩ := continues_iff.1 h
  obtain ⟨rest', -, hpath'⟩ := continues_iff.1 h'
  obtain ⟨vs⟩ := via
  obtain ⟨os⟩ := other
  rw [hpath] at hpath'
  rcases List.append_eq_append_iff.1 hpath' with ⟨between, hbetween, -⟩ | ⟨between, hbetween, -⟩
  · rcases between with _ | ⟨a, between⟩
    · exact .inl (congrArg Path.mk (by simpa using hbetween))
    · exact .inr (.inl (continues_iff.2 ⟨a :: between, by simp, hbetween⟩))
  · rcases between with _ | ⟨a, between⟩
    · exact .inl (congrArg Path.mk (by simpa using hbetween.symm))
    · exact .inr (.inr (continues_iff.2 ⟨a :: between, by simp, hbetween⟩))

/-- Below a path the rests of two paths lie like the paths themselves. -/
theorem continues_drop (h : path.continues via = true) (h' : other.continues via = true) :
    (path.drop via.length).continues (other.drop via.length) = path.continues other := by
  obtain ⟨rest, -, hpath⟩ := continues_iff.1 h
  obtain ⟨rest', -, hother⟩ := continues_iff.1 h'
  rw [drop_eq hpath, drop_eq hother, Bool.eq_iff_iff, continues_iff, continues_iff, hpath, hother]
  simp only [List.append_assoc, List.append_cancel_left_eq]

theorem length_pos_of_continues (h : path.continues via = true) : 0 < path.length := by
  obtain ⟨rest, hne, hpath⟩ := continues_iff.1 h
  rw [length, hpath, List.length_append]
  exact Nat.lt_add_left _ (List.length_pos_iff.2 hne)

theorem length_drop_pos (h : path.continues via = true) : 0 < (path.drop via.length).length := by
  obtain ⟨rest, hne, hpath⟩ := continues_iff.1 h
  rw [drop_eq hpath]
  exact List.length_pos_iff.2 hne

end Path

namespace SelectQuery

variable {q q' x inner inner' : SelectQuery} {path via : Path} {label : Option String}
  {route : Route} {r : Relationship} {n : Nat}

/-! ## Levels -/

/-- A column or a nested query stands at the path. -/
def Has (q : SelectQuery) (path : Path) : Prop := ∃ node ∈ q.nodes, node.path? = some path

/-- A query is nested at the path. -/
def Nests (q : SelectQuery) (via : Path) : Prop := ∃ r inner, .nested via r inner ∈ q.nodes

/-- What lies at the path belongs to a nested query. -/
def Takes (q : SelectQuery) (path : Path) : Prop :=
  ∃ via, q.Nests via ∧ 0 < via.length ∧ path.continues via = true

/-- Nothing at this level belongs to a nested query of it. -/
def ApartHere (q : SelectQuery) : Prop := ∀ path, q.Has path → ¬ q.Takes path

/-- **At no level there is anything that belongs to a nested query.** -/
def Apart (q : SelectQuery) : Prop := q.Everywhere ApartHere

theorem enclosing?_eq_none : q.enclosing? path = none ↔ ¬ q.Takes path := by
  rw [enclosing?, List.findSome?_eq_none_iff]
  constructor
  · intro h htakes
    obtain ⟨via, ⟨r, inner, hnode⟩, hpos, hbelow⟩ := htakes
    simpa [hpos, hbelow] using h _ hnode
  · intro h node hnode
    split
    · rename_i via r inner
      split
      · rename_i hbelow
        rw [Bool.and_eq_true, decide_eq_true_eq] at hbelow
        exact absurd ⟨via, ⟨r, inner, hnode⟩, hbelow⟩ h
      · rfl
    · rfl

theorem nestedAt?_eq_none : q.nestedAt? via = none ↔ ¬ q.Nests via := by
  rw [nestedAt?, List.findSome?_eq_none_iff]
  constructor
  · intro h hnests
    obtain ⟨r, inner, hnode⟩ := hnests
    simpa [SelectNode.nestedAt?] using h _ hnode
  · intro h node hnode
    cases node with
    | nested path r inner =>
      rw [SelectNode.nestedAt?, if_neg]
      intro heq
      subst heq
      exact h ⟨r, inner, hnode⟩
    | column => rfl
    | function => rfl
    | case => rfl

theorem apart_iff : q.Apart ↔
    q.ApartHere ∧ ∀ path r inner, .nested path r inner ∈ q.nodes → inner.Apart :=
  everywhere_iff

/-! ## Columns -/

/-- None of all columns of the query lies in a document that it has. -/
def clear (m : Model) (q : SelectQuery) : Bool :=
  (q.eager m).all fun path => (q.enclosing? path).isNone

theorem clear_iff : q.clear m = true ↔ ∀ path ∈ q.eager m, ¬ q.Takes path := by
  simp only [clear, List.all_eq_true, Option.isNone_iff_eq_none, enclosing?_eq_none]

theorem takes_addColumn {other : Path} : (q.addColumn path label).Takes other ↔ q.Takes other := by
  rcases q.addColumn_cases path label with ⟨-, heq⟩ | ⟨-, heq⟩ <;> rw [heq]
  simp [Takes, Nests]

theorem apart_addColumn : (q.addColumn path label).Apart ↔ q.Apart ∧ ¬ q.Takes path := by
  rcases q.addColumn_cases path label with ⟨hthere, heq⟩ | ⟨hnew, heq⟩
  · rw [heq, iff_self_and]
    intro hq
    obtain ⟨node, hnode, hcolumn⟩ := List.any_eq_true.1 hthere
    refine (apart_iff.1 hq).1 path ⟨node, hnode, ?_⟩
    cases node <;> simp_all [SelectNode.isColumn, SelectNode.path?]
  · have htakes : ∀ other, (q.addColumn path label).Takes other ↔ q.Takes other :=
      fun _ => takes_addColumn
    have hhas : ∀ other, (q.addColumn path label).Has other ↔ q.Has other ∨ other = path := by
      intro other
      rw [heq, Has, Has]
      simp only [List.mem_append, List.mem_singleton, or_and_right, exists_or, exists_eq_left,
        SelectNode.path?, Option.some.injEq]
      rw [eq_comm (a := path)]
    rw [apart_iff, apart_iff, ApartHere, ApartHere]
    simp only [htakes, hhas]
    rw [heq]
    simp only [List.mem_append, List.mem_singleton, reduceCtorEq, or_false]
    constructor
    · intro h
      exact ⟨⟨fun p hp => h.1 p (.inl hp), h.2⟩, h.1 path (.inr rfl)⟩
    · intro h
      refine ⟨fun p hp => ?_, h.1.2⟩
      rcases hp with hp | rfl
      · exact h.1.1 p hp
      · exact h.2

theorem apart_addColumns {paths : List Path} :
    (paths.foldl (·.addColumn · none) q).Apart ↔ q.Apart ∧ ∀ path ∈ paths, ¬ q.Takes path := by
  induction paths generalizing q with
  | nil => simp
  | cons path paths ih =>
    rw [List.foldl_cons, ih, apart_addColumn, List.forall_mem_cons, and_assoc]
    simp only [takes_addColumn]

theorem apart_selectAll : (q.selectAll m).Apart ↔ q.Apart ∧ q.clear m = true := by
  rw [selectAll_eq, apart_addColumns, clear_iff]

/-- A query that selects nothing has no documents. -/
theorem apart_orAll : (q.orAll m).Apart ↔ q.Apart := by
  rw [orAll]
  split
  · rename_i hempty
    rw [apart_selectAll, and_iff_left]
    refine clear_iff.2 fun path _ htakes => ?_
    obtain ⟨via, ⟨r, inner, hnode⟩, -⟩ := htakes
    rw [List.isEmpty_iff.1 hempty] at hnode
    cases hnode
  · rfl

/-! ## Opening a query -/

section

variable {p : Path}

theorem isBelow_of_path? {node : SelectNode} (h : node.path? = some p) :
    isBelow via node = p.continues via := by
  rw [isBelow, h, Option.any_some]

theorem has_withOpened : (q.withOpened via r).Has p ↔
    q.Has p ∧ p.continues via = false ∨ p = via := by
  have hlast : (SelectNode.nested via r (q.openedAt via r)).path? = some p ↔ p = via := by
    simp [SelectNode.path?, eq_comm]
  rw [Has, withOpened]
  simp only [List.mem_append, List.mem_singleton, or_and_right, exists_or, exists_eq_left, hlast]
  refine or_congr_left ⟨?_, ?_⟩
  · rintro ⟨node, hnode, hp⟩
    obtain ⟨hmem, hbelow⟩ := List.mem_filter.1 hnode
    exact ⟨⟨node, hmem, hp⟩, by simpa [isBelow_of_path? hp] using hbelow⟩
  · rintro ⟨⟨node, hmem, hp⟩, hbelow⟩
    exact ⟨node, List.mem_filter.2 ⟨hmem, by simpa [isBelow_of_path? hp] using hbelow⟩, hp⟩

theorem nested_mem_withOpened {s : Relationship} :
    .nested p s inner ∈ (q.withOpened via r).nodes ↔
      .nested p s inner ∈ q.nodes ∧ p.continues via = false ∨
        p = via ∧ s = r ∧ inner = q.openedAt via r := by
  rw [withOpened, List.mem_append, List.mem_filter, List.mem_singleton, SelectNode.nested.injEq]
  simp [isBelow, SelectNode.path?]

theorem has_openedAt : (q.openedAt via r).Has p ↔
    ∃ p', q.Has p' ∧ p'.continues via = true ∧ p = p'.drop via.length := by
  have hpath : ∀ node, (rebase via node).path? = node.path?.map (·.drop via.length) := by
    intro node
    cases node <;> rfl
  constructor
  · rintro ⟨_, hrebased, hp⟩
    obtain ⟨node, hnode, rfl⟩ := List.mem_map.1 hrebased
    obtain ⟨hmem, hbelow⟩ := List.mem_filter.1 hnode
    rw [hpath, Option.map_eq_some_iff] at hp
    obtain ⟨p', hp', rfl⟩ := hp
    exact ⟨p', ⟨node, hmem, hp'⟩, isBelow_of_path? hp' ▸ hbelow, rfl⟩
  · rintro ⟨p', ⟨node, hmem, hp'⟩, hbelow, rfl⟩
    refine ⟨_, List.mem_map_of_mem (List.mem_filter.2 ⟨hmem, ?_⟩), ?_⟩
    · rw [isBelow_of_path? hp', hbelow]
    · rw [hpath, hp', Option.map_some]

theorem nested_mem_openedAt {s : Relationship} :
    .nested p s inner ∈ (q.openedAt via r).nodes ↔
      ∃ p', .nested p' s inner ∈ q.nodes ∧ p'.continues via = true ∧ p = p'.drop via.length := by
  constructor
  · exact nested_of_mem_openedAt
  · rintro ⟨p', hmem, hbelow, rfl⟩
    refine List.mem_map.2 ⟨_, List.mem_filter.2 ⟨hmem, ?_⟩, rfl⟩
    rw [isBelow, SelectNode.path?, Option.any_some, hbelow]

theorem nests_withOpened : (q.withOpened via r).Nests p ↔
    q.Nests p ∧ p.continues via = false ∨ p = via := by
  simp only [Nests, nested_mem_withOpened]
  constructor
  · rintro ⟨s, inner, ⟨hmem, hbelow⟩ | ⟨rfl, -⟩⟩
    · exact .inl ⟨⟨s, inner, hmem⟩, hbelow⟩
    · exact .inr rfl
  · rintro (⟨⟨s, inner, hmem⟩, hbelow⟩ | rfl)
    · exact ⟨s, inner, .inl ⟨hmem, hbelow⟩⟩
    · exact ⟨r, _, .inr ⟨rfl, rfl, rfl⟩⟩

theorem nests_openedAt : (q.openedAt via r).Nests p ↔
    ∃ p', q.Nests p' ∧ p'.continues via = true ∧ p = p'.drop via.length := by
  simp only [Nests, nested_mem_openedAt]
  constructor
  · rintro ⟨s, inner, p', hmem, hbelow, rfl⟩
    exact ⟨p', ⟨s, inner, hmem⟩, hbelow, rfl⟩
  · rintro ⟨p', ⟨s, inner, hmem⟩, hbelow, rfl⟩
    exact ⟨s, inner, p', hmem, hbelow, rfl⟩

end

theorem ApartHere.withOpened (h : q.ApartHere) (hvia : ¬ q.Takes via) :
    (q.withOpened via r).ApartHere := by
  intro p hp htakes
  obtain ⟨v, hv, hpos, hbelow⟩ := htakes
  rcases has_withOpened.1 hp with ⟨hp, hout⟩ | rfl
  · rcases nests_withOpened.1 hv with ⟨hv, -⟩ | rfl
    · exact h p hp ⟨v, hv, hpos, hbelow⟩
    · cases hout.symm.trans hbelow
  · rcases nests_withOpened.1 hv with ⟨hv, -⟩ | rfl
    · exact hvia ⟨v, hv, hpos, hbelow⟩
    · cases (Path.not_continues_self v).symm.trans hbelow

theorem ApartHere.openedAt (h : q.ApartHere) : (q.openedAt via r).ApartHere := by
  intro p hp htakes
  obtain ⟨v, hv, -, hbelow⟩ := htakes
  obtain ⟨p', hp', hbelowp, rfl⟩ := has_openedAt.1 hp
  obtain ⟨v', hv', hbelowv, rfl⟩ := nests_openedAt.1 hv
  rw [Path.continues_drop hbelowp hbelowv] at hbelow
  exact h p' hp' ⟨v', hv', Path.length_pos_of_continues hbelowv, hbelow⟩

/-- What belongs to a query that opens is taken by it, so nothing was in another one before. -/
theorem apartHere_of_opened (hnew : ¬ q.Nests via) (hvia : ¬ q.Takes via)
    (houter : (q.withOpened via r).ApartHere) (hinner : (q.openedAt via r).ApartHere) :
    q.ApartHere := by
  intro p hp htakes
  obtain ⟨v, hv, hpos, hbelow⟩ := htakes
  cases hvvia : v.continues via with
  | true =>
    -- Both are taken.
    have hpvia := Path.continues_trans hbelow hvvia
    refine hinner _ (has_openedAt.2 ⟨p, hp, hpvia, rfl⟩)
      ⟨_, nests_openedAt.2 ⟨v, hv, hvvia, rfl⟩, Path.length_drop_pos hvvia, ?_⟩
    rw [Path.continues_drop hpvia hvvia, hbelow]
  | false =>
    cases hpvia : p.continues via with
    | true =>
      -- Then the document is at the new one or around it.
      rcases Path.continues_total hpvia hbelow with rfl | hv' | hv'
      · exact hnew hv
      · cases hvvia.symm.trans hv'
      · exact hvia ⟨v, hv, hpos, hv'⟩
    | false =>
      exact houter p (has_withOpened.2 (.inl ⟨hp, hpvia⟩))
        ⟨v, nests_withOpened.2 (.inl ⟨hv, hvvia⟩), hpos, hbelow⟩

/-- **Opening a query** keeps to it, and covers nothing up. -/
theorem apart_withOpened (hnew : ¬ q.Nests via) (hvia : ¬ q.Takes via) :
    (q.withOpened via r).Apart ↔ q.Apart := by
  rw [apart_iff, apart_iff (q := q)]
  simp only [nested_mem_withOpened]
  constructor
  · rintro ⟨houter, hnested⟩
    obtain ⟨hinner, hnested'⟩ := apart_iff.1 (hnested via r _ (.inr ⟨rfl, rfl, rfl⟩))
    refine ⟨apartHere_of_opened hnew hvia houter hinner, fun p s inner hmem => ?_⟩
    cases hbelow : p.continues via with
    | true => exact hnested' _ s inner (nested_mem_openedAt.2 ⟨p, hmem, hbelow, rfl⟩)
    | false => exact hnested p s inner (.inl ⟨hmem, hbelow⟩)
  · rintro ⟨hhere, hnested⟩
    refine ⟨hhere.withOpened hvia, ?_⟩
    rintro p s inner (⟨hmem, -⟩ | ⟨rfl, rfl, rfl⟩)
    · exact hnested p s inner hmem
    · refine apart_iff.2 ⟨hhere.openedAt, fun p s inner hmem => ?_⟩
      obtain ⟨p', hmem, -⟩ := nested_mem_openedAt.1 hmem
      exact hnested p' s inner hmem

theorem apart_openNested (h : q.openNested m via = .ok (inner, q'))
    (hvia : q.nestedAt? via = none → ¬ q.Takes via) : q'.Apart ↔ q.Apart := by
  rcases openNested_eq_ok.1 h with ⟨-, rfl⟩ | ⟨hnew, route, -, -, rfl⟩
  · rfl
  · exact apart_withOpened (nestedAt?_eq_none.1 hnew) (hvia hnew)

/-! ## Changing a query -/

/-- What is around a nested query does not change with it. -/
theorem exists_apart_setNested (h : q.nestedAt? via = some inner) :
    ∃ around : Prop, (q.Apart ↔ around ∧ inner.Apart) ∧
      ∀ x, (q.setNested via x).Apart ↔ around ∧ x.Apart := by
  obtain ⟨before, r, after, hnodes, hset⟩ := exists_setNested h
  have hhere : ∀ x, (q.setNested via x).ApartHere ↔ q.ApartHere := by
    intro x
    have hhas : ∀ p, (q.setNested via x).Has p ↔ q.Has p := by
      intro p
      rw [Has, Has, hset, hnodes]
      simp [SelectNode.path?, or_and_right, exists_or]
    have htakes : ∀ p, (q.setNested via x).Takes p ↔ q.Takes p := by
      intro p
      simp only [Takes, Nests]
      rw [hset, hnodes]
      simp [exists_or]
    simp only [ApartHere, hhas, htakes]
  have hall : ∀ x, (∀ p s y, .nested p s y ∈ before ++ .nested via r x :: after → y.Apart) ↔
      (∀ p s y, .nested p s y ∈ before ++ after → y.Apart) ∧ x.Apart := by
    intro x
    simp only [List.mem_append, List.mem_cons]
    constructor
    · intro hy
      exact ⟨fun p s y hmem => hy p s y (hmem.imp_right .inr), hy via r x (.inr (.inl rfl))⟩
    · rintro ⟨hy, hx⟩ p s y (hmem | hmem | hmem)
      · exact hy p s y (.inl hmem)
      · cases hmem
        exact hx
      · exact hy p s y (.inr hmem)
  refine ⟨q.ApartHere ∧ ∀ p s y, .nested p s y ∈ before ++ after → y.Apart, ?_, fun x => ?_⟩
  · rw [apart_iff, hnodes, hall, and_assoc]
  · rw [apart_iff, hhere, hset, hall, and_assoc]

/-- A change that makes a nested query apart under a condition does the same to the query around
it. -/
theorem apart_changeNested {change : SelectQuery → Except QueryError SelectQuery} {c : Prop}
    (h : q.changeNested m via change = .ok q') (hvia : q.nestedAt? via = none → ¬ q.Takes via)
    (hchange : ∀ inner x inner', q.openNested m via = .ok (inner, x) → change inner = .ok inner' →
      (inner'.Apart ↔ inner.Apart ∧ c)) : q'.Apart ↔ q.Apart ∧ c := by
  obtain ⟨inner, x, inner', hopen, hinner', rfl⟩ := changeNested_eq_ok.1 h
  obtain ⟨around, hx, hset⟩ := exists_apart_setNested (nestedAt?_of_openNested hopen)
  rw [hset, hchange inner x inner' hopen hinner', ← apart_openNested hopen hvia, hx, and_assoc]

/-! ## Paths -/

/-- The query that has to be opened for a path, at the level where the path ends. -/
def opens? (m : Model) (q : SelectQuery) (path : Path) : Option SelectQuery :=
  match _h : q.enters? m path with
  | some n =>
    match q.openNested m (path.take n) with
    | .ok (inner, _) => inner.opens? m (path.drop n)
    | .error _ => none
  | none =>
    match q.nestedAt? path, m.resolveRelationship q.root path with
    | none, .ok route => some (q.openedAt path route.last)
    | _, _ => none
termination_by path.length
decreasing_by exact length_drop_lt (enters?_lt _h).1 (enters?_lt _h).2

/-- All columns of the query that has to be opened for a path are clear. -/
def clearAt (m : Model) (q : SelectQuery) (path : Path) : Bool := (q.opens? m path).all (·.clear m)

theorem clearAt_of_enters (henters : q.enters? m path = some n)
    (hopen : q.openNested m (path.take n) = .ok (inner, x)) :
    q.clearAt m path = inner.clearAt m (path.drop n) := by
  rw [clearAt, opens?]
  split
  · rename_i n' henters'
    cases henters.symm.trans henters'
    rw [hopen]
    rfl
  · rename_i henters'
    cases henters.symm.trans henters'

theorem opens?_of_not_enters (henters : q.enters? m path = none) :
    q.opens? m path = match q.nestedAt? path, m.resolveRelationship q.root path with
      | none, .ok route => some (q.openedAt path route.last)
      | _, _ => none := by
  rw [opens?]
  split
  · rename_i n' henters'
    cases henters.symm.trans henters'
  · rfl

/-- A query that opens on the way of a path lies in no other one. -/
theorem not_takes_of_enters (henters : q.enters? m path = some n)
    (hnew : q.nestedAt? (path.take n) = none) : ¬ q.Takes (path.take n) := by
  intro htakes
  obtain ⟨via, hvia, hpos, hbelow⟩ := htakes
  exact enclosing?_eq_none.1 (narrowTo_enters? henters hnew).1
    ⟨via, hvia, hpos, Path.continues_of_take hbelow⟩

theorem apart_includeAt (henters : q.enters? m path = none) (h : q.includeAt m path = .ok q') :
    q'.Apart ↔ q.Apart ∧ q.clearAt m path = true := by
  have hvia : ¬ q.Takes path := enclosing?_eq_none.1 (Option.or_eq_none_iff.1 henters).1
  refine apart_changeNested h (fun _ => hvia) fun inner x inner' hopen hinner' => ?_
  cases hinner'
  rw [clearAt, opens?_of_not_enters henters]
  rcases openNested_eq_ok.1 hopen with ⟨hinner, -⟩ | ⟨hnew, route, hroute, rfl, -⟩
  · simp [hinner, apart_orAll]
  · simp [hnew, hroute, apart_selectAll]

/-- **Including a relationship** keeps to it if all columns of what opens are clear. -/
theorem apart_includeRelated (h : q.includeRelated m path = .ok q') :
    q'.Apart ↔ q.Apart ∧ q.clearAt m path = true := by
  induction hn : path.length using Nat.strongRecOn generalizing q q' path with
  | ind k ih =>
    subst hn
    rcases includeRelated_cases h with ⟨n, henters, h⟩ | ⟨henters, h⟩
    · have hlt := length_drop_of_enters henters
      refine apart_changeNested h (not_takes_of_enters henters) fun inner x inner' hopen h' => ?_
      rw [clearAt_of_enters henters hopen]
      exact ih _ hlt h' rfl
    · exact apart_includeAt henters h

/-- Every level stands at a position of the model. -/
def Covered (m : Model) (q : SelectQuery) : Prop := q.Everywhere fun y => m.Covers y.root

theorem Covered.openNested (h : q.Covered m) (hopen : q.openNested m via = .ok (inner, x)) :
    inner.Covered m := by
  rcases openNested_eq_ok.1 hopen with ⟨hinner, -⟩ | ⟨-, route, hroute, rfl, -⟩
  · obtain ⟨before, r, after, hnodes, -⟩ := exists_setNested hinner
    refine (everywhere_iff.1 h).2 via r inner ?_
    rw [hnodes]
    exact List.mem_append_right before List.mem_cons_self
  · exact Everywhere.openedAt h (Model.walk_of_resolveRelationship hroute).2.covers_child

/-- The path of a column opens nothing. -/
theorem clearAt_column (hm : m.Unambiguous) (hroot : m.Covers q.root)
    (henters : q.enters? m path = none) {r : Resolution} (h : m.resolve q.root path = .ok r) :
    q.clearAt m path = true := by
  rw [clearAt, opens?_of_not_enters henters]
  split
  · rename_i route hroute
    have hwalk := Model.resolveRelationship_eq_ok hroute
    rw [hm.walk?_eq_none hroot h] at hwalk
    cases hwalk
  · rfl

/-- **Selecting a path** does so too. -/
theorem apart_addPath (hm : m.Unambiguous) (hq : q.Covered m)
    (h : q.addPath m path label = .ok q') : q'.Apart ↔ q.Apart ∧ q.clearAt m path = true := by
  induction hn : path.length using Nat.strongRecOn generalizing q q' path with
  | ind k ih =>
    subst hn
    rcases addPath_cases h with ⟨n, henters, h⟩ | ⟨henters, r, hresolve, -, rfl⟩ | ⟨-, -, h⟩
    · have hlt := length_drop_of_enters henters
      refine apart_changeNested h (not_takes_of_enters henters) fun inner x inner' hopen h' => ?_
      rw [clearAt_of_enters henters hopen]
      exact ih _ hlt (hq.openNested hopen) h' rfl
    · have hvia : ¬ q.Takes path := enclosing?_eq_none.1 (Option.or_eq_none_iff.1 henters).1
      rw [apart_addColumn, clearAt_column hm (everywhere_iff.1 hq).1 henters hresolve]
      simp [hvia]
    · exact apart_includeRelated h

/-! ## Runs -/

/-- The calls that select paths under no names of their own. -/
inductive Call where
  | select (path : Path)
  | includeRelated (path : Path)
  | selectAll

def Call.apply (m : Model) (q : SelectQuery) : Call → Except QueryError SelectQuery
  | select path => q.select m path
  | includeRelated path => q.includeRelated m path
  | selectAll => .ok (q.selectAll m)

/-- Where the call lists all columns, they are clear. -/
def Call.clear (m : Model) (q : SelectQuery) : Call → Bool
  | select path | includeRelated path => q.clearAt m path
  | selectAll => q.clear m

/-- The query after a sequence of calls. -/
def run (m : Model) (q : SelectQuery) (calls : List Call) : Except QueryError SelectQuery :=
  calls.foldlM (Call.apply m) q

/-- Each time all columns are listed, they are clear. -/
def clearRun (m : Model) : SelectQuery → List Call → Bool
  | _, [] => true
  | q, call :: calls => call.clear m q && match call.apply m q with
    | .ok q' => q'.clearRun m calls
    | .error _ => true

theorem run_cons {call : Call} {calls : List Call} (h : q.run m (call :: calls) = .ok q') :
    ∃ x, call.apply m q = .ok x ∧ x.run m calls = .ok q' := by
  rw [run, List.foldlM_cons] at h
  exact bind_eq_ok.1 h

/-- **A property of queries that every call keeps holds after a run.** -/
theorem run_induction {I : SelectQuery → Prop} {calls : List Call}
    (hstep : ∀ call x x', Call.apply m x call = .ok x' → I x → I x') (h : q.run m calls = .ok q')
    (hq : I q) : I q' := by
  induction calls generalizing q with
  | nil =>
    cases h
    exact hq
  | cons call calls ih =>
    obtain ⟨x, hx, hrest⟩ := run_cons h
    exact ih hrest (hstep call q x hx hq)

theorem Placed.call {P : Table → Prop} {t : Table} {call : Call} (h : q.Placed m P t)
    (hq : call.apply m q = .ok q') : q'.Placed m P t := by
  cases call with
  | select path => exact h.addPath hq
  | includeRelated path => exact h.includeRelated hq
  | selectAll =>
    cases hq
    exact h.selectAll

/-- The calls add columns only, and those under no names of their own. -/
theorem Call.steps {call : Call} (h : call.apply m q = .ok q') : Steps m SelectNode.Plain q q' := by
  have hplain : ∀ path, SelectNode.Plain (.column path none) := fun _ => rfl
  cases call with
  | select path => exact steps_addPath hplain hplain h
  | includeRelated path => exact steps_includeRelated hplain h
  | selectAll =>
    cases h
    exact steps_selectAll hplain m q

theorem kept_covers (m : Model) (A : SelectNode → Prop) : Kept m A fun y => m.Covers y.root where
  column := fun h _ _ _ => h
  value := fun h _ _ => h
  opened := fun h _ hroute _ =>
    ⟨h, (Model.walk_of_resolveRelationship hroute).2.covers_child⟩
  inside := fun h _ _ => h
  other := fun h hroot _ => hroot ▸ h

theorem Call.apart {call : Call} (hm : m.Unambiguous) (hq : q.Covered m)
    (h : call.apply m q = .ok q') : q'.Apart ↔ q.Apart ∧ call.clear m q = true := by
  cases call with
  | select path => exact apart_addPath hm hq h
  | includeRelated path => exact apart_includeRelated h
  | selectAll =>
    cases h
    exact apart_selectAll

/-- **A selection is apart after a run exactly if all columns were clear each time.** -/
theorem apart_run {calls : List Call} (hm : m.Unambiguous) (hq : q.Covered m)
    (h : q.run m calls = .ok q') : q'.Apart ↔ q.Apart ∧ q.clearRun m calls = true := by
  induction calls generalizing q with
  | nil =>
    cases h
    simp [clearRun]
  | cons call calls ih =>
    obtain ⟨x, hx, hrest⟩ := run_cons h
    have hcovered : x.Covered m := (Call.steps hx).everywhere (kept_covers m _) hq
    rw [ih hcovered hrest, Call.apart hm hq hx, clearRun, hx, Bool.and_eq_true, and_assoc]

end SelectQuery

end EntityQuery
