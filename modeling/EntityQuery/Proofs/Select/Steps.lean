import EntityQuery.Proofs.Select.Built

/-!
# Steps of building a selection

The operations on selections take a path apart, go down into nested queries, open new ones and move
nodes into them. What they do to the tree of queries in the end is put together from few kinds of
steps (`SelectQuery.Steps`): a column is added that is not there, a query is opened at a
relationship and takes what lies below it, and a nested query is changed by steps of its own. The
columns and values that are added may be restricted to those with a property.

There is one lemma for each operation that takes a path; `Builds.steps` puts them together.

**Levels.** What holds at every level of a query and is kept by the steps at one level is kept by
every operation (`Steps.everywhere`).
-/

namespace EntityQuery

open SelectQuery (eagerPaths)

variable {m : Model} {P : Table → Prop} {A : SelectNode → Prop}

namespace SelectQuery

variable {q q' x inner inner' : SelectQuery} {path via : Path} {label : Option String}
  {route : Route} {n : Nat}

/-! ## Columns -/

/-- The columns that a selection of all columns adds. -/
def eager (m : Model) (q : SelectQuery) : List Path :=
  eagerPaths m q.eagerDepth (q.ancestors ++ [q.root.entity.name]) q.root Path.empty

theorem selectAll_eq (m : Model) (q : SelectQuery) :
    q.selectAll m = (q.eager m).foldl (·.addColumn · none) q := rfl

/-- A column that may be added: one that does not fan out, or one of all columns. -/
def Lists (m : Model) (q : SelectQuery) (path : Path) : Prop :=
  (∃ r, m.resolve q.root path = .ok r ∧ r.crossesMany = false) ∨ path ∈ q.eager m

theorem eager_addColumn (q : SelectQuery) (path : Path) (label : Option String) :
    (q.addColumn path label).eager m = q.eager m := by
  rcases q.addColumn_cases path label with ⟨-, heq⟩ | ⟨-, heq⟩
  · rw [heq]
  · rw [heq]
    rfl

/-! ## Steps -/

/-- The second query is made of the first by steps that add columns and values with the property. -/
inductive Steps (m : Model) (A : SelectNode → Prop) : SelectQuery → SelectQuery → Prop
  | refl (q : SelectQuery) : Steps m A q q
  | trans {q x y : SelectQuery} (h : Steps m A q x) (h' : Steps m A x y) : Steps m A q y
  /-- A column is added that is not there. -/
  | column {q : SelectQuery} {path : Path} {label : Option String} (hA : A (.column path label))
    (hnew : q.nodes.any (·.isColumn path) = false) (hpath : q.Lists m path) :
    Steps m A q { q with nodes := q.nodes ++ [.column path label] }
  /-- A function or a CASE is added. -/
  | value {q : SelectQuery} {node : SelectNode} (hA : A node) (hnode : node.path? = none) :
    Steps m A q { q with nodes := q.nodes ++ [node] }
  /-- A query opens at a relationship that fans out at most at its end. -/
  | opened {q : SelectQuery} {via : Path} {route : Route} (hnew : q.nestedAt? via = none)
    (hroute : m.resolveRelationship q.root via = .ok route)
    (hone : ∀ r ∈ route.before, r.fansOut = false) : Steps m A q (q.withOpened via route.last)
  /-- A nested query is changed by steps of its own. -/
  | inside {q inner inner' : SelectQuery} {via : Path} (hinner : q.nestedAt? via = some inner)
    (h : Steps m A inner inner') : Steps m A q (q.setNested via inner')
  /-- Anything but the table and the nodes is changed. -/
  | other {q q' : SelectQuery} (hroot : q'.root = q.root) (hnodes : q'.nodes = q.nodes) :
    Steps m A q q'

theorem Steps.root (h : Steps m A q q') : q'.root = q.root := by
  induction h with
  | refl => rfl
  | trans _ _ ih ih' => exact ih'.trans ih
  | column => rfl
  | value => rfl
  | opened => rfl
  | inside => rfl
  | other hroot _ => exact hroot

theorem steps_addColumn (hpath : q.Lists m path) (hA : A (.column path label)) :
    Steps m A q (q.addColumn path label) := by
  rcases q.addColumn_cases path label with ⟨-, heq⟩ | ⟨hnew, heq⟩
  · rw [heq]
    exact .refl q
  · rw [heq]
    exact .column hA hnew hpath

theorem steps_addColumns (hA : ∀ path, A (.column path none)) {paths : List Path}
    (h : ∀ path ∈ paths, path ∈ q.eager m) :
    Steps m A q (paths.foldl (·.addColumn · none) q) := by
  induction paths generalizing q with
  | nil => exact .refl q
  | cons path paths ih =>
    rw [List.forall_mem_cons] at h
    refine .trans (steps_addColumn (.inr h.1) (hA path)) (ih ?_)
    rw [eager_addColumn]
    exact h.2

theorem steps_selectAll (hA : ∀ path, A (.column path none)) (m : Model) (q : SelectQuery) :
    Steps m A q (q.selectAll m) :=
  steps_addColumns hA fun _ => id

theorem steps_orAll (hA : ∀ path, A (.column path none)) (m : Model) (q : SelectQuery) :
    Steps m A q (q.orAll m) := by
  rw [orAll]
  split
  · exact steps_selectAll hA m q
  · exact .refl q

theorem steps_openNested (h : q.openNested m via = .ok (inner, q'))
    (hvia : q.nestedAt? via = none → m.NarrowTo q.root via) : Steps m A q q' := by
  rcases openNested_eq_ok.1 h with ⟨-, rfl⟩ | ⟨hnew, route, hroute, -, rfl⟩
  · exact .refl _
  · exact .opened hnew hroute (hvia hnew route hroute)

theorem steps_changeNested {change : SelectQuery → Except QueryError SelectQuery}
    (h : q.changeNested m via change = .ok q')
    (hvia : q.nestedAt? via = none → m.NarrowTo q.root via)
    (hchange : ∀ x x', change x = .ok x' → Steps m A x x') : Steps m A q q' := by
  obtain ⟨inner, x, inner', hopen, hinner', rfl⟩ := changeNested_eq_ok.1 h
  exact .trans (steps_openNested hopen hvia)
    (.inside (nestedAt?_of_openNested hopen) (hchange inner inner' hinner'))

theorem steps_includeAt (hA : ∀ path, A (.column path none)) (h : q.includeAt m via = .ok q')
    (hvia : q.nestedAt? via = none → m.NarrowTo q.root via) : Steps m A q q' := by
  refine steps_changeNested h hvia fun x x' hx => ?_
  cases hx
  split
  · exact steps_selectAll hA m x
  · exact steps_orAll hA m x

theorem steps_includeRelated (hA : ∀ path, A (.column path none))
    (h : q.includeRelated m path = .ok q') : Steps m A q q' := by
  induction hn : path.length using Nat.strongRecOn generalizing q q' path with
  | ind k ih =>
    subst hn
    rcases includeRelated_cases h with ⟨n, henters, h⟩ | ⟨henters, h⟩
    · have hlt := length_drop_of_enters henters
      exact steps_changeNested h (fun hnew => (narrowTo_enters? henters hnew).2)
        fun x x' hx => ih _ hlt hx rfl
    · exact steps_includeAt hA h fun _ =>
        Model.narrowTo_of_dividesAt?_eq_none (Option.or_eq_none_iff.1 henters).2

theorem steps_addPath (hA : ∀ path, A (.column path none)) (hlabel : ∀ path, A (.column path label))
    (h : q.addPath m path label = .ok q') : Steps m A q q' := by
  induction hn : path.length using Nat.strongRecOn generalizing q q' path with
  | ind k ih =>
    subst hn
    rcases addPath_cases h with ⟨n, henters, h⟩ | ⟨-, r, hresolve, hone, rfl⟩ | ⟨-, -, h⟩
    · have hlt := length_drop_of_enters henters
      exact steps_changeNested h (fun hnew => (narrowTo_enters? henters hnew).2)
        fun x x' hx => ih _ hlt hx rfl
    · exact steps_addColumn (.inl ⟨r, hresolve, hone⟩) (hlabel path)
    · exact steps_includeRelated hA h

/-- Whatever the inner query becomes by steps, it may be put back. -/
theorem steps_focus (hA : ∀ path, A (.column path none)) {focus : Focus}
    (h : q.focus m path = .ok focus) (hinner : Steps m A focus.inner inner') :
    Steps m A q (focus.replace inner') := by
  induction hn : path.length using Nat.strongRecOn generalizing q focus path with
  | ind k ih =>
    subst hn
    rcases focus_cases h with ⟨n, inner, x, deep, hdivides, hopen, hdeep, rfl⟩ |
      ⟨hdivides, inner, x, hopen, rfl⟩
    · have hlt := length_drop_lt (Model.dividesAt?_lt hdivides).1 (Model.dividesAt?_lt hdivides).2
      have hback := ih _ hlt hdeep hinner rfl
      exact .trans (steps_openNested hopen fun _ => Model.narrowTo_dividesAt? hdivides)
        (.inside (nestedAt?_of_openNested hopen) (hback.trans (steps_orAll hA m _)))
    · exact .trans
        (steps_openNested hopen fun _ => Model.narrowTo_of_dividesAt?_eq_none hdivides)
        (.inside (nestedAt?_of_openNested hopen) (hinner.trans (steps_orAll hA m _)))

/-- **Every operation is a sequence of steps.** -/
theorem Builds.steps (h : Builds m P q q') : Steps m (fun _ => True) q q' := by
  have hA : Path → True := fun _ => ⟨⟩
  induction h with
  | refl => exact .refl _
  | select _ hx ih => exact ih.trans (steps_addPath hA hA hx)
  | selectAs _ hx ih =>
    obtain ⟨-, -, hx⟩ := bind_eq_ok.1 hx
    exact ih.trans (steps_addPath hA hA hx)
  | includeRelated _ hx ih => exact ih.trans (steps_includeRelated hA hx)
  | selectAll _ ih => exact ih.trans (steps_selectAll hA m _)
  | function _ hx ih =>
    obtain ⟨-, -, hx⟩ := bind_eq_ok.1 hx
    cases hx
    exact ih.trans (.value ⟨⟩ rfl)
  | case _ _ hx ih =>
    obtain ⟨-, -, hx⟩ := bind_eq_ok.1 hx
    cases hx
    exact ih.trans (.value ⟨⟩ rfl)
  | filter _ _ hx ih =>
    obtain ⟨-, -, hx⟩ := bind_eq_ok.1 hx
    cases hx
    exact ih.trans (.other rfl rfl)
  | order _ hx ih =>
    obtain ⟨-, -, hx⟩ := bind_eq_ok.1 hx
    cases hx
    exact ih.trans (.other rfl rfl)
  | paging _ hx ih =>
    rw [withPaging_eq_ok hx]
    exact ih.trans (.other rfl rfl)
  | distinct _ _ ih => exact ih.trans (.other rfl rfl)
  | eagerDepth _ _ ih => exact ih.trans (.other rfl rfl)
  | nested _ hx _ ih ihInner => exact ih.trans (steps_focus hA hx ihInner)

/-! ## Levels -/

/-- The second query is the first, or nested in it at some depth. -/
inductive Contains : SelectQuery → SelectQuery → Prop
  | here (q : SelectQuery) : Contains q q
  | nested {q inner y : SelectQuery} {path : Path} {r : Relationship}
    (hnode : .nested path r inner ∈ q.nodes) (h : Contains inner y) : Contains q y

/-- The property holds at every level of the query. -/
def Everywhere (I : SelectQuery → Prop) (q : SelectQuery) : Prop := ∀ y, q.Contains y → I y

variable {I : SelectQuery → Prop}

theorem everywhere_iff : q.Everywhere I ↔
    I q ∧ ∀ path r inner, .nested path r inner ∈ q.nodes → inner.Everywhere I := by
  constructor
  · intro h
    exact ⟨h q (.here q), fun path r inner hnode y hy => h y (.nested hnode hy)⟩
  · rintro ⟨hq, hnested⟩ y (_ | ⟨hnode, hy⟩)
    · exact hq
    · exact hnested _ _ _ hnode y hy

theorem everywhere_ofTable {t : Table} (h : I (ofTable t)) : (ofTable t).Everywhere I :=
  everywhere_iff.2 ⟨h, by simp [ofTable]⟩

/-- A step at a level keeps the property, there and in a query that it opens. -/
structure Kept (m : Model) (A : SelectNode → Prop) (I : SelectQuery → Prop) : Prop where
  column : ∀ {q : SelectQuery} {path : Path} {label : Option String}, I q → A (.column path label) →
    q.nodes.any (·.isColumn path) = false → q.Lists m path →
    I { q with nodes := q.nodes ++ [.column path label] }
  value : ∀ {q : SelectQuery} {node : SelectNode}, I q → A node → node.path? = none →
    I { q with nodes := q.nodes ++ [node] }
  opened : ∀ {q : SelectQuery} {via : Path} {route : Route}, I q → q.nestedAt? via = none →
    m.resolveRelationship q.root via = .ok route → (∀ r ∈ route.before, r.fansOut = false) →
    I (q.withOpened via route.last) ∧ I (q.openedAt via route.last)
  /-- The nested query that is replaced keeps its table. -/
  inside : ∀ {q inner inner' : SelectQuery} {via : Path}, I q → q.nestedAt? via = some inner →
    inner'.root = inner.root → I (q.setNested via inner')
  other : ∀ {q q' : SelectQuery}, I q → q'.root = q.root → q'.nodes = q.nodes → I q'

theorem Everywhere.openedAt {r : Relationship} (h : q.Everywhere I) (hI : I (q.openedAt via r)) :
    (q.openedAt via r).Everywhere I := by
  refine everywhere_iff.2 ⟨hI, fun path s inner hnode => ?_⟩
  obtain ⟨p, hmem, -⟩ := nested_of_mem_openedAt hnode
  exact (everywhere_iff.1 h).2 p s inner hmem

/-- **What steps keep at one level, they keep everywhere.** -/
theorem Steps.everywhere (hI : Kept m A I) (h : Steps m A q q') (hq : q.Everywhere I) :
    q'.Everywhere I := by
  induction h with
  | refl => exact hq
  | trans _ _ ih ih' => exact ih' (ih hq)
  | column hA hnew hpath =>
    obtain ⟨hlevel, hnested⟩ := everywhere_iff.1 hq
    refine everywhere_iff.2 ⟨hI.column hlevel hA hnew hpath, fun path r inner hnode => ?_⟩
    exact hnested path r inner (by simpa using hnode)
  | value hA hnode =>
    obtain ⟨hlevel, hnested⟩ := everywhere_iff.1 hq
    refine everywhere_iff.2 ⟨hI.value hlevel hA hnode, fun path r inner hmem => ?_⟩
    rcases List.mem_append.1 hmem with hmem | hmem
    · exact hnested path r inner hmem
    · rw [← List.mem_singleton.1 hmem] at hnode
      cases hnode
  | opened hnew hroute hone =>
    obtain ⟨hlevel, hnested⟩ := everywhere_iff.1 hq
    obtain ⟨houter, hinner⟩ := hI.opened hlevel hnew hroute hone
    refine everywhere_iff.2 ⟨houter, fun path r inner hmem => ?_⟩
    rcases List.mem_append.1 hmem with hmem | hmem
    · exact hnested path r inner (List.mem_filter.1 hmem).1
    · cases List.mem_singleton.1 hmem
      exact hq.openedAt hinner
  | inside hinner h ih =>
    obtain ⟨hlevel, hnested⟩ := everywhere_iff.1 hq
    obtain ⟨before, r, after, hnodes, hset⟩ := exists_setNested hinner
    have hold := hnested _ r _ (hnodes ▸ List.mem_append_right before List.mem_cons_self)
    refine everywhere_iff.2 ⟨hI.inside hlevel hinner h.root, fun path s x hmem => ?_⟩
    rw [hset, List.mem_append, List.mem_cons] at hmem
    rcases hmem with hmem | hmem | hmem
    · exact hnested path s x (by rw [hnodes]; simp [hmem])
    · cases hmem
      exact ih hold
    · exact hnested path s x (by rw [hnodes]; simp [hmem])
  | other hroot hnodes =>
    obtain ⟨hlevel, hnested⟩ := everywhere_iff.1 hq
    exact everywhere_iff.2 ⟨hI.other hlevel hroot hnodes, hnodes ▸ hnested⟩

end SelectQuery

end EntityQuery
