import EntityQuery.Graph.Resolution

/-!
# Walks through a model

What a successful look-up says about the graph. A relationship *of* a position is one that the
model unfolds there (`Model.Relates`); it starts at the position, and its joins carry the aliases
of the tables they lead to. Paths resolve to walks, in which every relationship starts where the
one before it ends (`Model.Walk`).

A walk along a path that fans out at most in its last member has no other relationship that fans
out (`fansOut_dropLast`).
-/

namespace EntityQuery

variable {m : Model} {t : Table} {r : Relationship}

/-- The entity of the position is one of the model's. -/
def Model.Covers (m : Model) (t : Table) : Prop := t.entity ∈ m.entities

namespace Model

section

variable (m : Model) (t : Table) (rel : Relation) (target : Entity)

theorem member_unfold : (m.unfold t rel target).member = rel.member := by
  rw [unfold]
  split <;> rfl

theorem cardinality_unfold : (m.unfold t rel target).cardinality = rel.cardinality := by
  rw [unfold]
  split <;> rfl

theorem parent_unfold : (m.unfold t rel target).parent = t := by
  rw [unfold]
  split <;> rfl

theorem child_unfold : (m.unfold t rel target).child = m.childTable t rel target := by
  rw [unfold]
  split <;> rfl

end

end Model

/-- The model has the relationship at the position `t`. -/
def Model.Relates (m : Model) (t : Table) (r : Relationship) : Prop :=
  ∃ rel ∈ t.entity.relations, ∃ target,
    m.entity? rel.target = some target ∧ r = m.unfold t rel target

namespace Model.Relates

theorem parent_eq (h : m.Relates t r) : r.parent = t := by
  obtain ⟨rel, -, target, -, rfl⟩ := h
  exact parent_unfold m t rel target

/-- The child is derived from the position and the relation. -/
theorem child_eq (h : m.Relates t r) :
    ∃ rel ∈ t.entity.relations, ∃ target, m.entity? rel.target = some target ∧
      r.child = m.childTable t rel target := by
  obtain ⟨rel, hrel, target, htarget, rfl⟩ := h
  exact ⟨rel, hrel, target, htarget, child_unfold m t rel target⟩

theorem covers_child (h : m.Relates t r) : m.Covers r.child := by
  obtain ⟨rel, -, target, htarget, hchild⟩ := h.child_eq
  rw [Covers, hchild]
  exact List.mem_of_find?_eq_some htarget

theorem childJoin_label (h : m.Relates t r) : r.childJoin.label = m.aliasOf r.child := by
  obtain ⟨rel, -, target, -, rfl⟩ := h
  rw [unfold]
  split <;> rfl

theorem childJoin_identity (h : m.Relates t r) : r.childJoin.identity = r.child.identity := by
  obtain ⟨rel, -, target, -, rfl⟩ := h
  rw [unfold]
  split <;> rfl

theorem firstJoin_left (h : m.Relates t r) : r.firstJoin.left = m.aliasOf t := by
  obtain ⟨rel, -, target, -, rfl⟩ := h
  rw [unfold]
  split <;> rfl

theorem linkJoin_left {link : JoinStep} (h : m.Relates t r) (hl : r.linkJoin = some link) :
    link.left = m.aliasOf t := by
  have := h.firstJoin_left
  rwa [Relationship.firstJoin, hl] at this

theorem linkJoin_label {link : JoinStep} (h : m.Relates t r) (hl : r.linkJoin = some link) :
    link.label = m.naming.tableAlias link.identity := by
  obtain ⟨rel, -, target, -, rfl⟩ := h
  revert hl
  rw [unfold]
  split
  · simp
  · intro hl
    cases hl
    rfl

/-- The child is joined to the link table if there is one, and to the position otherwise. -/
theorem childJoin_left (h : m.Relates t r) :
    r.childJoin.left = (r.linkJoin.map (·.label)).getD (m.aliasOf t) := by
  obtain ⟨rel, -, target, -, rfl⟩ := h
  rw [unfold]
  split <;> rfl

/-- Every join has the alias of the identity that it leads to. -/
theorem label_eq {j : JoinStep} (h : m.Relates t r) (hj : j ∈ r.joins) :
    j.label = m.naming.tableAlias j.identity := by
  rw [Relationship.joins, List.mem_append, Option.mem_toList, List.mem_singleton] at hj
  rcases hj with hj | rfl
  · exact h.linkJoin_label hj
  · rw [h.childJoin_label, h.childJoin_identity]
    rfl

end Model.Relates

/-! ## Walks -/

/-- Relationships one after the other, the first of them at `t`. -/
inductive Model.Walk (m : Model) : Table → List Relationship → Prop
  | nil (t : Table) : m.Walk t []
  | cons {t : Table} {r : Relationship} {rest : List Relationship} :
      m.Relates t r → m.Walk r.child rest → m.Walk t (r :: rest)

/-- All relationships of a walk from a position of the model are at such positions. -/
theorem Model.Walk.relates {hops : List Relationship} (h : m.Walk t hops) (ht : m.Covers t) :
    ∀ r ∈ hops, ∃ u, m.Covers u ∧ m.Relates u r := by
  induction h with
  | nil => simp
  | cons hr _ ih =>
    rw [List.forall_mem_cons]
    exact ⟨⟨_, ht, hr⟩, ih hr.covers_child⟩

theorem Relationship.fansOut_eq_false_iff (r : Relationship) :
    r.fansOut = false ↔ r.cardinality = .oneToOne := by
  rw [fansOut]
  cases r.cardinality <;> simp [Cardinality.fansOut]

namespace Model

variable {hops : List Relationship} {members : List String} {res : Resolution} {p : Path}
  {member : String} {route : Route} {i : Nat}

theorem relates_of_relationship? (h : m.relationship? t member = some r) : m.Relates t r := by
  obtain ⟨rel, hrel, hr⟩ := List.exists_of_findSome?_eq_some h
  split at hr
  · obtain ⟨target, htarget, rfl⟩ := Option.map_eq_some_iff.1 hr
    exact ⟨rel, hrel, target, htarget, rfl⟩
  · contradiction

theorem member_of_relationship? (h : m.relationship? t member = some r) : r.member = member := by
  obtain ⟨rel, -, hr⟩ := List.exists_of_findSome?_eq_some h
  split at hr
  · rename_i hmember
    obtain ⟨target, -, rfl⟩ := Option.map_eq_some_iff.1 hr
    rw [member_unfold, hmember]
  · contradiction

theorem walkMembers?_cons {rest : List String} :
    m.walkMembers? t (member :: rest) = some hops ↔
      ∃ r hops', m.relationship? t member = some r ∧ m.walkMembers? r.child rest = some hops' ∧
        hops = r :: hops' := by
  simp only [walkMembers?, Option.bind_eq_bind, Option.bind_eq_some_iff]
  constructor
  · intro hex
    obtain ⟨r, hr, hops', hrest, h⟩ := hex
    cases h
    exact ⟨r, hops', hr, hrest, rfl⟩
  · intro hex
    obtain ⟨r, hops', hr, hrest, rfl⟩ := hex
    exact ⟨r, hr, hops', hrest, rfl⟩

theorem walk_of_walkMembers? (h : m.walkMembers? t members = some hops) : m.Walk t hops := by
  induction members generalizing t hops with
  | nil =>
    cases h
    exact .nil t
  | cons member rest ih =>
    obtain ⟨r, hops', hr, hrest, rfl⟩ := walkMembers?_cons.1 h
    exact .cons (relates_of_relationship? hr) (ih hrest)

theorem endOf_cons (t : Table) (r : Relationship) (rest : List Relationship) :
    endOf t (r :: rest) = endOf r.child rest := by
  cases rest with
  | nil => rfl
  | cons s rest =>
    simp only [endOf, List.getLast?_cons_cons]
    split
    · rfl
    · rename_i h
      exact absurd h (by simp)

/-- A chain of members is followed part by part. -/
theorem walkMembers?_append {before rest : List String} :
    m.walkMembers? t (before ++ rest) = some hops ↔
      ∃ hops₁ hops₂, m.walkMembers? t before = some hops₁ ∧
        m.walkMembers? (endOf t hops₁) rest = some hops₂ ∧ hops = hops₁ ++ hops₂ := by
  induction before generalizing t hops with
  | nil => simp [walkMembers?, endOf]
  | cons member before ih =>
    simp only [List.cons_append, walkMembers?_cons, ih]
    constructor
    · intro h
      obtain ⟨r, _, hr, ⟨hops₁, hops₂, h₁, h₂, rfl⟩, rfl⟩ := h
      exact ⟨r :: hops₁, hops₂, ⟨r, hops₁, hr, h₁, rfl⟩, by rwa [endOf_cons], rfl⟩
    · intro h
      obtain ⟨_, hops₂, ⟨r, hops₁, hr, h₁, rfl⟩, h₂, rfl⟩ := h
      rw [endOf_cons] at h₂
      exact ⟨r, hops₁ ++ hops₂, hr, ⟨hops₁, hops₂, h₁, h₂, rfl⟩, rfl⟩

theorem Walk.covers_endOf (h : m.Walk t hops) (ht : m.Covers t) : m.Covers (endOf t hops) := by
  induction h with
  | nil => exact ht
  | cons hr _ ih =>
    rw [endOf_cons]
    exact ih hr.covers_child

theorem endOf_append (t : Table) (rs ss : List Relationship) :
    endOf t (rs ++ ss) = endOf (endOf t rs) ss := by
  induction rs generalizing t with
  | nil => rfl
  | cons r rs ih => rw [List.cons_append, endOf_cons, endOf_cons, ih]

theorem walk_append {rs ss : List Relationship} :
    m.Walk t (rs ++ ss) ↔ m.Walk t rs ∧ m.Walk (endOf t rs) ss := by
  induction rs generalizing t with
  | nil => exact ⟨fun h => ⟨.nil t, h⟩, fun h => h.2⟩
  | cons r rs ih =>
    rw [List.cons_append, endOf_cons]
    constructor
    · rintro (_ | ⟨hr, hrest⟩)
      exact ⟨.cons hr (ih.1 hrest).1, (ih.1 hrest).2⟩
    · intro hex
      obtain ⟨_ | ⟨hr, hrs⟩, hss⟩ := hex
      exact .cons hr (ih.2 ⟨hrs, hss⟩)

theorem walkMembers?_concat (h : m.walkMembers? t (members ++ [member]) = some hops) :
    ∃ before r, m.walkMembers? t members = some before ∧
      m.relationship? (endOf t before) member = some r ∧ hops = before ++ [r] := by
  obtain ⟨before, rest, hbefore, hrest, rfl⟩ := walkMembers?_append.1 h
  obtain ⟨r, rest', hr, hnil, rfl⟩ := walkMembers?_cons.1 hrest
  cases hnil
  exact ⟨before, r, hbefore, hr, rfl⟩

theorem endOf_concat (t : Table) (before : List Relationship) (r : Relationship) :
    endOf t (before ++ [r]) = r.child := by
  rw [endOf_append]
  rfl

/-- A column path resolves to a walk and a column of the table where it ends. -/
theorem resolve_eq_ok (h : m.resolve t p = .ok res) :
    ∃ member, p.last? = some member ∧ m.walk? t (p.take (p.length - 1)) = some res.hops ∧
      res.table = endOf t res.hops ∧ res.table.column? member = some res.column := by
  simp only [resolve] at h
  split at h
  · rename_i member hops hlast hwalk
    split at h
    · rename_i column hcolumn
      cases h
      exact ⟨member, hlast, hwalk, rfl, hcolumn⟩
    · split at h <;> contradiction
  · contradiction

theorem walk_of_resolve (h : m.resolve t p = .ok res) :
    m.Walk t res.hops ∧ res.table = endOf t res.hops := by
  obtain ⟨member, -, hwalk, htable, -⟩ := resolve_eq_ok h
  exact ⟨walk_of_walkMembers? hwalk, htable⟩

theorem resolveRelationship_eq_ok (h : m.resolveRelationship t p = .ok route) :
    m.walk? t p = some route.hops := by
  simp only [resolveRelationship] at h
  split at h
  · rename_i found hfound
    cases h
    obtain ⟨hops, hwalk, hroute⟩ := Option.bind_eq_some_iff.1 hfound
    obtain ⟨last, hlast, rfl⟩ := Option.map_eq_some_iff.1 hroute
    obtain ⟨before, rfl⟩ := List.getLast?_eq_some_iff.1 hlast
    rw [hwalk, Route.hops, List.dropLast_concat]
  · split at h <;> contradiction

theorem length_pos_of_resolveRelationship (h : m.resolveRelationship t p = .ok route) :
    0 < p.length := by
  have hlen := length_walkMembers? (resolveRelationship_eq_ok h)
  rw [Route.hops, List.length_append, List.length_singleton] at hlen
  rw [Path.length]
  omega

/-- A relationship path resolves to a walk, its last relationship and the walk before that. -/
theorem walk_of_resolveRelationship (h : m.resolveRelationship t p = .ok route) :
    m.Walk t route.before ∧ m.Relates (endOf t route.before) route.last := by
  have hwalk := walk_of_walkMembers? (resolveRelationship_eq_ok h)
  rw [Route.hops, walk_append] at hwalk
  obtain ⟨hbefore, _ | ⟨hlast, -⟩⟩ := hwalk
  exact ⟨hbefore, hlast⟩

/-! ## Where a walk fans out -/

/-- The first relationship that fans out divides the path: the members before it lead along
relationships that do not. -/
theorem firstManyMember?_eq_some {start : Nat} :
    m.firstManyMember? t start members = some (i, r) ↔
      ∃ before member rest hops, members = before ++ member :: rest ∧
        m.walkMembers? t before = some hops ∧ (∀ s ∈ hops, s.fansOut = false) ∧
        m.relationship? (endOf t hops) member = some r ∧ r.fansOut = true ∧
        i = start + before.length := by
  induction members generalizing t start with
  | nil => simp [firstManyMember?]
  | cons head tail ih =>
    simp only [firstManyMember?, Option.bind_eq_bind, Option.bind_eq_some_iff]
    constructor
    · intro hex
      obtain ⟨s, hs, h⟩ := hex
      by_cases hfan : s.fansOut
      · rw [if_pos hfan] at h
        cases h
        exact ⟨[], head, tail, [], rfl, rfl, by simp, hs, hfan, rfl⟩
      · rw [if_neg hfan, ih] at h
        obtain ⟨before, member, rest, hops, rfl, hwalk, hone, hr, hmany, rfl⟩ := h
        refine ⟨head :: before, member, rest, s :: hops, rfl,
          walkMembers?_cons.2 ⟨s, hops, hs, hwalk, rfl⟩, ?_, ?_, hmany, ?_⟩
        · rw [List.forall_mem_cons]
          exact ⟨by simpa using hfan, hone⟩
        · rw [endOf_cons]
          exact hr
        · rw [List.length_cons]
          omega
    · intro hex
      obtain ⟨before, member, rest, hops, heq, hwalk, hone, hr, hmany, rfl⟩ := hex
      cases before with
      | nil =>
        cases heq
        cases hwalk
        exact ⟨r, hr, if_pos hmany⟩
      | cons head' before =>
        cases heq
        obtain ⟨s, hops', hs, hwalk', rfl⟩ := walkMembers?_cons.1 hwalk
        rw [List.forall_mem_cons] at hone
        rw [endOf_cons] at hr
        refine ⟨s, hs, ?_⟩
        rw [if_neg (by simp [hone.1]), ih]
        refine ⟨before, member, rest, hops', rfl, hwalk', hone.2, hr, hmany, ?_⟩
        rw [List.length_cons]
        omega

/-- The path up to the first relationship that fans out is a walk to it. -/
theorem walk?_firstMany? (h : m.firstMany? t p = some (i, r)) :
    ∃ before, m.walk? t (p.take (i + 1)) = some (before ++ [r]) ∧
      ∀ s ∈ before, s.fansOut = false := by
  obtain ⟨before, member, rest, hops, hp, hwalk, hone, hr, -, hi⟩ := firstManyMember?_eq_some.1 h
  refine ⟨hops, ?_, hone⟩
  rw [walk?, Path.take, hp, hi, Nat.zero_add, List.take_length_add_append]
  exact walkMembers?_append.2 ⟨hops, [r], hwalk, walkMembers?_cons.2 ⟨r, [], hr, rfl, rfl⟩, rfl⟩

/-- The path up to the first relationship that fans out fans out in its last member. -/
theorem firstMany?_take (h : m.firstMany? t p = some (i, r)) :
    m.firstMany? t (p.take (i + 1)) = some (i, r) := by
  obtain ⟨before, member, rest, hops, hp, hwalk, hone, hr, hmany, hi⟩ :=
    firstManyMember?_eq_some.1 h
  refine firstManyMember?_eq_some.2
    ⟨before, member, [], hops, ?_, hwalk, hone, hr, hmany, hi⟩
  rw [Path.take, hp, hi, Nat.zero_add, List.take_length_add_append]
  rfl

theorem resolveRelationship_of_walk {before : List Relationship}
    (h : m.walk? t p = some (before ++ [r])) : m.resolveRelationship t p = .ok ⟨before, r⟩ := by
  simp [resolveRelationship, h, Route.ofHops?]

theorem resolve_concat {init : List String} {last : String} {column : EntityColumn}
    (h : m.walkMembers? t init = some hops) (hcolumn : (endOf t hops).column? last = some column) :
    m.resolve t ⟨init ++ [last]⟩ = .ok ⟨hops, endOf t hops, column⟩ := by
  simp [resolve, walk?, Path.last?, Path.take, Path.length, h, hcolumn]

theorem resolve_concat_eq_ok {init : List String} {last : String}
    (h : m.resolve t ⟨init ++ [last]⟩ = .ok res) :
    m.walkMembers? t init = some res.hops ∧ res.table = endOf t res.hops ∧
      res.table.column? last = some res.column := by
  obtain ⟨member, hlast, hwalk, htable, hcolumn⟩ := resolve_eq_ok h
  have hmember : member = last := by simpa [Path.last?, eq_comm] using hlast
  subst hmember
  refine ⟨?_, htable, hcolumn⟩
  simpa [walk?, Path.take, Path.length] using hwalk

/-- A column path that fans out is a path to the first relationship that does, and a column path
from there. -/
theorem resolve_split (h : m.resolve t p = .ok res) (hmany : m.firstMany? t p = some (i, r))
    (hrest : (p.drop (i + 1)).isEmpty = false) :
    ∃ before res', m.resolveRelationship t (p.take (i + 1)) = .ok ⟨before, r⟩ ∧
      m.resolve r.child (p.drop (i + 1)) = .ok res' ∧ res.hops = before ++ r :: res'.hops ∧
      res'.table = res.table ∧ res'.column = res.column ∧ r.fansOut = true ∧
      ∀ s ∈ before, s.fansOut = false := by
  obtain ⟨names, member, rest, before, hp, hwalk, hone, hr, hfan, hi⟩ :=
    firstManyMember?_eq_some.1 hmany
  rw [Nat.zero_add] at hi
  subst hi
  obtain ⟨segments⟩ := p
  change segments = _ at hp
  subst hp
  have htake : Path.take ⟨names ++ member :: rest⟩ (names.length + 1) = ⟨names ++ [member]⟩ := by
    rw [Path.take, List.take_length_add_append]
    rfl
  have hdrop : Path.drop ⟨names ++ member :: rest⟩ (names.length + 1) = ⟨rest⟩ := by
    rw [Path.drop, List.drop_length_add_append]
    rfl
  rw [hdrop] at hrest ⊢
  rw [htake]
  rcases List.eq_nil_or_concat rest with rfl | ⟨init, last, hconcat⟩
  · cases hrest
  rw [List.concat_eq_append] at hconcat
  subst hconcat
  have hpath : names ++ member :: (init ++ [last]) = (names ++ member :: init) ++ [last] := by simp
  rw [hpath] at h
  obtain ⟨hhops, htable, hcolumn⟩ := resolve_concat_eq_ok h
  obtain ⟨hops₁, _, h₁, h₂, heq⟩ := walkMembers?_append.1 hhops
  cases hwalk.symm.trans h₁
  obtain ⟨r', hops', hr', hinit, rfl⟩ := walkMembers?_cons.1 h₂
  cases hr.symm.trans hr'
  have hend : res.table = endOf r.child hops' := by
    rw [htable, heq, endOf_append, endOf_cons]
  refine ⟨before, _, resolveRelationship_of_walk ?_, resolve_concat hinit (hend ▸ hcolumn), heq,
    hend.symm, rfl, hfan, hone⟩
  exact walkMembers?_append.2 ⟨before, [r], hwalk,
    walkMembers?_cons.2 ⟨r, [], hr, rfl, rfl⟩, rfl⟩

/-- If the first relationship that fans out is the last one, no earlier one does. -/
theorem fansOut_dropLast {start : Nat} (h : m.walkMembers? t members = some hops)
    (hlast : ∀ i r, m.firstManyMember? t start members = some (i, r) →
      i + 1 = start + members.length) : ∀ r ∈ hops.dropLast, r.fansOut = false := by
  induction members generalizing t hops start with
  | nil =>
    cases h
    simp
  | cons member rest ih =>
    obtain ⟨r, hops', hr, hrest, rfl⟩ := walkMembers?_cons.1 h
    simp only [firstManyMember?, hr, Option.bind_eq_bind, Option.bind_some] at hlast
    by_cases hfan : r.fansOut
    · -- The walk ends here, so there is nothing before the relationship.
      have hlen := hlast start r (if_pos hfan)
      have hnil : rest = [] := by
        rw [← List.length_eq_zero_iff]
        simp only [List.length_cons] at hlen
        omega
      subst hnil
      cases hrest
      simp
    · simp only [if_neg hfan, List.length_cons] at hlast
      have hih := ih hrest fun i s hs => by
        have := hlast i s hs
        omega
      cases hops' with
      | nil => simp
      | cons s hops' =>
        rw [List.dropLast_cons_cons, List.forall_mem_cons]
        exact ⟨by simpa using hfan, hih⟩

end Model

namespace Resolution

variable {r : Resolution}

theorem crossesMany_eq_false : r.crossesMany = false ↔ ∀ hop ∈ r.hops, hop.fansOut = false := by
  simp [crossesMany, firstMany?]

theorem crossesMany_eq_true : r.crossesMany = true ↔ ∃ hop ∈ r.hops, hop.fansOut = true := by
  simp [crossesMany, firstMany?]

end Resolution

/-! ## A shop

Orders of a customer, with lines that have tags: a model with every kind of relationship. -/

namespace Shop

/-- A column with its own name and no declared type. -/
def columnDecl (member : String) : ColumnDecl := ⟨member, none, none⟩

def declarations : List EntityDecl :=
  [⟨"Order", "orders", none, some "id", ["id", "customer_id"].map columnDecl,
      [⟨"customer", .oneToOne, "Customer", some "customer_id", none, none, []⟩,
        ⟨"lines", .oneToMany, "Line", none, some "order_id", none, []⟩]⟩,
    ⟨"Customer", "customers", none, some "id", ["id", "name"].map columnDecl,
      [⟨"orders", .oneToMany, "Order", none, some "customer_id", none, []⟩]⟩,
    ⟨"Line", "lines", none, some "id", ["id", "order_id", "sku"].map columnDecl,
      [⟨"tags", .manyToMany, "Tag", none, none, some ⟨none, "line_tags", "line_id", "tag_id"⟩,
        []⟩]⟩,
    ⟨"Tag", "tags", none, some "id", ["id", "label"].map columnDecl, []⟩]

def column (member : String) : EntityColumn := ⟨member, member, none⟩

def order : Entity where
  name := "Order"
  table := "orders"
  schema := none
  primaryKey := some "id"
  columns := ["id", "customer_id"].map column
  relations := [⟨"customer", .oneToOne, "Customer", "customer_id", "id", none, []⟩,
    ⟨"lines", .oneToMany, "Line", "id", "order_id", none, []⟩]

def customer : Entity where
  name := "Customer"
  table := "customers"
  schema := none
  primaryKey := some "id"
  columns := ["id", "name"].map column
  relations := [⟨"orders", .oneToMany, "Order", "id", "customer_id", none, []⟩]

def line : Entity where
  name := "Line"
  table := "lines"
  schema := none
  primaryKey := some "id"
  columns := ["id", "order_id", "sku"].map column
  relations := [⟨"tags", .manyToMany, "Tag", "id", "id",
    some ⟨none, "line_tags", "line_id", "tag_id", []⟩, []⟩]

def tag : Entity where
  name := "Tag"
  table := "tags"
  schema := none
  primaryKey := some "id"
  columns := ["id", "label"].map column
  relations := []

def model (naming : Naming) : Model := ⟨[order, customer, line, tag], declarations, none, naming⟩

theorem build_declarations (naming : Naming) :
    Model.build naming none declarations = .ok (model naming) := by
  rfl

/-- A naming without collisions: an identity writes out its parts, an alias its identity. -/
def plain : Naming where
  draw := Identity.ofDraw
  derive parts := ⟨0 :: parts.flatMap fun part => part.flatMap (fun b => [1, b]) ++ [0]⟩
  tableAlias id := String.ofList ('t' :: id.bytes.map Char.ofUInt8)
  columnAlias id name :=
    String.ofList ('c' :: id.bytes.map Char.ofUInt8) ++ name

/-- A root position for orders. -/
def orders : Table := Model.root order ⟨[1]⟩

theorem covers_orders (naming : Naming) : (model naming).Covers orders :=
  List.mem_cons_self

/-- The lines of an order. -/
def orderLines (naming : Naming) : Relationship :=
  (model naming).unfold orders ⟨"lines", .oneToMany, "Line", "id", "order_id", none, []⟩ line

theorem resolve_lines (naming : Naming) :
    (model naming).resolveRelationship orders ⟨["lines"]⟩ = .ok ⟨[], orderLines naming⟩ := by
  rfl

end Shop

end EntityQuery
