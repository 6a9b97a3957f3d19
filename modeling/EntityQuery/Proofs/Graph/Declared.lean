import EntityQuery.Proofs.Graph.Members

/-!
# Declared relationships

The check of declarations is complete: what it lets through gives every position a relationship for
each declared relation, in their order. The position's own relationships are looked up when they are
asked for, and a target that is not found would leave one out; but the check has found every target
(`Model.entity?_of_find?`).

`Declares` says what a relationship has to do with its declaration: the number of its joins, the
columns at both ends, the aliases in between, and the conditions, each at the join it names.
-/

namespace EntityQuery

open Model (endOf)

variable {m : Model} {t : Table} {all : List EntityDecl}

/-! ## Names of entities -/

namespace EntityDecl

theorem nodup_of_duplicate? {seen : List String} (h : duplicate? seen all = none) :
    (all.map (·.name)).Nodup ∧ ∀ d ∈ all, d.name ∉ seen := by
  induction all generalizing seen with
  | nil => simp
  | cons d all ih =>
    rw [duplicate?] at h
    split at h
    · cases h
    · rename_i hd
      obtain ⟨hnodup, hnew⟩ := ih h
      simp only [List.mem_cons, not_or] at hnew
      refine ⟨List.nodup_cons.2 ⟨?_, hnodup⟩,
        List.forall_mem_cons.2 ⟨hd, fun d' hd' => (hnew d' hd').2⟩⟩
      rw [List.mem_map]
      rintro ⟨d', hd', hname⟩
      exact (hnew d' hd').1 hname

theorem find?_of_mem (h : (all.map (·.name)).Nodup) {d : EntityDecl} (hd : d ∈ all) :
    find? all d.name = some d := by
  induction all with
  | nil => cases hd
  | cons d' all ih =>
    rw [List.map_cons, List.nodup_cons] at h
    rcases List.mem_cons.1 hd with rfl | hd
    · simp [find?]
    · have hne : d'.name ≠ d.name := fun hname => h.1 (hname ▸ List.mem_map_of_mem hd)
      rw [find?, List.find?_cons_of_neg (by simpa using hne)]
      exact ih h.2 hd

/-- The database name of a member, as the checked entity gives it. -/
theorem column?_of_dbName? {d : EntityDecl} {member name : String}
    (hcolumns : t.entity.columns = d.columns.map (fun c => ⟨c.member, c.dbName, c.type⟩))
    (h : d.dbName? member = some name) :
    ∃ column, t.column? member = some column ∧ name = column.name := by
  obtain ⟨c, hc, rfl⟩ := Option.map_eq_some_iff.1 h
  refine ⟨⟨c.member, c.dbName, c.type⟩, ?_, rfl⟩
  rw [Table.column?, hcolumns, List.find?_map]
  exact congrArg (Option.map _) hc

end EntityDecl

/-- Checked entities have the names of their declarations, so a search by name stops at the same
place in both lists. -/
theorem find?_checked {ds : List EntityDecl} {es : List Entity}
    (h : List.Forall₂ (fun d e => EntityDecl.check all d = .ok e) ds es) {name : String}
    {d : EntityDecl} (hd : EntityDecl.find? ds name = some d) :
    ∃ e, es.find? (·.name == name) = some e ∧ d.check all = .ok e := by
  rw [EntityDecl.find?] at hd
  induction h with
  | nil => cases hd
  | @cons d' e ds es hcheck _ ih =>
    have hname := (EntityDecl.check_eq_ok hcheck).1
    by_cases heq : d'.name = name
    · rw [List.find?_cons_of_pos (by simpa using heq)] at hd
      cases hd
      exact ⟨e, List.find?_cons_of_pos (by simpa [hname] using heq), hcheck⟩
    · rw [List.find?_cons_of_neg (by simpa using heq)] at hd
      rw [List.find?_cons_of_neg (by simpa [hname] using heq)]
      exact ih hd

namespace Model

variable {naming : Naming} {schema : Option String}

/-- **The target of a checked relation is in the model.** -/
theorem entity?_of_find? (h : Model.build naming schema all = .ok m) {name : String}
    {d : EntityDecl} (hd : EntityDecl.find? all name = some d) :
    ∃ e, m.entity? name = some e ∧ d.check all = .ok e := by
  obtain ⟨-, entities, hentities, rfl⟩ := build_eq_ok.1 h
  exact find?_checked (mapM_eq_ok_iff.1 hentities) hd

/-- The entity of a position has one declaration. -/
theorem find?_of_covers (h : Model.build naming schema all = .ok m) (ht : m.Covers t) :
    ∃ d, EntityDecl.find? all t.entity.name = some d ∧ d.check all = .ok t.entity := by
  obtain ⟨hduplicate, entities, hentities, rfl⟩ := build_eq_ok.1 h
  obtain ⟨d, hd, hcheck⟩ := exists_of_mapM_eq_ok hentities t.entity ht
  refine ⟨d, ?_, hcheck⟩
  rw [(EntityDecl.check_eq_ok hcheck).1]
  exact EntityDecl.find?_of_mem (EntityDecl.nodup_of_duplicate? hduplicate).1 hd

end Model

/-! ## Declared conditions -/

/-- A filter of a relationship says what the condition does. Columns of the child are declared by
their members. -/
def ConditionDecl.Reads (r : Relationship) (c : ConditionDecl) (f : JoinFilter) : Prop :=
  conditionOperator? c.operator = some f.op ∧ f.value = c.value ∧
    if c.join + 1 = r.joins.length then
      ∃ column, r.child.column? c.column = some column ∧ f.column = column.name
    else f.column = c.column

theorem RelationDecl.filtersAt_cons (i j : Nat) (f : JoinFilter)
    (filters : List (Nat × JoinFilter)) :
    filtersAt i ((j, f) :: filters) =
      if j = i then f :: filtersAt i filters else filtersAt i filters := by
  by_cases h : j = i <;> simp [filtersAt, h]

/-- The filters of a join come from the conditions that name it. -/
theorem RelationDecl.forall₂_filtersAt {P : ConditionDecl → JoinFilter → Prop}
    {cs : List ConditionDecl} {filters : List (Nat × JoinFilter)}
    (h : List.Forall₂ (fun c f => f.1 = c.join ∧ P c f.2) cs filters) (i : Nat) :
    List.Forall₂ P (cs.filter (·.join == i)) (filtersAt i filters) := by
  induction h with
  | nil => exact .nil
  | @cons c f cs filters hf _ ih =>
    obtain ⟨j, f⟩ := f
    obtain ⟨rfl, hf⟩ := hf
    by_cases hi : c.join = i
    · rw [List.filter_cons_of_pos (by simpa using hi), filtersAt_cons, if_pos hi]
      exact .cons hf ih
    · rw [List.filter_cons_of_neg (by simpa using hi), filtersAt_cons, if_neg hi]
      exact ih

/-! ## Declared relationships -/

/-- The relationship of the position `t` is the declared one. -/
structure Declares (m : Model) (t : Table) (d : RelationDecl) (r : Relationship) : Prop where
  member : r.member = d.member
  cardinality : r.cardinality = d.cardinality
  parent : r.parent = t
  target : r.child.entity.name = d.target
  length : r.joins.length = if d.cardinality = .manyToMany then 2 else 1
  chain : r.joins.IsChain fun j k => k.left = j.label
  first : ∃ j key column, r.joins.head? = some j ∧ j.left = m.aliasOf t ∧
    d.left.or t.entity.primaryKey = some key ∧ t.column? key = some column ∧
    j.leftColumn = column.name
  last : ∃ j key column, r.joins.getLast? = some j ∧ j.label = m.aliasOf r.child ∧
    d.right.or r.child.entity.primaryKey = some key ∧ r.child.column? key = some column ∧
    j.rightColumn = column.name
  inRange : ∀ c ∈ d.conditions, c.join < r.joins.length
  filters : ∀ i j, r.joins[i]? = some j →
    List.Forall₂ (ConditionDecl.Reads r) (d.conditions.filter (·.join == i)) j.filters

namespace Model

section

variable (m : Model) (t : Table) (rel : Relation) (e : Entity)

theorem length_joins_unfold :
    (m.unfold t rel e).joins.length = if rel.link.isSome then 2 else 1 := by
  rw [unfold]
  split <;> rename_i hlink <;> rw [hlink] <;> rfl

theorem isChain_joins_unfold : (m.unfold t rel e).joins.IsChain fun j k => k.left = j.label := by
  rw [unfold]
  split
  · exact .singleton _
  · exact .cons_cons rfl (.singleton _)

theorem head?_joins_unfold : ∃ j, (m.unfold t rel e).joins.head? = some j ∧
    j.left = m.aliasOf t ∧ j.leftColumn = rel.left := by
  rw [unfold]
  split <;> exact ⟨_, rfl, rfl, rfl⟩

theorem getLast?_joins_unfold : ∃ j, (m.unfold t rel e).joins.getLast? = some j ∧
    j.label = m.aliasOf (m.unfold t rel e).child ∧ j.rightColumn = rel.right := by
  rw [unfold]
  split <;> exact ⟨_, rfl, rfl, rfl⟩

/-- The filters of the last join are on the target, those of another one on the link table. -/
theorem filters_joins_unfold {i : Nat} {j : JoinStep} (h : (m.unfold t rel e).joins[i]? = some j) :
    (i + 1 = (m.unfold t rel e).joins.length ∧ j.filters = rel.filters) ∨
      (i = 0 ∧ ∃ link ∈ rel.link, j.filters = link.filters) := by
  revert h
  rw [unfold]
  split
  · intro h
    rcases i with _ | i
    · cases h
      exact .inl ⟨rfl, rfl⟩
    · cases h
  · rename_i link hlink
    intro h
    rcases i with _ | _ | i
    · cases h
      exact .inr ⟨rfl, link, hlink, rfl⟩
    · cases h
      exact .inl ⟨rfl, rfl⟩
    · cases h

end

section

variable {d target : EntityDecl} {rel : RelationDecl} {checked : Relation} {e : Entity}
  {filters : List (Nat × JoinFilter)}

/-- Every checked condition is on a join of the relationship and is read there. -/
theorem reads_unfold (he : target.check all = .ok e)
    (hlink : checked.link.isSome = rel.link.isSome)
    (h : rel.conditions.mapM (fun c => do return (c.join, ← rel.checkCondition d target c)) =
      .ok filters) :
    (∀ c ∈ rel.conditions, c.join < rel.joins) ∧
      List.Forall₂ (fun c f => f.1 = c.join ∧ c.Reads (m.unfold t checked e) f.2)
        rel.conditions filters := by
  rw [← List.forall₂_and_left]
  refine (mapM_eq_ok_iff.1 h).imp fun c f hf => ?_
  simp only [bind_eq_ok, pure_eq_ok] at hf
  obtain ⟨f, hcheck, rfl⟩ := hf
  obtain ⟨hjoin, hop, hvalue, hcolumn⟩ := RelationDecl.checkCondition_eq_ok hcheck
  refine ⟨hjoin, rfl, hop, hvalue, ?_⟩
  -- Only the join before the last can be that of a link table.
  have hlast : c.join + 1 = (m.unfold t checked e).joins.length ↔
      ¬ (rel.link.isSome && c.join == 0) = true := by
    rw [length_joins_unfold, hlink]
    rw [RelationDecl.joins] at hjoin
    cases hsome : rel.link.isSome <;> simp [hsome] at hjoin ⊢ <;> omega
  by_cases hraw : (rel.link.isSome && c.join == 0) = true
  · rw [if_pos hraw] at hcolumn
    rw [if_neg fun hc => hlast.1 hc hraw]
    exact hcolumn
  · rw [if_neg hraw] at hcolumn
    rw [if_pos (hlast.2 hraw)]
    refine EntityDecl.column?_of_dbName? ?_ hcolumn
    rw [child_unfold]
    exact (EntityDecl.check_eq_ok he).2.2.1

/-- **A checked relation unfolds to what was declared.** -/
theorem declares_unfold (hd : d.check all = .ok t.entity) (hrel : rel.check all d = .ok checked)
    (hfind : EntityDecl.find? all rel.target = some target) (he : target.check all = .ok e) :
    Declares m t rel (m.unfold t checked e) := by
  obtain ⟨-, target', left, right, link, filters, hfind', hleft, hright, hlink, hfilters,
    hchecked⟩ := RelationDecl.check_eq_ok hrel
  rw [hfind] at hfind'
  cases hfind'
  obtain ⟨rfl, hmany⟩ := RelationDecl.checkLink_eq_ok hlink
  have hsome : checked.link.isSome = rel.link.isSome := by
    rw [hchecked]
    exact Option.isSome_map
  obtain ⟨hrange, hreads⟩ := reads_unfold (m := m) (t := t) he hsome hfilters
  have hlength : (m.unfold t checked e).joins.length = rel.joins := by
    rw [length_joins_unfold, hsome, RelationDecl.joins]
  have hentity : (m.unfold t checked e).child.entity = e := by rw [child_unfold, childTable]
  exact {
    member := by rw [member_unfold, hchecked]
    cardinality := by rw [cardinality_unfold, hchecked]
    parent := parent_unfold m t checked e
    target := by
      rw [hentity, (EntityDecl.check_eq_ok he).1]
      simpa using List.find?_some hfind
    length := by
      rw [hlength, RelationDecl.joins]
      simp only [hmany]
    chain := isChain_joins_unfold m t checked e
    first := by
      obtain ⟨-, hkey, hcolumns, -⟩ := EntityDecl.check_eq_ok hd
      obtain ⟨j, hj, halias, hcolumn⟩ := head?_joins_unfold m t checked e
      obtain ⟨key, hkey', hname⟩ := RelationDecl.keyColumn_eq_ok hleft
      obtain ⟨column, hc, rfl⟩ := EntityDecl.column?_of_dbName? hcolumns hname
      exact ⟨j, key, column, hj, halias, hkey ▸ hkey', hc, by rw [hcolumn, hchecked]⟩
    last := by
      obtain ⟨-, hkey, hcolumns, -⟩ := EntityDecl.check_eq_ok he
      obtain ⟨j, hj, halias, hcolumn⟩ := getLast?_joins_unfold m t checked e
      obtain ⟨key, hkey', hname⟩ := RelationDecl.keyColumn_eq_ok hright
      rw [← hentity] at hkey hcolumns
      obtain ⟨column, hc, rfl⟩ := EntityDecl.column?_of_dbName? hcolumns hname
      exact ⟨j, key, column, hj, halias, hkey ▸ hkey', hc, by rw [hcolumn, hchecked]⟩
    inRange := by rwa [hlength]
    filters := by
      intro i j hj
      have hat : j.filters = RelationDecl.filtersAt i filters := by
        rcases filters_joins_unfold m t checked e hj with ⟨hi, hfilters⟩ | ⟨rfl, l, hl, hfilters⟩
        · rw [hfilters, hchecked, ← hlength, ← hi, Nat.add_sub_cancel]
        · rw [hchecked] at hl
          obtain ⟨decl, -, rfl⟩ := Option.map_eq_some_iff.1 hl
          exact hfilters
      rw [hat]
      exact RelationDecl.forall₂_filtersAt hreads i }

end

/-- No relationship of a position is left out. -/
theorem forall₂_relationships {naming : Naming} {schema : Option String}
    (h : Model.build naming schema all = .ok m) {d : EntityDecl}
    (hd : d.check all = .ok t.entity) :
    List.Forall₂ (Declares m t) d.relations (m.relationships t) := by
  have hchecked := mapM_eq_ok_iff.1 (EntityDecl.check_eq_ok hd).2.2.2
  rw [← List.filterMap_some (l := d.relations), relationships]
  refine List.rel_filterMap (fun rel checked hrel => ?_) hchecked
  obtain ⟨-, target, _, _, _, _, hfind, -, -, -, -, hname⟩ := RelationDecl.check_eq_ok hrel
  obtain ⟨e, he, hcheck⟩ := entity?_of_find? h hfind
  have htarget : checked.target = rel.target := by rw [hname]
  rw [htarget, he, Option.map_some]
  exact .some (declares_unfold hd hrel hfind hcheck)

end Model

/-- **A built model has every declared relationship at every position.** Wherever a path leads from
a root, the relationships are those declared for the entity there, one for each declaration and in
their order. Each has two joins if it is many-to-many and one otherwise; the joins lead from the
alias of the position to the alias of the child, from a column of the one entity to a column of the
other; and each join has the conditions that name it. -/
theorem relationships_declared {naming : Naming} {schema : Option String}
    (h : Model.build naming schema all = .ok m) {e : Entity} (he : e ∈ m.entities) {id : Identity}
    {p : Path} {hops : List Relationship} (hwalk : m.walk? (Model.root e id) p = some hops) :
    ∃ d, EntityDecl.find? all (endOf (Model.root e id) hops).entity.name = some d ∧
      (endOf (Model.root e id) hops).entity.columns =
        d.columns.map (fun c => ⟨c.member, c.dbName, c.type⟩) ∧
      (endOf (Model.root e id) hops).entity.primaryKey = d.primaryKey ∧
      List.Forall₂ (Declares m (endOf (Model.root e id) hops)) d.relations
        (m.relationships (endOf (Model.root e id) hops)) := by
  have hcovers := (Model.walk_of_walkMembers? hwalk).covers_endOf (t := Model.root e id) he
  obtain ⟨d, hd, hcheck⟩ := Model.find?_of_covers h hcovers
  obtain ⟨-, hkey, hcolumns, -⟩ := EntityDecl.check_eq_ok hcheck
  exact ⟨d, hd, hcolumns, hkey, Model.forall₂_relationships h hcheck⟩

namespace Shop

/-- Lines and tags that know each other, with conditions on both joins. -/
def labelled : List EntityDecl :=
  [⟨"Line", "lines", none, some "id", [columnDecl "id", ⟨"shown", some "is_shown", none⟩],
      [⟨"tags", .manyToMany, "Tag", none, none, some ⟨none, "line_tags", "line_id", "tag_id"⟩,
        []⟩]⟩,
    ⟨"Tag", "tags", none, some "id", [columnDecl "id"],
      [⟨"lines", .manyToMany, "Line", none, none, some ⟨none, "line_tags", "tag_id", "line_id"⟩,
        [⟨1, "shown", "=", .bool true⟩, ⟨0, "rank", "lt", .int 3⟩, ⟨1, "id", "ne", .null⟩]⟩]⟩]

def labelledLine : Entity :=
  ⟨"Line", "lines", none, some "id", [column "id", ⟨"shown", "is_shown", none⟩],
    [⟨"tags", .manyToMany, "Tag", "id", "id",
      some ⟨none, "line_tags", "line_id", "tag_id", []⟩, []⟩]⟩

def labelledTag : Entity :=
  ⟨"Tag", "tags", none, some "id", [column "id"],
    [⟨"lines", .manyToMany, "Line", "id", "id",
      some ⟨none, "line_tags", "tag_id", "line_id", [⟨"rank", .lt, .int 3⟩]⟩,
      [⟨"is_shown", .eq, .bool true⟩, ⟨"id", .ne, .null⟩]⟩]⟩

def labelledModel : Model := ⟨[labelledLine, labelledTag], labelled, none, plain⟩

/-- The tags of a line have their lines, shown ones only. -/
theorem relationships_declared_labelled :
    Model.build plain none labelled = .ok labelledModel ∧
    ∃ hops, labelledModel.walk? (Model.root labelledLine ⟨[1]⟩) ⟨["tags"]⟩ = some hops ∧
      ∃ d, EntityDecl.find? labelled "Tag" = some d ∧ d.relations.length = 1 ∧
        List.Forall₂ (Declares labelledModel (endOf (Model.root labelledLine ⟨[1]⟩) hops))
          d.relations
          (labelledModel.relationships (endOf (Model.root labelledLine ⟨[1]⟩) hops)) := by
  have hbuild : Model.build plain none labelled = .ok labelledModel := rfl
  obtain ⟨d, hd, -, -, hrelations⟩ := relationships_declared hbuild List.mem_cons_self
    (show labelledModel.walk? (Model.root labelledLine ⟨[1]⟩) ⟨["tags"]⟩ = some _ from rfl)
  have hlength : d.relations.length = 1 := by
    cases hd
    rfl
  exact ⟨hbuild, _, rfl, d, hd, hlength, hrelations⟩

end Shop

end EntityQuery
