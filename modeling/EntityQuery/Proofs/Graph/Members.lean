import EntityQuery.Proofs.Graph.Walk
import EntityQuery.Proofs.Success

/-!
# Members of built models

What the check of declarations says of the entities of a model. A member of a position is a column
or a relationship, and not both (`Model.Unambiguous`), so no path is both a column path and a
relationship path (`walk?_eq_none`), and a column path that fans out goes on behind the fan-out
(`resolve_split`).
-/

namespace EntityQuery

variable {m : Model} {t : Table} {schema : Option String} {naming : Naming} {rel : Relation}

/-! ## Declarations -/

namespace RelationDecl

variable {all : List EntityDecl} {parent target : EntityDecl} {d : RelationDecl}

theorem keyColumn_eq_ok {owner : EntityDecl} {member : Option String} {name : String}
    (h : keyColumn parent d member owner = .ok name) :
    ∃ key, member.or owner.primaryKey = some key ∧ owner.dbName? key = some name := by
  simp only [keyColumn] at h
  split at h
  · cases h
  · rename_i key hkey
    split at h
    · rename_i column hcolumn
      cases h
      exact ⟨key, hkey, hcolumn⟩
    · cases h

theorem checkLink_eq_ok {link : Option LinkDecl} (h : d.checkLink parent = .ok link) :
    link = d.link ∧ (d.link.isSome ↔ d.cardinality = .manyToMany) := by
  simp only [checkLink] at h
  split at h
  · rename_i hcard hlink
    cases h
    simp [hcard, hlink]
  · cases h
  · cases h
  · rename_i hcard hlink hne
    cases h
    simpa [hlink] using hne

/-- A checked condition is on one of the joins, and only columns of a link table are taken as they
stand. -/
theorem checkCondition_eq_ok {c : ConditionDecl} {f : JoinFilter}
    (h : d.checkCondition parent target c = .ok f) :
    c.join < d.joins ∧ conditionOperator? c.operator = some f.op ∧ f.value = c.value ∧
      if d.link.isSome && c.join == 0 then f.column = c.column
      else target.dbName? c.column = some f.column := by
  simp only [checkCondition] at h
  split at h
  · cases h
  rename_i hjoin
  refine ⟨Nat.lt_of_not_le hjoin, ?_⟩
  cases hop : conditionOperator? c.operator with
  | none =>
    simp only [hop] at h
    split at h
    · cases h
    · split at h <;> cases h
  | some op =>
    simp only [hop] at h
    split at h
    · rename_i hlink
      cases h
      refine ⟨rfl, rfl, ?_⟩
      rw [if_pos hlink]
    · rename_i hlink
      split at h
      · rename_i column hcolumn
        cases h
        refine ⟨rfl, rfl, ?_⟩
        rwa [if_neg hlink]
      · cases h

/-- **What the check of a relation makes of it.** -/
theorem check_eq_ok (h : d.check all parent = .ok rel) :
    (∀ c ∈ parent.columns, c.member ≠ d.member) ∧
    ∃ target left right link filters, EntityDecl.find? all d.target = some target ∧
      keyColumn parent d d.left parent = .ok left ∧
      keyColumn parent d d.right target = .ok right ∧ d.checkLink parent = .ok link ∧
      d.conditions.mapM (fun c => do return (c.join, ← checkCondition parent d target c)) =
        .ok filters ∧
      rel = ⟨d.member, d.cardinality, d.target, left, right,
        link.map fun l => ⟨l.schema, l.table, l.left, l.right, filtersAt 0 filters⟩,
        filtersAt (d.joins - 1) filters⟩ := by
  simp only [check] at h
  split at h
  · cases h
  rename_i hcolumns
  refine ⟨by simpa using hcolumns, ?_⟩
  split at h
  · rename_i target htarget
    obtain ⟨_, htarget', h⟩ := bind_eq_ok.1 h
    cases htarget'
    split at h <;> simp only [bind_eq_ok, pure_eq_ok] at h
    · obtain ⟨-, -, left, hleft, right, hright, link, hlink, filters, hfilters, rfl⟩ := h
      exact ⟨target, left, right, link, filters, htarget, hleft, hright, hlink, hfilters, rfl⟩
    · obtain ⟨left, hleft, right, hright, link, hlink, filters, hfilters, rfl⟩ := h
      exact ⟨target, left, right, link, filters, htarget, hleft, hright, hlink, hfilters, rfl⟩
  · cases h

end RelationDecl

/-- A checked entity has the declared columns and the declared key, and its relations are
checked. -/
theorem EntityDecl.check_eq_ok {all : List EntityDecl} {d : EntityDecl} {e : Entity}
    (h : d.check all = .ok e) : e.name = d.name ∧ e.primaryKey = d.primaryKey ∧
      e.columns = d.columns.map (fun c => ⟨c.member, c.dbName, c.type⟩) ∧
      d.relations.mapM (RelationDecl.check all d) = .ok e.relations := by
  simp only [check] at h
  split at h
  · split at h
    · cases h
    · obtain ⟨relations, hrelations, h⟩ := bind_eq_ok.1 h
      cases h
      exact ⟨rfl, rfl, rfl, hrelations⟩
  · obtain ⟨relations, hrelations, h⟩ := bind_eq_ok.1 h
    cases h
    exact ⟨rfl, rfl, rfl, hrelations⟩

/-- What a model is built from. -/
theorem Model.build_eq_ok {all : List EntityDecl} : Model.build naming schema all = .ok m ↔
    EntityDecl.duplicate? [] all = none ∧
      ∃ entities, all.mapM (EntityDecl.check all) = .ok entities ∧
        m = ⟨entities, all, schema, naming⟩ := by
  rw [Model.build]
  cases EntityDecl.duplicate? [] all with
  | some name => simp [bind, Except.bind]
  | none => simp only [bind_eq_ok, pure_eq_ok, true_and]

/-- The relations of a built model have been declared for their entities. -/
theorem Model.declared_of_build {all : List EntityDecl} (h : Model.build naming schema all = .ok m)
    (ht : m.Covers t) (hrel : rel ∈ t.entity.relations) :
    ∃ d, t.entity.columns = d.columns.map (fun c => ⟨c.member, c.dbName, c.type⟩) ∧
      ∃ d' ∈ d.relations, RelationDecl.check all d d' = .ok rel := by
  obtain ⟨-, entities, hentities, rfl⟩ := Model.build_eq_ok.1 h
  obtain ⟨d, -, hd⟩ := exists_of_mapM_eq_ok hentities t.entity ht
  obtain ⟨-, -, hcolumns, hrelations⟩ := EntityDecl.check_eq_ok hd
  exact ⟨d, hcolumns, exists_of_mapM_eq_ok hrelations rel hrel⟩

/-! ## Columns and relationships -/

namespace Model

/-- No column of a position of the model has the member of a relationship. -/
def Unambiguous (m : Model) : Prop :=
  ∀ t, m.Covers t → ∀ member c, t.column? member = some c → m.relationship? t member = none

theorem unambiguous_build {all : List EntityDecl} (h : Model.build naming schema all = .ok m) :
    m.Unambiguous := by
  intro t ht member c hc
  rw [Option.eq_none_iff_forall_ne_some]
  intro r hr
  obtain ⟨rel, hrel, hr⟩ := List.exists_of_findSome?_eq_some hr
  split at hr
  · rename_i hmember
    obtain ⟨d, hcolumns, d', -, hd'⟩ := declared_of_build h ht hrel
    obtain ⟨hne, _, _, _, _, _, -, -, -, -, -, hsame⟩ := RelationDecl.check_eq_ok hd'
    have hmem := List.mem_of_find?_eq_some hc
    rw [hcolumns] at hmem
    obtain ⟨decl, hdecl, rfl⟩ := List.mem_map.1 hmem
    have hname : decl.member = member := by simpa using List.find?_some hc
    exact hne decl hdecl (by rw [hname, ← hmember, hsame])
  · cases hr

namespace Unambiguous

variable {p : Path} {res : Resolution}

/-- A column path is no relationship path. -/
theorem walk?_eq_none (hm : m.Unambiguous) (ht : m.Covers t) (h : m.resolve t p = .ok res) :
    m.walk? t p = none := by
  obtain ⟨segments⟩ := p
  rcases List.eq_nil_or_concat segments with rfl | ⟨init, last, hconcat⟩
  · cases h
  rw [List.concat_eq_append] at hconcat
  subst hconcat
  obtain ⟨hhops, htable, hcolumn⟩ := resolve_concat_eq_ok h
  rw [Option.eq_none_iff_forall_ne_some]
  intro hops hwalk
  obtain ⟨before, r, hbefore, hr, -⟩ := walkMembers?_concat hwalk
  cases hhops.symm.trans hbefore
  have hend := (walk_of_walkMembers? hhops).covers_endOf ht
  rw [htable] at hcolumn
  rw [hm _ hend last _ hcolumn] at hr
  cases hr

/-- A column path that fans out is a path to the first relationship that does, and a column path
from there. -/
theorem resolve_split (hm : m.Unambiguous) (ht : m.Covers t) (h : m.resolve t p = .ok res) {i : Nat}
    {r : Relationship} (hmany : m.firstMany? t p = some (i, r)) :
    (p.drop (i + 1)).isEmpty = false ∧
      ∃ before res', m.resolveRelationship t (p.take (i + 1)) = .ok ⟨before, r⟩ ∧
        m.resolve r.child (p.drop (i + 1)) = .ok res' := by
  have hrest : (p.drop (i + 1)).isEmpty = false := by
    rw [Bool.eq_false_iff]
    intro hempty
    -- Otherwise the path itself leads to the relationship.
    obtain ⟨before, hwalk, -⟩ := walk?_firstMany? hmany
    have hall : p.take (i + 1) = p := by
      rw [Path.isEmpty, Path.drop, List.isEmpty_iff, List.drop_eq_nil_iff] at hempty
      rw [Path.take, List.take_of_length_le hempty]
    rw [hall, hm.walk?_eq_none ht h] at hwalk
    cases hwalk
  obtain ⟨before, res', hvia, hres', -⟩ := Model.resolve_split h hmany hrest
  exact ⟨hrest, before, res', hvia, hres'⟩

end Unambiguous

end Model

end EntityQuery
