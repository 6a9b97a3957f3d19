import EntityQuery.Proofs.Graph.Division
import EntityQuery.Proofs.Graph.Members

/-!
# What a path leads to

A path is looked up in three ways: as a column path, as a relationship path, and only as far as it
takes to find where it fans out. The first follows all members but the last, the second all of
them, and the third stops early, so each meets the last member in its own way.

In a model that was built no member is both a column and a relationship. So a path leads to a
column, to a relationship, or nowhere (`Unambiguous.resolve_cases`); the errors of the first two
look-ups tell which; and the third finds the first fan-out of the walk there is
(`firstMany?_of_walk`, `Unambiguous.firstMany?_of_resolve`).
-/

namespace EntityQuery

variable {m : Model} {t : Table} {p : Path}

/-! ## The first fan-out of a walk -/

/-- The relationship at the index `i` is the first one that fans out. -/
def FirstMany (hops : List Relationship) (i : Nat) (r : Relationship) : Prop :=
  hops[i]? = some r ∧ r.fansOut = true ∧ ∀ s ∈ hops.take i, s.fansOut = false

theorem find?_fansOut_eq_some {hops : List Relationship} {i : Nat} {r : Relationship} :
    (hops.zipIdx.find? (·.1.fansOut)).map Prod.swap = some (i, r) ↔ FirstMany hops i r := by
  have hswap : (hops.zipIdx.find? (·.1.fansOut)).map Prod.swap = some (i, r) ↔
      hops.zipIdx.find? (·.1.fansOut) = some (r, i) := by
    rw [Option.map_eq_some_iff]
    constructor
    · rintro ⟨⟨r', i'⟩, hfind, hpair⟩
      cases hpair
      exact hfind
    · exact fun hfind => ⟨(r, i), hfind, rfl⟩
  rw [hswap, List.find?_eq_some_iff_getElem, FirstMany, List.getElem?_eq_some_iff]
  simp only [List.getElem_zipIdx, Prod.mk.injEq, Nat.zero_add, List.length_zipIdx,
    List.mem_take_iff_getElem]
  constructor
  · rintro ⟨hfan, j, hj, ⟨rfl, rfl⟩, hbefore⟩
    refine ⟨⟨hj, rfl⟩, hfan, ?_⟩
    rintro s ⟨k, hk, rfl⟩
    simpa using hbefore k (by omega)
  · rintro ⟨⟨hi, rfl⟩, hfan, hbefore⟩
    refine ⟨hfan, i, hi, ⟨rfl, rfl⟩, fun k hk => ?_⟩
    simp [hbefore _ ⟨k, by omega, rfl⟩]

/-! ## Outcomes -/

namespace Model

/-- The last member of a walk is looked up where the others lead. -/
theorem walkMembers?_concat_eq (init : List String) (last : String) :
    m.walkMembers? t (init ++ [last]) = (m.walkMembers? t init).bind fun hops =>
      (m.relationship? (endOf t hops) last).map fun r => hops ++ [r] := by
  ext hops
  simp only [walkMembers?_append, walkMembers?_cons, Option.bind_eq_some_iff,
    Option.map_eq_some_iff]
  constructor
  · rintro ⟨before, _, hbefore, ⟨r, _, hr, hnil, rfl⟩, rfl⟩
    cases hnil
    exact ⟨before, hbefore, r, hr, rfl⟩
  · rintro ⟨before, hbefore, r, hr, rfl⟩
    exact ⟨before, [r], hbefore, ⟨r, [], hr, rfl, rfl⟩, rfl⟩

/-- A column path that is no walk. -/
theorem resolveRelationship_of_resolve {r : Resolution} (hwalk : m.walk? t p = none)
    (h : m.resolve t p = .ok r) :
    m.resolveRelationship t p = .error (.notARelationship t.entity.name p) := by
  simp [resolveRelationship, hwalk, h]

/-- Neither a walk nor a column path. -/
theorem resolveRelationship_of_error {e : QueryError} (hwalk : m.walk? t p = none)
    (h : m.resolve t p = .error e) :
    m.resolveRelationship t p = .error (.pathNotFound t.entity.name p) := by
  simp [resolveRelationship, hwalk, h]

/-- Where the members before the last lead nowhere, the path does. -/
theorem resolve_concat_of_walk {init : List String} (h : m.walkMembers? t init = none)
    (last : String) :
    m.resolve t ⟨init ++ [last]⟩ = .error (.pathNotFound t.entity.name ⟨init ++ [last]⟩) := by
  simp [resolve, walk?, Path.last?, Path.take, Path.length, h]

/-- A last member that is no column is a relationship or nothing. -/
theorem resolve_concat_of_column {init : List String} {hops : List Relationship} {last : String}
    (h : m.walkMembers? t init = some hops) (hcolumn : (endOf t hops).column? last = none) :
    m.resolve t ⟨init ++ [last]⟩ =
      if (m.relationship? (endOf t hops) last).isSome then
        .error (.notAColumn t.entity.name ⟨init ++ [last]⟩)
      else .error (.pathNotFound t.entity.name ⟨init ++ [last]⟩) := by
  simp [resolve, walk?, Path.last?, Path.take, Path.length, h, hcolumn]

namespace Unambiguous

/-- **A path leads to a column, to a relationship, or nowhere.** -/
theorem resolve_cases (hm : m.Unambiguous) (ht : m.Covers t) (p : Path) :
    (∃ r, m.resolve t p = .ok r ∧
      m.resolveRelationship t p = .error (.notARelationship t.entity.name p)) ∨
    (∃ route, m.resolveRelationship t p = .ok route ∧
      m.resolve t p = .error (.notAColumn t.entity.name p)) ∨
    (m.resolve t p = .error (.pathNotFound t.entity.name p) ∧
      m.resolveRelationship t p = .error (.pathNotFound t.entity.name p)) := by
  obtain ⟨segments⟩ := p
  rcases List.eq_nil_or_concat segments with rfl | ⟨init, last, hconcat⟩
  · exact .inr (.inr ⟨rfl, rfl⟩)
  rw [List.concat_eq_append] at hconcat
  subst hconcat
  have hwalk : m.walk? t ⟨init ++ [last]⟩ = _ := walkMembers?_concat_eq init last
  cases hinit : m.walkMembers? t init with
  | none =>
    have hnone := resolve_concat_of_walk hinit last
    rw [hinit, Option.bind_none] at hwalk
    exact .inr (.inr ⟨hnone, resolveRelationship_of_error hwalk hnone⟩)
  | some hops =>
    rw [hinit, Option.bind_some] at hwalk
    cases hcolumn : (endOf t hops).column? last with
    | some column =>
      have hresolve := resolve_concat hinit hcolumn
      exact .inl ⟨_, hresolve,
        resolveRelationship_of_resolve (hm.walk?_eq_none ht hresolve) hresolve⟩
    | none =>
      have hresolve := resolve_concat_of_column hinit hcolumn
      cases hr : m.relationship? (endOf t hops) last with
      | some r =>
        rw [hr, Option.map_some] at hwalk
        rw [hr, Option.isSome_some, if_pos rfl] at hresolve
        exact .inr (.inl ⟨_, resolveRelationship_of_walk hwalk, hresolve⟩)
      | none =>
        rw [hr, Option.map_none] at hwalk
        rw [hr, Option.isSome_none, if_neg Bool.false_ne_true] at hresolve
        exact .inr (.inr ⟨hresolve, resolveRelationship_of_error hwalk hresolve⟩)

/-- The last member of a column path is no relationship, so it does not fan out. -/
theorem firstMany?_of_resolve (hm : m.Unambiguous) (ht : m.Covers t) {r : Resolution}
    (h : m.resolve t p = .ok r) :
    m.firstMany? t p = (r.hops.zipIdx.find? (·.1.fansOut)).map Prod.swap := by
  obtain ⟨member, hlast, -⟩ := resolve_eq_ok h
  obtain ⟨init, hinit⟩ := List.getLast?_eq_some_iff.1 hlast
  obtain ⟨segments⟩ := p
  change segments = _ at hinit
  subst hinit
  obtain ⟨hwalk, htable, hcolumn⟩ := resolve_concat_eq_ok h
  have hend := (walk_of_walkMembers? hwalk).covers_endOf ht
  have hnone := hm _ hend member _ (htable ▸ hcolumn)
  rw [firstMany?, firstManyMember?_append hwalk, firstManyMember?, hnone, Option.bind_eq_bind,
    Option.bind_none, Option.or_none]

end Unambiguous

end Model

/-- **The look-ups of a path agree.** In a model that was built, no path is both a column path and a
relationship path; each look-up fails in a way of its own where the other succeeds, and both in the
same way where neither does; and the first fan-out of a path, looked up by itself, is the first of
the relationships that it resolves to. -/
theorem resolve_trichotomy {naming : Naming} {schema : Option String} {all : List EntityDecl}
    (h : Model.build naming schema all = .ok m) (ht : m.Covers t) (p : Path) :
    ¬ ((∃ r, m.resolve t p = .ok r) ∧ ∃ route, m.resolveRelationship t p = .ok route) ∧
    ((∃ entity path, m.resolve t p = .error (.notAColumn entity path)) ↔
      ∃ route, m.resolveRelationship t p = .ok route) ∧
    ((∃ entity path, m.resolveRelationship t p = .error (.notARelationship entity path)) ↔
      ∃ r, m.resolve t p = .ok r) ∧
    ((∀ r, m.resolve t p ≠ .ok r) → (∀ route, m.resolveRelationship t p ≠ .ok route) →
      m.resolve t p = .error (.pathNotFound t.entity.name p) ∧
        m.resolveRelationship t p = .error (.pathNotFound t.entity.name p)) ∧
    (∀ r, m.resolve t p = .ok r →
      (∀ i hop, m.firstMany? t p = some (i, hop) ↔ FirstMany r.hops i hop) ∧
        r.firstMany? = (m.firstMany? t p).map (·.1)) ∧
    (∀ route, m.resolveRelationship t p = .ok route →
      ∀ i hop, m.firstMany? t p = some (i, hop) ↔ FirstMany route.hops i hop) := by
  have hm := Model.unambiguous_build h
  have hcolumn : ∀ r, m.resolve t p = .ok r →
      (∀ i hop, m.firstMany? t p = some (i, hop) ↔ FirstMany r.hops i hop) ∧
        r.firstMany? = (m.firstMany? t p).map (·.1) := by
    intro r hr
    rw [hm.firstMany?_of_resolve ht hr]
    refine ⟨fun _ _ => find?_fansOut_eq_some, ?_⟩
    rw [Resolution.firstMany?, List.findIdx?_eq_fst_find?_zipIdx, Option.map_map]
    rfl
  have hroute : ∀ route, m.resolveRelationship t p = .ok route →
      ∀ i hop, m.firstMany? t p = some (i, hop) ↔ FirstMany route.hops i hop := by
    intro route hroute i hop
    rw [Model.firstMany?_of_walk (Model.resolveRelationship_eq_ok hroute)]
    exact find?_fansOut_eq_some
  rcases hm.resolve_cases ht p with ⟨r, hr, hnot⟩ | ⟨route, hr, hnot⟩ | ⟨hr, hnot⟩
  · refine ⟨?_, ?_, ?_, ?_, hcolumn, hroute⟩ <;> simp [hr, hnot]
  · refine ⟨?_, ?_, ?_, ?_, hcolumn, hroute⟩ <;> simp [hr, hnot]
  · refine ⟨?_, ?_, ?_, ?_, hcolumn, hroute⟩ <;> simp [hr, hnot]

/-- The column path from an order to the other orders of its customer fans out in its second
member, and as a relationship path it is refused. -/
theorem Shop.resolve_trichotomy_customerOrders :
    (∃ entity path, (Shop.model Shop.plain).resolveRelationship Shop.orders
        ⟨["customer", "orders", "id"]⟩ = .error (.notARelationship entity path)) ∧
    ∃ r hop, (Shop.model Shop.plain).resolve Shop.orders ⟨["customer", "orders", "id"]⟩ = .ok r ∧
      (Shop.model Shop.plain).firstMany? Shop.orders ⟨["customer", "orders", "id"]⟩ =
        some (1, hop) ∧ FirstMany r.hops 1 hop := by
  obtain ⟨-, -, hnot, -, hcolumn, -⟩ := resolve_trichotomy (Shop.build_declarations Shop.plain)
    (Shop.covers_orders Shop.plain) ⟨["customer", "orders", "id"]⟩
  exact ⟨hnot.2 ⟨_, rfl⟩, _, _, rfl, rfl, ((hcolumn _ rfl).1 1 _).1 rfl⟩

end EntityQuery
