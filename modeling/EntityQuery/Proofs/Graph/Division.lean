import EntityQuery.Proofs.Graph.Walk

/-!
# Where paths are divided

A path that goes on behind a fan-out is divided there (`Model.dividesAt?`): the first part leads to
the relationship that fans out and the rest is looked up from its child. So the first part fans out
at its end and nowhere before, and so does a path that is not divided (`Model.NarrowTo`).

Column paths and relationship paths are divided by the same rule, which does not look at the last
member.
-/

namespace EntityQuery

variable {m : Model} {t : Table} {via : Path}

theorem Path.continues_iff {path : Path} :
    path.continues via = true ↔ ∃ rest, rest ≠ [] ∧ path.segments = via.segments ++ rest := by
  rw [continues, startsWith, Bool.and_eq_true, decide_eq_true_eq, List.isPrefixOf_iff_prefix]
  simp only [length]
  constructor
  · intro h
    obtain ⟨hlt, rest, hrest⟩ := h
    refine ⟨rest, ?_, hrest.symm⟩
    intro heq
    subst heq
    simp [← hrest] at hlt
  · intro h
    obtain ⟨rest, hne, hpath⟩ := h
    rw [hpath, List.length_append]
    have := List.length_pos_iff.2 hne
    exact ⟨by omega, List.prefix_append _ _⟩

theorem Path.continues_take {path : Path} {n : Nat} (h : n < path.length) :
    path.continues (path.take n) = true := by
  refine continues_iff.2 ⟨path.segments.drop n, fun hnil => ?_, (List.take_append_drop n _).symm⟩
  exact absurd (List.drop_eq_nil_iff.1 hnil) (Nat.not_le.2 h)

theorem Path.length_take_of_lt {path : Path} {n : Nat} (h : n < path.length) :
    (path.take n).length = n := by
  rw [length_take, Nat.min_eq_left (Nat.le_of_lt h)]

theorem Path.drop_eq {path : Path} {rest : List String} (h : path.segments = via.segments ++ rest) :
    path.drop via.length = ⟨rest⟩ := by
  rw [drop, h, length, List.drop_left]

namespace Model

variable {path : Path} {hops : List Relationship} {r : Resolution} {route : Route}

/-! ## Behind a relationship -/

/-- What lies behind a relationship is found from its child. -/
theorem resolveRelationship_drop {route' : Route} (hvia : m.resolveRelationship t via = .ok route)
    (hpath : m.resolveRelationship t path = .ok route') (hbelow : path.continues via = true) :
    ∃ before, m.resolveRelationship route.last.child (path.drop via.length) =
      .ok ⟨before, route'.last⟩ ∧ route'.before = route.hops ++ before := by
  obtain ⟨rest, hne, hsegments⟩ := Path.continues_iff.1 hbelow
  have hwalk := resolveRelationship_eq_ok hpath
  rw [walk?, hsegments, walkMembers?_append] at hwalk
  obtain ⟨hops₁, hops₂, h₁, h₂, heq⟩ := hwalk
  cases (resolveRelationship_eq_ok hvia).symm.trans h₁
  -- The rest is not empty, so its last relationship is that of the path.
  obtain ⟨before, last, rfl⟩ : ∃ before last, hops₂ = before ++ [last] := by
    rcases List.eq_nil_or_concat hops₂ with hnil | ⟨before, last, h⟩
    · have hlen := length_walkMembers? h₂
      rw [hnil] at hlen
      exact absurd (List.length_eq_zero_iff.1 hlen.symm) hne
    · exact ⟨before, last, by rw [h, List.concat_eq_append]⟩
  rw [← List.append_assoc] at heq
  obtain rfl : route'.last = last := (List.append_inj_right' heq rfl |> List.cons.inj).1
  rw [Path.drop_eq hsegments]
  rw [Route.hops, endOf_append, endOf_cons] at h₂
  exact ⟨before, resolveRelationship_of_walk h₂, List.append_inj_left' heq rfl⟩

theorem resolve_drop (hvia : m.resolveRelationship t via = .ok route)
    (hpath : m.resolve t path = .ok r) (hbelow : path.continues via = true) :
    ∃ hops, m.resolve route.last.child (path.drop via.length) = .ok ⟨hops, r.table, r.column⟩ ∧
      r.hops = route.hops ++ hops := by
  obtain ⟨rest, hne, hsegments⟩ := Path.continues_iff.1 hbelow
  rw [Path.drop_eq hsegments]
  obtain ⟨init, last, hconcat⟩ := (List.eq_nil_or_concat rest).resolve_left hne
  rw [List.concat_eq_append] at hconcat
  subst hconcat
  obtain ⟨segments⟩ := path
  rw [← List.append_assoc] at hsegments
  change segments = _ at hsegments
  subst hsegments
  obtain ⟨hwalk, htable, hcolumn⟩ := resolve_concat_eq_ok hpath
  obtain ⟨hops₁, hops, h₁, h₂, heq⟩ := walkMembers?_append.1 hwalk
  cases (resolveRelationship_eq_ok hvia).symm.trans h₁
  rw [Route.hops, endOf_append, endOf_cons] at h₂
  have hend : r.table = endOf route.last.child hops := by
    rw [htable, heq, Route.hops, endOf_append, endOf_append, endOf_cons]
    rfl
  refine ⟨hops, ?_, heq⟩
  rw [hend] at hcolumn ⊢
  exact resolve_concat h₂ hcolumn

/-! ## Dividing -/

/-- A relationship path fans out at its end only. -/
def NarrowTo (m : Model) (t : Table) (path : Path) : Prop :=
  ∀ route, m.resolveRelationship t path = .ok route → ∀ r ∈ route.before, r.fansOut = false

theorem narrowTo_of_walk (h : m.walk? t path = some hops)
    (hone : ∀ r ∈ hops.dropLast, r.fansOut = false) : m.NarrowTo t path := by
  intro route hroute
  cases h.symm.trans (resolveRelationship_eq_ok hroute)
  rwa [Route.hops, List.dropLast_concat] at hone

/-- Where a path fans out first, if it goes on behind that. -/
def dividesAt? (m : Model) (t : Table) (path : Path) : Option Nat :=
  ((m.firstMany? t path).map (·.1 + 1)).filter (· < path.length)

/-- Where a chain of members fans out first, part by part. -/
theorem firstManyMember?_append {before : List String} (h : m.walkMembers? t before = some hops)
    (start : Nat) (rest : List String) :
    m.firstManyMember? t start (before ++ rest) =
      (((hops.zipIdx start).find? (·.1.fansOut)).map Prod.swap).or
        (m.firstManyMember? (endOf t hops) (start + before.length) rest) := by
  induction before generalizing t hops start with
  | nil =>
    cases h
    rfl
  | cons member before ih =>
    obtain ⟨r, hops', hr, hrest, rfl⟩ := walkMembers?_cons.1 h
    rw [List.cons_append, firstManyMember?, hr, Option.bind_eq_bind, Option.bind_some,
      List.zipIdx_cons, List.find?_cons, endOf_cons]
    by_cases hfan : r.fansOut = true
    · simp [hfan]
    · rw [if_neg hfan, ih hrest, List.length_cons, Nat.add_assoc, Nat.add_comm 1]
      simp [hfan]

/-- All members are relationships. -/
theorem firstMany?_of_walk (h : m.walk? t path = some hops) :
    m.firstMany? t path = (hops.zipIdx.find? (·.1.fansOut)).map Prod.swap := by
  have hfirst := firstManyMember?_append h 0 []
  rwa [List.append_nil, firstManyMember?, Option.or_none] at hfirst

/-- Only the members before the last matter. -/
theorem dividesAt?_concat {init : List String} (h : m.walkMembers? t init = some hops)
    (last : String) :
    m.dividesAt? t ⟨init ++ [last]⟩ = (hops.findIdx? (·.fansOut)).map (· + 1) := by
  have hlen := length_walkMembers? h
  rw [dividesAt?, firstMany?, firstManyMember?_append h, List.findIdx?_eq_fst_find?_zipIdx]
  cases hfind : hops.zipIdx.find? (·.1.fansOut) with
  | some first =>
    obtain ⟨r, i⟩ := first
    have hlt := List.snd_lt_of_mem_zipIdx (List.mem_of_find?_eq_some hfind)
    rw [Nat.add_zero] at hlt
    simp [Path.length, ← hlen, hlt]
  | none =>
    simp only [firstManyMember?, Option.map_none, Option.none_or]
    cases m.relationship? (endOf t hops) last with
    | none => rfl
    | some r => by_cases hfan : r.fansOut = true <;> simp [hfan, Path.length]

theorem dividesAt?_of_resolve (h : m.resolve t path = .ok r) :
    m.dividesAt? t path = r.firstMany?.map (· + 1) := by
  obtain ⟨member, hlast, -⟩ := resolve_eq_ok h
  obtain ⟨init, hinit⟩ := List.getLast?_eq_some_iff.1 hlast
  obtain ⟨segments⟩ := path
  change segments = _ at hinit
  subst hinit
  obtain ⟨hwalk, -, -⟩ := resolve_concat_eq_ok h
  exact dividesAt?_concat hwalk member

/-- A column path with no member that fans out crosses none. -/
theorem crossesMany_of_firstMany? (h : m.resolve t path = .ok r)
    (hmany : m.firstMany? t path = none) : r.crossesMany = false := by
  have hdivides := dividesAt?_of_resolve h
  rw [dividesAt?, hmany, Option.map_none, Option.filter_none, eq_comm, Option.map_eq_none_iff]
    at hdivides
  rw [Resolution.crossesMany, hdivides, Option.isSome_none]

theorem dividesAt?_of_route (h : m.resolveRelationship t path = .ok route) :
    m.dividesAt? t path =
      ((route.hops.findIdx? (·.fansOut)).map (· + 1)).filter (· < path.length) := by
  rw [dividesAt?, firstMany?_of_walk (resolveRelationship_eq_ok h),
    List.findIdx?_eq_fst_find?_zipIdx, Option.map_map, Option.map_map]
  rfl

/-- A path that is not divided fans out at its end only. -/
theorem narrowTo_of_dividesAt?_eq_none (h : m.dividesAt? t path = none) : m.NarrowTo t path := by
  intro route hroute r hr
  have hlen := length_walkMembers? (resolveRelationship_eq_ok hroute)
  rw [dividesAt?_of_route hroute] at h
  rw [Route.hops, List.length_append, List.length_singleton] at hlen
  cases hi : route.hops.findIdx? (·.fansOut) with
  | none =>
    have hnone := List.findIdx?_eq_none_iff.1 hi r (List.mem_append_left _ hr)
    simpa using hnone
  | some i =>
    obtain ⟨hi', -, hbefore⟩ := List.findIdx?_eq_some_iff_getElem.1 hi
    obtain ⟨j, hj, rfl⟩ := List.getElem_of_mem hr
    have hlast : ¬ i + 1 < path.length := by simpa [hi] using h
    have hji : j < i := by
      simp only [Path.length] at hlast
      omega
    simpa [Route.hops, List.getElem_append_left hj] using hbefore j hji

/-- And so does its first part, if it is divided. -/
theorem narrowTo_dividesAt? {n : Nat} (h : m.dividesAt? t path = some n) :
    m.NarrowTo t (path.take n) := by
  obtain ⟨hmany, -⟩ := Option.filter_eq_some_iff.1 h
  obtain ⟨⟨i, r⟩, hfirst, rfl⟩ := Option.map_eq_some_iff.1 hmany
  obtain ⟨before, hwalk, hone⟩ := walk?_firstMany? hfirst
  refine narrowTo_of_walk hwalk ?_
  rwa [List.dropLast_concat]

theorem dividesAt?_lt {n : Nat} (h : m.dividesAt? t path = some n) : 0 < n ∧ n < path.length := by
  obtain ⟨hmany, hlt⟩ := Option.filter_eq_some_iff.1 h
  obtain ⟨first, -, rfl⟩ := Option.map_eq_some_iff.1 hmany
  exact ⟨Nat.succ_pos _, by simpa using hlt⟩

end Model

end EntityQuery
