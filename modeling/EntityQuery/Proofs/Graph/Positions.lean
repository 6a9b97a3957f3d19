import EntityQuery.Proofs.Graph.Parting

/-!
# Positions and paths

A table position has an identity and, in its lineage, the identities above it. With a naming
without collisions these tell the path that leads to the position: two positions have one identity
iff their paths are equal, and one lies above the other iff its path is the beginning of the
other's, however often the paths go round a cycle of the model.

Going up the lineage of the end of a walk is going back along the walk (`mem_lineage_endOf`).
-/

namespace EntityQuery

variable {m : Model} {t : Table}

namespace Model

/-! ## The lineage of the end of a walk -/

theorem Relates.lineage_child {r : Relationship} (h : m.Relates t r) :
    ∃ member, r.child.lineage = ⟨t.entity.name, t.identity, member⟩ :: t.lineage := by
  obtain ⟨rel, -, target, -, hchild⟩ := h.child_eq
  exact ⟨rel.member, by rw [hchild, childTable]⟩

/-- One step further, the position that the step starts from is on top of the lineage. -/
theorem lineage_endOf_concat {members : List String} {member : String} {hops : List Relationship}
    (h : m.walkMembers? t (members ++ [member]) = some hops) :
    ∃ before, m.walkMembers? t members = some before ∧
      ∃ parent, parent.identity = (endOf t before).identity ∧
        (endOf t hops).lineage = parent :: (endOf t before).lineage := by
  obtain ⟨before, r, hbefore, hr, rfl⟩ := walkMembers?_concat h
  obtain ⟨name, hlineage⟩ := (relates_of_relationship? hr).lineage_child
  exact ⟨before, hbefore, _, rfl, by rw [endOf_concat, hlineage]⟩

/-- **Up the lineage**: the identities above the end of a walk are those above its start, and those
at the ends of its proper beginnings. -/
theorem mem_lineage_endOf {members : List String} {hops : List Relationship}
    (h : m.walkMembers? t members = some hops) {id : Identity} :
    id ∈ (endOf t hops).lineage.map (·.identity) ↔
      id ∈ t.lineage.map (·.identity) ∨
        ∃ first before, first <+: members ∧ first ≠ members ∧
          m.walkMembers? t first = some before ∧ (endOf t before).identity = id := by
  -- From the end of the path, where the lineage grows.
  induction members using List.reverseRecOn generalizing hops with
  | nil =>
    cases h
    constructor
    · exact .inl
    · rintro (hid | ⟨first, -, hfirst, hne, -⟩)
      · exact hid
      · exact absurd (List.prefix_nil.1 hfirst) hne
  | append_singleton members member ih =>
    obtain ⟨before, hbefore, parent, hparent, hlineage⟩ := lineage_endOf_concat h
    rw [hlineage, List.map_cons, List.mem_cons, ih hbefore, hparent]
    constructor
    · rintro (rfl | hid | ⟨first, before', hfirst, hne, hwalk, rfl⟩)
      · exact .inr ⟨members, before, List.prefix_append _ _, by simp, hbefore, rfl⟩
      · exact .inl hid
      · refine .inr ⟨first, before', hfirst.trans (List.prefix_append _ _), ?_, hwalk, rfl⟩
        rintro rfl
        exact absurd hfirst.length_le (by simp)
    · rintro (hid | ⟨first, before', hfirst, hne, hwalk, rfl⟩)
      · exact .inr (.inl hid)
      · have hfirst := (List.prefix_concat_iff.1 hfirst).resolve_left hne
        by_cases heq : first = members
        · subst heq
          cases hbefore.symm.trans hwalk
          exact .inl rfl
        · exact .inr (.inr ⟨first, before', hfirst, heq, hwalk, rfl⟩)

/-! ## Positions below a root -/

section

variable {k : Nat} {ps qs : List Relationship} {p q : List String}

/-- One end lies below another iff the walk goes through it. -/
theorem isBelow_endOf (hn : Function.Injective m.naming.derive) (hk : m.naming.Depth t.identity k)
    (htop : t.lineage = []) (hp : m.walkMembers? t p = some ps)
    (hq : m.walkMembers? t q = some qs) :
    (endOf t ps).isBelow (endOf t qs) = true ↔ q <+: p ∧ q ≠ p := by
  have hmem : (endOf t ps).isBelow (endOf t qs) = true ↔
      (endOf t qs).identity ∈ (endOf t ps).lineage.map (·.identity) := by
    simp [Table.isBelow]
  rw [hmem, mem_lineage_endOf hp, htop]
  constructor
  · rintro (hid | ⟨first, before, hfirst, hne, hwalk, hid⟩)
    · cases hid
    · obtain rfl := endOf_inj hn hk hwalk hq hid
      exact ⟨hfirst, hne⟩
  · rintro ⟨hbegins, hne⟩
    exact .inr ⟨q, qs, hbegins, hne, hq, rfl⟩

theorem identity_endOf (hn : Function.Injective m.naming.derive)
    (hk : m.naming.Depth t.identity k) (hp : m.walkMembers? t p = some ps)
    (hq : m.walkMembers? t q = some qs) :
    (endOf t ps).identity = (endOf t qs).identity ↔ p = q := by
  refine ⟨endOf_inj hn hk hp hq, ?_⟩
  rintro rfl
  cases hp.symm.trans hq
  rfl

theorem isAtOrBelow_endOf (hn : Function.Injective m.naming.derive)
    (hk : m.naming.Depth t.identity k) (htop : t.lineage = [])
    (hp : m.walkMembers? t p = some ps) (hq : m.walkMembers? t q = some qs) :
    (endOf t ps).isAtOrBelow (endOf t qs) = true ↔ q <+: p := by
  rw [Table.isAtOrBelow, Bool.or_eq_true, beq_iff_eq, identity_endOf hn hk hp hq,
    isBelow_endOf hn hk htop hp hq]
  constructor
  · rintro (rfl | ⟨hbegins, -⟩)
    · exact List.prefix_rfl
    · exact hbegins
  · intro hbegins
    by_cases heq : p = q
    · exact .inl heq
    · exact .inr ⟨hbegins, Ne.symm heq⟩

/-- The family of a position is what lies below the one above it. -/
theorem isInFamilyOf_endOf (hn : Function.Injective m.naming.derive)
    (hk : m.naming.Depth t.identity k) (htop : t.lineage = [])
    (hp : m.walkMembers? t p = some ps) (hq : m.walkMembers? t q = some qs) :
    (endOf t ps).isInFamilyOf (endOf t qs) = true ↔
      (q ≠ [] → q.dropLast <+: p ∧ q.dropLast ≠ p) := by
  rcases List.eq_nil_or_concat q with rfl | ⟨init, last, rfl⟩
  · have hfamily := isAtOrBelow_endOf hn hk htop hp hq
    cases hq
    simpa [Table.isInFamilyOf, endOf, htop] using hfamily
  · rw [List.concat_eq_append] at hq ⊢
    obtain ⟨before, hbefore, parent, hparent, hlineage⟩ := lineage_endOf_concat hq
    have hfamily : (endOf t ps).isInFamilyOf (endOf t qs) =
        ((endOf t ps).identity != (endOf t before).identity &&
          (endOf t ps).isBelow (endOf t before)) := by
      rw [Table.isInFamilyOf, hlineage]
      simp only [hparent, Table.isBelow]
    rw [hfamily, Bool.and_eq_true, bne_iff_ne, ne_eq, identity_endOf hn hk hp hbefore,
      isBelow_endOf hn hk htop hp hbefore, List.dropLast_concat]
    constructor
    · exact fun h _ => h.2
    · intro h
      have hbelow := h (by simp)
      exact ⟨fun heq => hbelow.2 heq.symm, hbelow⟩

end

end Model

/-- **Positions are told apart and put in order as their paths are.** -/
theorem positions_match_paths (hn : Function.Injective m.naming.derive) (e : Entity)
    {id : Identity} (hid : ∀ parts, m.naming.derive parts ≠ id) {p q : Path}
    {ps qs : List Relationship} (hp : m.walk? (Model.root e id) p = some ps)
    (hq : m.walk? (Model.root e id) q = some qs) :
    let a := Model.endOf (Model.root e id) ps
    let b := Model.endOf (Model.root e id) qs
    (a.identity = b.identity ↔ p = q) ∧
    (a.isBelow b = true ↔ q.segments <+: p.segments ∧ q ≠ p) ∧
    (a.isAtOrBelow b = true ↔ q.segments <+: p.segments) ∧
    (a.isInFamilyOf b = true ↔ (q.segments ≠ [] →
      q.segments.dropLast <+: p.segments ∧ q.segments.dropLast ≠ p.segments)) := by
  have hk : m.naming.Depth (Model.root e id).identity 0 := .root hid
  have hsegments : ∀ {p q : Path}, p = q ↔ p.segments = q.segments := by
    intro p q
    cases p
    cases q
    simp
  refine ⟨?_, ?_, Model.isAtOrBelow_endOf hn hk rfl hp hq, Model.isInFamilyOf_endOf hn hk rfl hp hq⟩
  · rw [hsegments]
    exact Model.identity_endOf hn hk hp hq
  · rw [ne_eq, hsegments]
    exact Model.isBelow_endOf hn hk rfl hp hq

/-- Orders have a customer, who has orders, which have a customer: once round the cycle the table is
another one, below the first and not above it. -/
theorem positions_match_paths_shop :
    ∃ ps qs, (Shop.model Shop.plain).walk? Shop.orders ⟨["customer", "orders", "customer"]⟩ =
        some ps ∧
      (Shop.model Shop.plain).walk? Shop.orders ⟨["customer"]⟩ = some qs ∧
      let a := Model.endOf Shop.orders ps
      let b := Model.endOf Shop.orders qs
      a.entity = b.entity ∧ a.identity ≠ b.identity ∧ a.isBelow b = true ∧
        b.isAtOrBelow a = false ∧ a.isInFamilyOf b = true ∧ b.isInFamilyOf a = false := by
  have hn := Shop.faithful_plain.derive
  obtain ⟨ps, hps⟩ : ∃ ps, (Shop.model Shop.plain).walk? Shop.orders
      ⟨["customer", "orders", "customer"]⟩ = some ps := ⟨_, rfl⟩
  obtain ⟨qs, hqs⟩ : ∃ qs, (Shop.model Shop.plain).walk? Shop.orders ⟨["customer"]⟩ = some qs :=
    ⟨_, rfl⟩
  obtain ⟨hid, hbelow, -, hfamily⟩ :=
    positions_match_paths hn Shop.order Shop.derive_plain_ne_orders hps hqs
  obtain ⟨-, -, hat, hfamily'⟩ :=
    positions_match_paths hn Shop.order Shop.derive_plain_ne_orders hqs hps
  refine ⟨ps, qs, hps, hqs, ?_, ?_, hbelow.2 (by decide), ?_, hfamily.2 (by decide), ?_⟩
  · cases hps
    cases hqs
    rfl
  · exact fun h => absurd (hid.1 h) (by decide)
  · exact Bool.eq_false_iff.2 fun h => absurd (hat.1 h) (by decide)
  · exact Bool.eq_false_iff.2 fun h => absurd (hfamily'.1 h) (by decide)

end EntityQuery
