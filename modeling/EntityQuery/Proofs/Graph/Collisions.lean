import EntityQuery.Proofs.Graph.Cache
import EntityQuery.Proofs.Graph.Parting

/-!
# When names coincide

Identities and aliases are cut off the digests of messages. A message lists parts, each behind its
length in eight bytes, so it determines them (`Digest.framed_inj`).

**Tables.** The first part of a message is the identity of the parent. So two walks whose messages
do not collide lead to one identity only along the same members, which is read off the messages from
the end (`Hashed.members_eq`).

**Link tables.** A link table and a child are named by parts of one form, and `link:` may be the
name of an entity. There a child and a link table may have one message and so one name without any
collision (`Relationship.Crosses`); apart from that a name belongs to one table.
-/

namespace EntityQuery

open EntityQuery.Text (Bytes utf8 hex hexDigit shortHex)

/-! ## Messages -/

namespace Digest

/-- Eight bytes hold the length of each part. -/
def Short (parts : List Bytes) : Prop := ∀ part ∈ parts, part.length < 2 ^ 64

instance (parts : List Bytes) : Decidable (Short parts) :=
  inferInstanceAs (Decidable (∀ part ∈ parts, _))

theorem length_littleEndian (width n : Nat) : (littleEndian width n).length = width := by
  induction width generalizing n with
  | zero => rfl
  | succ width ih => rw [littleEndian, List.length_cons, ih]

/-- **A message determines its parts.** -/
theorem framed_inj {ps qs : List Bytes} (hps : Short ps) (hqs : Short qs)
    (h : framed ps = framed qs) : ps = qs := by
  induction ps generalizing qs with
  | nil =>
    cases qs with
    | nil => rfl
    | cons q qs => simp [framed, littleEndian] at h
  | cons p ps ih =>
    cases qs with
    | nil => simp [framed, littleEndian] at h
    | cons q qs =>
      rw [Short, List.forall_mem_cons] at hps hqs
      simp only [framed, List.flatMap_cons, List.append_assoc] at h
      -- The length comes first and tells where the part ends.
      obtain ⟨hsize, h⟩ := List.append_inj h (by simp only [length_littleEndian])
      have hlength : p.length = q.length := by
        have hmod := littleEndian_inj hsize
        rwa [show 256 ^ 8 = 2 ^ 64 by decide, Nat.mod_eq_of_lt hps.1, Nat.mod_eq_of_lt hqs.1]
          at hmod
      obtain ⟨rfl, hrest⟩ := List.append_inj h hlength
      rw [ih hps.2 hqs.2 hrest]

/-- The digests of two different messages have the same first `n` bytes, or that of a message has
those of a root. -/
def Collision (n : Nat) (roots : List Identity) (named : List (List Bytes)) : Prop :=
  ∃ x ∈ named, (∃ y ∈ named, framed x ≠ framed y ∧
      (sha256 (framed x)).take n = (sha256 (framed y)).take n) ∨
    ∃ root ∈ roots, (sha256 (framed x)).take n = root.bytes.take n

instance (n : Nat) (roots : List Identity) (named : List (List Bytes)) :
    Decidable (Collision n roots named) :=
  inferInstanceAs (Decidable (∃ x ∈ named, _))

end Digest

/-- A byte has two digits. -/
theorem Text.take_eq_of_hex {n : Nat} {a b : Bytes}
    (h : (hex a).take (2 * n) = (hex b).take (2 * n)) : a.take n = b.take n := by
  have hdigit : ∀ i < 16, ∀ j < 16, hexDigit i = hexDigit j → i = j := by decide
  induction n generalizing a b with
  | zero => rfl
  | succ n ih =>
    match a, b with
    | [], [] => rfl
    | [], _ :: _ => simp [hex, Nat.mul_add] at h
    | _ :: _, [] => simp [hex, Nat.mul_add] at h
    | x :: a, y :: b =>
      simp only [hex, List.flatMap_cons, Nat.mul_add, List.cons_append, List.nil_append,
        List.take_succ_cons, List.cons.injEq] at h
      have hhigh := hdigit _ (by have := x.toNat_lt; omega) _ (by have := y.toNat_lt; omega) h.1
      have hlow := hdigit _ (Nat.mod_lt _ (by decide)) _ (Nat.mod_lt _ (by decide)) h.2.1
      have hbyte : x = y := UInt8.toNat_inj.1 (by omega)
      rw [List.take_succ_cons, List.take_succ_cons, hbyte, ih h.2.2]

theorem Text.take_eq_of_shortHex {start : String} {a b : Bytes}
    (h : start ++ shortHex a 16 = start ++ shortHex b 16) : a.take 8 = b.take 8 := by
  refine take_eq_of_hex ?_
  have := congrArg String.toList h
  simpa [shortHex] using this

/-! ## Tables -/

/-- What the tables of the relationships are named by. -/
def partsOf (hops : List Relationship) : List (List Bytes) := hops.flatMap (·.parts.map (·.2))

theorem mem_partsOf {hops : List Relationship} {r : Relationship} (hr : r ∈ hops) {j : JoinStep}
    {parts : List Bytes} (h : (j, parts) ∈ r.parts) : parts ∈ partsOf hops :=
  List.mem_flatMap.2 ⟨r, hr, List.mem_map_of_mem h⟩

/-- The child `j` of one relationship and the link table `k` of another are named by one message. -/
structure Relationship.Crosses (r : Relationship) (j : JoinStep) (s : Relationship)
    (k : JoinStep) : Prop where
  child : j = r.childJoin
  link : s.linkJoin = some k
  parent : r.parent = s.parent
  entity : r.parent.entity.name = "link:"
  member : r.member = k.table
  table : r.child.entity.table = s.member

theorem Relationship.crosses_iff {r s : Relationship} {j k : JoinStep} (hj : j = r.childJoin)
    (hk : s.linkJoin = some k) (hparent : r.parent = s.parent) :
    r.Crosses j s k ↔ r.childParts = s.linkParts k := by
  simp only [childParts, linkParts, hparent, List.cons.injEq, utf8_injective.eq_iff, true_and,
    and_true]
  exact ⟨fun h => ⟨hparent ▸ h.entity, h.member, h.table⟩,
    fun h => ⟨hj, hk, hparent, hparent ▸ h.1, h.2.1, h.2.2⟩⟩

theorem Relationship.Crosses.identity_eq {m : Model} {t u : Table} {r s : Relationship}
    {j k : JoinStep} (h : r.Crosses j s k) (hr : m.Relates t r) (hs : m.Relates u s) :
    j.identity = k.identity := by
  rw [hr.identity_eq (mem_parts.2 (.inr ⟨h.child, rfl⟩)),
    hs.identity_eq (mem_parts.2 (.inl ⟨h.link, rfl⟩)),
    (crosses_iff h.child h.link h.parent).1 h]

/-- Below the roots `t` and `u`, names are `n` bytes of the digests of what is named by the parts,
without a collision. -/
structure Hashed (m : Model) (n : Nat) (t u : Table) (named : List (List Bytes)) : Prop where
  naming : m.naming = .hashed
  roots : t.identity = u.identity → t = u
  short : ∀ parts ∈ named, Digest.Short parts
  free : ¬ Digest.Collision n [t.identity, u.identity] named

namespace Hashed

variable {m : Model} {n : Nat} {t u : Table} {named : List (List Bytes)} {rs ss : List Relationship}
  {r s : Relationship} {j k : JoinStep} {x y : List Bytes} {ms ns : List String} {a b : String}

/-- A digest tells the parts. -/
theorem parts_eq (h : Hashed m n t u named) (hx : x ∈ named) (hy : y ∈ named)
    (hxy : (Digest.ofParts x).take n = (Digest.ofParts y).take n) : x = y :=
  Digest.framed_inj (h.short x hx) (h.short y hy)
    (not_not.1 fun hne => h.free ⟨x, hx, .inl ⟨y, hy, hne, hxy⟩⟩)

theorem take_derive (h : Hashed m n t u named) (hn : n ≤ 16) (x : List Bytes) :
    (m.naming.derive x).bytes.take n = (Digest.ofParts x).take n := by
  rw [h.naming]
  show ((Digest.ofParts x).take 16).take n = _
  rw [List.take_take, Nat.min_eq_left hn]

/-- **Walks to one identity** have one root and the same members. -/
theorem members_eq (h : Hashed m n t u named) (hn : n ≤ 16) (hsub : partsOf (rs ++ ss) ⊆ named)
    (hms : m.walkMembers? t ms = some rs) (hns : m.walkMembers? u ns = some ss)
    (hid : (Model.endOf t rs).identity = (Model.endOf u ss).identity) : t = u ∧ ms = ns := by
  have hmem {r : Relationship} (hr : r ∈ rs ++ ss) : r.childParts ∈ named :=
    hsub (mem_partsOf hr (Relationship.mem_parts.2 (.inr ⟨rfl, rfl⟩)))
  have hrs {r : Relationship} (hr : r ∈ rs) := (Model.walk_of_walkMembers? hms).child_identity hr
  have hss {s : Relationship} (hs : s ∈ ss) := (Model.walk_of_walkMembers? hns).child_identity hs
  refine (Model.eq_of_parts_eq hms hns (fun r hr s hs hrs' => ?_)
    (.inr ⟨fun r hr heq => ?_, fun s hs heq => ?_⟩) hid).imp_left h.roots
  · refine h.parts_eq (hmem (List.mem_append_left _ hr)) (hmem (List.mem_append_right _ hs)) ?_
    rw [← h.take_derive hn, ← h.take_derive hn, ← hrs hr, ← hss hs, hrs']
  · refine h.free ⟨_, hmem (List.mem_append_left _ hr), .inr ⟨u.identity, by simp, ?_⟩⟩
    rw [← heq, hrs hr]
    exact (h.take_derive hn _).symm
  · refine h.free ⟨_, hmem (List.mem_append_right _ hs), .inr ⟨t.identity, by simp, ?_⟩⟩
    rw [← heq, hss hs]
    exact (h.take_derive hn _).symm

/-- **A name belongs to one table**, or to a child and a link table that cross. -/
theorem same_of_take_eq (h : Hashed m n t u (partsOf (r :: s :: (rs ++ ss)))) (hn : n ≤ 16)
    (hms : m.walkMembers? t ms = some rs) (hns : m.walkMembers? u ns = some ss)
    (hr : m.relationship? (Model.endOf t rs) a = some r)
    (hs : m.relationship? (Model.endOf u ss) b = some s) (hj : j ∈ r.joins) (hk : k ∈ s.joins)
    (hjk : j.identity.bytes.take n = k.identity.bytes.take n) :
    t = u ∧ ms = ns ∧ a = b ∧ j = k ∨ r.Crosses j s k ∨ s.Crosses k r j := by
  obtain ⟨x, hx⟩ := Relationship.exists_parts hj
  obtain ⟨y, hy⟩ := Relationship.exists_parts hk
  have hr' := Model.relates_of_relationship? hr
  have hs' := Model.relates_of_relationship? hs
  rw [hr'.identity_eq hx, hs'.identity_eq hy, h.take_derive hn, h.take_derive hn] at hjk
  obtain rfl := h.parts_eq (mem_partsOf (by simp) hx) (mem_partsOf (by simp) hy) hjk
  rw [Relationship.mem_parts] at hx hy
  -- Both are derived from the identities of their parents, so these are one.
  have hparents : r.parent.identity = s.parent.identity := by
    rcases hx with ⟨-, rfl⟩ | ⟨-, rfl⟩ <;> rcases hy with ⟨-, hy⟩ | ⟨-, hy⟩ <;>
      exact congrArg Identity.mk (List.cons.inj hy).1
  rw [hr'.parent_eq, hs'.parent_eq] at hparents
  obtain ⟨rfl, rfl⟩ := h.members_eq hn (fun _ hx => by simp_all [partsOf]) hms hns hparents
  cases hms.symm.trans hns
  have hparent : r.parent = s.parent := hr'.parent_eq.trans hs'.parent_eq.symm
  have hsame (hmember : r.member = s.member) : a = b ∧ r = s := by
    rw [Model.member_of_relationship? hr, Model.member_of_relationship? hs] at hmember
    subst hmember
    exact ⟨rfl, Option.some.inj (hr.symm.trans hs)⟩
  rcases hx with ⟨hj, rfl⟩ | ⟨hj, rfl⟩ <;> rcases hy with ⟨hk, hy⟩ | ⟨hk, hy⟩
  · simp only [Relationship.linkParts, List.cons.injEq, utf8_injective.eq_iff] at hy
    obtain ⟨rfl, rfl⟩ := hsame hy.2.2.2.1
    exact .inl ⟨rfl, rfl, rfl, Option.some.inj (hj.symm.trans hk)⟩
  · exact .inr (.inr ((Relationship.crosses_iff hk hj hparent.symm).2 hy.symm))
  · exact .inr (.inl ((Relationship.crosses_iff hj hk hparent).2 hy))
  · simp only [Relationship.childParts, List.cons.injEq, utf8_injective.eq_iff] at hy
    obtain ⟨rfl, rfl⟩ := hsame hy.2.2.1
    exact .inl ⟨rfl, rfl, rfl, hj.trans hk.symm⟩

end Hashed

/-- **Names coincide by a collision only.** A message determines its parts. Of two walks and one
step further, whose messages do not collide in the bytes that an identity or an alias has, no two
tables have one identity or alias, apart from a child and a link table that cross; and no two
columns of the tables where two walks end have one alias. -/
theorem names_coincide_by_collision {m : Model} {t u : Table} {p q : Path}
    {rs ss : List Relationship} (hp : m.walk? t p = some rs) (hq : m.walk? u q = some ss) :
    (∀ ps qs : List Bytes, Digest.Short ps → Digest.Short qs →
      Digest.framed ps = Digest.framed qs → ps = qs) ∧
    (∀ (a b : String) (r s : Relationship), m.relationship? (Model.endOf t rs) a = some r →
      m.relationship? (Model.endOf u ss) b = some s → ∀ j ∈ r.joins, ∀ k ∈ s.joins,
      (Hashed m 16 t u (partsOf (r :: s :: (rs ++ ss))) → (j.identity = k.identity ↔
        t = u ∧ p = q ∧ a = b ∧ j = k ∨ r.Crosses j s k ∨ s.Crosses k r j)) ∧
      (Hashed m 8 t u (partsOf (r :: s :: (rs ++ ss))) → (j.label = k.label ↔
        t = u ∧ p = q ∧ a = b ∧ j = k ∨ r.Crosses j s k ∨ s.Crosses k r j))) ∧
    ∀ a b : EntityColumn, Hashed m 8 t u ([(Model.endOf t rs).identity.bytes, utf8 a.name] ::
        [(Model.endOf u ss).identity.bytes, utf8 b.name] :: partsOf (rs ++ ss)) →
      (m.columnAlias (Model.endOf t rs) a = m.columnAlias (Model.endOf u ss) b ↔
        t = u ∧ p = q ∧ a.name = b.name) := by
  refine ⟨fun ps qs => Digest.framed_inj, ?_, fun a b h => ?_⟩
  · intro a b r s hr hs j hj k hk
    have hr' := Model.relates_of_relationship? hr
    have hs' := Model.relates_of_relationship? hs
    have hidentity (h : t = u ∧ p = q ∧ a = b ∧ j = k ∨ r.Crosses j s k ∨ s.Crosses k r j) :
        j.identity = k.identity := by
      obtain ⟨-, -, -, rfl⟩ | hcross | hcross := h
      · rfl
      · exact hcross.identity_eq hr' hs'
      · exact (hcross.identity_eq hs' hr').symm
    have hsame {n : Nat} (hn : n ≤ 16) (h : Hashed m n t u (partsOf (r :: s :: (rs ++ ss))))
        (hjk : j.identity.bytes.take n = k.identity.bytes.take n) :=
      h.same_of_take_eq hn hp hq hr hs hj hk hjk
    rw [← Path.mk.injEq] at hsame
    refine ⟨fun h => ⟨fun hjk => hsame (Nat.le_refl _) h (by rw [hjk]), hidentity⟩, fun h => ?_⟩
    rw [hr'.label_eq hj, hs'.label_eq hk]
    refine ⟨fun hjk => hsame (by decide) h ?_, fun h => by rw [hidentity h]⟩
    rw [h.naming] at hjk
    exact Text.take_eq_of_shortHex hjk
  · rw [Model.columnAlias, Model.columnAlias, h.naming]
    refine ⟨fun halias => ?_, ?_⟩
    · have hparts := h.parts_eq (by simp) (by simp) (Text.take_eq_of_shortHex halias)
      simp only [List.cons.injEq, utf8_injective.eq_iff, and_true] at hparts
      obtain ⟨rfl, hmembers⟩ := h.members_eq (by decide) (fun _ hx => by simp [hx]) hp hq
        (congrArg Identity.mk hparts.1)
      exact ⟨rfl, congrArg Path.mk hmembers, hparts.2⟩
    · rintro ⟨rfl, rfl, hname⟩
      cases hp.symm.trans hq
      rw [hname]

namespace Shop

/-- The tags of a line of an order. -/
def hashedTags : Relationship :=
  (model .hashed).unfold (orderLines .hashed).child ⟨"tags", .manyToMany, "Tag", "id", "id",
    some ⟨none, "line_tags", "line_id", "tag_id", []⟩, []⟩ tag

theorem hashed_tables : Hashed (model .hashed) 8 orders orders
    (partsOf [hashedTags, orderLines .hashed, orderLines .hashed]) :=
  ⟨rfl, fun _ => rfl, by decide +kernel, by decide +kernel⟩

theorem hashed_columns : Hashed (model .hashed) 8 orders orders
    ([(orderLines .hashed).child.identity.bytes, utf8 "id"] :: [orders.identity.bytes, utf8 "id"] ::
      partsOf [orderLines .hashed]) :=
  ⟨rfl, fun _ => rfl, by decide +kernel, by decide +kernel⟩

end Shop

theorem names_coincide_by_collision_shop :
    Digest.framed [[1], [2]] ≠ Digest.framed [[1, 2]] ∧
    (∀ j ∈ Shop.hashedTags.joins, ∀ k ∈ (Shop.orderLines .hashed).joins, j.label ≠ k.label) ∧
    (Shop.model .hashed).columnAlias (Shop.orderLines .hashed).child (Shop.column "id") ≠
      (Shop.model .hashed).columnAlias Shop.orders (Shop.column "id") := by
  have hlines : (Shop.model .hashed).walk? Shop.orders ⟨["lines"]⟩ =
      some [Shop.orderLines .hashed] := rfl
  have hstart : (Shop.model .hashed).walk? Shop.orders ⟨[]⟩ = some [] := rfl
  obtain ⟨hframed, htables, hcolumns⟩ := names_coincide_by_collision hlines hstart
  refine ⟨fun h => ?_, fun j hj k hk h => ?_, fun h => ?_⟩
  · cases hframed _ _ (by decide) (by decide) h
  · obtain ⟨-, hpath, -⟩ | hcross | hcross := ((htables "tags" "lines" Shop.hashedTags
      (Shop.orderLines .hashed) rfl rfl j hj k hk).2 Shop.hashed_tables).1 h
    · cases hpath
    · exact absurd hcross.entity (by decide)
    · exact absurd hcross.entity (by decide)
  · cases ((hcolumns (Shop.column "id") (Shop.column "id") Shop.hashed_columns).1 h).2.1

namespace Knot

def hashed : Model := { model with naming := .hashed }

def hashedRelationship : Relationship := hashed.unfold table relation entity

end Knot

/-- An entity that is linked with itself by its own table, both named by one message. -/
theorem names_coincide_in_knot :
    Model.build .hashed none Knot.declarations = .ok Knot.hashed ∧
    Knot.hashed.relationship? Knot.table "x" = some Knot.hashedRelationship ∧
    Hashed Knot.hashed 8 Knot.table Knot.table (partsOf [Knot.hashedRelationship]) ∧
    ∃ link, Knot.hashedRelationship.linkJoin = some link ∧
      link ≠ Knot.hashedRelationship.childJoin ∧
      link.identity = Knot.hashedRelationship.childJoin.identity ∧
      link.label = Knot.hashedRelationship.childJoin.label := by
  have hr : Knot.hashed.relationship? Knot.table "x" = some Knot.hashedRelationship := rfl
  have hrelates := Model.relates_of_relationship? hr
  obtain ⟨link, hlink⟩ : ∃ link, Knot.hashedRelationship.linkJoin = some link := ⟨_, rfl⟩
  have hcross : Knot.hashedRelationship.Crosses _ Knot.hashedRelationship link :=
    ⟨rfl, hlink, rfl, rfl, by cases hlink; rfl, rfl⟩
  have hidentity := (hcross.identity_eq hrelates hrelates).symm
  refine ⟨rfl, hr, ⟨rfl, fun _ => rfl, by decide +kernel, by decide +kernel⟩,
    link, hlink, ?_, hidentity, ?_⟩
  · cases hlink
    exact ne_of_apply_ne JoinStep.leftColumn (by decide)
  · rw [hrelates.label_eq (by simp [Relationship.joins, hlink]), hidentity,
      hrelates.label_eq (by simp [Relationship.joins])]

end EntityQuery
