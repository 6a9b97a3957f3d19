import EntityQuery.Proofs.Graph.Walk
import EntityQuery.Proofs.Success
import Mathlib.Data.List.Nodup

/-!
# Aliases of positions

When the tables along a walk have different aliases.

**Depth.** An identity that is never derived has depth zero, and one derived from another is one
level below it (`Naming.Depth`). With an injective `derive` an identity has one depth, so positions
on different levels of a walk have different identities.

**Link tables.** On one level there may be two: the child and the link table on the way to it. The
identity of a child is derived from the position, the name of its entity, the member and the target
table; the identity of a link table from the position, the text `link:`, the link table and the
member. So the two are the same in an entity that is itself called `link:`, where the member, the
target table and the link table all have one name (`Relationship.LinkClash`). Apart from that the
aliases along a walk differ (`Model.Walk.nodup_labels_iff`).
-/

namespace EntityQuery

open EntityQuery.Text (utf8)

/-! ## Bytes of a text -/

theorem toList_loop (bytes : ByteArray) (i : Nat) (acc : List UInt8) :
    ByteArray.toList.loop bytes i acc = acc.reverse ++ bytes.data.toList.drop i := by
  fun_induction ByteArray.toList.loop bytes i acc with
  | case1 i acc hlt ih =>
    have hi : i < bytes.data.toList.length := hlt
    rw [ih, List.drop_eq_getElem_cons hi]
    simp [ByteArray.get!, getElem!_pos, hlt]
  | case2 i acc hge =>
    have hi : bytes.data.toList.length ≤ i := Nat.not_lt.1 hge
    rw [List.drop_eq_nil_of_le hi, List.append_nil]

theorem utf8_injective : Function.Injective utf8 := by
  intro a b h
  simp only [utf8, ByteArray.toList, toList_loop, List.reverse_nil, List.nil_append,
    List.drop_zero] at h
  exact String.toByteArray_inj.1 (ByteArray.ext (Array.toList_inj.1 h))

/-! ## Names without collisions -/

/-- Different parts give different identities, different identities different aliases, and no
table has the alias of a CTE. -/
structure Naming.Faithful (n : Naming) : Prop where
  derive : Function.Injective n.derive
  tableAlias : Function.Injective n.tableAlias
  ne_cteName : ∀ id i, n.tableAlias id ≠ Build.cteName i

/-- No table has the alias of a CTE. -/
def Naming.AvoidsCtes (n : Naming) : Prop := ∀ id i, n.tableAlias id ≠ Build.cteName i

/-- The last holds of digests too: they begin with another letter. -/
theorem tableAlias_ne_cteName (id : Identity) (i : Nat) :
    Naming.hashed.tableAlias id ≠ Build.cteName i := by
  intro h
  have htext := congrArg String.toList h
  simp [Naming.hashed, Build.cteName] at htext

/-! ## Depth -/

/-- How often an identity was derived from another. -/
inductive Naming.Depth (n : Naming) : Identity → Nat → Prop
  | root {id : Identity} : (∀ parts, n.derive parts ≠ id) → n.Depth id 0
  | derived {id : Identity} {k : Nat} (rest : List Text.Bytes) :
      n.Depth id k → n.Depth (n.derive (id.bytes :: rest)) (k + 1)

theorem Naming.Depth.unique {n : Naming} (hn : Function.Injective n.derive) {id : Identity}
    {k l : Nat} (hk : n.Depth id k) (hl : n.Depth id l) : k = l := by
  induction hk generalizing l with
  | root hroot =>
    cases hl with
    | root => rfl
    | derived rest => exact absurd rfl (hroot _)
  | @derived id k rest _ ih =>
    generalize hid : n.derive (id.bytes :: rest) = id' at hl
    cases hl with
    | root hroot => exact absurd hid (hroot _)
    | @derived id'' l rest' hl =>
      obtain ⟨hbytes, -⟩ := List.cons.inj (hn hid)
      have hid : id = id'' := congrArg Identity.mk hbytes
      rw [ih (hid ▸ hl)]

variable {m : Model} {t : Table} {r : Relationship} {hops : List Relationship}

/-! ## What identities are derived from -/

namespace Relationship

def linkParts (r : Relationship) (link : JoinStep) : List Text.Bytes :=
  [r.parent.identity.bytes, utf8 "link:", utf8 link.table, utf8 r.member]

def childParts (r : Relationship) : List Text.Bytes :=
  [r.parent.identity.bytes, utf8 r.parent.entity.name, utf8 r.member, utf8 r.child.entity.table]

/-- The joins, each with the parts that the identity of its table is derived from. -/
def parts (r : Relationship) : List (JoinStep × List Text.Bytes) :=
  (r.linkJoin.map fun link => (link, r.linkParts link)).toList ++ [(r.childJoin, r.childParts)]

theorem mem_parts {j : JoinStep} {parts : List Text.Bytes} : (j, parts) ∈ r.parts ↔
    r.linkJoin = some j ∧ parts = r.linkParts j ∨ j = r.childJoin ∧ parts = r.childParts := by
  rw [Relationship.parts, List.mem_append, Option.mem_toList, List.mem_singleton, Prod.mk.injEq,
    Option.map_eq_some_iff]
  refine or_congr_left ⟨?_, fun h => ⟨j, h.1, by rw [h.2]⟩⟩
  rintro ⟨link, hlink, h⟩
  cases h
  exact ⟨hlink, rfl⟩

theorem exists_parts {j : JoinStep} (hj : j ∈ r.joins) : ∃ parts, (j, parts) ∈ r.parts := by
  rw [joins, List.mem_append, Option.mem_toList, List.mem_singleton] at hj
  rcases hj with hj | hj
  · exact ⟨_, mem_parts.2 (.inl ⟨hj, rfl⟩)⟩
  · exact ⟨_, mem_parts.2 (.inr ⟨hj, rfl⟩)⟩

end Relationship

theorem Model.Relates.identity_eq (hr : m.Relates t r) {j : JoinStep} {parts : List Text.Bytes}
    (h : (j, parts) ∈ r.parts) : j.identity = m.naming.derive parts := by
  obtain ⟨rel, -, target, -, rfl⟩ := hr
  rw [Relationship.mem_parts, Model.unfold] at h
  cases hlink : rel.link with
  | none =>
    simp only [hlink, reduceCtorEq, false_and, false_or] at h
    obtain ⟨rfl, rfl⟩ := h
    rfl
  | some link =>
    simp only [hlink, Option.some.injEq] at h
    obtain ⟨rfl, rfl⟩ | ⟨rfl, rfl⟩ := h
    · rfl
    · rfl

/-- The joins of a relationship lead one level down. -/
theorem Model.Relates.depth {j : JoinStep} {k : Nat} (hr : m.Relates t r) (hj : j ∈ r.joins)
    (ht : m.naming.Depth t.identity k) : m.naming.Depth j.identity (k + 1) := by
  obtain ⟨parts, hparts⟩ := Relationship.exists_parts hj
  rw [hr.identity_eq hparts]
  rw [← hr.parent_eq] at ht
  obtain ⟨-, rfl⟩ | ⟨-, rfl⟩ := Relationship.mem_parts.1 hparts
  · exact .derived _ ht
  · exact .derived _ ht

theorem Model.Relates.depth_child {k : Nat} (hr : m.Relates t r)
    (ht : m.naming.Depth t.identity k) : m.naming.Depth r.child.identity (k + 1) := by
  rw [← hr.childJoin_identity]
  exact hr.depth (by simp [Relationship.joins]) ht

/-- Everything on a walk lies below its start. -/
theorem Model.Walk.depth (hwalk : m.Walk t hops) {k : Nat} (ht : m.naming.Depth t.identity k) :
    ∀ j ∈ hops.flatMap (·.joins), ∃ l, k < l ∧ m.naming.Depth j.identity l := by
  induction hwalk generalizing k with
  | nil => simp
  | cons hr _ ih =>
    intro j hj
    rcases List.mem_append.1 (List.flatMap_cons ▸ hj) with hj | hj
    · exact ⟨k + 1, Nat.lt_succ_self k, hr.depth hj ht⟩
    · obtain ⟨l, hl, hdepth⟩ := ih (hr.depth_child ht) j hj
      exact ⟨l, Nat.lt_of_succ_lt hl, hdepth⟩

/-! ## Link tables -/

/-- The link table and the child have one identity. -/
def Relationship.LinkClash (r : Relationship) : Prop :=
  r.parent.entity.name = "link:" ∧ r.child.entity.table = r.member ∧
    ∃ link, r.linkJoin = some link ∧ link.table = r.member

instance (r : Relationship) : Decidable r.LinkClash :=
  match h : r.linkJoin with
  | none => .isFalse (by simp [Relationship.LinkClash, h])
  | some link => decidable_of_iff
      (r.parent.entity.name = "link:" ∧ r.child.entity.table = r.member ∧ link.table = r.member)
      (by simp [Relationship.LinkClash, h])

theorem Model.Relates.linkClash_iff (hn : Function.Injective m.naming.derive) {link : JoinStep}
    (hr : m.Relates t r) (hlink : r.linkJoin = some link) :
    link.identity = r.childJoin.identity ↔ r.LinkClash := by
  rw [hr.identity_eq (Relationship.mem_parts.2 (.inl ⟨hlink, rfl⟩)),
    hr.identity_eq (Relationship.mem_parts.2 (.inr ⟨rfl, rfl⟩)), hn.eq_iff]
  simp only [Relationship.LinkClash, Relationship.linkParts, Relationship.childParts, hlink,
    Option.some.injEq, exists_eq_left', List.cons.injEq, utf8_injective.eq_iff, true_and, and_true]
  exact ⟨fun h => ⟨h.1.symm, h.2.2.symm, h.2.1⟩, fun h => ⟨h.1.symm, h.2.2, h.2.1.symm⟩⟩

/-! ## Labels and joins -/

/-- The aliases that a relationship brings in. -/
def Relationship.labels (r : Relationship) : List String := r.joins.map (·.label)

/-- The left joins of a relationship, from the parent's side. -/
def Relationship.leftJoins (r : Relationship) : List Sql.Join :=
  r.joins.map fun j => ⟨.left, j.tableRef, j.on⟩

theorem Relationship.firstJoin_mem_joins (r : Relationship) : r.firstJoin ∈ r.joins := by
  cases hlink : r.linkJoin with
  | none => simp [firstJoin, joins, hlink]
  | some link => simp [firstJoin, joins, hlink]

theorem Relationship.childJoin_label_ne {r : Relationship} {link : JoinStep}
    (hlink : r.linkJoin = some link) (hnodup : r.labels.Nodup) :
    r.childJoin.label ≠ link.label := by
  intro h
  simp [labels, joins, hlink, h] at hnodup

theorem Model.Relates.alias_mem_labels (hr : m.Relates t r) : m.aliasOf r.child ∈ r.labels := by
  rw [← hr.childJoin_label]
  simp [Relationship.labels, Relationship.joins]

/-- Behind a relationship the child is apart from what the relationship is apart from. -/
theorem Model.Relates.nodup_child (hr : m.Relates t r) {names : List String}
    (h : (r.labels ++ names).Nodup) : (m.aliasOf r.child :: names).Nodup := by
  obtain ⟨-, hnames, hdisjoint⟩ := List.nodup_append'.1 h
  exact List.nodup_cons.2 ⟨fun hmem => hdisjoint hr.alias_mem_labels hmem, hnames⟩

theorem Model.Relates.labels_eq (hr : m.Relates t r) :
    r.labels = (r.joins.map (·.identity)).map m.naming.tableAlias := by
  rw [Relationship.labels, List.map_map]
  exact List.map_congr_left fun j hj => hr.label_eq hj

theorem Model.Walk.exists_relates (hwalk : m.Walk t hops) : ∀ r ∈ hops, ∃ u, m.Relates u r := by
  induction hwalk with
  | nil => simp
  | cons hr _ ih => exact List.forall_mem_cons.2 ⟨⟨_, hr⟩, ih⟩

theorem Model.flatMap_labels (hrelates : ∀ r ∈ hops, ∃ u, m.Relates u r) :
    hops.flatMap (·.labels) =
      ((hops.flatMap (·.joins)).map (·.identity)).map m.naming.tableAlias := by
  rw [List.map_flatMap, List.map_flatMap]
  refine List.flatMap_congr fun r hr => ?_
  obtain ⟨u, hr⟩ := hrelates r hr
  exact hr.labels_eq

theorem Model.Relates.nodup_identities_iff (hn : Function.Injective m.naming.derive)
    (hr : m.Relates t r) : (r.joins.map (·.identity)).Nodup ↔ ¬ r.LinkClash := by
  cases hlink : r.linkJoin with
  | none => simp [Relationship.joins, hlink, Relationship.LinkClash]
  | some link =>
    rw [← hr.linkClash_iff hn hlink]
    simp [Relationship.joins, hlink]

/-- The table and those of the relationships have different aliases. -/
def Model.AliasesApart (m : Model) (t : Table) (hops : List Relationship) : Prop :=
  (m.aliasOf t :: hops.flatMap (·.labels)).Nodup

/-- The parts of a path whose tables have aliases of their own, before and behind a fan-out. -/
theorem Model.Relates.nodup_divided {before rest : List Relationship} {u : Table}
    (hr : m.Relates u r) (h : m.AliasesApart t (before ++ r :: rest)) :
    m.AliasesApart t before ∧ (r.labels ++ rest.flatMap (·.labels)).Nodup ∧
      m.AliasesApart r.child rest := by
  rw [Model.AliasesApart, List.flatMap_append, List.flatMap_cons, ← List.cons_append,
    List.nodup_append'] at h
  obtain ⟨hbefore, hbehind, -⟩ := h
  exact ⟨hbefore, hbehind, hr.nodup_child hbehind⟩

/-- **The tables on a walk have different aliases**, with a naming without collisions, unless a
link table has the identity of a child. -/
theorem Model.Walk.nodup_labels_iff (hn : m.naming.Faithful) (hwalk : m.Walk t hops) {k : Nat}
    (ht : m.naming.Depth t.identity k) :
    (m.aliasOf t :: hops.flatMap (·.labels)).Nodup ↔ ∀ r ∈ hops, ¬ r.LinkClash := by
  have hids : (m.aliasOf t :: hops.flatMap (·.labels)).Nodup ↔
      ((hops.flatMap (·.joins)).map (·.identity)).Nodup := by
    rw [Model.flatMap_labels hwalk.exists_relates, Model.aliasOf, ← List.map_cons,
      List.nodup_map_iff hn.tableAlias, List.nodup_cons, and_iff_right]
    intro hmem
    obtain ⟨j, hj, hid⟩ := List.mem_map.1 hmem
    obtain ⟨l, hl, hdepth⟩ := hwalk.depth ht j hj
    rw [hid] at hdepth
    exact absurd (ht.unique hn.derive hdepth) (Nat.ne_of_lt hl)
  rw [hids]
  clear hids
  induction hwalk generalizing k with
  | nil => simp
  | @cons t r rest hr hrest ih =>
    have hbelow : ((rest.flatMap (·.joins)).map (·.identity)).Nodup ↔
      ∀ s ∈ rest, ¬ s.LinkClash := ih (hr.depth_child ht)
    rw [List.flatMap_cons, List.map_append, List.nodup_append', hr.nodup_identities_iff hn.derive,
      hbelow, List.forall_mem_cons]
    refine and_congr_right fun _ => and_iff_left ?_
    -- The rest of the walk lies below the child, and the link table beside the child.
    intro id hid hid'
    obtain ⟨j, hj, rfl⟩ := List.mem_map.1 hid
    obtain ⟨j', hj', hsame⟩ := List.mem_map.1 hid'
    obtain ⟨l, hl, hdepth⟩ := hrest.depth (hr.depth_child ht) j' hj'
    rw [hsame] at hdepth
    exact absurd ((hr.depth hj ht).unique hn.derive hdepth) (Nat.ne_of_lt hl)

namespace Shop

theorem written_inj {a b rest rest' : Text.Bytes}
    (h : a.flatMap (fun x => [1, x]) ++ 0 :: rest = b.flatMap (fun x => [1, x]) ++ 0 :: rest') :
    a = b ∧ rest = rest' := by
  induction a generalizing b with
  | nil =>
    cases b with
    | nil => exact ⟨rfl, (List.cons.inj h).2⟩
    | cons y b => cases (List.cons.inj h).1
  | cons x a ih =>
    cases b with
    | nil => cases (List.cons.inj h).1
    | cons y b =>
      simp only [List.flatMap_cons, List.cons_append, List.nil_append, List.cons.injEq,
        true_and] at h
      obtain ⟨rfl, h⟩ := h
      obtain ⟨rfl, rfl⟩ := ih h
      exact ⟨rfl, rfl⟩

theorem faithful_plain : plain.Faithful where
  derive := by
    intro ps qs h
    have hbytes := (List.cons.inj (congrArg Identity.bytes h)).2
    clear h
    induction ps generalizing qs with
    | nil =>
      cases qs with
      | nil => rfl
      | cons q qs => simp at hbytes
    | cons p ps ih =>
      cases qs with
      | nil => simp at hbytes
      | cons q qs =>
        simp only [List.flatMap_cons, List.append_assoc, List.singleton_append] at hbytes
        obtain ⟨rfl, hrest⟩ := written_inj hbytes
        rw [ih hrest]
  tableAlias := by
    intro a b h
    have hchar : Function.Injective Char.ofUInt8 := fun x y hxy =>
      UInt8.toUInt32_inj.1 (congrArg Char.val hxy)
    have hbytes := (List.cons.inj (String.ofList_injective h)).2
    exact congrArg Identity.mk (List.map_injective_iff.2 hchar hbytes)
  ne_cteName := by
    intro id i h
    have htext := congrArg String.toList h
    simp [plain, Build.cteName] at htext

theorem derive_plain_ne_orders (parts : List Text.Bytes) :
    plain.derive parts ≠ orders.identity := by
  intro h
  cases (List.cons.inj (congrArg Identity.bytes h)).1

end Shop

namespace Knot

def declarations : List EntityDecl :=
  [⟨"link:", "x", none, some "id", ["id", "name"].map Shop.columnDecl,
    [⟨"x", .manyToMany, "link:", none, none, some ⟨none, "x", "a", "b"⟩, []⟩]⟩]

def relation : Relation :=
  ⟨"x", .manyToMany, "link:", "id", "id", some ⟨none, "x", "a", "b", []⟩, []⟩

/-- An entity that is linked with itself by its own table. -/
def entity : Entity where
  name := "link:"
  table := "x"
  schema := none
  primaryKey := some "id"
  columns := ["id", "name"].map Shop.column
  relations := [relation]

def model : Model := ⟨[entity], declarations, none, Shop.plain⟩

theorem build_declarations : Model.build Shop.plain none declarations = .ok model := rfl

def table : Table := Model.root entity ⟨[1]⟩

def relationship : Relationship := model.unfold table relation entity

end Knot

end EntityQuery
