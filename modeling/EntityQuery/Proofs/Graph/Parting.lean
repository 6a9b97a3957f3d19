import EntityQuery.Proofs.Graph.Members
import EntityQuery.Proofs.Graph.Reach
import EntityQuery.Proofs.Scope.Joins
import Mathlib.Data.List.Induction

/-!
# Two walks from one position

Two column paths that start at one table may go the same way for a while; the joins of what they
share are written once.

**Identities.** With a naming without collisions, walks from one position lead to the same identity
only along the same members (`Model.endOf_inj`).

**Joins.** The relationships of the two walks together are those of the shared part and of the two
rests (`together`). Their joins are written in this order (`joins_joinHops_both`), and where their
tables have aliases of their own they bind the rows that the two walks lead to (`joinAll_both`).
-/

namespace EntityQuery

open EntityQuery.Sql (Engine Database Ctes Env Row joinAll)

variable {m : Model} {t u : Table} {hops lefts rights rs shared ss : List Relationship}
  {r : Relationship} {ms ns : List String} {k : Nat} {s : Scope}

/-! ## Identities along a walk -/

/-- A walk ends as many levels below its start as it has members. -/
theorem Model.depth_endOf {members : List String} (h : m.walkMembers? t members = some hops)
    (ht : m.naming.Depth t.identity k) :
    m.naming.Depth (Model.endOf t hops).identity (k + members.length) := by
  induction members generalizing t hops k with
  | nil =>
    cases h
    exact ht
  | cons member rest ih =>
    obtain ⟨r, hops', hr, hrest, rfl⟩ := Model.walkMembers?_cons.1 h
    have hchild := ih hrest ((Model.relates_of_relationship? hr).depth_child ht)
    rw [Model.endOf_cons, List.length_cons]
    rwa [Nat.add_right_comm, Nat.add_assoc] at hchild

/-- Walks that lead to one identity have the same members, if identities tell the parts they are
derived from and no walk comes back to where the other starts, or both are equally long. -/
theorem Model.eq_of_parts_eq (hms : m.walkMembers? t ms = some rs)
    (hns : m.walkMembers? u ns = some ss)
    (hparts : ∀ r ∈ rs, ∀ s ∈ ss, r.child.identity = s.child.identity → r.childParts = s.childParts)
    (hends : ms.length = ns.length ∨
      (∀ r ∈ rs, r.child.identity ≠ u.identity) ∧ ∀ s ∈ ss, s.child.identity ≠ t.identity)
    (h : (Model.endOf t rs).identity = (Model.endOf u ss).identity) :
    t.identity = u.identity ∧ ms = ns := by
  -- From the end of the paths: equal parts have equal parents and members.
  induction ms using List.reverseRecOn generalizing ns rs ss with
  | nil =>
    cases hms
    rcases List.eq_nil_or_concat ns with rfl | ⟨ns, b, rfl⟩
    · cases hns
      exact ⟨h, rfl⟩
    · rw [List.concat_eq_append] at hns hends
      obtain ⟨ss, s, -, -, rfl⟩ := Model.walkMembers?_concat hns
      rw [Model.endOf_concat] at h
      exact absurd h.symm ((hends.resolve_left (by simp)).2 s (by simp))
  | append_singleton ms a ih =>
    obtain ⟨rs, r, hms', hr, rfl⟩ := Model.walkMembers?_concat hms
    rw [Model.endOf_concat] at h
    rcases List.eq_nil_or_concat ns with rfl | ⟨ns, b, rfl⟩
    · cases hns
      exact absurd h ((hends.resolve_left (by simp)).1 r (by simp))
    rw [List.concat_eq_append] at hns hends ⊢
    obtain ⟨ss, s, hns', hs, rfl⟩ := Model.walkMembers?_concat hns
    rw [Model.endOf_concat] at h
    have hsame := hparts r (by simp) s (by simp) h
    simp only [Relationship.childParts, (relates_of_relationship? hr).parent_eq,
      (relates_of_relationship? hs).parent_eq, member_of_relationship? hr,
      member_of_relationship? hs, List.cons.injEq, utf8_injective.eq_iff] at hsame
    obtain ⟨hroot, rfl⟩ := ih hms' hns'
      (fun r hr s hs => hparts r (List.mem_append_left _ hr) s (List.mem_append_left _ hs))
      (hends.imp (by simp) fun h => ⟨fun r hr => h.1 r (List.mem_append_left _ hr),
        fun s hs => h.2 s (List.mem_append_left _ hs)⟩) (congrArg Identity.mk hsame.1)
    exact ⟨hroot, by rw [hsame.2.2.1]⟩

theorem Model.Walk.child_identity (h : m.Walk t hops) (hr : r ∈ hops) :
    r.child.identity = m.naming.derive r.childParts := by
  obtain ⟨v, hr⟩ := h.exists_relates r hr
  rw [← hr.childJoin_identity]
  exact hr.identity_eq (Relationship.mem_parts.2 (.inr ⟨rfl, rfl⟩))

/-- Walks of one length to one identity have the same members. -/
theorem Model.eq_of_endOf_eq (hn : Function.Injective m.naming.derive)
    (hms : m.walkMembers? t ms = some rs) (hns : m.walkMembers? t ns = some ss)
    (hlength : ms.length = ns.length)
    (h : (Model.endOf t rs).identity = (Model.endOf t ss).identity) : ms = ns := by
  refine (Model.eq_of_parts_eq hms hns (fun r hr s hs h => hn ?_) (.inl hlength) h).2
  rwa [← (walk_of_walkMembers? hms).child_identity hr,
    ← (walk_of_walkMembers? hns).child_identity hs]

/-- **Walks to one identity** from one position have the same members. -/
theorem Model.endOf_inj (hn : Function.Injective m.naming.derive) (ht : m.naming.Depth t.identity k)
    (hms : m.walkMembers? t ms = some rs) (hns : m.walkMembers? t ns = some ss)
    (h : (Model.endOf t rs).identity = (Model.endOf t ss).identity) : ms = ns := by
  refine Model.eq_of_endOf_eq hn hms hns ?_ h
  have hdepth := Model.depth_endOf hms ht
  rw [h] at hdepth
  have := hdepth.unique hn (Model.depth_endOf hns ht)
  omega

/-! ## Where two walks part -/

/-- The relationships of two walks; what they share at the start stands once. -/
def together : List Relationship → List Relationship → List Relationship
  | r :: rs, s :: ss => if r.member = s.member then r :: together rs ss else r :: rs ++ s :: ss
  | rs, ss => rs ++ ss

theorem together_append (hops rs ss : List Relationship) :
    together (hops ++ rs) (hops ++ ss) = hops ++ together rs ss := by
  induction hops with
  | nil => rfl
  | cons r hops ih => simp [together, ih]

/-- Two walks go together until they part. -/
theorem exists_together (hms : m.walkMembers? t ms = some rs)
    (hns : m.walkMembers? t ns = some ss) : ∃ shared lefts rights, rs = shared ++ lefts ∧
      ss = shared ++ rights ∧ together rs ss = shared ++ (lefts ++ rights) := by
  induction ms generalizing t rs ns ss with
  | nil =>
    cases hms
    exact ⟨[], [], ss, rfl, rfl, by simp [together]⟩
  | cons a ms ih =>
    obtain ⟨r, rs, hr, hrs, rfl⟩ := Model.walkMembers?_cons.1 hms
    cases ns with
    | nil =>
      cases hns
      exact ⟨[], r :: rs, [], rfl, rfl, by simp [together]⟩
    | cons b ns =>
      obtain ⟨s, ss, hs, hss, rfl⟩ := Model.walkMembers?_cons.1 hns
      by_cases hmember : r.member = s.member
      · have hab : a = b := by
          rw [← Model.member_of_relationship? hr, ← Model.member_of_relationship? hs, hmember]
        subst hab
        cases hr.symm.trans hs
        obtain ⟨shared, lefts, rights, rfl, rfl, htogether⟩ := ih hrs hss
        exact ⟨r :: shared, lefts, rights, rfl, rfl, by simp [together, htogether]⟩
      · exact ⟨[], r :: rs, s :: ss, rfl, rfl, by simp [together, hmember]⟩

/-- Each of the walks has aliases of its own. -/
theorem Model.AliasesApart.of_together (h : m.AliasesApart t (together rs ss))
    (hms : m.walkMembers? t ms = some rs) (hns : m.walkMembers? t ns = some ss) :
    m.AliasesApart t rs ∧ m.AliasesApart t ss := by
  obtain ⟨shared, lefts, rights, rfl, rfl, htogether⟩ := exists_together hms hns
  rw [htogether] at h
  rw [Model.AliasesApart, List.flatMap_append, List.flatMap_append] at h
  rw [Model.AliasesApart, Model.AliasesApart, List.flatMap_append, List.flatMap_append]
  exact ⟨h.sublist (((List.sublist_append_left _ _).append_left _).cons_cons _),
    h.sublist (((List.sublist_append_right _ _).append_left _).cons_cons _)⟩

/-- Walks that lead to one alias after as many relationships have gone the same way. -/
theorem Model.AliasesApart.eq_of_alias_eq {before before' rest rest' : List Relationship}
    {s : Relationship}
    (h : m.AliasesApart t (together (before ++ r :: rest) (before' ++ s :: rest')))
    (hms : m.walkMembers? t ms = some (before ++ r :: rest))
    (hns : m.walkMembers? t ns = some (before' ++ s :: rest'))
    (hlength : before.length = before'.length) (halias : m.aliasOf r.child = m.aliasOf s.child) :
    before = before' ∧ r = s := by
  obtain ⟨shared, lefts, rights, hleft, hright, htogether⟩ := exists_together hms hns
  by_cases hlt : before.length < shared.length
  · have htake : (before ++ r :: rest).take (before.length + 1) =
        (before' ++ s :: rest').take (before'.length + 1) := by
      rw [hleft, hright, ← hlength, List.take_append_of_le_length hlt,
        List.take_append_of_le_length hlt]
    rw [List.take_length_add_append, List.take_length_add_append] at htake
    obtain ⟨rfl, hlast⟩ := List.append_inj' htake rfl
    exact ⟨rfl, List.head_eq_of_cons_eq hlast⟩
  · -- Behind the place where they part, both walks would bind the alias.
    have hmem {hops' hops : List Relationship} {a : Relationship}
        (ha : (shared ++ hops')[before.length]? = some a) (hwalk : m.Walk t hops)
        (hhops : hops = shared ++ hops') : m.aliasOf a.child ∈ hops'.flatMap (·.labels) := by
      rw [List.getElem?_append_right (Nat.not_lt.1 hlt)] at ha
      have hin := List.mem_of_getElem? ha
      obtain ⟨u, hu⟩ := hwalk.exists_relates a (hhops ▸ List.mem_append_right _ hin)
      exact List.mem_flatMap.2 ⟨a, hin, hu.alias_mem_labels⟩
    have hr : m.aliasOf r.child ∈ _ :=
      hmem (by rw [← hleft]; simp) (Model.walk_of_walkMembers? hms) hleft
    have hs : m.aliasOf s.child ∈ _ :=
      hmem (by rw [← hright, hlength]; simp) (Model.walk_of_walkMembers? hns) hright
    rw [htogether, Model.AliasesApart, List.flatMap_append, List.flatMap_append, List.nodup_cons,
      List.nodup_append', List.nodup_append'] at h
    exact absurd (halias ▸ hs) (h.2.2.1.2.2 hr)

/-! ## Joining both walks -/

/-- The joins of what two walks share stand once, before those of the two rests. -/
theorem joins_joinHops_both {s₁ s₂ : Scope} {origin : JoinOrigin} (hjoins : s.joins = [])
    (hkeys : (walkKeys (shared ++ (lefts ++ rights))).Nodup)
    (h₁ : s.joinHops (shared ++ lefts) origin = .ok s₁)
    (h₂ : s₁.joinHops (shared ++ rights) origin = .ok s₂) :
    s₂.joins.map (·.join) = (shared ++ (lefts ++ rights)).flatMap (·.leftJoins) := by
  rw [walkKeys_append, walkKeys_append, ← List.append_assoc] at hkeys
  have hfirst : (walkKeys (shared ++ lefts)).Nodup := by
    rw [walkKeys_append]
    exact (List.nodup_append'.1 hkeys).1
  obtain ⟨hjoins₁, hkeys₁⟩ := Scope.map_joinHops hjoins hfirst h₁
  rw [walkKeys_append] at hkeys₁
  have hshared : ∀ new ∈ shared.flatMap (Scope.joinsOf origin),
      new.key ∈ s₁.joins.map (·.key) := by
    intro new hnew
    rw [hkeys₁, ← map_key_joinsOf shared origin]
    exact List.mem_append_left _ (List.mem_map_of_mem hnew)
  obtain ⟨hjoins₂, hkeys₂⟩ := Scope.map_foldl_of_keys hshared
  have hrest :
      (((shared.flatMap (Scope.joinsOf origin)).foldl Scope.addJoin s₁).joins.map (·.key) ++
        (rights.flatMap (Scope.joinsOf origin)).map (·.key)).Nodup := by
    rw [hkeys₂, hkeys₁, map_key_joinsOf]
    exact hkeys
  obtain ⟨hjoins₃, -⟩ := Scope.map_foldl_addJoin hrest
  rw [Scope.joinHops_eq_ok h₂, List.flatMap_append, List.foldl_append, hjoins₃, hjoins₂, hjoins₁,
    map_join_joinsOf]
  simp only [List.flatMap_append, List.append_assoc]

section

variable {D : Type} [DecidableEq D] {E : Engine D} {db : Database D}

theorem Model.Walk.alias_endOf_mem (h : m.Walk t hops) :
    m.aliasOf (Model.endOf t hops) ∈ m.aliasOf t :: hops.flatMap (·.labels) := by
  induction h with
  | nil => exact List.mem_cons_self
  | @cons t r rest hr _ ih =>
    rw [Model.endOf_cons, List.flatMap_cons]
    refine List.mem_cons_of_mem _ (List.mem_append.2 ?_)
    rcases List.mem_cons.1 ih with heq | hmem
    · rw [heq]
      exact .inl hr.alias_mem_labels
    · exact .inr hmem

/-- **The left joins of two one-to-one walks** bind the rows that the two lead to. -/
theorem joinAll_both (hleft : m.Walk t (shared ++ lefts)) (hright : m.Walk t (shared ++ rights))
    (ht : m.Covers t) (hone : ∀ r ∈ shared ++ (lefts ++ rights), r.cardinality = .oneToOne)
    (hdb : m.OneToOne E db)
    (hnodup : m.AliasesApart t (shared ++ (lefts ++ rights)))
    (rows : Ctes D) (env : Env D) :
    ∃ env', joinAll E db rows ((shared ++ (lefts ++ rights)).flatMap (·.leftJoins)) [env] = [env'] ∧
      reaches E db true (shared ++ lefts) (env (m.aliasOf t))
        (env' (m.aliasOf (Model.endOf t (shared ++ lefts)))) ∧
      reaches E db true (shared ++ rights) (env (m.aliasOf t))
        (env' (m.aliasOf (Model.endOf t (shared ++ rights)))) ∧
      ∀ a, a ∉ (shared ++ (lefts ++ rights)).flatMap (·.labels) → env' a = env a := by
  obtain ⟨hshared, hlefts⟩ := Model.walk_append.1 hleft
  obtain ⟨-, hrights⟩ := Model.walk_append.1 hright
  have hcovers := hshared.covers_endOf ht
  simp only [List.forall_mem_append] at hone
  rw [Model.AliasesApart, List.flatMap_append, List.flatMap_append] at hnodup
  rw [← List.cons_append, List.nodup_append', List.nodup_append'] at hnodup
  obtain ⟨hbase, ⟨hleftsNodup, hrightsNodup, hapart⟩, hdisjoint⟩ := hnodup
  rw [List.disjoint_append_right] at hdisjoint
  have hend := hshared.alias_endOf_mem
  have hleftsFrom : (m.aliasOf (Model.endOf t shared) :: lefts.flatMap (·.labels)).Nodup :=
    List.nodup_cons.2 ⟨fun hmem => hdisjoint.1 hend hmem, hleftsNodup⟩
  have hrightsFrom : (m.aliasOf (Model.endOf t shared) :: rights.flatMap (·.labels)).Nodup :=
    List.nodup_cons.2 ⟨fun hmem => hdisjoint.2 hend hmem, hrightsNodup⟩
  -- The shared part, then the two rests from its end.
  obtain ⟨env₁, hjoin₁, hreaches₁, hframe₁⟩ :=
    joinAll_walk hshared ht hone.1 hdb hbase rows env
  obtain ⟨env₂, hjoin₂, hreaches₂, hframe₂⟩ :=
    joinAll_walk hlefts hcovers hone.2.1 hdb hleftsFrom rows env₁
  obtain ⟨env₃, hjoin₃, hreaches₃, hframe₃⟩ :=
    joinAll_walk hrights hcovers hone.2.2 hdb hrightsFrom rows env₂
  have hkept₂ : env₂ (m.aliasOf (Model.endOf t shared)) = env₁ (m.aliasOf (Model.endOf t shared)) :=
    hframe₂ _ (List.nodup_cons.1 hleftsFrom).1
  have hkept₃ : env₃ (m.aliasOf (Model.endOf (Model.endOf t shared) lefts)) =
      env₂ (m.aliasOf (Model.endOf (Model.endOf t shared) lefts)) := by
    refine hframe₃ _ fun hmem => ?_
    rcases List.mem_cons.1 hlefts.alias_endOf_mem with heq | hmem'
    · rw [heq] at hmem
      exact hdisjoint.2 hend hmem
    · exact hapart hmem' hmem
  refine ⟨env₃, ?_, ?_, ?_, fun a ha => ?_⟩
  · rw [List.flatMap_append, List.flatMap_append, Sql.joinAll_append, Sql.joinAll_append, hjoin₁,
      hjoin₂, hjoin₃]
  · rw [Model.endOf_append, hkept₃, reaches_append]
    exact ⟨_, hreaches₁, by rwa [Bool.true_or]⟩
  · rw [hkept₂] at hreaches₃
    rw [Model.endOf_append, reaches_append]
    exact ⟨_, hreaches₁, by rwa [Bool.true_or]⟩
  · simp only [List.flatMap_append, List.mem_append, not_or] at ha
    rw [hframe₃ a ha.2.2, hframe₂ a ha.2.1, hframe₁ a ha.1]

end

/-- **Two one-to-one walks joined in one scope** bind the rows that they lead to, whatever they have
in common. -/
theorem joinAll_walks {D : Type} [DecidableEq D] {E : Engine D} {db : Database D} {s₁ s₂ : Scope}
    (hjoins : s.joins = []) (ht : m.Covers s.root) (hms : m.walkMembers? s.root ms = some rs)
    (hns : m.walkMembers? s.root ns = some ss) (hnodup : m.AliasesApart s.root (together rs ss))
    (hone : ∀ r ∈ rs ++ ss, r.cardinality = .oneToOne) {origin : JoinOrigin}
    (hs₁ : s.joinHops rs origin = .ok s₁) (hs₂ : s₁.joinHops ss origin = .ok s₂)
    (hdb : m.OneToOne E db) (rows : Ctes D) (env : Env D) :
    ∃ env', joinAll E db rows (s₂.joins.map (·.join)) [env] = [env'] ∧
      reaches E db true rs (env (m.aliasOf s.root)) (env' (m.aliasOf (Model.endOf s.root rs))) ∧
      reaches E db true ss (env (m.aliasOf s.root)) (env' (m.aliasOf (Model.endOf s.root ss))) ∧
      ∀ a, a ∉ (together rs ss).flatMap (·.labels) → env' a = env a := by
  have hleft := Model.walk_of_walkMembers? hms
  have hright := Model.walk_of_walkMembers? hns
  obtain ⟨shared, lefts, rights, rfl, rfl, htogether⟩ := exists_together hms hns
  rw [htogether] at hnodup ⊢
  have hsub : shared ++ (lefts ++ rights) ⊆ (shared ++ lefts) ++ (shared ++ rights) := by
    intro r hr
    simp only [List.mem_append] at hr ⊢
    tauto
  have hkeys := nodup_walkKeys (fun r hr => (List.mem_append.1 (hsub hr)).elim
    (hleft.exists_relates r) (hright.exists_relates r)) (List.nodup_cons.1 hnodup).2
  rw [joins_joinHops_both hjoins hkeys hs₁ hs₂]
  exact joinAll_both hleft hright ht (fun r hr => hone r (hsub hr)) hdb hnodup rows env

end EntityQuery
