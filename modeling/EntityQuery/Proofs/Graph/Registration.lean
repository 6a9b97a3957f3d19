import EntityQuery.Proofs.Graph.Declared
import EntityQuery.Proofs.Graph.Sharing
import EntityQuery.Proofs.Graph.Unfolding

/-!
# The order of declarations

Entities may be declared in any order, also where they refer to each other. The check of a
declaration looks at the others through a search by name, and of distinct names a search finds the
same in every order (`EntityDecl.find?_perm`). So what is accepted does not depend on the order
(`Model.exists_build_iff`), nor does any entity of the model (`Model.agrees_of_perm`) or what is
sorted by name (`mergeSort_eq_of_perm`).

A session hands out roots of the model's entities and nothing else, whatever it has been asked
before (`Session.KeepsRoots.answer`); so the roots that two sessions hand out have the same graphs,
up to the identities that were drawn for them.
-/

namespace EntityQuery

variable {all all' : List EntityDecl}

/-- A list of computations succeeds if each of them does. -/
theorem exists_mapM_eq_ok_iff {ε α β : Type} {k : α → Except ε β} {xs : List α} :
    (∃ ys, xs.mapM k = .ok ys) ↔ ∀ x ∈ xs, ∃ y, k x = .ok y := by
  induction xs with
  | nil => simp [pure_eq_ok]
  | cons x xs ih =>
    simp only [List.mapM_cons, bind_eq_ok, pure_eq_ok, List.forall_mem_cons, ← ih]
    constructor
    · rintro ⟨_, y, hy, ys, hys, -⟩
      exact ⟨⟨y, hy⟩, ys, hys⟩
    · rintro ⟨⟨y, hy⟩, ys, hys⟩
      exact ⟨y :: ys, y, hy, ys, hys, rfl⟩

/-- Sorting by distinct keys forgets the order. -/
theorem mergeSort_eq_of_perm {α : Type} {key : α → String} {xs ys : List α} (h : xs.Perm ys)
    (hkeys : (xs.map key).Nodup) :
    xs.mergeSort (fun a b => key a ≤ key b) = ys.mergeSort (fun a b => key a ≤ key b) := by
  have hsorted (zs : List α) : (zs.mergeSort fun a b => key a ≤ key b).Pairwise
      fun a b => decide (key a ≤ key b) = true := by
    refine List.pairwise_mergeSort (fun a b c hab hbc => ?_) (fun a b => ?_) zs
    · rw [decide_eq_true_eq] at hab hbc ⊢
      exact String.le_trans hab hbc
    · simpa using String.le_total (key a) (key b)
  refine List.Perm.eq_of_pairwise (fun a b ha hb hab hba => ?_) (hsorted xs) (hsorted ys)
    ((List.mergeSort_perm xs _).trans (h.trans (List.mergeSort_perm ys _).symm))
  rw [decide_eq_true_eq] at hab hba
  exact List.inj_on_of_nodup_map hkeys (List.mem_mergeSort.1 ha)
    (h.mem_iff.2 (List.mem_mergeSort.1 hb)) (String.le_antisymm hab hba)

/-! ## Checking in another order -/

namespace EntityDecl

theorem duplicate?_eq_none_iff {seen : List String} :
    duplicate? seen all = none ↔ (all.map (·.name)).Nodup ∧ ∀ d ∈ all, d.name ∉ seen := by
  refine ⟨nodup_of_duplicate?, ?_⟩
  induction all generalizing seen with
  | nil => exact fun _ => rfl
  | cons d all ih =>
    rintro ⟨hnodup, hnew⟩
    rw [List.map_cons, List.nodup_cons] at hnodup
    rw [duplicate?, if_neg (hnew d List.mem_cons_self)]
    refine ih ⟨hnodup.2, fun d' hd' hseen => ?_⟩
    rcases List.mem_cons.1 hseen with hname | hseen
    · exact hnodup.1 (hname ▸ List.mem_map_of_mem hd')
    · exact hnew d' (List.mem_cons_of_mem d hd') hseen

theorem find?_eq_some_iff (h : (all.map (·.name)).Nodup) {name : String} {d : EntityDecl} :
    find? all name = some d ↔ d ∈ all ∧ d.name = name := by
  constructor
  · intro hd
    exact ⟨List.mem_of_find?_eq_some hd, by simpa using List.find?_some hd⟩
  · rintro ⟨hd, rfl⟩
    exact find?_of_mem h hd

/-- A name is found in every order, if it is found in one. -/
theorem find?_perm (hperm : all.Perm all') (h : (all.map (·.name)).Nodup) :
    find? all = find? all' := by
  have h' : (all'.map (·.name)).Nodup := (hperm.map _).nodup_iff.1 h
  funext name
  refine Option.ext fun d => ?_
  rw [find?_eq_some_iff h, find?_eq_some_iff h', hperm.mem_iff]

/-- The check looks at the other declarations through their names only. -/
theorem check_congr (h : find? all = find? all') (d : EntityDecl) : d.check all = d.check all' := by
  have hrelation : RelationDecl.check all d = RelationDecl.check all' d := by
    funext rel
    simp only [RelationDecl.check, h]
  simp only [check, hrelation]

end EntityDecl

namespace Model

variable {naming : Naming} {schema : Option String} {m m' : Model}

theorem exists_build_iff : (∃ m, Model.build naming schema all = .ok m) ↔
    (all.map (·.name)).Nodup ∧ ∀ d ∈ all, ∃ e, d.check all = .ok e := by
  rw [← exists_mapM_eq_ok_iff]
  constructor
  · rintro ⟨m, hm⟩
    obtain ⟨hduplicate, entities, hentities, -⟩ := build_eq_ok.1 hm
    exact ⟨(EntityDecl.nodup_of_duplicate? hduplicate).1, entities, hentities⟩
  · rintro ⟨hnodup, entities, hentities⟩
    have hduplicate := EntityDecl.duplicate?_eq_none_iff.2 ⟨hnodup, fun _ _ => List.not_mem_nil⟩
    exact ⟨_, build_eq_ok.2 ⟨hduplicate, entities, hentities, rfl⟩⟩

/-- **What is accepted in one order is accepted in another.** -/
theorem exists_build_perm (hperm : all.Perm all') :
    (∃ m, Model.build naming schema all = .ok m) → ∃ m, Model.build naming schema all' = .ok m := by
  rw [exists_build_iff, exists_build_iff]
  rintro ⟨hnodup, hcheck⟩
  refine ⟨(hperm.map _).nodup_iff.1 hnodup, fun d hd => ?_⟩
  obtain ⟨e, he⟩ := hcheck d (hperm.mem_iff.2 hd)
  exact ⟨e, by rwa [← EntityDecl.check_congr (EntityDecl.find?_perm hperm hnodup)]⟩

/-- An entity is in the model just if it was declared. -/
theorem entity?_eq_some_iff (h : Model.build naming schema all = .ok m) {name : String}
    {e : Entity} : m.entity? name = some e ↔
      ∃ d, EntityDecl.find? all name = some d ∧ d.check all = .ok e := by
  constructor
  · intro he
    obtain ⟨d, hd, hcheck⟩ := find?_of_covers (t := root e default) h
      (List.mem_of_find?_eq_some he)
    have hname : e.name = name := by simpa using List.find?_some he
    exact ⟨d, hname ▸ hd, hcheck⟩
  · rintro ⟨d, hd, hcheck⟩
    obtain ⟨e', he', hcheck'⟩ := entity?_of_find? h hd
    rw [he']
    exact congrArg some (Except.ok.inj (hcheck'.symm.trans hcheck))

theorem isSome_entity?_iff (h : Model.build naming schema all = .ok m) {name : String} :
    (m.entity? name).isSome ↔ name ∈ all.map (·.name) := by
  have hnodup := (exists_build_iff.1 ⟨m, h⟩).1
  rw [Option.isSome_iff_exists, List.mem_map]
  constructor
  · rintro ⟨e, he⟩
    obtain ⟨d, hd, -⟩ := (entity?_eq_some_iff h).1 he
    exact ⟨d, (EntityDecl.find?_eq_some_iff hnodup).1 hd⟩
  · rintro ⟨d, hd⟩
    obtain ⟨e, he, -⟩ := entity?_of_find? h ((EntityDecl.find?_eq_some_iff hnodup).2 hd)
    exact ⟨e, he⟩

/-- **Models of the same declarations agree**, whatever their order. -/
theorem agrees_of_perm (hperm : all.Perm all') (h : Model.build naming schema all = .ok m)
    (h' : Model.build naming schema all' = .ok m') : m.Agrees m' := by
  have hfind := EntityDecl.find?_perm hperm (exists_build_iff.1 ⟨m, h⟩).1
  have hentity (name : String) : m.entity? name = m'.entity? name := by
    refine Option.ext fun e => ?_
    simp only [entity?_eq_some_iff h, entity?_eq_some_iff h', hfind, EntityDecl.check_congr hfind]
  obtain ⟨-, _, -, rfl⟩ := build_eq_ok.1 h
  obtain ⟨-, _, -, rfl⟩ := build_eq_ok.1 h'
  exact ⟨hentity, rfl, rfl⟩

theorem entityNames_perm (hperm : all.Perm all') (h : Model.build naming schema all = .ok m)
    (h' : Model.build naming schema all' = .ok m') : m.entityNames = m'.entityNames := by
  have hnodup := (exists_build_iff.1 ⟨m, h⟩).1
  rw [← List.map_id (all.map _)] at hnodup
  obtain ⟨-, _, -, rfl⟩ := build_eq_ok.1 h
  obtain ⟨-, _, -, rfl⟩ := build_eq_ok.1 h'
  exact mergeSort_eq_of_perm (hperm.map _) hnodup

theorem fingerprint_perm (hperm : all.Perm all') (h : Model.build naming schema all = .ok m)
    (h' : Model.build naming schema all' = .ok m') : m.fingerprint = m'.fingerprint := by
  have hsorted := mergeSort_eq_of_perm hperm (exists_build_iff.1 ⟨m, h⟩).1
  obtain ⟨-, _, -, rfl⟩ := build_eq_ok.1 h
  obtain ⟨-, _, -, rfl⟩ := build_eq_ok.1 h'
  rw [fingerprint, fingerprint, hsorted]

end Model

/-! ## Roots that are handed out -/

namespace Session

variable {settings : Settings} {s : Session} {x : Event} {name e : String}

theorem Call.Names.eq_of_asks {c : Call} (h : c.Names name) (hasks : c.Asks e) : name = e := by
  rcases hasks with rfl | rfl <;> simpa [Names, Asks, eq_comm] using h

theorem Call.Names.eq_of_fresh {c : Call} (h : c.Names name) (hfresh : c = .fresh e) :
    name = e := by
  subst hfresh
  simpa [Names, Asks, eq_comm] using h

/-- All roots that are kept are roots of their entities. -/
def KeepsRoots (s : Session) : Prop :=
  ∀ k entry, s.cache.find? k = some entry →
    ∃ e id, s.model.entity? k.entity = some e ∧ entry.table = Model.root e id

theorem KeepsRoots.after (h : s.KeepsRoots) (x : Event) : (s.after x).KeepsRoots := by
  obtain ⟨_, _, -, hbecomes⟩ := s.exists_effect x
  intro k entry hentry
  rw [hbecomes.model]
  rcases find?_after_cases hentry with hentry | ⟨-, -, e, he, htable⟩
  · exact h k entry hentry
  · exact ⟨e, _, he, htable⟩

theorem KeepsRoots.afterAll (h : s.KeepsRoots) (xs : List Event) : (s.afterAll xs).KeepsRoots := by
  induction xs generalizing s with
  | nil => exact h
  | cons x xs ih => exact ih (h.after x)

/-- **A call is answered with a root of the entity that it names**, or that there is none. -/
theorem KeepsRoots.answer (h : s.KeepsRoots) (hnames : x.call.Names name) :
    (s.model.entity? name = none ∧ s.answer x = .error (.unknownEntity name)) ∨
      ∃ e id, s.model.entity? name = some e ∧ s.answer x = .ok (some (Model.root e id)) := by
  obtain ⟨draws, kept, heffect, -⟩ := s.exists_effect x
  generalize s.answer x = a at heffect
  cases heffect with
  | reuse hasks husable =>
    cases hnames.eq_of_asks hasks
    obtain ⟨e, id, he, htable⟩ := h _ _ (Option.filter_eq_some_iff.1 husable).1
    exact .inr ⟨e, id, he, by rw [htable]⟩
  | build hasks hentity =>
    cases hnames.eq_of_asks hasks
    exact .inr ⟨_, _, hentity, rfl⟩
  | unknown hasks hentity =>
    cases hnames.eq_of_asks hasks
    exact .inl ⟨hentity, rfl⟩
  | fresh hcall hentity =>
    cases hnames.eq_of_fresh hcall
    exact .inr ⟨_, _, hentity, rfl⟩
  | freshUnknown hcall hentity =>
    cases hnames.eq_of_fresh hcall
    exact .inl ⟨hentity, rfl⟩
  | invalidate hcall => simp [Call.Names, Call.Asks, hcall] at hnames
  | clear hcall => simp [Call.Names, Call.Asks, hcall] at hnames

theorem buildWith_eq_ok : buildWith naming settings all = .ok s ↔
    ∃ m, Model.build naming settings.defaultSchema all = .ok m ∧
      s = ⟨m, settings, .empty settings.ttlSeconds, 0⟩ := by
  simp only [buildWith, bind_eq_ok, pure_eq_ok]

theorem keepsRoots_build (h : buildWith naming settings all = .ok s) : s.KeepsRoots := by
  obtain ⟨m, -, rfl⟩ := buildWith_eq_ok.1 h
  intro k entry hentry
  rw [Cache.find?_empty] at hentry
  cases hentry

/-- **The order of declarations does not matter.** In another order they are accepted just if they
are in this one. Then the names of the entities and the fingerprints are equal; and whatever two
sessions have been asked before, they know the same entities, and hand out roots with the same
graphs for them, up to the identities of the roots. -/
theorem build_perm (naming : Naming) (settings : Settings) (hperm : all.Perm all') :
    ((∃ s, buildWith naming settings all = .ok s) ↔ ∃ s, buildWith naming settings all' = .ok s) ∧
    ∀ s s', buildWith naming settings all = .ok s → buildWith naming settings all' = .ok s' →
      s.model.entityNames = s'.model.entityNames ∧
      s.model.fingerprint = s'.model.fingerprint ∧
      ∀ past past' x x' name, x.call.Names name → x'.call.Names name →
        if name ∈ all.map (·.name) then
          ∃ t t', (s.afterAll past).answer x = .ok (some t) ∧
            (s'.afterAll past').answer x' = .ok (some t') ∧ Model.SameGraph s.model t s'.model t'
        else
          (s.afterAll past).answer x = .error (.unknownEntity name) ∧
            (s'.afterAll past').answer x' = .error (.unknownEntity name) := by
  refine ⟨?_, fun s s' h h' => ?_⟩
  · simp only [buildWith_eq_ok, exists_comm (α := Session), exists_and_left, exists_eq, and_true]
    exact ⟨Model.exists_build_perm hperm, Model.exists_build_perm hperm.symm⟩
  · have hroots := keepsRoots_build h
    have hroots' := keepsRoots_build h'
    have hmodel (past : List Event) := (follows h past).model
    have hmodel' (past : List Event) := (follows h' past).model
    obtain ⟨m, hm, rfl⟩ := buildWith_eq_ok.1 h
    obtain ⟨m', hm', rfl⟩ := buildWith_eq_ok.1 h'
    have hagrees := Model.agrees_of_perm hperm hm hm'
    refine ⟨Model.entityNames_perm hperm hm hm', Model.fingerprint_perm hperm hm hm', ?_⟩
    intro past past' x x' name hnames hnames'
    have hanswer := (hroots.afterAll past).answer hnames
    have hanswer' := (hroots'.afterAll past').answer hnames'
    rw [hmodel] at hanswer
    rw [hmodel', ← hagrees.entity] at hanswer'
    have hdeclared : (m.entity? name).isSome ↔ name ∈ all.map (·.name) :=
      Model.isSome_entity?_iff hm
    rcases hanswer with ⟨hnone, hanswer⟩ | ⟨e, id, he, hanswer⟩
    · rw [if_neg (by rw [← hdeclared, hnone]; exact Bool.false_ne_true)]
      rcases hanswer' with ⟨-, hanswer'⟩ | ⟨e', id', he', -⟩
      · exact ⟨hanswer, hanswer'⟩
      · cases hnone.symm.trans he'
    · rw [if_pos (hdeclared.1 (by rw [he]; rfl))]
      rcases hanswer' with ⟨hnone, -⟩ | ⟨e', id', he', hanswer'⟩
      · cases hnone.symm.trans he
      · cases he.symm.trans he'
        exact ⟨_, _, hanswer, hanswer', hagrees.sameGraph_root e id id'⟩

/-- Orders, customers, lines and tags declared the other way round: the entities of the model stand
in another order, and a shared root of one session is compared with a later one of the other. -/
theorem build_perm_reverse :
    ∃ s s' t t', build .default Shop.declarations = .ok s ∧
      build .default Shop.declarations.reverse = .ok s' ∧
      s.model.entities ≠ s'.model.entities ∧ s.model.fingerprint = s'.model.fingerprint ∧
      s.answer ⟨0, .table "Order"⟩ = .ok (some t) ∧
      (s'.afterAll [⟨0, .fresh "Line"⟩]).answer ⟨1, .query "Order"⟩ = .ok (some t') ∧
      Model.SameGraph s.model t s'.model t' := by
  have hs : build .default Shop.declarations =
      .ok ⟨Shop.model .hashed, .default, .empty Settings.default.ttlSeconds, 0⟩ := rfl
  have hs' : build .default Shop.declarations.reverse =
      .ok ⟨⟨[Shop.tag, Shop.line, Shop.customer, Shop.order], Shop.declarations.reverse, none,
        .hashed⟩, .default, .empty Settings.default.ttlSeconds, 0⟩ := rfl
  obtain ⟨-, hsame⟩ := build_perm .hashed .default (List.reverse_perm Shop.declarations).symm
  obtain ⟨-, hfingerprint, hroots⟩ := hsame _ _ hs hs'
  have horders := hroots [] [⟨0, .fresh "Line"⟩] ⟨0, .table "Order"⟩ ⟨1, .query "Order"⟩ "Order"
    (.inl (.inl rfl)) (.inl (.inr rfl))
  rw [if_pos (by decide)] at horders
  obtain ⟨t, t', ht, ht', hgraph⟩ := horders
  exact ⟨_, _, t, t', hs, hs', by decide, hfingerprint, ht, ht', hgraph⟩

end Session

end EntityQuery
