import EntityQuery.Proofs.Graph.Cache
import EntityQuery.Proofs.Graph.Walk
import EntityQuery.Proofs.Success
import EntityQuery.QueryFile
import Mathlib.Data.List.Induction

/-!
# Sharing roots over whole runs

A session is asked for roots again and again, shared ones and fresh ones, and is told to drop those
that it keeps. This module says which root each call of such a run gets.

**Steps.** A call has one of seven effects (`Session.Effect`): a root is reused, or built and kept,
or built for one call only, or the entity is unknown, or roots are dropped. Whatever holds after
a run is proved from these.

**Runs.** After any run something is kept for an entity just if the entity has been asked for, and
has not been dropped since (`Session.Kept`, `Session.Follows.kept`). What is kept stays the same as
long as there is neither a call for it nor one that drops it (`Session.find?_afterAll`).

**Failed calls.** A call for an unknown entity may leave an empty slot. Sessions that differ in no
more than that cannot be told apart (`Session.AgreeOn.results_eq`), and those that differ in the
root of one entity only by calls for it (`Session.AgreeOn.answers`).
-/

namespace EntityQuery

namespace Session

/-! ## Calls -/

inductive Call where
  | table (entity : String)
  | query (entity : String)
  | fresh (entity : String)
  | invalidate (entity : String)
  | clear

namespace Call

/-- The call is for the shared root of an entity. -/
def Asks (e : String) (c : Call) : Prop := c = table e ∨ c = query e

/-- The call is for a root of an entity, shared or not. -/
def Names (e : String) (c : Call) : Prop := c.Asks e ∨ c = fresh e

/-- The call drops the shared root of an entity. -/
def Drops (e : String) (c : Call) : Prop := c = invalidate e ∨ c = clear

variable {c : Call} {e e' : String}

theorem Asks.iff (h : c.Asks e) : c.Asks e' ↔ e' = e := by
  rcases h with rfl | rfl <;> simp [Asks, eq_comm]

theorem Asks.not_drops (h : c.Asks e) : ¬ c.Drops e' := by
  rcases h with rfl | rfl <;> simp [Drops]

end Call

/-- A call and its time. -/
structure Event where
  time : Nat
  call : Call

/-- What a call answers, the root that it is for, and the session that it leaves. -/
def reply (s : Session) (x : Event) : Except QueryError (Option Table) × Session :=
  match x.call with
  | .table e => ((s.shared x.time e).1.map some, (s.shared x.time e).2)
  | .query e => ((s.select x.time e).1.map (some ·.root), (s.select x.time e).2)
  | .fresh e =>
    match s.fresh e with
    | .ok (t, s) => (.ok (some t), s)
    | .error err => (.error err, s)
  | .invalidate e => (.ok none, { s with cache := s.cache.invalidate e })
  | .clear => (.ok none, { s with cache := s.cache.clear })

def answer (s : Session) (x : Event) : Except QueryError (Option Table) := (s.reply x).1

def after (s : Session) (x : Event) : Session := (s.reply x).2

def afterAll (s : Session) (xs : List Event) : Session := xs.foldl after s

/-- Everything that is seen of a run: the answers, and how many roots are kept after each. -/
def results (s : Session) : List Event → List (Except QueryError (Option Table) × Nat)
  | [] => []
  | x :: xs => (s.answer x, (s.after x).cache.size) :: (s.after x).results xs

/-- The key that the shared root of an entity is kept under. -/
def keyOf (s : Session) (e : String) : CacheKey := ⟨e, s.settings.defaultSchema⟩

variable {s s' s₀ : Session} {x : Event} {e : String} {entity : Entity} {past : List Event}
  {xs ys : List Event} {all : List EntityDecl} {settings : Settings} {entry : CacheEntry}
  {k : CacheKey} {t : Table} {naming : Naming}

theorem afterAll_append (xs ys : List Event) :
    s.afterAll (xs ++ ys) = (s.afterAll xs).afterAll ys := List.foldl_append

theorem afterAll_concat (xs : List Event) (x : Event) :
    s.afterAll (xs ++ [x]) = (s.afterAll xs).after x := by
  rw [afterAll_append]
  rfl

/-! ## Steps -/

/-- A table and a query look up the same root. -/
theorem reply_asks (h : x.call.Asks e) :
    s.answer x = (s.lookup x.time (s.keyOf e)).1.map some ∧
      s.after x = (s.lookup x.time (s.keyOf e)).2 := by
  rcases h with h | h
  · simp only [answer, after, reply, h]
    exact ⟨rfl, rfl⟩
  · simp only [answer, after, reply, h, Session.select, shared]
    refine ⟨?_, rfl⟩
    show Except.map _ (Except.map _ (s.lookup x.time (s.keyOf e)).1) = _
    cases (s.lookup x.time (s.keyOf e)).1 <;> rfl

theorem reply_fresh (h : x.call = .fresh e) (hentity : s.model.entity? e = some entity) :
    s.answer x = .ok (some (Model.root entity (s.model.naming.draw s.draws))) ∧
      s.Becomes (s.after x) (s.draws + 1) s.cache.find? := by
  simp only [answer, after, reply, h, fresh_of_entity hentity]
  exact ⟨trivial, rfl, rfl, rfl, rfl, fun _ => rfl⟩

theorem reply_fresh_unknown (h : x.call = .fresh e) (hentity : s.model.entity? e = none) :
    s.answer x = .error (.unknownEntity e) ∧ s.after x = s := by
  simp only [answer, after, reply, h, fresh_of_unknown hentity]
  exact ⟨trivial, trivial⟩

theorem becomes_invalidate (h : x.call = .invalidate e) :
    s.answer x = .ok none ∧ s.Becomes (s.after x) s.draws
      fun k => if k.entity = e then none else s.cache.find? k := by
  simp only [answer, after, reply, h]
  exact ⟨trivial, rfl, rfl, rfl, rfl, fun _ => Cache.find?_invalidate e⟩

theorem becomes_clear (h : x.call = .clear) :
    s.answer x = .ok none ∧ s.Becomes (s.after x) s.draws fun _ => none := by
  simp only [answer, after, reply, h]
  exact ⟨trivial, rfl, rfl, rfl, rfl, fun _ => Cache.find?_clear⟩

/-- What a call does: its answer, and the draws and the entries that it leaves. -/
inductive Effect (s : Session) (x : Event) :
    Except QueryError (Option Table) → Nat → (CacheKey → Option CacheEntry) → Prop where
  | reuse {e : String} {entry : CacheEntry} (hasks : x.call.Asks e)
      (husable : s.usable? x.time (s.keyOf e) = some entry) :
      Effect s x (.ok (some entry.table)) s.draws s.cache.find?
  | build {e : String} {entity : Entity} (hasks : x.call.Asks e)
      (hentity : s.model.entity? e = some entity) :
      Effect s x (.ok (some (Model.root entity (s.model.naming.draw s.draws)))) (s.draws + 1)
        (Function.update s.cache.find? (s.keyOf e)
          (some ⟨Model.root entity (s.model.naming.draw s.draws), x.time⟩))
  | unknown {e : String} (hasks : x.call.Asks e) (hentity : s.model.entity? e = none) :
      Effect s x (.error (.unknownEntity e)) s.draws
        (Function.update s.cache.find? (s.keyOf e) none)
  | fresh {e : String} {entity : Entity} (hcall : x.call = .fresh e)
      (hentity : s.model.entity? e = some entity) :
      Effect s x (.ok (some (Model.root entity (s.model.naming.draw s.draws)))) (s.draws + 1)
        s.cache.find?
  | freshUnknown {e : String} (hcall : x.call = .fresh e) (hentity : s.model.entity? e = none) :
      Effect s x (.error (.unknownEntity e)) s.draws s.cache.find?
  | invalidate {e : String} (hcall : x.call = .invalidate e) :
      Effect s x (.ok none) s.draws fun k => if k.entity = e then none else s.cache.find? k
  | clear (hcall : x.call = .clear) : Effect s x (.ok none) s.draws fun _ => none

/-- **Every call has one of the effects.** -/
theorem exists_effect (s : Session) (x : Event) : ∃ draws kept,
    s.Effect x (s.answer x) draws kept ∧ s.Becomes (s.after x) draws kept := by
  have hshared : ∀ e, x.call.Asks e → ∃ draws kept,
      s.Effect x (s.answer x) draws kept ∧ s.Becomes (s.after x) draws kept := by
    intro e hasks
    obtain ⟨hanswer, hafter⟩ := reply_asks (s := s) hasks
    rw [hanswer, hafter]
    cases husable : s.usable? x.time (s.keyOf e) with
    | some entry =>
      obtain ⟨hfound, hbecomes⟩ := lookup_kept husable
      rw [hfound]
      exact ⟨_, _, .reuse hasks husable, hbecomes⟩
    | none =>
      cases hentity : s.model.entity? e with
      | some entity =>
        obtain ⟨hfound, hbecomes⟩ := lookup_built husable hentity
        rw [hfound]
        exact ⟨_, _, .build hasks hentity, hbecomes⟩
      | none =>
        obtain ⟨hfound, hbecomes⟩ := lookup_unknown husable hentity
        rw [hfound]
        exact ⟨_, _, .unknown hasks hentity, hbecomes⟩
  cases hcall : x.call with
  | table e => exact hshared e (.inl hcall)
  | query e => exact hshared e (.inr hcall)
  | fresh e =>
    cases hentity : s.model.entity? e with
    | some entity =>
      obtain ⟨hanswer, hbecomes⟩ := reply_fresh hcall hentity
      rw [hanswer]
      exact ⟨_, _, .fresh hcall hentity, hbecomes⟩
    | none =>
      obtain ⟨hanswer, hafter⟩ := reply_fresh_unknown hcall hentity
      rw [hanswer, hafter]
      exact ⟨_, _, .freshUnknown hcall hentity, rfl, rfl, rfl, rfl, fun _ => rfl⟩
  | invalidate e =>
    obtain ⟨hanswer, hbecomes⟩ := becomes_invalidate (s := s) hcall
    rw [hanswer]
    exact ⟨_, _, .invalidate hcall, hbecomes⟩
  | clear =>
    obtain ⟨hanswer, hbecomes⟩ := becomes_clear (s := s) hcall
    rw [hanswer]
    exact ⟨_, _, .clear hcall, hbecomes⟩

theorem settings_after (s : Session) (x : Event) : (s.after x).settings = s.settings := by
  obtain ⟨_, _, -, hbecomes⟩ := s.exists_effect x
  exact hbecomes.settings

theorem model_after (s : Session) (x : Event) : (s.after x).model = s.model := by
  obtain ⟨_, _, -, hbecomes⟩ := s.exists_effect x
  exact hbecomes.model

/-! ## What is kept for an entity -/

/-- **A call for something else** leaves what is kept. -/
theorem find?_after (hasks : ¬ x.call.Asks e) (hdrops : ¬ x.call.Drops e) :
    (s.after x).cache.find? (s.keyOf e) = s.cache.find? (s.keyOf e) := by
  obtain ⟨draws, kept, heffect, hbecomes⟩ := s.exists_effect x
  have hother : ∀ {e'}, x.call.Asks e' → s.keyOf e ≠ s.keyOf e' := by
    intro e' hasks' heq
    have hsame : e = e' := congrArg CacheKey.entity heq
    exact hasks (hsame ▸ hasks')
  rw [hbecomes.find]
  generalize s.answer x = a at heffect
  cases heffect with
  | reuse _ _ => rfl
  | build hasks' _ => rw [Function.update_of_ne (hother hasks')]
  | unknown hasks' _ => rw [Function.update_of_ne (hother hasks')]
  | fresh _ _ => rfl
  | freshUnknown _ _ => rfl
  | @invalidate e' hcall =>
    have hne : e ≠ e' := fun heq => hdrops (.inl (heq ▸ hcall))
    exact if_neg hne
  | clear hcall => exact absurd (.inr hcall) hdrops

/-- **Nothing changes** between two calls for an entity if nothing is dropped. -/
theorem find?_afterAll (hasks : ∀ x ∈ xs, ¬ x.call.Asks e) (hdrops : ∀ x ∈ xs, ¬ x.call.Drops e) :
    (s.afterAll xs).cache.find? (s.keyOf e) = s.cache.find? (s.keyOf e) := by
  induction xs generalizing s with
  | nil => rfl
  | cons x xs ih =>
    rw [List.forall_mem_cons] at hasks hdrops
    have hkey : (s.after x).keyOf e = s.keyOf e := by rw [keyOf, settings_after]; rfl
    have hrest := ih (s := s.after x) hasks.2 hdrops.2
    rw [hkey] at hrest
    exact hrest.trans (find?_after hasks.1 hdrops.1)

/-- What is answered for a known entity is kept. -/
theorem exists_find?_after (hasks : x.call.Asks e) (hentity : s.model.entity? e = some entity) :
    ∃ entry, s.answer x = .ok (some entry.table) ∧
      (s.after x).cache.find? (s.keyOf e) = some entry := by
  obtain ⟨hanswer, hafter⟩ := reply_asks (s := s) hasks
  rw [hanswer, hafter]
  cases husable : s.usable? x.time (s.keyOf e) with
  | some entry =>
    obtain ⟨hfound, hbecomes⟩ := lookup_kept husable
    refine ⟨entry, by rw [hfound]; rfl, ?_⟩
    rw [hbecomes.find]
    exact (Option.filter_eq_some_iff.1 husable).1
  | none =>
    obtain ⟨hfound, hbecomes⟩ := lookup_built husable hentity
    refine ⟨⟨Model.root entity (s.model.naming.draw s.draws), x.time⟩, by rw [hfound]; rfl, ?_⟩
    rw [hbecomes.find, Function.update_self]

/-- The call draws the identity of the root. -/
def Draws (s : Session) (x : Event) (t : Table) : Prop :=
  t.identity = s.model.naming.draw s.draws ∧ (s.after x).draws = s.draws + 1

/-- **Nothing is kept that was not kept before**, but for the root that the call has drawn. -/
theorem find?_after_cases (h : (s.after x).cache.find? k = some entry) :
    s.cache.find? k = some entry ∨ s.Draws x entry.table ∧ entry.built = x.time ∧
      ∃ entity, s.model.entity? k.entity = some entity ∧
        entry.table = Model.root entity (s.model.naming.draw s.draws) := by
  obtain ⟨draws, kept, heffect, hbecomes⟩ := s.exists_effect x
  have hdraws := hbecomes.draws
  rw [hbecomes.find] at h
  generalize s.answer x = a at heffect
  cases heffect with
  | reuse _ _ => exact .inl h
  | build _ hentity =>
    rw [Function.update_apply] at h
    split at h
    · rename_i hk
      cases h
      cases hk
      exact .inr ⟨⟨rfl, hdraws⟩, rfl, _, hentity, rfl⟩
    · exact .inl h
  | unknown _ _ =>
    rw [Function.update_apply] at h
    split at h
    · cases h
    · exact .inl h
  | fresh _ _ => exact .inl h
  | freshUnknown _ _ => exact .inl h
  | invalidate _ =>
    dsimp only at h
    split at h
    · cases h
    · exact .inl h
  | clear _ => cases h

/-- **A call answers what is kept**, or what it has drawn. -/
theorem answer_cases (h : s.answer x = .ok (some t)) :
    (∃ k entry, s.cache.find? k = some entry ∧ entry.table = t) ∨ s.Draws x t := by
  obtain ⟨draws, kept, heffect, hbecomes⟩ := s.exists_effect x
  have hdraws := hbecomes.draws
  rw [h] at heffect
  cases heffect with
  | reuse _ husable => exact .inl ⟨_, _, (Option.filter_eq_some_iff.1 husable).1, rfl⟩
  | build _ _ => exact .inr ⟨rfl, hdraws⟩
  | fresh _ _ => exact .inr ⟨rfl, hdraws⟩

theorem draws_le_after (s : Session) (x : Event) : s.draws ≤ (s.after x).draws := by
  obtain ⟨draws, kept, heffect, hbecomes⟩ := s.exists_effect x
  rw [hbecomes.draws]
  generalize s.answer x = a at heffect
  cases heffect <;> omega

/-- The root is one of those that have been drawn. -/
def Drawn (s : Session) (t : Table) : Prop := ∃ n < s.draws, t.identity = s.model.naming.draw n

theorem Drawn.after (h : s.Drawn t) (x : Event) : (s.after x).Drawn t := by
  obtain ⟨n, hn, ht⟩ := h
  exact ⟨n, Nat.lt_of_lt_of_le hn (s.draws_le_after x), by rw [model_after, ht]⟩

theorem Draws.drawn (h : s.Draws x t) : (s.after x).Drawn t :=
  ⟨s.draws, by rw [h.2]; exact Nat.lt_succ_self _, by rw [model_after, h.1]⟩

/-! ## Runs -/

/-- A call of a run that goes on by one is the new one, or one before it. -/
theorem concat_eq_split {y : Event} (h : past ++ [x] = xs ++ y :: ys) :
    (xs = past ∧ y = x ∧ ys = []) ∨ ∃ zs, ys = zs ++ [x] ∧ past = xs ++ y :: zs := by
  rcases List.eq_nil_or_concat ys with rfl | ⟨zs, z, rfl⟩
  · obtain ⟨hpast, hx⟩ := List.append_inj' h rfl
    exact .inl ⟨hpast.symm, (List.singleton_inj.1 hx).symm, rfl⟩
  · rw [List.concat_eq_append, ← List.cons_append, ← List.append_assoc] at h
    obtain ⟨hpast, hx⟩ := List.append_inj' h rfl
    exact .inr ⟨zs, by rw [List.concat_eq_append, List.singleton_inj.1 hx], hpast⟩

/-- The entity has been asked for, and has not been dropped since. -/
def Kept (e : String) (past : List Event) : Prop :=
  ∃ xs x ys, past = xs ++ x :: ys ∧ x.call.Asks e ∧ ∀ y ∈ ys, ¬ y.call.Drops e

theorem kept_concat :
    Kept e (past ++ [x]) ↔ x.call.Asks e ∨ Kept e past ∧ ¬ x.call.Drops e := by
  constructor
  · rintro ⟨xs, y, ys, heq, hasks, hdrops⟩
    rcases concat_eq_split heq with ⟨-, rfl, -⟩ | ⟨zs, rfl, hpast⟩
    · exact .inl hasks
    · rw [List.forall_mem_append, List.forall_mem_singleton] at hdrops
      exact .inr ⟨⟨xs, y, zs, hpast, hasks, hdrops.1⟩, hdrops.2⟩
  · rintro (hasks | ⟨⟨xs, y, ys, rfl, hasks, hdrops⟩, hdrop⟩)
    · exact ⟨past, x, [], rfl, hasks, List.forall_mem_nil _⟩
    · refine ⟨xs, y, ys ++ [x], by simp, hasks, ?_⟩
      exact List.forall_mem_append.2 ⟨hdrops, List.forall_mem_singleton.2 hdrop⟩

/-- After the last call for an entity it matters only what is dropped. -/
theorem kept_iff_of_last (hx : x.call.Asks e) (hys : ∀ y ∈ ys, ¬ y.call.Asks e) :
    Kept e (xs ++ x :: ys) ↔ ∀ y ∈ ys, ¬ y.call.Drops e := by
  induction ys using List.reverseRecOn with
  | nil => exact iff_of_true (kept_concat.2 (.inl hx)) (List.forall_mem_nil _)
  | append_singleton ys y ih =>
    rw [List.forall_mem_append, List.forall_mem_singleton] at hys
    rw [← List.cons_append, ← List.append_assoc, kept_concat, ih hys.1, List.forall_mem_append,
      List.forall_mem_singleton]
    exact or_iff_right hys.2

/-- The root was the answer to a call of the run. -/
def Answered (s₀ : Session) (past : List Event) (t : Table) : Prop :=
  ∃ xs x ys, past = xs ++ x :: ys ∧ (s₀.afterAll xs).answer x = .ok (some t)

theorem Answered.of_concat (h : Answered s₀ (past ++ [x]) t) :
    Answered s₀ past t ∨ (s₀.afterAll past).answer x = .ok (some t) := by
  obtain ⟨xs, y, ys, heq, hanswer⟩ := h
  rcases concat_eq_split heq with ⟨rfl, rfl, -⟩ | ⟨zs, -, hpast⟩
  · exact .inr hanswer
  · exact .inl ⟨xs, y, zs, hpast, hanswer⟩

/-- What holds of a session after a run. -/
structure Follows (s₀ : Session) (past : List Event) (s : Session) : Prop where
  model : s.model = s₀.model
  settings : s.settings = s₀.settings
  ttl : s.cache.ttl = s₀.cache.ttl
  kept : ∀ k, (s.cache.find? k).isSome ↔
    k = s₀.keyOf k.entity ∧ (s₀.model.entity? k.entity).isSome ∧ Kept k.entity past
  built : ∀ k entry, s.cache.find? k = some entry → ∃ x ∈ past, x.time = entry.built
  drawn : ∀ k entry, s.cache.find? k = some entry → s.Drawn entry.table
  answered : ∀ t, Answered s₀ past t → s.Drawn t

theorem follows_start (h : buildWith naming settings all = .ok s₀) : Follows s₀ [] s₀ := by
  obtain ⟨model, -, h⟩ := bind_eq_ok.1 h
  cases h
  refine ⟨rfl, rfl, rfl, fun k => ?_, by simp, by simp, ?_⟩
  · simp [Kept]
  · rintro t ⟨xs, x, ys, hpast, -⟩
    simp at hpast

/-- What is kept after a call. -/
theorem Follows.kept_after (h : Follows s₀ past s) (x : Event) (k : CacheKey) :
    ((s.after x).cache.find? k).isSome ↔ k = s₀.keyOf k.entity ∧
      (s₀.model.entity? k.entity).isSome ∧ Kept k.entity (past ++ [x]) := by
  obtain ⟨draws, kept, heffect, hbecomes⟩ := s.exists_effect x
  have hkeyOf : ∀ e, s.keyOf e = s₀.keyOf e := fun e => by rw [keyOf, h.settings]; rfl
  -- A call for the root of one entity changes nothing for the others.
  have hother {e : String} (hasks : x.call.Asks e) (hk : k ≠ s₀.keyOf e) :
      (s.cache.find? k).isSome ↔ k = s₀.keyOf k.entity ∧ (s₀.model.entity? k.entity).isSome ∧
        Kept k.entity (past ++ [x]) := by
    rw [h.kept k, kept_concat]
    constructor
    · rintro ⟨hkey, hknown, hkept⟩
      exact ⟨hkey, hknown, .inr ⟨hkept, hasks.not_drops⟩⟩
    · rintro ⟨hkey, hknown, hasks' | hkept⟩
      · exact absurd (hasks.iff.1 hasks' ▸ hkey) hk
      · exact ⟨hkey, hknown, hkept.1⟩
  rw [hbecomes.find]
  generalize s.answer x = a at heffect
  cases heffect with
  | @reuse e entry hasks husable =>
    by_cases hk : k = s₀.keyOf e
    · have hfind := (Option.filter_eq_some_iff.1 husable).1
      rw [hkeyOf, ← hk] at hfind
      have hsome : (s.cache.find? k).isSome := by rw [hfind]; rfl
      obtain ⟨hkey, hknown, -⟩ := (h.kept k).1 hsome
      refine iff_of_true hsome ⟨hkey, hknown, kept_concat.2 (.inl ?_)⟩
      rw [hk]
      exact hasks
    · exact hother hasks hk
  | @build e entity hasks hentity =>
    rw [Function.update_apply, hkeyOf]
    split
    · rename_i hk
      rw [h.model] at hentity
      subst hk
      refine iff_of_true rfl ⟨rfl, ?_, kept_concat.2 (.inl hasks)⟩
      exact Option.isSome_iff_exists.2 ⟨entity, hentity⟩
    · rename_i hk
      exact hother hasks hk
  | @unknown e hasks hentity =>
    rw [Function.update_apply, hkeyOf]
    split
    · rename_i hk
      rw [h.model] at hentity
      subst hk
      refine iff_of_false (by simp) fun hknown => ?_
      have hknown : (s₀.model.entity? e).isSome := hknown.2.1
      simp [hentity] at hknown
    · rename_i hk
      exact hother hasks hk
  | fresh hcall _ => simp [h.kept k, kept_concat, hcall, Call.Asks, Call.Drops]
  | freshUnknown hcall _ => simp [h.kept k, kept_concat, hcall, Call.Asks, Call.Drops]
  | @invalidate e hcall =>
    rw [kept_concat]
    dsimp only
    split
    · rename_i hk
      simp [hcall, Call.Asks, Call.Drops, hk]
    · rename_i hk
      simp [h.kept k, hcall, Call.Asks, Call.Drops, Ne.symm hk]
  | clear hcall => simp [kept_concat, hcall, Call.Asks, Call.Drops]

/-- **After any run** the session is what its calls say. -/
theorem Follows.step (h : Follows s₀ past (s₀.afterAll past)) (x : Event) :
    Follows s₀ (past ++ [x]) (s₀.afterAll (past ++ [x])) := by
  obtain ⟨_, _, -, hbecomes⟩ := (s₀.afterAll past).exists_effect x
  rw [afterAll_concat]
  refine ⟨hbecomes.model.trans h.model, hbecomes.settings.trans h.settings,
    hbecomes.ttl.trans h.ttl, h.kept_after x, fun k entry hentry => ?_, fun k entry hentry => ?_,
    fun t ht => ?_⟩
  · rcases find?_after_cases hentry with hentry | ⟨-, htime, -⟩
    · obtain ⟨y, hy, htime⟩ := h.built k entry hentry
      exact ⟨y, List.mem_append_left _ hy, htime⟩
    · exact ⟨x, List.mem_append_right _ (List.mem_singleton_self x), htime.symm⟩
  · rcases find?_after_cases hentry with hentry | ⟨hdraws, -⟩
    · exact (h.drawn k entry hentry).after x
    · exact hdraws.drawn
  · rcases ht.of_concat with ht | ht
    · exact (h.answered t ht).after x
    · rcases answer_cases ht with ⟨k, entry, hentry, rfl⟩ | hdraws
      · exact (h.drawn k entry hentry).after x
      · exact hdraws.drawn

theorem follows (h : buildWith naming settings all = .ok s₀) (past : List Event) :
    Follows s₀ past (s₀.afterAll past) := by
  induction past using List.reverseRecOn with
  | nil => exact follows_start h
  | append_singleton past x ih => exact ih.step x

/-! ## Reusing and building -/

/-- The call answers the root, and nothing is built for it. -/
def Reuses (s : Session) (x : Event) (t : Table) : Prop :=
  s.answer x = .ok (some t) ∧ (s.after x).draws = s.draws

/-- After the run the call answers a root that one draw has made. If the draw is new, no call before
it has answered that root. -/
structure Builds (s₀ : Session) (past : List Event) (x : Event) (entity : Entity) : Prop where
  answer : (s₀.afterAll past).answer x =
    .ok (some (Model.root entity (s₀.model.naming.draw (s₀.afterAll past).draws)))
  draws : ((s₀.afterAll past).after x).draws = (s₀.afterAll past).draws + 1
  new : s₀.model.naming.DrawsNew (s₀.afterAll past).draws → ∀ t, Answered s₀ past t →
    t ≠ Model.root entity (s₀.model.naming.draw (s₀.afterAll past).draws)

theorem reuses_of_usable (hasks : x.call.Asks e) (h : s.usable? x.time (s.keyOf e) = some entry) :
    s.Reuses x entry.table := by
  obtain ⟨hanswer, hafter⟩ := reply_asks (s := s) hasks
  obtain ⟨hfound, hbecomes⟩ := lookup_kept h
  refine ⟨by rw [hanswer, hfound]; rfl, ?_⟩
  rw [hafter]
  exact hbecomes.draws

theorem Follows.builds (h : Follows s₀ past (s₀.afterAll past)) (hasks : x.call.Asks e)
    (hentity : s₀.model.entity? e = some entity)
    (husable : (s₀.afterAll past).usable? x.time ((s₀.afterAll past).keyOf e) = none) :
    Builds s₀ past x entity := by
  obtain ⟨hanswer, hafter⟩ := reply_asks (s := s₀.afterAll past) hasks
  rw [← h.model] at hentity
  obtain ⟨hfound, hbecomes⟩ := lookup_built husable hentity
  rw [h.model] at hfound
  refine ⟨by rw [hanswer, hfound]; rfl, by rw [hafter]; exact hbecomes.draws, ?_⟩
  rintro hnew t ht rfl
  obtain ⟨n, hn, hid⟩ := h.answered _ ht
  rw [h.model] at hid
  exact hnew n hn hid

/-- No time of the events lies the time to live after another. -/
def Unexpired (ttl : Nat) (events : List Event) : Prop :=
  ∀ a ∈ events, ∀ b ∈ events, b.time - a.time < ttl

/-- Until the time is over, what is kept can be used. -/
theorem Follows.usable (h : Follows s₀ past s) (hunexpired : Unexpired s₀.cache.ttl (past ++ [x]))
    (hentry : s.cache.find? k = some entry) : s.usable? x.time k = some entry := by
  obtain ⟨y, hy, hbuilt⟩ := h.built k entry hentry
  have htime := hunexpired y (List.mem_append_left _ hy) x
    (List.mem_append_right _ (List.mem_singleton_self x))
  rw [usable?, Option.filter_eq_some_iff]
  refine ⟨hentry, ?_⟩
  rw [hbuilt, ← h.ttl] at htime
  simpa [Cache.isExpired] using htime

/-- With no time to live nothing can be used. -/
theorem usable?_of_ttl (h : s.cache.ttl = 0) (now : Nat) (k : CacheKey) :
    s.usable? now k = none := by
  rw [usable?, Option.filter_eq_none_iff]
  simp [Cache.isExpired, h]

theorem usable?_of_find? (h : s.cache.find? k = none) (now : Nat) : s.usable? now k = none := by
  rw [usable?, h]
  rfl

/-! ## Sessions that cannot be told apart -/

/-- The sessions keep the same for these entities. -/
structure AgreeOn (p : String → Prop) (s s' : Session) : Prop where
  model : s'.model = s.model
  settings : s'.settings = s.settings
  ttl : s'.cache.ttl = s.cache.ttl
  draws : s'.draws = s.draws
  find : ∀ k, p k.entity → s'.cache.find? k = s.cache.find? k

namespace AgreeOn

variable {p : String → Prop}

/-- What is done to both leaves them so. -/
theorem becomes (h : AgreeOn p s s') {t t' : Session} {draws draws' : Nat}
    {kept kept' : CacheKey → Option CacheEntry} (ht : s.Becomes t draws kept)
    (ht' : s'.Becomes t' draws' kept') (hdraws : draws' = draws)
    (hkept : ∀ k, p k.entity → kept' k = kept k) : AgreeOn p t t' where
  model := ht'.model.trans (h.model.trans ht.model.symm)
  settings := ht'.settings.trans (h.settings.trans ht.settings.symm)
  ttl := ht'.ttl.trans (h.ttl.trans ht.ttl.symm)
  draws := by rw [ht'.draws, ht.draws, hdraws]
  find k hk := by rw [ht'.find, ht.find, hkept k hk]

theorem usable? (h : AgreeOn p s s') (now : Nat) (hk : p k.entity) :
    s'.usable? now k = s.usable? now k := by
  rw [Session.usable?, Session.usable?, h.find k hk]
  simp only [Cache.isExpired, h.ttl]

theorem lookup (h : AgreeOn p s s') (now : Nat) {key : CacheKey} (hkey : p key.entity) :
    (s'.lookup now key).1 = (s.lookup now key).1 ∧
      AgreeOn p (s.lookup now key).2 (s'.lookup now key).2 := by
  have hupdate (entry : Option CacheEntry) (k : CacheKey) (hk : p k.entity) :
      Function.update s'.cache.find? key entry k = Function.update s.cache.find? key entry k := by
    rw [Function.update_apply, Function.update_apply, h.find k hk]
  have husable' := h.usable? now hkey
  cases husable : s.usable? now key with
  | some entry =>
    rw [husable] at husable'
    obtain ⟨hfound, hbecomes⟩ := lookup_kept husable
    obtain ⟨hfound', hbecomes'⟩ := lookup_kept husable'
    exact ⟨by rw [hfound, hfound'], h.becomes hbecomes hbecomes' h.draws h.find⟩
  | none =>
    rw [husable] at husable'
    cases hentity : s.model.entity? key.entity with
    | some entity =>
      obtain ⟨hfound, hbecomes⟩ := lookup_built husable hentity
      obtain ⟨hfound', hbecomes'⟩ := lookup_built husable' (h.model ▸ hentity)
      rw [h.model, h.draws] at hfound' hbecomes'
      exact ⟨by rw [hfound, hfound'], h.becomes hbecomes hbecomes' rfl (hupdate _)⟩
    | none =>
      obtain ⟨hfound, hbecomes⟩ := lookup_unknown husable hentity
      obtain ⟨hfound', hbecomes'⟩ := lookup_unknown husable' (h.model ▸ hentity)
      exact ⟨by rw [hfound, hfound'], h.becomes hbecomes hbecomes' h.draws (hupdate _)⟩

/-- **A call for one of the entities** cannot tell them apart. -/
theorem reply (h : AgreeOn p s s') (hx : ∀ e, x.call.Names e → p e) :
    s'.answer x = s.answer x ∧ AgreeOn p (s.after x) (s'.after x) := by
  have hshared : ∀ e, x.call.Asks e →
      s'.answer x = s.answer x ∧ AgreeOn p (s.after x) (s'.after x) := by
    intro e hasks
    have hkey : s'.keyOf e = s.keyOf e := by rw [keyOf, h.settings]; rfl
    obtain ⟨hanswer, hafter⟩ := reply_asks (s := s) hasks
    obtain ⟨hanswer', hafter'⟩ := reply_asks (s := s') hasks
    have hin : p (s.keyOf e).entity := hx e (.inl hasks)
    obtain ⟨hfound, hagree⟩ := h.lookup x.time hin
    rw [hanswer, hanswer', hafter, hafter', hkey, hfound]
    exact ⟨rfl, hagree⟩
  cases hcall : x.call with
  | table e => exact hshared e (.inl hcall)
  | query e => exact hshared e (.inr hcall)
  | fresh e =>
    cases hentity : s.model.entity? e with
    | some entity =>
      obtain ⟨hanswer, hbecomes⟩ := reply_fresh hcall hentity
      obtain ⟨hanswer', hbecomes'⟩ := reply_fresh hcall (h.model ▸ hentity)
      rw [h.model, h.draws] at hanswer'
      rw [h.draws] at hbecomes'
      exact ⟨by rw [hanswer, hanswer'], h.becomes hbecomes hbecomes' rfl h.find⟩
    | none =>
      obtain ⟨hanswer, hafter⟩ := reply_fresh_unknown hcall hentity
      obtain ⟨hanswer', hafter'⟩ := reply_fresh_unknown hcall (h.model ▸ hentity)
      rw [hanswer, hanswer', hafter, hafter']
      exact ⟨rfl, h⟩
  | invalidate e =>
    obtain ⟨hanswer, hbecomes⟩ := becomes_invalidate (s := s) hcall
    obtain ⟨hanswer', hbecomes'⟩ := becomes_invalidate (s := s') hcall
    refine ⟨by rw [hanswer, hanswer'], h.becomes hbecomes hbecomes' h.draws fun k hk => ?_⟩
    rw [h.find k hk]
  | clear =>
    obtain ⟨hanswer, hbecomes⟩ := becomes_clear (s := s) hcall
    obtain ⟨hanswer', hbecomes'⟩ := becomes_clear (s := s') hcall
    exact ⟨by rw [hanswer, hanswer'], h.becomes hbecomes hbecomes' h.draws fun _ _ => rfl⟩

/-- **A run for some of the entities** cannot either. -/
theorem answers (h : AgreeOn p s s') (hxs : ∀ x ∈ xs, ∀ e, x.call.Names e → p e) :
    (s'.results xs).map (·.1) = (s.results xs).map (·.1) := by
  induction xs generalizing s s' with
  | nil => rfl
  | cons x xs ih =>
    rw [List.forall_mem_cons] at hxs
    obtain ⟨hanswer, hagree⟩ := h.reply hxs.1
    rw [results, results, List.map_cons, List.map_cons, hanswer, ih hagree hxs.2]

/-- Sessions that keep the same for all entities have the same results, sizes and all. -/
theorem results_eq (h : AgreeOn (fun _ => True) s s') (xs : List Event) :
    s'.results xs = s.results xs := by
  induction xs generalizing s s' with
  | nil => rfl
  | cons x xs ih =>
    obtain ⟨hanswer, hagree⟩ := h.reply (x := x) fun _ _ => trivial
    have hsize := Cache.size_congr fun k => hagree.find k trivial
    rw [results, results, hanswer, hsize, ih hagree]

end AgreeOn

theorem agreeOn_invalidate (s : Session) (now : Nat) (e : String) :
    AgreeOn (· ≠ e) s (s.after ⟨now, .invalidate e⟩) := by
  obtain ⟨-, hbecomes⟩ := becomes_invalidate (s := s) (x := ⟨now, .invalidate e⟩) rfl
  refine ⟨hbecomes.model, hbecomes.settings, hbecomes.ttl, hbecomes.draws, fun k hk => ?_⟩
  exact (hbecomes.find k).trans (if_neg hk)

/-- **A call for an unknown entity** fails, and leaves what is kept. -/
theorem Follows.unknown (h : Follows s₀ past s) (hnames : x.call.Names e)
    (hentity : s₀.model.entity? e = none) :
    s.answer x = .error (.unknownEntity e) ∧ AgreeOn (fun _ => True) s (s.after x) := by
  rw [← h.model] at hentity
  rcases hnames with hasks | hcall
  · have hnone : s.cache.find? (s.keyOf e) = none := by
      rw [← Option.not_isSome_iff_eq_none, h.kept]
      rintro ⟨-, hknown, -⟩
      rw [← h.model, show (s.keyOf e).entity = e from rfl, hentity] at hknown
      cases hknown
    obtain ⟨hanswer, hafter⟩ := reply_asks (s := s) hasks
    obtain ⟨hfound, hbecomes⟩ := lookup_unknown (usable?_of_find? hnone x.time) hentity
    rw [hanswer, hafter, hfound]
    refine ⟨rfl, hbecomes.model, hbecomes.settings, hbecomes.ttl, hbecomes.draws, fun k _ => ?_⟩
    rw [hbecomes.find, Function.update_apply]
    split
    · rename_i hk
      rw [hk, hnone]
    · rfl
  · obtain ⟨hanswer, hafter⟩ := reply_fresh_unknown hcall hentity
    rw [hafter]
    exact ⟨hanswer, rfl, rfl, rfl, rfl, fun _ _ => rfl⟩

/-- **As many roots are kept as there are entities to keep one for.** -/
theorem Follows.size (h : Follows s₀ past s) : ∃ live : List String, live.Nodup ∧
    (∀ e, e ∈ live ↔ (s₀.model.entity? e).isSome ∧ Kept e past) ∧
      s.cache.size = live.length := by
  obtain ⟨keys, hnodup, hkeys, hsize⟩ := s.cache.exists_live
  have hkey : ∀ k ∈ keys, k = s₀.keyOf k.entity := fun k hk => ((h.kept k).1 ((hkeys k).1 hk)).1
  refine ⟨keys.map (·.entity), ?_, fun e => ?_, by rw [hsize, List.length_map]⟩
  · refine hnodup.map_on fun k hk k' hk' heq => ?_
    rw [hkey k hk, hkey k' hk', heq]
  · rw [List.mem_map]
    constructor
    · rintro ⟨k, hk, rfl⟩
      exact ((h.kept k).1 ((hkeys k).1 hk)).2
    · intro hkept
      exact ⟨s₀.keyOf e, (hkeys _).2 ((h.kept _).2 ⟨rfl, hkept⟩), rfl⟩

/-! ## Whole runs -/

theorem Follows.builds_of_not_kept (h : Follows s₀ past (s₀.afterAll past))
    (hasks : x.call.Asks e) (hentity : s₀.model.entity? e = some entity) (hkept : ¬ Kept e past) :
    Builds s₀ past x entity := by
  refine h.builds hasks hentity (usable?_of_find? ?_ x.time)
  rw [← Option.not_isSome_iff_eq_none, h.kept]
  exact fun hsome => hkept hsome.2.2

/-- **The last call for an entity is followed by reuse**, as long as nothing is dropped. -/
theorem reuses_of_last {y : Event} (hs : buildWith naming settings all = .ok s₀)
    (hasks : x.call.Asks e) (hy : y.call.Asks e) (hentity : s₀.model.entity? e = some entity)
    (hunexpired : Unexpired s₀.cache.ttl (xs ++ y :: ys ++ [x])) (hys : ∀ z ∈ ys, ¬ z.call.Asks e) :
    ∃ t, (s₀.afterAll xs).answer y = .ok (some t) ∧
      ((∀ z ∈ ys, ¬ z.call.Drops e) → (s₀.afterAll (xs ++ y :: ys)).Reuses x t) := by
  have hfollows := follows hs (xs ++ y :: ys)
  have hxs := follows hs xs
  have hkeyOf {s : Session} (h : s.settings = s₀.settings) : s.keyOf e = s₀.keyOf e := by
    rw [keyOf, h]
    rfl
  obtain ⟨entry, hanswer, hfind⟩ :=
    exists_find?_after hy ((congrArg (·.entity? e) hxs.model).trans hentity)
  refine ⟨entry.table, hanswer, fun hdrops => reuses_of_usable hasks ?_⟩
  refine hfollows.usable hunexpired ?_
  have hsettings := ((s₀.afterAll xs).settings_after y).trans hxs.settings
  have hstays := find?_afterAll (s := (s₀.afterAll xs).after y) hys hdrops
  rw [hkeyOf hxs.settings] at hfind
  rw [hkeyOf hsettings, hfind] at hstays
  rw [hkeyOf hfollows.settings, afterAll_append]
  exact hstays

end Session

open Session

/-- **Sharing roots.** After any run of calls on a session over a checked model:

- While nothing expires, a call for the shared root of an entity gets the root of the last such call
  just if neither this entity nor all were dropped in between. Otherwise, and if there was no such
  call, one new root is built.
- Dropping an entity changes no answer to calls for others.
- A call for an unknown entity fails and builds nothing, and changes neither the number of roots
  that are kept nor any later result.
- As many roots are kept as there are entities that were asked for and not dropped since.
- With no time to live, each call builds a new root. -/
theorem shared_roots {naming : Naming} {settings : Settings} {all : List EntityDecl} {s₀ : Session}
    (hs : buildWith naming settings all = .ok s₀) (past : List Event) (x : Event) (e : String) :
    (∀ entity, s₀.model.entity? e = some entity → x.call.Asks e →
      Unexpired settings.ttlSeconds (past ++ [x]) →
        (∀ xs y ys, past = xs ++ y :: ys → y.call.Asks e → (∀ z ∈ ys, ¬ z.call.Asks e) →
          ∃ t, (s₀.afterAll xs).answer y = .ok (some t) ∧
            ((s₀.afterAll past).Reuses x t ↔ ∀ z ∈ ys, ¬ z.call.Drops e) ∧
            (Builds s₀ past x entity ↔ ∃ z ∈ ys, z.call.Drops e)) ∧
        ((∀ y ∈ past, ¬ y.call.Asks e) → Builds s₀ past x entity)) ∧
    (∀ now later, (∀ y ∈ later, ¬ y.call.Names e) →
      (((s₀.afterAll past).after ⟨now, .invalidate e⟩).results later).map (·.1) =
        ((s₀.afterAll past).results later).map (·.1)) ∧
    (s₀.model.entity? e = none → x.call.Names e →
      (s₀.afterAll past).answer x = .error (.unknownEntity e) ∧
      ((s₀.afterAll past).after x).draws = (s₀.afterAll past).draws ∧
      ((s₀.afterAll past).after x).cache.size = (s₀.afterAll past).cache.size ∧
      ∀ later, ((s₀.afterAll past).after x).results later = (s₀.afterAll past).results later) ∧
    (∃ live : List String, live.Nodup ∧
      (∀ e, e ∈ live ↔ (s₀.model.entity? e).isSome ∧ Kept e past) ∧
      (s₀.afterAll past).cache.size = live.length) ∧
    (settings.ttlSeconds = 0 → ∀ entity, s₀.model.entity? e = some entity → x.call.Asks e →
      Builds s₀ past x entity) := by
  have hfollows := follows hs past
  have httl : s₀.cache.ttl = settings.ttlSeconds := by
    obtain ⟨model, -, hs⟩ := bind_eq_ok.1 hs
    cases hs
    rfl
  refine ⟨fun entity hentity hasks hunexpired => ⟨?_, ?_⟩, fun now later hlater => ?_,
    fun hentity hnames => ?_, hfollows.size, fun hzero entity hentity hasks => ?_⟩
  · rintro xs y ys rfl hy hys
    rw [← httl] at hunexpired
    obtain ⟨t, ht, hreuses⟩ := reuses_of_last hs hasks hy hentity hunexpired hys
    have hbuilds : (∃ z ∈ ys, z.call.Drops e) → Builds s₀ (xs ++ y :: ys) x entity := by
      rintro ⟨z, hz, hdrops⟩
      refine hfollows.builds_of_not_kept hasks hentity fun hkept => ?_
      exact (kept_iff_of_last hy hys).1 hkept z hz hdrops
    have hnot : ∀ {t}, (s₀.afterAll (xs ++ y :: ys)).Reuses x t →
        ¬ Builds s₀ (xs ++ y :: ys) x entity := by
      intro t hreuses hbuilds
      exact absurd (hreuses.2.symm.trans hbuilds.draws) (Nat.ne_of_lt (Nat.lt_succ_self _))
    refine ⟨t, ht, ⟨fun h z hz hdrops => ?_, hreuses⟩, fun h => ?_, hbuilds⟩
    · exact hnot h (hbuilds ⟨z, hz, hdrops⟩)
    · refine Classical.byContradiction fun hnone => ?_
      exact hnot (hreuses fun z hz hdrops => hnone ⟨z, hz, hdrops⟩) h
  · intro hnone
    refine hfollows.builds_of_not_kept hasks hentity ?_
    rintro ⟨xs, y, ys, rfl, hy, -⟩
    exact hnone y (List.mem_append_right _ List.mem_cons_self) hy
  · refine (agreeOn_invalidate _ now e).answers fun y hy e' hnames heq => ?_
    exact hlater y hy (heq ▸ hnames)
  · obtain ⟨hanswer, hagree⟩ := hfollows.unknown hnames hentity
    exact ⟨hanswer, hagree.draws, Cache.size_congr fun k => hagree.find k trivial,
      hagree.results_eq⟩
  · exact hfollows.builds hasks hentity
      (usable?_of_ttl (hfollows.ttl.trans (httl.trans hzero)) _ _)

/-- Orders are shared between tables and queries until everything is dropped, whatever else is asked
for. Then there is another root. -/
theorem shared_roots_orders :
    ∃ s₀ t t', Session.build .default Shop.declarations = .ok s₀ ∧
      s₀.answer ⟨0, .table "Order"⟩ = .ok (some t) ∧
      (s₀.afterAll [⟨0, .table "Order"⟩, ⟨1, .table "Parcel"⟩, ⟨2, .invalidate "Customer"⟩]).Reuses
        ⟨3, .query "Order"⟩ t ∧
      Builds s₀ [⟨0, .table "Order"⟩, ⟨1, .table "Parcel"⟩, ⟨2, .clear⟩] ⟨3, .table "Order"⟩
        Shop.order ∧
      (s₀.afterAll [⟨0, .table "Order"⟩, ⟨1, .table "Parcel"⟩, ⟨2, .clear⟩]).answer
        ⟨3, .table "Order"⟩ = .ok (some t') ∧ t ≠ t' := by
  have hs : Session.build .default Shop.declarations =
      .ok ⟨Shop.model .hashed, .default, .empty Settings.default.ttlSeconds, 0⟩ := rfl
  have hentity : (Shop.model .hashed).entity? "Order" = some Shop.order := rfl
  have hunexpired (c c' : Call) : Unexpired Settings.default.ttlSeconds
      ([⟨0, .table "Order"⟩, ⟨1, .table "Parcel"⟩, ⟨2, c⟩] ++ [⟨3, c'⟩]) := by
    simp [Unexpired, Settings.default]
  obtain ⟨⟨hlast, -⟩, -⟩ := (shared_roots hs
    [⟨0, .table "Order"⟩, ⟨1, .table "Parcel"⟩, ⟨2, .invalidate "Customer"⟩] ⟨3, .query "Order"⟩
    "Order").imp_left fun h => h Shop.order hentity (.inr rfl) (hunexpired _ _)
  obtain ⟨t, ht, hreuses, -⟩ := hlast [] _ _ rfl (.inl rfl) (by simp [Call.Asks])
  obtain ⟨⟨hlast', -⟩, -⟩ := (shared_roots hs
    [⟨0, .table "Order"⟩, ⟨1, .table "Parcel"⟩, ⟨2, .clear⟩] ⟨3, .table "Order"⟩
    "Order").imp_left fun h => h Shop.order hentity (.inl rfl) (hunexpired _ _)
  obtain ⟨-, -, -, hbuilds⟩ := hlast' [] _ _ rfl (.inl rfl) (by simp [Call.Asks])
  have hbuilt := hbuilds.2 ⟨⟨2, .clear⟩, by simp, .inr rfl⟩
  have hnew := hbuilt.new (Naming.drawsNew_hashed (by decide)) t ⟨[], _, _, rfl, ht⟩
  exact ⟨_, t, _, hs, ht, hreuses.2 (by simp [Call.Drops]), hbuilt, hbuilt.answer, hnew⟩

end EntityQuery
