import EntityQuery.Proofs.Success

/-!
# Failing computations

How a computation comes to fail: one of its steps does, and all before it succeed. For `Except`
this is `bind_eq_error`. For `Build` it is `Build.Throws`: started in the frame `f`, the
computation ends with the error `e`. The frame that a failure leaves is of no account.

Like those on `Build.Gives`, the lemmas take a `do` block apart step by step. A computation succeeds
or fails (`Build.gives_or_throws`), and not both (`Build.Throws.not_gives`).
-/

namespace EntityQuery

section

variable {ε α β : Type}

theorem bind_eq_error {x : Except ε α} {k : α → Except ε β} {e : ε} :
    (x >>= k) = .error e ↔ x = .error e ∨ ∃ a, x = .ok a ∧ k a = .error e := by
  rcases x with e' | a <;> simp [bind, Except.bind]

theorem pure_ne_error {a : α} {e : ε} : (pure a : Except ε α) ≠ .error e := by
  simp [pure, Except.pure]

/-- The error of a list of computations is the error of one of them. -/
theorem exists_of_mapM_eq_error {k : α → Except ε β} {xs : List α} {e : ε}
    (h : xs.mapM k = .error e) : ∃ x ∈ xs, k x = .error e := by
  induction xs with
  | nil => exact absurd h pure_ne_error
  | cons x xs ih =>
    rw [List.mapM_cons, bind_eq_error] at h
    obtain hx | ⟨y, -, h⟩ := h
    · exact ⟨x, List.mem_cons_self, hx⟩
    · obtain hxs | ⟨ys, -, h⟩ := bind_eq_error.1 h
      · obtain ⟨x', hx', he⟩ := ih hxs
        exact ⟨x', List.mem_cons_of_mem x hx', he⟩
      · exact absurd h pure_ne_error

end

namespace Build

variable {α β : Type} {f g : Frame} {e : QueryError}

/-- From the frame `f` the computation fails with `e`. -/
def Throws (act : Build α) (f : Frame) (e : QueryError) : Prop :=
  ∃ g, StateT.run act f = (.error e, g)

theorem gives_or_throws (act : Build α) (f : Frame) :
    (∃ a g, act.Gives f a g) ∨ ∃ e, act.Throws f e := by
  simp only [Gives, Throws]
  obtain ⟨r, g⟩ : Except QueryError α × Frame := StateT.run act f
  cases r with
  | ok a => exact .inl ⟨a, g, rfl⟩
  | error e => exact .inr ⟨e, g, rfl⟩

theorem Throws.not_gives {act : Build α} (h : act.Throws f e) {a : α} : ¬ act.Gives f a g := by
  intro hgives
  obtain ⟨g', h⟩ := h
  rw [Gives, h] at hgives
  cases hgives

theorem not_throws_of_gives {act : Build α} {a : α} (h : act.Gives f a g) : ¬ act.Throws f e :=
  fun hthrows => hthrows.not_gives h

theorem not_throws_pure {a : α} : ¬ (pure a : Build α).Throws f e :=
  not_throws_of_gives (gives_pure.2 ⟨rfl, rfl⟩)

theorem throws_throw {e' : QueryError} : (throw e' : Build α).Throws f e ↔ e = e' := by
  rw [Throws]
  show (∃ g, ((Except.error e', f) : Except QueryError α × Frame) = _) ↔ _
  simp [eq_comm]

/-- A computation fails in its first step, or after it. -/
theorem throws_bind {x : Build α} {k : α → Build β} :
    (x >>= k).Throws f e ↔ x.Throws f e ∨ ∃ a g, x.Gives f a g ∧ (k a).Throws g e := by
  simp only [Throws, Gives]
  show (∃ g', StateT.run (ExceptT.bindCont k (StateT.run x f).1) (StateT.run x f).2 = _) ↔ _
  obtain ⟨r, g⟩ : Except QueryError α × Frame := StateT.run x f
  cases r with
  | error e' =>
    show (∃ g', ((Except.error e', g) : Except QueryError β × Frame) = _) ↔ _
    constructor
    · intro h
      obtain ⟨_, h⟩ := h
      cases h
      exact .inl ⟨g, rfl⟩
    · intro hex
      obtain ⟨_, hx⟩ | ⟨a, _, hx, -⟩ := hex
      · cases hx
        exact ⟨g, rfl⟩
      · cases hx
  | ok a =>
    show (∃ g', StateT.run (k a) g = _) ↔ _
    constructor
    · intro hk
      exact .inr ⟨a, g, rfl, hk⟩
    · intro hex
      obtain ⟨g', hx⟩ | ⟨a', g', hx, hk⟩ := hex
      · cases hx
      · cases hx
        exact hk

theorem throws_lift {r : Except QueryError α} : (lift r).Throws f e ↔ r = .error e := by
  cases r with
  | error e' => simp [lift, throws_throw, eq_comm]
  | ok a => simp [lift, not_throws_pure]

theorem not_throws_root : ¬ root.Throws f e :=
  not_throws_of_gives (gives_root.2 ⟨rfl, rfl⟩)

theorem not_throws_get : ¬ (get : Build Frame).Throws f e :=
  not_throws_of_gives (gives_get.2 ⟨rfl, rfl⟩)

theorem throws_join {hops : List Relationship} {origin : JoinOrigin} :
    (join hops origin).Throws f e ↔ f.scope.joinHops hops origin = .error e := by
  have hset : ∀ {g s : Frame}, ¬ (set s : Build PUnit).Throws g e :=
    not_throws_of_gives (gives_set (a := ⟨⟩).2 rfl)
  simp only [join, throws_bind, not_throws_get, false_or, gives_get, throws_lift, hset, and_false,
    exists_false, or_false]
  constructor
  · intro h
    obtain ⟨_, _, ⟨rfl, rfl⟩, h⟩ := h
    exact h
  · intro h
    exact ⟨f, f, ⟨rfl, rfl⟩, h⟩

theorem not_throws_joinCte {name : String} {on : Sql.Expr} {origin : JoinOrigin} :
    ¬ (joinCte name on origin).Throws f e :=
  not_throws_of_gives (gives_joinCte (u := ⟨⟩).2 rfl)

theorem not_throws_addCte {q : Sql.Query} : ¬ (addCte q).Throws f e :=
  not_throws_of_gives (gives_addCte.2 ⟨rfl, rfl⟩)

theorem throws_within {inner : Scope} {act : Build α} :
    (within inner act).Throws f e ↔ act.Throws ⟨inner, f.ctes⟩ e := by
  simp only [Throws, within, StateT.run]
  obtain ⟨r, h⟩ : Except QueryError α × Frame := act ⟨inner, f.ctes⟩
  cases r with
  | error e' =>
    constructor
    · intro hw
      obtain ⟨_, hw⟩ := hw
      cases hw
      exact ⟨h, rfl⟩
    · intro hact
      obtain ⟨_, hact⟩ := hact
      cases hact
      exact ⟨_, rfl⟩
  | ok a =>
    constructor
    · intro hw
      obtain ⟨_, hw⟩ := hw
      cases hw
    · intro hact
      obtain ⟨_, hact⟩ := hact
      cases hact

end Build

end EntityQuery
