import EntityQuery.Scope
import Mathlib.Data.List.Forall2

/-!
# Successful computations

How a computation that may fail comes to a result: each step of it has one. For `Except` this is
`bind_eq_ok`. For `Build`, which also changes a frame, it is `Build.Gives`: started in the frame
`f`, the computation ends in the frame `g` with the result `a`.

The lemmas on `Gives` take a `do` block apart step by step, so no later proof opens the monad.
-/

namespace EntityQuery

/-! ## Computations that may fail -/

section

variable {ε α β : Type}

theorem pure_eq_ok {a b : α} : (pure a : Except ε α) = .ok b ↔ b = a := by
  simp [pure, Except.pure, eq_comm]

theorem map_eq_ok {k : α → β} {x : Except ε α} {b : β} :
    x.map k = .ok b ↔ ∃ a, x = .ok a ∧ k a = b := by
  cases x <;> simp [Except.map]

/-- A list of computations succeeds element by element. -/
theorem mapM_eq_ok_iff {k : α → Except ε β} {xs : List α} {ys : List β} :
    xs.mapM k = .ok ys ↔ List.Forall₂ (fun x y => k x = .ok y) xs ys := by
  induction xs generalizing ys with
  | nil =>
    rw [List.mapM_nil, pure_eq_ok, List.forall₂_nil_left_iff]
  | cons x xs ih =>
    simp only [List.mapM_cons, bind_eq_ok, pure_eq_ok, List.forall₂_cons_left_iff, ih]
    constructor
    · intro h
      obtain ⟨y, hy, ys, hys, rfl⟩ := h
      exact ⟨y, ys, hy, hys, rfl⟩
    · intro h
      obtain ⟨y, ys, hy, hys, rfl⟩ := h
      exact ⟨y, hy, ys, hys, rfl⟩

theorem exists_of_forall₂ {R : α → β → Prop} {as : List α} {bs : List β}
    (h : List.Forall₂ R as bs) {a : α} (ha : a ∈ as) : ∃ b ∈ bs, R a b := by
  induction h with
  | nil => cases ha
  | @cons a' b as bs hab _ ih =>
    rcases List.mem_cons.1 ha with rfl | ha
    · exact ⟨b, List.mem_cons_self, hab⟩
    · obtain ⟨b', hb', hab'⟩ := ih ha
      exact ⟨b', List.mem_cons_of_mem b hb', hab'⟩

/-- Every result of a list of computations is the result of one of them. -/
theorem exists_of_mapM_eq_ok {k : α → Except ε β} {xs : List α} {ys : List β}
    (h : xs.mapM k = .ok ys) : ∀ y ∈ ys, ∃ x ∈ xs, k x = .ok y :=
  fun _ hy => exists_of_forall₂ (mapM_eq_ok_iff.1 h).flip hy

end

/-! ## Computations on a frame -/

namespace Build

variable {α β : Type} {f g h : Frame}

/-- From the frame `f` the computation succeeds with `a` and leaves the frame `g`. -/
def Gives (act : Build α) (f : Frame) (a : α) (g : Frame) : Prop :=
  StateT.run act f = (.ok a, g)

/-- A computation succeeds in one way. -/
theorem Gives.unique {act : Build α} {a b : α} (ha : act.Gives f a g) (hb : act.Gives f b h) :
    b = a ∧ h = g := by
  rw [Gives] at ha hb
  cases hb.symm.trans ha
  exact ⟨rfl, rfl⟩

theorem gives_pure {a b : α} : (pure a : Build α).Gives f b g ↔ b = a ∧ g = f := by
  rw [Gives]
  show ((Except.ok a, f) : Except QueryError α × Frame) = _ ↔ _
  simp [eq_comm]

theorem not_gives_throw {e : QueryError} {a : α} : ¬ (throw e : Build α).Gives f a g := by
  rw [Gives]
  show ¬ ((Except.error e, f) : Except QueryError α × Frame) = _
  simp

theorem gives_bind {x : Build α} {k : α → Build β} {b : β} :
    (x >>= k).Gives f b h ↔ ∃ a g, x.Gives f a g ∧ (k a).Gives g b h := by
  simp only [Gives]
  show StateT.run (ExceptT.bindCont k (StateT.run x f).1) (StateT.run x f).2 = _ ↔ _
  obtain ⟨r, g⟩ : Except QueryError α × Frame := StateT.run x f
  cases r with
  | error e =>
    show ((Except.error e, g) : Except QueryError β × Frame) = _ ↔ _
    constructor
    · intro hk
      cases hk
    · intro hex
      obtain ⟨a, g', hx, -⟩ := hex
      cases hx
  | ok a =>
    show StateT.run (k a) g = _ ↔ _
    constructor
    · intro hk
      exact ⟨a, g, rfl, hk⟩
    · intro hex
      obtain ⟨a', g', hx, hk⟩ := hex
      cases hx
      exact hk

theorem gives_lift {r : Except QueryError α} {a : α} :
    (lift r).Gives f a g ↔ r = .ok a ∧ g = f := by
  cases r with
  | error e => simp [lift, not_gives_throw]
  | ok b => simp [lift, gives_pure, eq_comm]

theorem gives_get {a : Frame} : (get : Build Frame).Gives f a g ↔ a = f ∧ g = f := by
  rw [Gives]
  show ((Except.ok f, f) : Except QueryError Frame × Frame) = _ ↔ _
  simp [eq_comm]

theorem gives_set {s : Frame} {a : PUnit} : (set s : Build PUnit).Gives f a g ↔ g = s := by
  rw [Gives]
  show ((Except.ok ⟨⟩, s) : Except QueryError PUnit × Frame) = _ ↔ _
  simp [eq_comm]

theorem gives_root {t : Table} : root.Gives f t g ↔ t = f.scope.root ∧ g = f := by
  simp only [root, gives_bind, gives_get, gives_pure]
  constructor
  · intro h
    obtain ⟨a, g', ⟨rfl, rfl⟩, rfl, rfl⟩ := h
    exact ⟨rfl, rfl⟩
  · intro h
    obtain ⟨rfl, rfl⟩ := h
    exact ⟨_, _, ⟨rfl, rfl⟩, rfl, rfl⟩

theorem gives_join {hops : List Relationship} {origin : JoinOrigin} {u : Unit} :
    (join hops origin).Gives f u g ↔
      ∃ s, f.scope.joinHops hops origin = .ok s ∧ g = ⟨s, f.ctes⟩ := by
  simp only [join, gives_bind, gives_get, gives_lift, gives_set]
  constructor
  · intro h
    obtain ⟨a, g', ⟨rfl, rfl⟩, s, g', ⟨hs, rfl⟩, rfl⟩ := h
    exact ⟨s, hs, rfl⟩
  · intro h
    obtain ⟨s, hs, rfl⟩ := h
    exact ⟨_, _, ⟨rfl, rfl⟩, s, _, ⟨hs, rfl⟩, rfl⟩

theorem gives_joinCte {name : String} {on : Sql.Expr} {origin : JoinOrigin} {u : Unit} :
    (joinCte name on origin).Gives f u g ↔ g = ⟨f.scope.joinCte name on origin, f.ctes⟩ := by
  simp only [joinCte, gives_bind, gives_get, gives_set]
  constructor
  · intro h
    obtain ⟨a, g', ⟨rfl, rfl⟩, rfl⟩ := h
    rfl
  · intro heq
    subst heq
    exact ⟨_, _, ⟨rfl, rfl⟩, rfl⟩

/-- The name of a CTE by its place in the statement. -/
def cteName (i : Nat) : String := "cte_" ++ toString i

theorem gives_addCte {q : Sql.Query} {name : String} :
    (addCte q).Gives f name g ↔
      name = cteName f.ctes.length ∧ g = ⟨f.scope, f.ctes ++ [⟨name, q⟩]⟩ := by
  simp only [addCte, gives_bind, gives_get, gives_set, gives_pure]
  constructor
  · intro h
    obtain ⟨a, g', ⟨rfl, rfl⟩, u, g', rfl, rfl, rfl⟩ := h
    exact ⟨rfl, rfl⟩
  · intro h
    obtain ⟨rfl, rfl⟩ := h
    exact ⟨_, _, ⟨rfl, rfl⟩, ⟨⟩, _, rfl, rfl, rfl⟩

theorem gives_within {inner s : Scope} {act : Build α} {a : α} :
    (within inner act).Gives f (a, s) g ↔
      ∃ ctes, act.Gives ⟨inner, f.ctes⟩ a ⟨s, ctes⟩ ∧ g = ⟨f.scope, ctes⟩ := by
  simp only [Gives, within, StateT.run]
  obtain ⟨r, h⟩ : Except QueryError α × Frame := act ⟨inner, f.ctes⟩
  cases r with
  | error e =>
    constructor
    · intro hw
      cases hw
    · intro hex
      obtain ⟨ctes, hact, -⟩ := hex
      cases hact
  | ok b =>
    constructor
    · intro hw
      cases hw
      exact ⟨h.ctes, rfl, rfl⟩
    · intro hex
      obtain ⟨ctes, hact, rfl⟩ := hex
      cases hact
      rfl

/-! ## Loops -/

/-- What each step of a loop keeps, of the frame and the value so far, the loop keeps. -/
theorem foldlM_induction {k : β → α → Build β} (I : Frame → β → Prop) {xs : List α} {b c : β}
    (hstep : ∀ x ∈ xs, ∀ ⦃f b g c⦄, I f b → (k b x).Gives f c g → I g c) (hb : I f b)
    (hc : (xs.foldlM k b).Gives f c g) : I g c := by
  induction xs generalizing f b with
  | nil =>
    obtain ⟨rfl, rfl⟩ := gives_pure.1 hc
    exact hb
  | cons x xs ih =>
    rw [List.forall_mem_cons] at hstep
    rw [List.foldlM_cons, gives_bind] at hc
    obtain ⟨b₁, f₁, hx, hrest⟩ := hc
    exact ih hstep.2 (hstep.1 hb hx) hrest

/-- What each step keeps, of the frame and the results so far, a list of them keeps. -/
theorem mapM_induction {k : α → Build β} (I : Frame → List β → Prop) {xs : List α} {ys : List β}
    (hstep : ∀ x ∈ xs, ∀ ⦃f ys y g⦄, I f ys → (k x).Gives f y g → I g (ys ++ [y]))
    (hnil : I f []) (hys : (xs.mapM k).Gives f ys g) : I g ys := by
  -- The rest of the list starts with the results in front of it.
  suffices hrun : ∀ zs, I f zs → I g (zs ++ ys) from hrun [] hnil
  clear hnil
  induction xs generalizing f ys with
  | nil =>
    rw [List.mapM_nil] at hys
    obtain ⟨rfl, rfl⟩ := gives_pure.1 hys
    intro zs hzs
    rwa [List.append_nil]
  | cons x xs ih =>
    rw [List.forall_mem_cons] at hstep
    simp only [List.mapM_cons, gives_bind, gives_pure] at hys
    obtain ⟨y, f₁, hy, rest, f₂, hrest, rfl, rfl⟩ := hys
    intro zs hzs
    rw [List.append_cons]
    exact ih hstep.2 hrest _ (hstep.1 hzs hy)

end Build

end EntityQuery
