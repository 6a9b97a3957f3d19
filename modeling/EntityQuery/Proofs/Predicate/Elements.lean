import EntityQuery.Proofs.Predicate.Simplified
import EntityQuery.Sql.Printing

/-!
# Comparisons with a list

A comparison with a list of values is written in one of four ways: a constant for no value, the
comparison itself for one, IN or NOT IN for `= ANY` and `<> ALL`, and a chain of comparisons for
all else. What it says is what the comparisons with the values say, one of them or all
(`Quantifier.truth`).

**NULL.** Alone, NULL is compared by IS NULL and IS NOT NULL. Among the values of IN or NOT IN it is
a parameter, and the comparison with it is unknown. So a list of two or more values with NULL among
them (`NullListed`) means its elements only where the other values decide.
-/

namespace EntityQuery

open EntityQuery.Sql (Expr Engine Database Ctes Env Row Truth)

/-! ## Many truth values -/

namespace Sql.Truth

/-- Whether all of them are true; of none, true. -/
def all (as : List Truth) : Truth := as.foldr and (some true)

theorem any_cons (a : Truth) (as : List Truth) : any (a :: as) = or a (any as) := rfl

theorem any_eq_true {as : List Truth} : any as = some true ↔ some true ∈ as := by
  induction as with
  | nil => simp [any]
  | cons a as ih =>
    rw [any_cons, List.mem_cons, ← ih]
    rcases a with _ | _ | _ <;> rcases any as with _ | _ | _ <;> simp [or]

theorem any_eq_false {as : List Truth} : any as = some false ↔ ∀ a ∈ as, a = some false := by
  induction as with
  | nil => simp [any]
  | cons a as ih =>
    rw [any_cons, List.forall_mem_cons, ← ih]
    rcases a with _ | _ | _ <;> rcases any as with _ | _ | _ <;> simp [or]

/-- A disjunction is unknown only if a part is, and none is true. -/
theorem any_eq_none {as : List Truth} : any as = none ↔ none ∈ as ∧ some true ∉ as := by
  induction as with
  | nil => simp [any]
  | cons a as ih =>
    have htrue := @any_eq_true as
    rw [any_cons, List.mem_cons, List.mem_cons]
    rcases a with _ | _ | _ <;> rcases hany : any as with _ | _ | _ <;> simp_all [or]

theorem not_any (as : List Truth) : (any as).not = all (as.map not) := by
  induction as with
  | nil => rfl
  | cons a as ih =>
    show (or a (any as)).not = and a.not (all (as.map not))
    rw [not_or, ih]

theorem not_not (a : Truth) : a.not.not = a := by
  rcases a with _ | _ | _ <;> rfl

/-- A conjunction is the negation of a disjunction. -/
theorem all_eq (as : List Truth) : all as = (any (as.map not)).not := by
  have hid : not ∘ not = id := funext not_not
  rw [not_any, List.map_map, hid, List.map_id]

end Sql.Truth

namespace Quantifier

/-- The truth of one of them, or of all. -/
def truth : Quantifier → List Truth → Truth
  | any => Truth.any
  | all => Truth.all

/-- How the comparisons with the values of a list are joined. -/
def connective : Quantifier → Connective
  | any => .or
  | all => .and

theorem truth_cons (q : Quantifier) (a : Truth) (as : List Truth) :
    q.truth (a :: as) = q.connective.truth a (q.truth as) := by
  cases q <;> rfl

theorem truth_singleton (q : Quantifier) (a : Truth) : q.truth [a] = a := by
  cases q <;> rcases a with _ | _ | _ <;> rfl

/-- From the left as from the right. -/
theorem foldl_truth (q : Quantifier) (a : Truth) (as : List Truth) :
    as.foldl q.connective.truth a = q.truth (a :: as) := by
  induction as generalizing a with
  | nil => exact (q.truth_singleton a).symm
  | cons b as ih =>
    rw [List.foldl_cons, ih, truth_cons, truth_cons, truth_cons, Connective.truth_assoc]

end Quantifier

variable {D : Type} [DecidableEq D] {E : Engine D} {db : Database D} {ctes : Ctes D}
  {group : List (Env D)} {env : Env D}

/-! ## Chains -/

theorem truth_binary_connective (op : Connective) (a b : Option D) :
    E.truth (E.binary op.binary a b) = op.truth (E.truth a) (E.truth b) := by
  cases op <;> exact E.truth_value _

theorem truth_foldl_connective (op : Connective) (acc : Expr) (es : List Expr) :
    E.truth ((es.foldl (fun acc x => .binary acc op.binary x.protect) acc).eval E db ctes group
        env) =
      (es.map fun e => E.truth (e.eval E db ctes group env)).foldl op.truth
        (E.truth (acc.eval E db ctes group env)) := by
  induction es generalizing acc with
  | nil => rfl
  | cons e es ih =>
    rw [List.foldl_cons, ih, List.map_cons, List.foldl_cons, Expr.eval, truth_binary_connective,
      Expr.eval_protect]

/-- A chain says what its parts say, one of them or all. -/
theorem truth_combine (q : Quantifier) {es : List Expr} {e : Expr}
    (h : Expr.combine q.connective.binary es = some e) :
    E.truth (e.eval E db ctes group env) =
      q.truth (es.map fun e => E.truth (e.eval E db ctes group env)) := by
  cases es with
  | nil => cases h
  | cons x es =>
    cases h
    rw [truth_foldl_connective, Expr.eval_protect, q.foldl_truth, List.map_cons]

/-! ## Elements -/

section

variable {target : Target} {v : Value} {e : Expr}

theorem exists_scalar (target : Target) (negated : Bool) (v : Value) :
    ∃ e, target.scalar (bif negated then .ne else .eq) v = .ok e := by
  cases hnull : v.isNull <;> cases negated <;> simp [Target.scalar, hnull, Operator.binary?]

/-- Alone, NULL is asked for by IS NULL. -/
theorem truth_scalar_null (negated : Bool)
    (h : target.scalar (bif negated then .ne else .eq) v = .ok e) (hv : v.isNull = true) :
    E.truth (e.eval E db ctes group env) =
      some ((target.column.eval E db ctes group env).isNone != negated) := by
  have he : e = .isNull target.column negated := by
    cases negated <;> simpa [Target.scalar, hv, eq_comm] using h
  rw [he, Expr.eval]
  exact congrArg some (E.holds_ofBool _)

theorem truth_scalar_value (negated : Bool)
    (h : target.scalar (bif negated then .ne else .eq) v = .ok e) (hv : v.isNull = false) :
    E.truth (e.eval E db ctes group env) =
      let same := sameTruth E (target.column.eval E db ctes group env) target.type v
      if negated then same.not else same := by
  cases negated with
  | false =>
    have he : e = .binary target.column .eq (target.param v) := by
      simpa [Target.scalar, hv, Operator.binary?, eq_comm] using h
    rw [he, Expr.eval, Target.param, Expr.eval, sameTruth]
    rfl
  | true =>
    have he : e = .binary target.column .ne (target.param v) := by
      simpa [Target.scalar, hv, Operator.binary?, eq_comm] using h
    rw [he, Expr.eval, Target.param, Expr.eval, truth_binary_ne, sameTruth]
    rfl

theorem sameTruth_null {a : Option D} {type : Option String} (hv : v.isNull = true) :
    sameTruth E a type v = none := by
  rw [sameTruth, Sql.Engine.param, if_pos hv]
  cases a <;> rfl

end

/-! ## Lists -/

/-- What is said of each value, NULL being compared with as a parameter. -/
def listTruths (truth : Expr → Truth) (vs : List Value) (es : List Expr) : List Truth :=
  List.zipWith (fun v e => if v.isNull then none else truth e) vs es

section

variable (truth : Expr → Truth) {R : Value → Expr → Prop} {vs : List Value} {es : List Expr}

theorem listTruths_cons (v : Value) (e : Expr) (vs : List Value) (es : List Expr) :
    listTruths truth (v :: vs) (e :: es) =
      (if v.isNull then none else truth e) :: listTruths truth vs es := rfl

theorem listTruths_eq_map (h : List.Forall₂ R vs es) (hnull : vs.any (·.isNull) = false) :
    listTruths truth vs es = es.map truth := by
  induction h with
  | nil => rfl
  | cons _ _ ih =>
    rw [List.any_cons, Bool.or_eq_false_iff] at hnull
    rw [listTruths_cons, if_neg (by simp [hnull.1]), ih hnull.2, List.map_cons]

theorem none_mem_listTruths (h : List.Forall₂ R vs es) (hnull : vs.any (·.isNull) = true) :
    none ∈ listTruths truth vs es := by
  induction h with
  | nil => cases hnull
  | @cons v e vs es _ _ ih =>
    rw [listTruths_cons, List.mem_cons]
    by_cases hv : v.isNull = true
    · left
      rw [if_pos hv]
    · right
      rw [List.any_cons, Bool.or_eq_true] at hnull
      exact ih (hnull.resolve_left hv)

theorem forall₂_listTruths (h : List.Forall₂ R vs es) :
    List.Forall₂ (fun a b => a = b ∨ a = none) (listTruths truth vs es) (es.map truth) := by
  induction h with
  | nil => exact .nil
  | cons _ _ ih =>
    rw [listTruths_cons, List.map_cons]
    refine .cons ?_ ih
    split
    · exact .inr rfl
    · exact .inl rfl

end

section

variable {target : Target} {op : Operator} {q : Quantifier} {vs : List Value} {es : List Expr}
  {x : Expr}

/-- IN asks for one of the values, NOT IN for none. -/
theorem truth_inList {negated : Bool}
    (h : List.Forall₂ (fun v e => target.scalar (bif negated then .ne else .eq) v = .ok e) vs es) :
    E.truth ((Expr.inList target.column (vs.map target.param) negated).eval E db ctes group env) =
      (bif negated then Quantifier.all else .any).truth
        (listTruths (fun e => E.truth (e.eval E db ctes group env)) vs es) := by
  have hvalues : listTruths (fun e => E.truth (e.eval E db ctes group env)) vs es =
      vs.map fun v =>
        let same := sameTruth E (target.column.eval E db ctes group env) target.type v
        if negated then same.not else same := by
    induction h with
    | nil => rfl
    | @cons v e _ _ hv _ ih =>
      rw [listTruths_cons, List.map_cons, ← ih]
      congr 1
      by_cases hnull : v.isNull = true
      · rw [if_pos hnull, sameTruth_null hnull]
        cases negated <;> rfl
      · rw [if_neg hnull, truth_scalar_value negated hv (by simpa using hnull)]
  rw [hvalues, Expr.eval, evalAll_params, truth_member, oneOf]
  cases negated with
  | false => rfl
  | true =>
    rw [if_pos rfl, Truth.not_any, List.map_map]
    rfl

/-- Two or more values are compared one by one, unless they are listed. -/
theorem Target.list_chain (heq : op ≠ .eq) (hne : op ≠ .ne) (v w : Value) (rest : List Value) :
    target.list op (v :: w :: rest) q = (do
      let parts ← (v :: w :: rest).mapM (target.scalar op)
      return (Expr.combine q.connective.binary parts).getD (.int 1)) := by
  cases op <;> first | contradiction | (cases q <;> rfl)

/-- **The four ways** to write a comparison with a list. -/
theorem Target.list_eq_ok (h : target.list op vs q = .ok x) :
    (vs = [] ∧ x = .inList target.column [] (q == .all)) ∨
    (∃ v, vs = [v] ∧ target.scalar op v = .ok x) ∨
    (1 < vs.length ∧ ∃ negated, op = (bif negated then .ne else .eq) ∧
      q = (bif negated then .all else .any) ∧
      x = .inList target.column (vs.map target.param) negated) ∨
    (¬ (op = .eq ∧ q = .any ∨ op = .ne ∧ q = .all) ∧
      ∃ es, vs.mapM (target.scalar op) = .ok es ∧
        Expr.combine q.connective.binary es = some x) := by
  match vs, h with
  | [], h =>
    cases h
    exact .inl ⟨rfl, rfl⟩
  | [v], h => exact .inr (.inl ⟨v, rfl, h⟩)
  | v :: w :: rest, h =>
    by_cases heq : op = .eq
    · subst heq
      cases q with
      | any =>
        cases h
        exact .inr (.inr (.inl ⟨by simp, false, rfl, rfl, rfl⟩))
      | all => cases h
    by_cases hne : op = .ne
    · subst hne
      cases q with
      | any => cases h
      | all =>
        cases h
        exact .inr (.inr (.inl ⟨by simp, true, rfl, rfl, rfl⟩))
    · rw [list_chain heq hne] at h
      obtain ⟨es, hes, hx⟩ := bind_eq_ok.1 h
      rw [pure_eq_ok] at hx
      refine .inr (.inr (.inr ⟨by simp [heq, hne], es, hes, ?_⟩))
      -- There is a part, so the chain is not empty.
      cases mapM_eq_ok_iff.1 hes with
      | cons _ _ =>
        rw [hx]
        rfl

/-- Two or more values with NULL among them, written as IN or NOT IN. -/
def NullListed (op : Operator) (q : Quantifier) (vs : List Value) : Prop :=
  1 < vs.length ∧ vs.any (·.isNull) = true ∧ (op = .eq ∧ q = .any ∨ op = .ne ∧ q = .all)

/-- The comparison with a list, from those with its values. -/
theorem Target.truth_list (E : Engine D) (db : Database D) (h : target.list op vs q = .ok x) :
    ∃ es, List.Forall₂ (fun v e => target.scalar op v = .ok e) vs es ∧
      ∀ (ctes : Ctes D) group env,
        let truth (e : Expr) : Truth := E.truth (e.eval E db ctes group env)
        (¬ NullListed op q vs → truth x = q.truth (es.map truth)) ∧
        (NullListed op q vs → truth x = q.truth (listTruths truth vs es)) := by
  rcases list_eq_ok h with ⟨rfl, rfl⟩ | ⟨v, rfl, hv⟩ | ⟨hlong, negated, rfl, rfl, rfl⟩ |
    ⟨hop, es, hes, hx⟩
  · refine ⟨[], .nil, fun ctes group env => ⟨fun _ => ?_, fun hnull => ?_⟩⟩
    · dsimp only
      rw [Expr.eval, Sql.evalAll, Sql.Engine.member, E.truth_value]
      cases q <;> rfl
    · cases hnull.1
  · refine ⟨[x], .cons hv .nil, fun ctes group env => ⟨fun _ => ?_, fun hnull => ?_⟩⟩
    · rw [List.map_singleton, q.truth_singleton]
    · exact absurd hnull.1 (by simp)
  · obtain ⟨es, hes⟩ : ∃ es, List.Forall₂ (fun v e =>
        target.scalar (bif negated then .ne else .eq) v = .ok e) vs es := by
      clear h hlong
      induction vs with
      | nil => exact ⟨[], .nil⟩
      | cons v vs ih =>
        obtain ⟨es, hes⟩ := ih
        obtain ⟨e, he⟩ := exists_scalar target negated v
        exact ⟨e :: es, .cons he hes⟩
    refine ⟨es, hes, fun ctes group env => ⟨fun hnull => ?_, fun _ => truth_inList hes⟩⟩
    -- Without NULL all values are compared as parameters.
    have hvalues : vs.any (·.isNull) = false := by
      by_contra hany
      exact hnull ⟨hlong, by simpa using hany, by cases negated <;> simp⟩
    rw [← listTruths_eq_map _ hes hvalues]
    exact truth_inList hes
  · refine ⟨es, mapM_eq_ok_iff.1 hes, fun ctes group env => ⟨fun _ => truth_combine q hx, ?_⟩⟩
    exact fun hnull => absurd hnull.2.2 hop

end

/-! ## NULL in a list -/

/-- Where NULL counts as unknown, a disjunction is right as far as it is known. -/
theorem Sql.Truth.any_eq_any_iff {as bs : List Truth}
    (h : List.Forall₂ (fun a b => a = b ∨ a = none) as bs) (hnone : none ∈ as)
    (hbs : some true ∈ bs ∨ none ∉ bs) : any as = any bs ↔ any as ≠ none := by
  constructor
  · intro heq hunknown
    rw [heq, any_eq_none] at hunknown
    rcases hbs with htrue | hknown
    · exact hunknown.2 htrue
    · exact hknown hunknown.1
  · intro hknown
    have hfalse : any as ≠ some false := fun hall => by
      cases any_eq_false.1 hall none hnone
    have htrue : any as = some true := by
      rcases has : any as with _ | _ | _
      · exact absurd has hknown
      · exact absurd has hfalse
      · rfl
    have hmem : some true ∈ bs := by
      obtain ⟨b, hb, rfl | hunknown⟩ := exists_of_forall₂ h (any_eq_true.1 htrue)
      · exact hb
      · cases hunknown
    rw [htrue, any_eq_true.2 hmem]

theorem Sql.Truth.all_eq_all_iff {as bs : List Truth}
    (h : List.Forall₂ (fun a b => a = b ∨ a = none) as bs) (hnone : none ∈ as)
    (hbs : some false ∈ bs ∨ none ∉ bs) : all as = all bs ↔ all as ≠ none := by
  have hnot : ∀ {a b : Truth}, a.not = b ↔ a = b.not := by
    intro a b
    rcases a with _ | _ | _ <;> rcases b with _ | _ | _ <;> simp [not]
  have hmem : ∀ {b : Truth} {cs : List Truth}, b ∈ cs.map not ↔ b.not ∈ cs := by
    intro b cs
    simp only [List.mem_map, hnot, exists_eq_right]
  have hmap : List.Forall₂ (fun a b => a = b ∨ a = none) (as.map not) (bs.map not) := by
    rw [List.forall₂_map_left_iff, List.forall₂_map_right_iff]
    exact h.imp fun a b hab => hab.imp (congrArg not) (congrArg not)
  rw [all_eq, all_eq, hnot, not_not, ne_eq, hnot]
  exact any_eq_any_iff hmap (hmem.2 hnone) (hbs.imp hmem.2 (mt hmem.1))

section

variable {target : Target} {vs : List Value} {es : List Expr}

/-- The comparison with NULL itself is known, and so are the others unless the column is NULL. -/
theorem truths_known (negated : Bool)
    (h : List.Forall₂ (fun v e => target.scalar (bif negated then .ne else .eq) v = .ok e) vs es)
    (hnull : vs.any (·.isNull) = true) :
    let truths := es.map fun e => E.truth (e.eval E db ctes group env)
    some (!negated) ∈ truths ∨ none ∉ truths := by
  intro truths
  cases hcolumn : target.column.eval E db ctes group env with
  | none =>
    left
    obtain ⟨v, hv, hnull⟩ := List.any_eq_true.1 hnull
    obtain ⟨e, he, hscalar⟩ := exists_of_forall₂ h hv
    refine List.mem_map.2 ⟨e, he, ?_⟩
    rw [truth_scalar_null negated hscalar hnull, hcolumn]
    cases negated <;> rfl
  | some a =>
    right
    intro hnone
    obtain ⟨e, he, hunknown⟩ := List.mem_map.1 hnone
    obtain ⟨v, -, hscalar⟩ := exists_of_forall₂ h.flip he
    cases hv : v.isNull with
    | true =>
      rw [truth_scalar_null negated hscalar hv] at hunknown
      cases hunknown
    | false =>
      rw [truth_scalar_value negated hscalar hv, hcolumn, sameTruth, Sql.Engine.param, hv]
        at hunknown
      cases negated <;> cases hunknown

/-- **NULL in a list.** IN and NOT IN mean their elements exactly where they are known. -/
theorem truth_null_listed {op : Operator} {q : Quantifier} {x : Expr}
    (h : List.Forall₂ (fun v e => target.scalar op v = .ok e) vs es) (hnull : NullListed op q vs)
    (hx : E.truth (x.eval E db ctes group env) =
      q.truth (listTruths (fun e => E.truth (e.eval E db ctes group env)) vs es)) :
    E.truth (x.eval E db ctes group env) =
        q.truth (es.map fun e => E.truth (e.eval E db ctes group env)) ↔
      E.truth (x.eval E db ctes group env) ≠ none := by
  obtain ⟨-, hvalues, hop⟩ := hnull
  have hunknown := none_mem_listTruths (fun e => E.truth (e.eval E db ctes group env)) h hvalues
  have hrel := forall₂_listTruths (fun e => E.truth (e.eval E db ctes group env)) h
  rw [hx]
  rcases hop with ⟨rfl, rfl⟩ | ⟨rfl, rfl⟩
  · exact Truth.any_eq_any_iff hrel hunknown (truths_known false h hvalues)
  · exact Truth.all_eq_all_iff hrel hunknown (truths_known true h hvalues)

end

/-- **A comparison with a list means its elements.** Whenever it is written, so are the comparisons
with the values one by one, in the same place, and what it says in a row is what one of them or all
of them say. A list without values is written as a constant. A list that is written with NULL as a
parameter has an unknown comparison for it, and so it means its elements only where it is known. -/
theorem render_values_elements {m : Model} {origin : JoinOrigin} {path : Path} {op : Operator}
    {vs : List Value} {q : Quantifier} {f g : Frame} {e : Option Expr}
    (h : ((Predicate.compare path op (.values vs) q).render m origin).Gives f e g)
    (E : Engine D) (db : Database D) (ctes : Ctes D) (group : List (Env D)) (env : Env D) :
    ∃ x es, e = some x ∧
      List.Forall₂ (fun v y =>
        ((Predicate.compare path op (.value v) q).render m origin).Gives f (some y) g) vs es ∧
      (vs = [] → ∀ d, x.tokens d =
        ((Expr.int 1).eq (.int (if q = .any then 0 else 1))).tokens d) ∧
      let truth (y : Expr) : Truth := E.truth (y.eval E db ctes group env)
      (¬ NullListed op q vs → truth x = q.truth (es.map truth)) ∧
      (NullListed op q vs →
        truth x = q.truth (List.zipWith (fun v y => if v.isNull then none else truth y) vs es) ∧
        (truth x = q.truth (es.map truth) ↔ truth x ≠ none)) := by
  obtain ⟨target, f', x, htarget, hx, rfl⟩ := gives_render_compare.1 h
  obtain ⟨hlist, rfl⟩ := gives_render_values.1 hx
  obtain ⟨es, hes, htruth⟩ := Target.truth_list E db hlist
  obtain ⟨hplain, hnull⟩ := htruth ctes group env
  refine ⟨x, es, rfl, ?_, ?_, hplain, fun hn => ⟨hnull hn, truth_null_listed hes hn (hnull hn)⟩⟩
  · exact hes.imp fun v y hy =>
      gives_render_compare.2 ⟨target, g, y, htarget, gives_render_value.2 ⟨hy, rfl⟩, rfl⟩
  · rintro rfl d
    cases hlist
    cases q <;> rfl

namespace Shop

/-- An order has one of these identifiers. -/
def identified (vs : List Value) : Predicate := .compare ⟨["id"]⟩ .eq (.values vs) .any

theorem render_identified (v w : Value) (rest : List Value) :
    ∃ e g, ((identified (v :: w :: rest)).render (model plain) .filter).Gives
      ⟨.ofTable (model plain) orders, []⟩ e g :=
  ⟨_, _, gives_render_compare.2 ⟨_, _, _, gives_joinColumn.2 ⟨_, _, rfl, rfl, rfl, rfl, rfl⟩,
    gives_render_values.2 ⟨rfl, rfl⟩, rfl⟩⟩

/-- Without an identifier, a comparison with NULL is true and any other is unknown. -/
theorem truth_identifier {v : Value} {e : Expr} {g : Frame}
    (h : ((Predicate.compare ⟨["id"]⟩ .eq (.value v) .any).render (model plain) .filter).Gives
      ⟨.ofTable (model plain) orders, []⟩ (some e) g) (db : Database String) :
    engine.truth (e.eval engine db (fun _ => []) [] Env.empty) =
      if v.isNull then some true else none := by
  obtain ⟨target, f, y, htarget, hy, he⟩ := gives_render_compare.1 h
  obtain ⟨hscalar, -⟩ := gives_render_value.1 hy
  obtain ⟨r, s, hr, -, -, rfl, -⟩ := gives_joinColumn.1 htarget
  cases hr
  cases he
  cases hv : v.isNull with
  | true => exact truth_scalar_null false hscalar hv
  | false => exact truth_scalar_value false hscalar hv

end Shop

/-- Of an order without an identifier the list of NULL and a text says nothing, although one of the
two comparisons is true. -/
theorem render_values_elements_null :
    ∃ x es g, ((Shop.identified [.null, .text "new"]).render (Shop.model Shop.plain) .filter).Gives
        ⟨.ofTable (Shop.model Shop.plain) Shop.orders, []⟩ (some x) g ∧
      List.Forall₂ (fun v y => ((Predicate.compare ⟨["id"]⟩ .eq (.value v) .any).render
        (Shop.model Shop.plain) .filter).Gives
          ⟨.ofTable (Shop.model Shop.plain) Shop.orders, []⟩ (some y) g)
        [.null, .text "new"] es ∧
      let truth (y : Expr) : Truth :=
        Shop.engine.truth (y.eval Shop.engine (fun _ _ => []) (fun _ => []) [] Env.empty)
      truth x = none ∧ Quantifier.any.truth (es.map truth) = some true := by
  obtain ⟨e, g, h⟩ := Shop.render_identified .null (.text "new") []
  obtain ⟨x, es, rfl, hes, -, -, hlisted⟩ :=
    render_values_elements h Shop.engine (fun _ _ => []) (fun _ => []) [] Env.empty
  obtain ⟨hx, -⟩ := hlisted ⟨by decide, rfl, .inl ⟨rfl, rfl⟩⟩
  refine ⟨x, es, g, h, hes, hx.trans ?_, ?_⟩
  all_goals
    rcases hes with _ | ⟨h₁, _ | ⟨h₂, _ | _⟩⟩
    simp only [List.zipWith_cons_cons, List.map_cons, Shop.truth_identifier h₁,
      Shop.truth_identifier h₂]
    rfl

end EntityQuery
