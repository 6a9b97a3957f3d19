import EntityQuery.Proofs.Predicate.Columns
import EntityQuery.Proofs.Predicate.Elements
import EntityQuery.Proofs.Predicate.Termination

/-!
# What negation says

**Leaves.** Where a comparison with values is written, so is its negation, and what that says is the
negation of what the comparison says, unknown included. A comparison with one value changes its
operator, or, for the patterns of a word, the connective too (`Target.scalar_opposite`). A list
changes its quantifier with the operator, so its parts are negated one by one and joined the other
way (`Target.list_opposite`).

**Twice.** Negating a negation gives back the predicate up to simplification
(`negatesBack_of_inverse`). Only `notLikeOrNull` does not come back as it was: it returns as the
group that simplification puts in its place.
-/

namespace EntityQuery

open EntityQuery.Sql (Expr Engine Database Ctes Env Truth)

/-! ## Opposite expressions -/

/-- Wherever the first is true the second is false, and conversely; both are unknown together. -/
def Sql.Expr.Opposite (x x' : Expr) : Prop :=
  ∀ (D : Type) [DecidableEq D] (E : Engine D) (db : Database D) (ctes : Ctes D)
    (group : List (Env D)) (env : Env D),
    E.truth (x'.eval E db ctes group env) = (E.truth (x.eval E db ctes group env)).not

theorem Quantifier.flip_flip (q : Quantifier) : q.flip.flip = q := by
  cases q <;> rfl

theorem Quantifier.truth_flip (q : Quantifier) (as : List Truth) :
    q.flip.truth (as.map Truth.not) = (q.truth as).not := by
  cases q with
  | any => exact (Truth.not_any as).symm
  | all =>
    have hall : Quantifier.all.truth as = (Truth.any (as.map Truth.not)).not := Truth.all_eq as
    rw [hall, Truth.not_not]
    rfl

namespace Sql.Expr

theorem opposite_isNull (column : Expr) (negated : Bool) :
    Opposite (.isNull column negated) (.isNull column (!negated)) := by
  intro D _ E db ctes group env
  rw [eval, eval]
  cases negated <;> simp [Engine.truth, E.holds_ofBool, Truth.not]

theorem opposite_inList (column : Expr) (es : List Expr) (negated : Bool) :
    Opposite (.inList column es negated) (.inList column es (!negated)) := by
  intro D _ E db ctes group env
  rw [eval, eval, Engine.member, Engine.member, E.truth_value, E.truth_value]
  cases negated with
  | false => rfl
  | true => exact (Truth.not_not _).symm

/-- The operators of opposite comparisons. -/
theorem opposite_binary {op op' : Operator} {b : BinaryOp} (hop : op.inverse? = some op')
    (hb : op.binary? = some b) :
    ∃ b', op'.binary? = some b' ∧ ∀ x y, Opposite (.binary x b y) (.binary x b' y) := by
  have hcolumn : op.columnInverse? = some op' := by
    cases op <;> first | exact hop | cases hb
  obtain ⟨b', hb'⟩ : ∃ b', op'.binary? = some b' := by
    cases op <;> cases hop <;> first | exact ⟨_, rfl⟩ | cases hb
  refine ⟨b', hb', fun x y D _ E db ctes group env => ?_⟩
  have hbetween := Operator.between_inverse (E := E) hcolumn (x.eval E db ctes group env)
    (y.eval E db ctes group env)
  rw [eval, eval]
  cases op <;> cases hop <;> cases hb <;> cases hb' <;> exact hbetween

/-- Opposite parts, one of them and all of them. -/
theorem opposite_combine {q : Quantifier} {es es' : List Expr} {x x' : Expr}
    (hes : List.Forall₂ Opposite es es') (hx : combine q.connective.binary es = some x)
    (hx' : combine q.flip.connective.binary es' = some x') : Opposite x x' := by
  intro D _ E db ctes group env
  have hparts : es'.map (fun e => E.truth (e.eval E db ctes group env)) =
      (es.map fun e => E.truth (e.eval E db ctes group env)).map Truth.not := by
    clear hx hx'
    induction hes with
    | nil => rfl
    | cons hab _ ih => rw [List.map_cons, List.map_cons, List.map_cons, hab D E db, ih]
  rw [truth_combine q.flip hx', truth_combine q hx, hparts, q.truth_flip]

end Sql.Expr

/-! ## Negating a comparison -/

section

variable {target : Target} {op op' : Operator} {v : Value} {vs : List Value} {q : Quantifier}
  {x : Expr}

/-- The patterns of a word, compared by opposite operators. -/
theorem Target.words_opposite {b b' : Sql.BinaryOp}
    (hb : ∀ y, Expr.Opposite (.binary target.column b y) (.binary target.column b' y))
    (h : target.words b q.connective.binary v = .ok x) :
    ∃ x', target.words b' q.flip.connective.binary v = .ok x' ∧ x.Opposite x' := by
  rw [words] at h
  rw [words]
  cases hv : v.text? with
  | none =>
    rw [hv] at h
    cases h
  | some word =>
    rw [hv] at h
    cases h
    have hparts : List.Forall₂ Expr.Opposite
        ((wordPatterns word).map fun s => .binary target.column b (target.param (.text s)))
        ((wordPatterns word).map fun s => .binary target.column b' (target.param (.text s))) := by
      rw [List.forall₂_map_left_iff, List.forall₂_map_right_iff]
      exact List.forall₂_same.2 fun s _ => hb _
    exact ⟨_, rfl, Expr.opposite_combine hparts rfl rfl⟩

theorem Target.scalar_of_binary {b : Sql.BinaryOp} (hv : v.isNull = false)
    (hb : op.binary? = some b) :
    target.scalar op v = .ok (.binary target.column b (target.param v)) := by
  cases op <;> cases hb <;> simp [scalar, hv, Operator.binary?]

/-- The comparisons with one value by opposite operators. -/
theorem Target.scalar_opposite (hop : op.inverse? = some op') (h : target.scalar op v = .ok x) :
    ∃ x', target.scalar op' v = .ok x' ∧ x.Opposite x' := by
  cases hv : v.isNull with
  | true =>
    simp only [scalar, hv, if_true] at h ⊢
    cases op <;> cases hop <;> cases h
    · exact ⟨_, rfl, Expr.opposite_isNull target.column false⟩
    · exact ⟨_, rfl, Expr.opposite_isNull target.column true⟩
  | false =>
    cases hb : op.binary? with
    | some b =>
      obtain ⟨b', hb', hopposite⟩ := Expr.opposite_binary hop hb
      rw [scalar_of_binary hv hb] at h
      cases h
      exact ⟨_, scalar_of_binary hv hb', hopposite _ _⟩
    | none =>
      simp only [scalar, hv, Bool.false_eq_true, if_false] at h ⊢
      cases op <;> cases hb <;> cases hop
      · have hlike : Operator.like.inverse? = some .notLike := rfl
        obtain ⟨b', hb', hopposite⟩ := Expr.opposite_binary hlike rfl
        cases hb'
        exact words_opposite (q := .any) (hopposite _) h
      · have hlike : Operator.notLike.inverse? = some .like := rfl
        obtain ⟨b', hb', hopposite⟩ := Expr.opposite_binary hlike rfl
        cases hb'
        exact words_opposite (q := .all) (hopposite _) h

/-- The comparisons with values by opposite operators, one by one. -/
theorem Target.mapM_opposite (hop : op.inverse? = some op') {es : List Expr}
    (h : vs.mapM (target.scalar op) = .ok es) :
    ∃ es', vs.mapM (target.scalar op') = .ok es' ∧ List.Forall₂ Expr.Opposite es es' := by
  simp only [mapM_eq_ok_iff] at h ⊢
  induction h with
  | nil => exact ⟨[], .nil, .nil⟩
  | cons hv _ ih =>
    obtain ⟨e', he', hopposite⟩ := scalar_opposite hop hv
    obtain ⟨es', hes', hrest⟩ := ih
    exact ⟨e' :: es', .cons he' hes', .cons hopposite hrest⟩

/-- The comparisons with a list by opposite operators, one of its values or all. -/
theorem Target.list_opposite (hop : op.inverse? = some op') (h : target.list op vs q = .ok x) :
    ∃ x', target.list op' vs q.flip = .ok x' ∧ x.Opposite x' := by
  match vs, h with
  | [], h =>
    cases h
    exact ⟨_, rfl, by cases q <;> exact Expr.opposite_inList target.column [] _⟩
  | [v], h => exact scalar_opposite hop h
  | v :: w :: rest, h =>
    by_cases heq : op = .eq ∨ op = .ne
    · rcases heq with rfl | rfl <;> cases hop <;> cases q <;> cases h
      · exact ⟨_, rfl, Expr.opposite_inList _ _ false⟩
      · exact ⟨_, rfl, Expr.opposite_inList _ _ true⟩
    · rw [not_or] at heq
      have heq' : op' ≠ .eq ∧ op' ≠ .ne := by
        constructor <;> rintro rfl <;> cases op <;> cases hop <;> simp at heq
      rw [list_chain heq.1 heq.2, bind_eq_ok] at h
      obtain ⟨es, hes, hx⟩ := h
      obtain ⟨es', hes', hopposite⟩ := mapM_opposite hop hes
      rw [list_chain heq'.1 heq'.2, hes']
      rw [pure_eq_ok] at hx
      refine ⟨_, rfl, ?_⟩
      -- There is a part, so neither chain is empty.
      cases mapM_eq_ok_iff.1 hes with
      | cons _ _ =>
        cases hopposite with
        | cons he hrest =>
          rw [hx]
          exact Expr.opposite_combine (.cons he hrest) rfl rfl

end

/-- Where a comparison with values is written, so is the opposite one, in the same place. -/
theorem gives_opposite {m : Model} {origin : JoinOrigin} {path : Path} {op op' : Operator}
    {operand : Operand} {q : Quantifier} {f g : Frame} {e : Option Expr}
    (hop : op.inverse? = some op') (hs : ∀ s, operand ≠ .subquery s)
    (h : ((Predicate.compare path op operand q).render m origin).Gives f e g) :
    ∃ x x', e = some x ∧ x.Opposite x' ∧
      ((Predicate.compare path op' operand q.flip).render m origin).Gives f (some x') g := by
  obtain ⟨target, f', x, htarget, hx, rfl⟩ := gives_render_compare.1 h
  cases operand with
  | value v =>
    obtain ⟨hv, rfl⟩ := gives_render_value.1 hx
    obtain ⟨x', hx', hopposite⟩ := Target.scalar_opposite hop hv
    exact ⟨x, x', rfl, hopposite,
      gives_render_compare.2 ⟨target, g, x', htarget, gives_render_value.2 ⟨hx', rfl⟩, rfl⟩⟩
  | values vs =>
    obtain ⟨hvs, rfl⟩ := gives_render_values.1 hx
    obtain ⟨x', hx', hopposite⟩ := Target.list_opposite hop hvs
    exact ⟨x, x', rfl, hopposite,
      gives_render_compare.2 ⟨target, g, x', htarget, gives_render_values.2 ⟨hx', rfl⟩, rfl⟩⟩
  | subquery s => exact absurd rfl (hs s)

/-- **The negation of a comparison is exact.** A comparison with a value or a list is written
exactly where its negation is, in the same place, and what the negation says is the opposite of what
the comparison says: false where it is true, true where it is false, unknown where it is unknown. -/
theorem render_invert_compare (m : Model) (origin : JoinOrigin) (path : Path) (op : Operator)
    (operand : Operand) (q : Quantifier) (hop : op ≠ .notLikeOrNull)
    (hs : ∀ s, operand ≠ .subquery s) :
    ∃ p', (Predicate.compare path op operand q).invert = .ok p' ∧ ∀ f : Frame,
      ((∃ e g, ((Predicate.compare path op operand q).render m origin).Gives f e g) ↔
        ∃ e g, (p'.render m origin).Gives f e g) ∧
      ∀ e g e' g', ((Predicate.compare path op operand q).render m origin).Gives f e g →
        (p'.render m origin).Gives f e' g' →
        g' = g ∧ ∃ x x', e = some x ∧ e' = some x' ∧
          ∀ (D : Type) [DecidableEq D] (E : Engine D) (db : Database D) (ctes : Ctes D)
            (group : List (Env D)) (env : Env D),
            E.truth (x'.eval E db ctes group env) =
              (E.truth (x.eval E db ctes group env)).not := by
  obtain ⟨op', hop'⟩ := Operator.inverse?_isSome hop
  refine ⟨.compare path op' operand q.flip, Predicate.inverse_compare_of hop' hs path q,
    fun f => ⟨⟨?_, ?_⟩, ?_⟩⟩
  · rintro ⟨e, g, h⟩
    obtain ⟨x, x', -, -, h'⟩ := gives_opposite hop' hs h
    exact ⟨some x', g, h'⟩
  · rintro ⟨e, g, h⟩
    obtain ⟨x, x', -, -, h'⟩ := gives_opposite (Operator.inverse?_symm hop') hs h
    rw [q.flip_flip] at h'
    exact ⟨some x', g, h'⟩
  · intro e g e' g' h h'
    obtain ⟨x, x', rfl, hopposite, hx'⟩ := gives_opposite hop' hs h
    cases Eq.trans (Eq.symm h') hx'
    exact ⟨rfl, x, x', rfl, rfl, hopposite⟩

/-- The identifier holds neither of two words. -/
def Shop.wordless : Predicate :=
  .compare ⟨["id"]⟩ .notWordLike (.values [.text "red", .text "blue"]) .all

theorem Shop.render_wordless :
    ∃ e g, (wordless.render (model plain) .filter).Gives ⟨.ofTable (model plain) orders, []⟩ e g :=
  ⟨_, _, gives_render_compare.2 ⟨_, _, _, gives_joinColumn.2 ⟨_, _, rfl, rfl, rfl, rfl, rfl⟩,
    gives_render_values.2 ⟨rfl, rfl⟩, rfl⟩⟩

/-- The negation asks for one of the words, and says the opposite of every identifier. -/
theorem render_invert_wordless :
    ∃ x x' g, (Shop.wordless.render (Shop.model Shop.plain) .filter).Gives
        ⟨.ofTable (Shop.model Shop.plain) Shop.orders, []⟩ (some x) g ∧
      Shop.wordless.invert =
        .ok (.compare ⟨["id"]⟩ .wordLike (.values [.text "red", .text "blue"]) .any) ∧
      ((Predicate.compare ⟨["id"]⟩ .wordLike (.values [.text "red", .text "blue"]) .any).render
        (Shop.model Shop.plain) .filter).Gives
        ⟨.ofTable (Shop.model Shop.plain) Shop.orders, []⟩ (some x') g ∧
      ∀ (db : Database String) (ctes : Ctes String) (group : List (Env String)) (env : Env String),
        Shop.engine.truth (x'.eval Shop.engine db ctes group env) =
          (Shop.engine.truth (x.eval Shop.engine db ctes group env)).not := by
  obtain ⟨p', hp', hframe⟩ := render_invert_compare (Shop.model Shop.plain) .filter ⟨["id"]⟩
    .notWordLike (.values [.text "red", .text "blue"]) .all (by decide)
    (fun s hs => by cases hs)
  cases hp'
  obtain ⟨hiff, hopposite⟩ := hframe ⟨.ofTable (Shop.model Shop.plain) Shop.orders, []⟩
  obtain ⟨e, g, h⟩ := Shop.render_wordless
  obtain ⟨e', g', h'⟩ := hiff.1 ⟨e, g, h⟩
  obtain ⟨rfl, x, x', rfl, rfl, htruth⟩ := hopposite e g e' g' h h'
  exact ⟨x, x', g', h, rfl, h', htruth String Shop.engine⟩

/-! ## Negating twice -/

theorem Connective.dual_dual (c : Connective) : c.dual.dual = c := by
  cases c <;> rfl

theorem Operator.columnInverse?_symm {op op' : Operator} (h : op.columnInverse? = some op') :
    op'.columnInverse? = some op := by
  cases op <;> cases h <;> rfl

namespace Predicate

/-- The negation of `notLikeOrNull` is negated to what simplification puts in its place. -/
theorem inverse_inverse_notLikeOrNull {path : Path} {operand : Operand} {q : Quantifier}
    {p' : Predicate} (h : Inverse (compare path .notLikeOrNull operand q) p') :
    Inverse p' (nullOrNotLike path operand q) := by
  obtain ⟨hs, rfl⟩ := inverse_notLikeOrNull h
  have hnull : Inverse (compare path .ne (.value .null) q.flip)
      (compare path .eq (.value .null) q.flip.flip) :=
    inverse_compare_of rfl (fun s hs => by cases hs) path q.flip
  have hlike : Inverse (compare path .like operand q.flip)
      (compare path .notLike operand q.flip.flip) :=
    inverse_compare_of rfl hs path q.flip
  rw [q.flip_flip] at hnull hlike
  exact inverse_group.2 ⟨_, .cons hnull (.cons hlike .nil), rfl⟩

theorem simplify_nullOrNotLike (path : Path) (operand : Operand) (q : Quantifier) :
    (nullOrNotLike path operand q).simplify = nullOrNotLike path operand q := by
  have hsettled := settled_simplify (compare path .notLikeOrNull operand q)
  rw [simplify, if_pos rfl] at hsettled
  exact simplify_of_settled hsettled

/-- The second is negated to a predicate that is simplified like the first. -/
def NegatesBack (p p' : Predicate) : Prop := ∃ r, Inverse p' r ∧ r.simplify = p.simplify

/-- Members that are negated back one by one contribute to a group what they did. -/
theorem negatesBack_members {members members' : List Predicate} (h : Inverses members members')
    (hback : ∀ p ∈ members, ∀ p', Inverse p p' → NegatesBack p p') :
    ∃ rs, Inverses members' rs ∧ ∀ op, simplifyUnder op rs = simplifyUnder op members := by
  induction h with
  | nil => exact ⟨[], .nil, fun op => rfl⟩
  | cons hp _ ih =>
    rw [List.forall_mem_cons] at hback
    obtain ⟨r, hr, hsimplify⟩ := hback.1 _ hp
    obtain ⟨rs, hrs, hrest⟩ := ih hback.2
    refine ⟨r :: rs, .cons hr hrs, fun op => ?_⟩
    rw [simplifyUnder, simplifyUnder, hsimplify, hrest]

theorem negatesBack_of_inverse (p : Predicate) {p' : Predicate} (h : Inverse p p') :
    NegatesBack p p' := by
  induction p using tree_induction generalizing p' with
  | group op members ih =>
    obtain ⟨ms, hms, rfl⟩ := inverse_group.1 h
    obtain ⟨rs, hrs, hsimplify⟩ := negatesBack_members hms fun p hp p' => ih p hp
    refine ⟨group op rs, inverse_group.2 ⟨rs, hrs, by rw [op.dual_dual]⟩, ?_⟩
    rw [simplify, simplify, hsimplify]
  | compare path op operand q =>
    by_cases hop : op = .notLikeOrNull
    · subst hop
      refine ⟨_, inverse_inverse_notLikeOrNull h, ?_⟩
      rw [simplify_nullOrNotLike, simplify, if_pos rfl]
    · obtain ⟨op', hop', rfl⟩ := inverse_compare hop h
      have hs : ∀ s, operand ≠ .subquery s := by
        rintro s rfl
        exact not_inverse_subquery h
      have hback := inverse_compare_of (Operator.inverse?_symm hop') hs path q.flip
      rw [q.flip_flip] at hback
      exact ⟨_, hback, rfl⟩
  | columns left op right =>
    obtain ⟨op', hop', rfl⟩ := inverse_columns.1 h
    exact ⟨_, inverse_columns.2 ⟨op, Operator.columnInverse?_symm hop', rfl⟩, rfl⟩
  | related via condition inverted threshold ih =>
    cases inverse_related.1 h
    exact ⟨_, inverse_related.2 rfl, by rw [Bool.not_not]⟩

/-- Only the simplified predicate is written. -/
theorem compile_congr {p r : Predicate} (h : r.simplify = p.simplify) (m : Model)
    (origin : JoinOrigin) : r.compile m origin = p.compile m origin := by
  rw [compile_eq, compile_eq, h]

/-- **Negating twice changes nothing that is written.** The negation of a predicate can be negated,
and the result is simplified to what the predicate is simplified to. So from every frame both are
written as the same condition with the same joins and CTEs, or refused with the same error. -/
theorem compile_invert_invert {p q : Predicate} (h : p.invert = .ok q) :
    ∃ r, q.invert = .ok r ∧ r.simplify = p.simplify ∧
      ∀ m origin, r.compile m origin = p.compile m origin := by
  obtain ⟨r, hr, hsimplify⟩ := negatesBack_of_inverse p h
  exact ⟨r, hr, hsimplify, compile_congr hsimplify⟩

/-- A name that is not like a pattern, and a note that is not like another or a number. -/
def unlikely : Predicate :=
  .group .and [.compare ⟨["name"]⟩ .notLikeOrNull (.value (.text "k%")) .any,
    .group .or [.compare ⟨["note"]⟩ .notLikeOrNull (.values [.text "a%", .text "b%"]) .all,
      .compare ⟨["number"]⟩ .gt (.value (.int 7)) .any]]

/-- Both come back as groups, of which the second is flattened into its parent. -/
theorem compile_invert_invert_unlikely :
    ∃ q r, unlikely.invert = .ok q ∧ q.invert = .ok r ∧ r ≠ unlikely ∧
      r.simplify = unlikely.simplify ∧
      ∀ m origin, r.compile m origin = unlikely.compile m origin := by
  obtain ⟨q, hq⟩ : ∃ q, unlikely.invert = .ok q := ⟨_, rfl⟩
  obtain ⟨r, hr, hsimplify, hcompile⟩ := compile_invert_invert hq
  refine ⟨q, r, hq, hr, ?_, hsimplify, hcompile⟩
  rintro rfl
  cases hq
  cases hr

end Predicate

end EntityQuery
