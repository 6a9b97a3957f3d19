import EntityQuery.Proofs.Predicate.FanOut
import EntityQuery.Proofs.Predicate.Meaning

/-!
# Simplification keeps the meaning

Simplifying a predicate flattens its groups, drops the empty ones and merges members; it says the
same of every row.

**Groups.** Members are joined under the connective of the group, with an absent one as the neutral
element, so their order and nesting are of no account (`joined_append`, `joined_membersUnder`).

**Comparisons.** A list of values without NULL asks for one of them with `= ANY` and for none of
them with `<> ALL` (`truth_eq_any`, `truth_ne_all`), of the row itself as well as of the rows behind
a fan-out, so the comparisons of one column are the comparison with all their values together.

**Related rows.** Some row satisfies one of two conditions if some row satisfies the first or some
row satisfies the second. This needs both conditions to be there: an absent one is satisfied by
every row, but in a disjunction it is not taken notice of. So the condition of every `related` must
constrain its rows (`Predicate.Regular`).
-/

namespace EntityQuery

open EntityQuery.Sql (Expr Engine Database Env Row Truth bindCtes)

variable {D : Type} [DecidableEq D] {E : Engine D} {db : Database D}

/-! ## Joining members -/

namespace Connective

variable {op : Connective} {a b c : Option Truth}

theorem truth_comm (op : Connective) (a b : Truth) : op.truth a b = op.truth b a := by
  cases op <;> rcases a with _ | _ | _ <;> rcases b with _ | _ | _ <;> rfl

theorem truth_assoc (op : Connective) (a b c : Truth) :
    op.truth (op.truth a b) c = op.truth a (op.truth b c) := by
  cases op <;> rcases a with _ | _ | _ <;> rcases b with _ | _ | _ <;>
    rcases c with _ | _ | _ <;> rfl

@[simp]
theorem join_none_left : op.join none a = a := by
  cases a <;> rfl

@[simp]
theorem join_none_right : op.join a none = a := by
  cases a <;> rfl

theorem join_some {s t : Truth} : op.join (some s) (some t) = some (op.truth s t) := rfl

theorem join_comm : op.join a b = op.join b a := by
  cases a with
  | none => simp
  | some s =>
    cases b with
    | none => simp
    | some t => rw [join_some, join_some, truth_comm]

theorem join_assoc : op.join (op.join a b) c = op.join a (op.join b c) := by
  cases a with
  | none => simp
  | some s =>
    cases b with
    | none => simp
    | some t =>
      cases c with
      | none => simp
      | some u => simp only [join_some, truth_assoc]

end Connective

section

variable {m : Model} {t : Table} {row : Row D} {op : Connective}

theorem joined_singleton (p : Predicate) :
    joined E db m t row op [p] = p.meaning E db m t row := by
  rw [joined, joined, Connective.join_none_right]

theorem joined_append (ps qs : List Predicate) :
    joined E db m t row op (ps ++ qs) =
      op.join (joined E db m t row op ps) (joined E db m t row op qs) := by
  induction ps with
  | nil => rw [List.nil_append, joined, Connective.join_none_left]
  | cons p ps ih => rw [List.cons_append, joined, joined, ih, Connective.join_assoc]

/-- The members that a predicate contributes to a group say what it says. -/
theorem joined_membersUnder (p : Predicate) :
    joined E db m t row op (p.membersUnder op) = p.meaning E db m t row := by
  cases p with
  | group op' members =>
    by_cases h : op' = op
    · subst h
      rw [Predicate.membersUnder, if_pos (by simp), Predicate.meaning]
    · cases members with
      | nil => rw [Predicate.membersUnder, if_pos (by simp), Predicate.meaning, joined, joined]
      | cons p ps => rw [Predicate.membersUnder, if_neg (by simp [h]), joined_singleton]
  | compare path op' operand q => exact joined_singleton _
  | columns left op' right => exact joined_singleton _
  | related via condition inverted threshold => exact joined_singleton _

theorem meaning_close (members : List Predicate) :
    (Predicate.close op members).meaning E db m t row = joined E db m t row op members := by
  match members with
  | [] => rw [Predicate.close, Predicate.meaning]; simp
  | [p] => rw [Predicate.close, joined_singleton]
  | _ :: _ :: _ => rw [Predicate.close, Predicate.meaning]; simp

end

/-! ## Lists of values -/

theorem Sql.Truth.false_or (x : Truth) : Truth.or (some false) x = x := by
  rcases x with _ | _ | _ <;> rfl

theorem Sql.Truth.or_false (x : Truth) : Truth.or x (some false) = x := by
  rcases x with _ | _ | _ <;> rfl

/-- Values that are equal are one datum. -/
def Sql.Engine.Identifies (E : Engine D) : Prop :=
  ∀ v w type, Value.eqv v w = true → E.datum v type = E.datum w type

/-- The comparison of a value in the database with one of a predicate. -/
def sameTruth (E : Engine D) (a : Option D) (type : Option String) (v : Value) : Truth :=
  E.truth (E.binary .eq a (E.param v type))

/-- Whether a value in the database is one of a list. -/
def oneOf (E : Engine D) (a : Option D) (type : Option String) (vs : List Value) : Truth :=
  Truth.any (vs.map (sameTruth E a type))

theorem truth_binary_ne {a b : Option D} :
    E.truth (E.binary .ne a b) = (E.truth (E.binary .eq a b)).not := by
  cases a with
  | none => rfl
  | some x =>
    cases b with
    | none => rfl
    | some y => simp [Sql.Engine.binary, Sql.Engine.truth, Sql.Engine.compare, E.holds_ofBool,
        Truth.not]

theorem truth_member {a : Option D} {type : Option String} {vs : List Value} {negated : Bool} :
    E.truth (E.member a (vs.map fun v => E.param v type) negated) =
      if negated then (oneOf E a type vs).not else oneOf E a type vs := by
  rw [Sql.Engine.member, E.truth_value, List.map_map]
  rfl

theorem oneOf_singleton {a : Option D} {type : Option String} {v : Value} :
    oneOf E a type [v] = sameTruth E a type v :=
  Truth.or_false _

section

variable {m : Model} {t : Table} {column : EntityColumn} {row : Row D} {op : Operator}
  {operand : Operand} {q : Quantifier} {vs ws : List Value} {e : Expr}

theorem Operand.truth_eq {g : Frame}
    (h : (operand.render m ⟨m.columnExpr t column, column.type, Path.empty⟩ op q).Gives
      ⟨.ofTable m t, []⟩ e g) :
    operand.truth E db m t column op q row = let env := Env.empty.bind (m.aliasOf t) row
      E.truth (e.eval E db (bindCtes E db (fun _ => []) g.ctes) [env] env) := by
  rw [Build.Gives] at h
  rw [Operand.truth, h]

theorem Operand.truth_value {v : Value}
    (h : (Target.mk (m.columnExpr t column) column.type Path.empty).scalar op v = .ok e) :
    (Operand.value v).truth E db m t column op q row =
      E.truth (e.eval E db (fun _ => []) [Env.empty.bind (m.aliasOf t) row]
        (Env.empty.bind (m.aliasOf t) row)) := by
  rw [Operand.truth_eq (gives_render_value.2 ⟨h, rfl⟩)]
  rfl

theorem Operand.truth_values
    (h : (Target.mk (m.columnExpr t column) column.type Path.empty).list op vs q = .ok e) :
    (Operand.values vs).truth E db m t column op q row =
      E.truth (e.eval E db (fun _ => []) [Env.empty.bind (m.aliasOf t) row]
        (Env.empty.bind (m.aliasOf t) row)) := by
  rw [Operand.truth_eq (gives_render_values.2 ⟨h, rfl⟩)]
  rfl

theorem eval_columnExpr {ctes : Sql.Ctes D} {group : List (Env D)} :
    (m.columnExpr t column).eval E db ctes group (Env.empty.bind (m.aliasOf t) row) =
      row column.name := by
  rw [Model.columnExpr, Expr.ofTable, Expr.eval, Env.bind_self]

theorem evalAll_params {ctes : Sql.Ctes D} {group : List (Env D)} {env : Env D}
    (target : Target) (vs : List Value) :
    Sql.evalAll E db ctes group env (vs.map target.param) =
      vs.map fun v => E.param v target.type := by
  induction vs with
  | nil => rw [List.map_nil, Sql.evalAll, List.map_nil]
  | cons v vs ih => rw [List.map_cons, Sql.evalAll, ih, List.map_cons, Target.param, Expr.eval]

/-- The comparison with one value that is not NULL. -/
theorem truth_scalar (E : Engine D) (db : Database D) {v : Value} (hv : v.isNull = false)
    (negated : Bool) :
    ∃ e, (Target.mk (m.columnExpr t column) column.type Path.empty).scalar
        (bif negated then .ne else .eq) v = .ok e ∧
      E.truth (e.eval E db (fun _ => []) [Env.empty.bind (m.aliasOf t) row]
        (Env.empty.bind (m.aliasOf t) row)) =
        if negated then (oneOf E (row column.name) column.type [v]).not
        else oneOf E (row column.name) column.type [v] := by
  cases negated with
  | false =>
    refine ⟨_, by simp only [cond_false, Target.scalar, hv, Operator.binary?]; rfl, ?_⟩
    rw [oneOf_singleton, Expr.eval, eval_columnExpr, Target.param, Expr.eval, sameTruth]
    rfl
  | true =>
    refine ⟨_, by simp only [cond_true, Target.scalar, hv, Operator.binary?]; rfl, ?_⟩
    rw [oneOf_singleton, Expr.eval, eval_columnExpr, Target.param, Expr.eval, truth_binary_ne,
      sameTruth]
    rfl

/-- **A list of values** without NULL: `= ANY` asks for one of them, `<> ALL` for none. -/
theorem Operand.truth_listed (h : operand.listed? = some vs) (negated : Bool) :
    operand.truth E db m t column (bif negated then .ne else .eq)
        (bif negated then .all else .any) row =
      if negated then (oneOf E (row column.name) column.type vs).not
      else oneOf E (row column.name) column.type vs := by
  cases operand with
  | subquery q => simp [Operand.listed?] at h
  | value v =>
    simp only [Operand.listed?, Option.ite_none_left_eq_some, Bool.not_eq_true,
      Option.some.injEq] at h
    obtain ⟨hv, rfl⟩ := h
    obtain ⟨e, he, htruth⟩ := truth_scalar E db hv negated
    rw [Operand.truth_value he, htruth]
  | values ws =>
    simp only [Operand.listed?, Option.ite_none_left_eq_some, Bool.not_eq_true,
      Option.some.injEq] at h
    obtain ⟨hws, rfl⟩ := h
    -- An empty list, a single value and a proper list are written in different ways.
    rcases ws with _ | ⟨v, _ | ⟨w, rest⟩⟩
    · have hlist : (Target.mk (m.columnExpr t column) column.type Path.empty).list
          (bif negated then .ne else .eq) [] (bif negated then .all else .any) =
          .ok (.inList (m.columnExpr t column) [] negated) := by
        cases negated <;> rfl
      rw [Operand.truth_values hlist, Expr.eval, eval_columnExpr, Sql.evalAll]
      exact @truth_member D _ E (row column.name) column.type [] negated
    · have hv : v.isNull = false := by simpa using hws
      obtain ⟨e, he, htruth⟩ := truth_scalar E db hv negated
      rw [Operand.truth_values (by rw [Target.list]; exact he), htruth]
    · have hlist : (Target.mk (m.columnExpr t column) column.type Path.empty).list
          (bif negated then .ne else .eq) (v :: w :: rest) (bif negated then .all else .any) =
          .ok (.inList (m.columnExpr t column) ((v :: w :: rest).map
            (Target.mk (m.columnExpr t column) column.type Path.empty).param) negated) := by
        cases negated <;> rfl
      rw [Operand.truth_values hlist, Expr.eval, eval_columnExpr, evalAll_params, truth_member]

end

/-! ## Putting lists together -/

section

variable {a : Option D} {type : Option String} {v : Value} {vs ws : List Value}

theorem Sql.Truth.any_append (xs ys : List Truth) :
    Truth.any (xs ++ ys) = Truth.or (Truth.any xs) (Truth.any ys) := by
  induction xs with
  | nil => exact (Truth.false_or _).symm
  | cons x xs ih =>
    show Truth.or x (Truth.any (xs ++ ys)) = Truth.or (Truth.or x (Truth.any xs)) (Truth.any ys)
    rw [ih]
    exact (Connective.or.truth_assoc x (Truth.any xs) (Truth.any ys)).symm

/-- What is in the list already adds nothing. -/
theorem Sql.Truth.any_or_mem {x : Truth} {xs : List Truth} (h : x ∈ xs) :
    Truth.or (Truth.any xs) x = Truth.any xs := by
  obtain ⟨ys, zs, rfl⟩ := List.append_of_mem h
  have hx : Truth.any (x :: zs) = Truth.or x (Truth.any zs) := rfl
  rw [Truth.any_append, hx]
  rcases x with _ | _ | _ <;> rcases Truth.any ys with _ | _ | _ <;>
    rcases Truth.any zs with _ | _ | _ <;> rfl

theorem sameTruth_eqv (hE : E.Identifies) {w : Value} (h : Value.eqv v w = true) :
    sameTruth E a type v = sameTruth E a type w := by
  have hnull : v.isNull = w.isNull := by
    cases v <;> cases w <;> simp_all [Value.eqv, Value.isNull]
  rw [sameTruth, sameTruth, Sql.Engine.param, Sql.Engine.param, hnull, hE v w type h]

theorem oneOf_concat : oneOf E a type (vs ++ [v]) = Truth.or (oneOf E a type vs)
    (sameTruth E a type v) := by
  rw [oneOf, List.map_append, Truth.any_append]
  exact congrArg _ oneOf_singleton

/-- A value that equals one before it may be dropped. -/
theorem oneOf_extend (hE : E.Identifies) :
    oneOf E a type (Value.extend vs ws) = Truth.or (oneOf E a type vs) (oneOf E a type ws) := by
  induction ws generalizing vs with
  | nil => exact (Truth.or_false _).symm
  | cons w ws ih =>
    have hstep : oneOf E a type (if w.memOf vs then vs else vs ++ [w]) =
        Truth.or (oneOf E a type vs) (sameTruth E a type w) := by
      by_cases hmem : w.memOf vs = true
      · obtain ⟨v, hv, heqv⟩ := List.any_eq_true.1 hmem
        rw [if_pos hmem, ← sameTruth_eqv hE heqv]
        exact (Truth.any_or_mem (List.mem_map_of_mem hv)).symm
      · rw [if_neg hmem, oneOf_concat]
    show oneOf E a type (Value.extend (if w.memOf vs then vs else vs ++ [w]) ws) = _
    rw [ih, hstep]
    exact Connective.or.truth_assoc _ _ _

theorem isNull_extend (hvs : vs.any (·.isNull) = false) (hws : ws.any (·.isNull) = false) :
    (Value.extend vs ws).any (·.isNull) = false := by
  induction ws generalizing vs with
  | nil => exact hvs
  | cons w ws ih =>
    rw [List.any_cons, Bool.or_eq_false_iff] at hws
    refine ih ?_ hws.2
    dsimp only
    split
    · exact hvs
    · rw [List.any_append, hvs, List.any_cons, hws.1]
      rfl

theorem Operand.listed?_isNull {operand : Operand} (h : operand.listed? = some vs) :
    vs.any (·.isNull) = false := by
  match operand with
  | .value v =>
    simp only [listed?, Option.ite_none_left_eq_some, Bool.not_eq_true, Option.some.injEq] at h
    obtain ⟨hv, rfl⟩ := h
    simpa using hv
  | .values ws =>
    simp only [listed?, Option.ite_none_left_eq_some, Bool.not_eq_true, Option.some.injEq] at h
    obtain ⟨hws, rfl⟩ := h
    exact hws

theorem Operand.listed?_extend {operand operand' : Operand} (hvs : operand.listed? = some vs)
    (hws : operand'.listed? = some ws) :
    (Operand.values (Value.extend vs ws)).listed? = some (Value.extend vs ws) := by
  rw [listed?, if_neg (by
    rw [isNull_extend (listed?_isNull hvs) (listed?_isNull hws)]
    exact Bool.false_ne_true)]

end

/-! ## Merging comparisons -/

section

variable {m : Model} {t : Table} {row : Row D} {operand operand' : Operand} {vs ws : List Value}

theorem Sql.Truth.or_beq_true (x y : Truth) :
    (Truth.or x y == some true) = ((x == some true) || (y == some true)) := by
  rcases x with _ | _ | _ <;> rcases y with _ | _ | _ <;> rfl

theorem Sql.Truth.not_or (x y : Truth) : (Truth.or x y).not = Truth.and x.not y.not := by
  rcases x with _ | _ | _ <;> rcases y with _ | _ | _ <;> rfl

theorem any_or {α : Type} (p q : α → Bool) (xs : List α) :
    (xs.any fun x => p x || q x) = (xs.any p || xs.any q) := by
  rw [Bool.eq_iff_iff, Bool.or_eq_true, List.any_eq_true, List.any_eq_true, List.any_eq_true]
  simp only [Bool.or_eq_true, and_or_left, exists_or]

/-- Two rows are asked for, or two are ruled out. -/
theorem truth_some_bne (negated a b : Bool) :
    (bif negated then Connective.and else .or).truth (some (a != negated)) (some (b != negated)) =
      some ((a || b) != negated) := by
  cases negated <;> cases a <;> cases b <;> rfl

/-- Behind a fan-out: some reached row has one of the values, or none has. -/
theorem Resolution.quantified_listed {res : Resolution} (h : operand.listed? = some vs)
    (negated : Bool) :
    res.quantified E db m (bif negated then .ne else .eq) operand
        (bif negated then .all else .any) row =
      some ((reached E db false res.hops row).any (fun c =>
        oneOf E (c res.column.name) res.column.type vs == some true) != negated) := by
  have hone : ∀ c, operand.truth E db m res.table res.column .eq .any c =
      oneOf E (c res.column.name) res.column.type vs := fun c => Operand.truth_listed h false
  cases negated with
  | false =>
    cases operand with
    | subquery s => cases h
    | value v => simp only [cond_false, quantified, hone, Bool.bne_false]
    | values us => simp only [cond_false, quantified, hone, Bool.bne_false]
  | true =>
    cases operand with
    | subquery s => cases h
    | value v =>
      simp only [cond_true, quantified, Operator.inverse?, Option.map_some, hone, Bool.bne_true]
    | values us =>
      simp only [cond_true, quantified, Operator.inverse?, Option.map_some, hone, Bool.bne_true]

/-- The comparison with all values of two lists. -/
theorem compareTruth_extend (hE : E.Identifies) (path : Path) (hvs : operand.listed? = some vs)
    (hws : operand'.listed? = some ws) (negated : Bool) :
    let op : Operator := bif negated then .ne else .eq
    let q : Quantifier := bif negated then .all else .any
    compareTruth E db m t path op (.values (Value.extend vs ws)) q row =
      (bif negated then Connective.and else .or).truth
        (compareTruth E db m t path op operand q row)
        (compareTruth E db m t path op operand' q row) := by
  intro op q
  have hboth := Operand.listed?_extend hvs hws
  simp only [compareTruth]
  cases m.resolve t path with
  | error e => cases negated <;> rfl
  | ok res =>
    dsimp only
    by_cases hmany : res.crossesMany = true
    · simp only [if_pos hmany, op, q, Resolution.quantified_listed hvs,
        Resolution.quantified_listed hws, Resolution.quantified_listed hboth, oneOf_extend hE,
        Sql.Truth.or_beq_true]
      rw [any_or, truth_some_bne]
    · simp only [if_neg hmany, op, q, Operand.truth_listed hvs, Operand.truth_listed hws,
        Operand.truth_listed hboth, oneOf_extend hE]
      cases negated with
      | false => rfl
      | true => exact Sql.Truth.not_or _ _

theorem listsValues_eq_true {connective : Connective} {op : Operator} {q : Quantifier}
    (h : Predicate.listsValues connective op q = true) :
    ∃ negated : Bool, connective = (bif negated then .and else .or) ∧
      op = (bif negated then .ne else .eq) ∧ q = (bif negated then .all else .any) := by
  unfold Predicate.listsValues at h
  split at h
  · exact ⟨false, rfl, rfl, rfl⟩
  · exact ⟨true, rfl, rfl, rfl⟩
  · cases h

/-- A merged comparison says what the two say together. -/
theorem meaning_mergeCompare (hE : E.Identifies) {connective : Connective} {path : Path}
    {op : Operator} {q : Quantifier} {a merged : Predicate}
    (h : Predicate.mergeCompare connective path op operand q a = some merged) :
    merged.meaning E db m t row = connective.join (a.meaning E db m t row)
      ((Predicate.compare path op operand q).meaning E db m t row) := by
  cases a with
  | compare path' op' operand' q' =>
    simp only [Predicate.mergeCompare] at h
    split at h
    · rename_i hsame
      obtain ⟨rfl, rfl, rfl, hlists⟩ := hsame
      obtain ⟨negated, rfl, rfl, rfl⟩ := listsValues_eq_true hlists
      simp only [Option.bind_eq_bind, Option.bind_eq_some_iff] at h
      obtain ⟨vs, hvs, ws, hws, h⟩ := h
      cases h
      rw [Predicate.meaning, Predicate.meaning, Predicate.meaning, Connective.join_some,
        compareTruth_extend hE path' hvs hws negated]
    · contradiction
  | _ => simp [Predicate.mergeCompare] at h

end

/-! ## Merging conditions of related rows -/

section

variable {m : Model} {t : Table} {row : Row D}

/-- Without a threshold, the grouping of the related rows is of no account. -/
theorem meaning_related (via : Path) (condition : Predicate) (inverted : Bool) :
    (Predicate.related via condition inverted none).meaning E db m t row =
      some (match m.resolveRelationship t via with
        | .error _ => none
        | .ok route => some ((relatedRows E db route.hops row).any (fun c =>
            satisfied (condition.meaning E db m route.last.child c)) != inverted)) := by
  rw [Predicate.meaning]
  cases m.resolveRelationship t via with
  | error e => rfl
  | ok route =>
    have hany : ∀ (P : Row D → Bool) (groups : List (List (Row D))),
        (groups.any fun rows => !(rows.filter P).isEmpty) = groups.flatten.any P := by
      intro P groups
      rw [List.any_flatten, Bool.eq_iff_iff]
      simp only [List.any_eq_true, Bool.not_eq_true', List.isEmpty_eq_false_iff, ne_eq,
        List.filter_eq_nil_iff, not_forall, Decidable.not_not, exists_prop]
    simp only [Model.test?, Option.map_some, hany, relatedRows]

theorem satisfied_or (x y : Truth) :
    satisfied (Connective.or.join (some x) (some y)) =
      (satisfied (some x) || satisfied (some y)) :=
  Sql.Truth.or_beq_true x y

/-- A condition that says what two others say together, of rows related through one path. -/
theorem meaning_related_or {connective : Connective} {inverted : Bool}
    (hor : connective.under inverted = .or) {via : Path} {c d e : Predicate}
    (hc : ∀ t row, (c.meaning E db m t row).isSome) (hd : ∀ t row, (d.meaning E db m t row).isSome)
    (he : ∀ t row, e.meaning E db m t row =
      Connective.or.join (c.meaning E db m t row) (d.meaning E db m t row)) :
    (Predicate.related via e inverted none).meaning E db m t row =
      connective.join ((Predicate.related via c inverted none).meaning E db m t row)
        ((Predicate.related via d inverted none).meaning E db m t row) := by
  have hconnective : connective = (bif inverted then .and else .or) := by
    cases connective <;> cases inverted <;> simp_all [Connective.under, Connective.dual]
  have heach : ∀ t row, satisfied (e.meaning E db m t row) =
      (satisfied (c.meaning E db m t row) || satisfied (d.meaning E db m t row)) := by
    intro t row
    obtain ⟨x, hx⟩ := Option.isSome_iff_exists.1 (hc t row)
    obtain ⟨y, hy⟩ := Option.isSome_iff_exists.1 (hd t row)
    rw [he, hx, hy, satisfied_or]
  subst hconnective
  simp only [meaning_related, Connective.join_some]
  cases m.resolveRelationship t via with
  | error e => cases inverted <;> rfl
  | ok route => simp only [heach, any_or, truth_some_bne]

end

/-! ## Predicates that constrain -/

namespace Predicate

variable {connective : Connective} {ps : List Predicate} {p : Predicate} {row : Row D} {t : Table}

mutual

/-- A comparison or a `related` stands below the groups. -/
def constrains : Predicate → Bool
  | group _ members => constrainsAny members
  | compare .. | columns .. | related .. => true

def constrainsAny : List Predicate → Bool
  | [] => false
  | p :: ps => p.constrains || constrainsAny ps

end

mutual

/-- At any depth, no comparison is `notLikeOrNull` and the condition of every `related` constrains
its rows. -/
def Regular : Predicate → Prop
  | group _ members => RegularAll members
  | compare _ op _ _ => op ≠ .notLikeOrNull
  | columns .. => True
  | related _ condition _ _ => condition.constrains = true ∧ condition.Regular

def RegularAll : List Predicate → Prop
  | [] => True
  | p :: ps => p.Regular ∧ RegularAll ps

end

mutual

/-- What constrains is what has a meaning. -/
theorem isSome_meaning (m : Model) (t : Table) (row : Row D) (p : Predicate) :
    (p.meaning E db m t row).isSome = p.constrains := by
  match p with
  | .group op members =>
    rw [meaning, constrains]
    exact isSome_joined m t row op members
  | .compare .. => rw [meaning, constrains, Option.isSome_some]
  | .columns .. => rw [meaning, constrains, Option.isSome_some]
  | .related .. => rw [meaning, constrains, Option.isSome_some]

theorem isSome_joined (m : Model) (t : Table) (row : Row D) (op : Connective)
    (ps : List Predicate) : (joined E db m t row op ps).isSome = constrainsAny ps := by
  match ps with
  | [] => rw [joined, constrainsAny, Option.isSome_none]
  | p :: ps =>
    rw [joined, constrainsAny, ← isSome_meaning m t row p, ← isSome_joined m t row op ps]
    cases p.meaning E db m t row <;> cases joined E db m t row op ps <;> rfl

end

/-- Whether a predicate constrains does not depend on how its members are put together. -/
theorem hereditary_constrains : Hereditary fun (_ : Unit) p => p.constrains = false where
  group {_ _ ps} := by
    rw [constrains]
    induction ps with
    | nil => simp [constrainsAny]
    | cons p ps ih => simp [constrainsAny, ih]
  compare := id
  value _ := id
  values _ := id
  related _ _ := ⟨(), fun _ => ⟨False, fun _ _ => by simp [constrains]⟩⟩

theorem regular_group {op : Connective} : (group op ps).Regular ↔ ∀ p ∈ ps, p.Regular := by
  rw [Regular]
  induction ps with
  | nil => simp [RegularAll]
  | cons p ps ih => simp [RegularAll, ih]

theorem regular_close {op : Connective} {members : List Predicate}
    (h : ∀ p ∈ members, p.Regular) : (close op members).Regular := by
  match members with
  | [] => exact regular_group.2 h
  | [p] => exact h p (List.mem_singleton_self p)
  | _ :: _ :: _ => exact regular_group.2 h

theorem regular_membersUnder (op : Connective) (h : p.Regular) :
    ∀ q ∈ p.membersUnder op, q.Regular := by
  cases p with
  | group op' members =>
    simp only [membersUnder]
    split
    · exact regular_group.1 h
    · exact List.forall_mem_singleton.2 h
  | _ => exact List.forall_mem_singleton.2 h

/-! ## Inserting a member -/

theorem regular_insert (hp : p.Regular) {members : List Predicate} (h : ∀ x ∈ members, x.Regular) :
    ∀ x ∈ insert connective members p, x.Regular := by
  induction p using insert_induction generalizing connective members with
  | compare path op operand q =>
    rw [insert]
    refine forall_mem_insertWith (fun a b hm ha => ?_) hp h
    obtain ⟨operand', vs, rfl, rfl, -⟩ := mergeCompare_eq_some hm
    exact ha
  | columns left op right =>
    rw [insert]
    exact List.forall_mem_append.2 ⟨h, List.forall_mem_singleton.2 hp⟩
  | group op inner =>
    rw [insert]
    exact List.forall_mem_append.2 ⟨h, List.forall_mem_singleton.2 hp⟩
  | related via condition inverted threshold ih =>
    rw [insert_related]
    refine forall_mem_insertWith (fun a b hm ha => ?_) hp h
    obtain ⟨c, hopen, rfl⟩ := Option.map_eq_some_iff.1 hm
    rw [openCondition?_via hopen] at ha
    have hparts := regular_membersUnder .or hp.2
    refine ⟨?_, regular_close (insertAll_of_insert (fun l => ∀ x ∈ l, x.Regular)
      (fun q hq _ => ih q hq (hparts q hq)) (regular_membersUnder .or ha.2))⟩
    refine Bool.of_not_eq_false fun hfalse => ?_
    have hQ := hereditary_constrains
    have hboth := (hQ.insertAll (t := ())).1 ((hQ.close (t := ())).1 hfalse)
    have hc : c.constrains = false := (hQ.membersUnder (t := ()) .or).1 hboth.1
    rw [ha.1] at hc
    cases hc

theorem regular_insertAll (hps : ∀ p ∈ ps, p.Regular) {members : List Predicate}
    (h : ∀ x ∈ members, x.Regular) : ∀ x ∈ insertAll connective members ps, x.Regular :=
  insertAll_of_insert (fun l => ∀ x ∈ l, x.Regular) (fun p hp _ => regular_insert (hps p hp)) h

/-! ## The meaning of what is inserted -/

section

variable {m : Model} {members : List Predicate} {op : Connective}

theorem joined_insertWith {merge : Predicate → Option Predicate}
    (hmerge : ∀ a ∈ members, ∀ b, merge a = some b →
      b.meaning E db m t row = op.join (a.meaning E db m t row) (p.meaning E db m t row)) :
    joined E db m t row op (insertWith merge p members) =
      op.join (joined E db m t row op members) (p.meaning E db m t row) := by
  induction members with
  | nil => rw [insertWith, joined_singleton, joined, Connective.join_none_left]
  | cons a rest ih =>
    rw [List.forall_mem_cons] at hmerge
    rw [insertWith]
    split
    · rename_i merged hm
      rw [joined, joined, hmerge.1 merged hm, Connective.join_assoc, Connective.join_assoc,
        Connective.join_comm (a := p.meaning E db m t row)]
    · rw [joined, joined, ih hmerge.2, Connective.join_assoc]

/-- Members are inserted one after the other. -/
theorem joined_insertAll_of (hps : ∀ p ∈ ps, p.Regular)
    (hinsert : ∀ p ∈ ps, ∀ members : List Predicate, (∀ x ∈ members, x.Regular) →
      joined E db m t row op (insert op members p) =
        op.join (joined E db m t row op members) (p.meaning E db m t row))
    (h : ∀ x ∈ members, x.Regular) :
    joined E db m t row op (insertAll op members ps) =
      op.join (joined E db m t row op members) (joined E db m t row op ps) := by
  induction ps generalizing members with
  | nil => rw [insertAll, joined, Connective.join_none_right]
  | cons p ps ih =>
    rw [List.forall_mem_cons] at hps hinsert
    rw [insertAll, ih hps.2 hinsert.2 (regular_insert hps.1 h), hinsert.1 members h, joined,
      Connective.join_assoc]

/-- **A member is inserted** and says, with the others, what it says beside them. -/
theorem joined_insert (hE : E.Identifies) (hp : p.Regular) (h : ∀ x ∈ members, x.Regular)
    (t : Table) (row : Row D) :
    joined E db m t row op (insert op members p) =
      op.join (joined E db m t row op members) (p.meaning E db m t row) := by
  induction p using insert_induction generalizing op members t row with
  | compare path op' operand q =>
    rw [insert]
    exact joined_insertWith fun a _ b hm => meaning_mergeCompare hE hm
  | columns left op' right => rw [insert, joined_append, joined_singleton]
  | group op' inner => rw [insert, joined_append, joined_singleton]
  | related via condition inverted threshold ih =>
    rw [insert_related]
    refine joined_insertWith fun a ha b hm => ?_
    obtain ⟨c, hopen, rfl⟩ := Option.map_eq_some_iff.1 hm
    have hregular := h a ha
    rw [openCondition?_via hopen] at hregular ⊢
    obtain ⟨rfl, hor⟩ := openCondition?_threshold hopen
    have hsome : ∀ d : Predicate, d.constrains = true →
        ∀ t row, (d.meaning E db m t row).isSome :=
      fun d hd t row => (isSome_meaning m t row d).trans hd
    have hparts := regular_membersUnder .or hp.2
    refine meaning_related_or hor (hsome c hregular.1) (hsome condition hp.1) fun t row => ?_
    rw [meaning_close, joined_insertAll_of hparts
      (fun q hq members hm => ih q hq (hparts q hq) hm t row) (regular_membersUnder .or hregular.2),
      joined_membersUnder, joined_membersUnder]

theorem joined_insertAll (hE : E.Identifies) (hps : ∀ p ∈ ps, p.Regular) (t : Table) (row : Row D) :
    joined E db m t row op (insertAll op [] ps) = joined E db m t row op ps := by
  rw [joined_insertAll_of hps (fun p hp members h => joined_insert hE (hps p hp) h t row)
    (List.forall_mem_nil _), joined, Connective.join_none_left]

end

/-! ## Simplifying -/

theorem constrains_simplify (p : Predicate) : p.simplify.constrains = p.constrains := by
  rw [Bool.eq_iff_iff, ← not_iff_not, Bool.not_eq_true, Bool.not_eq_true]
  exact hereditary_constrains.simplify (t := ())

theorem regular_simplify (hp : p.Regular) : p.simplify.Regular := by
  induction p using tree_induction with
  | group op members ih =>
    rw [simplify, simplifyUnder_eq]
    refine regular_close (regular_insertAll (fun q hq => ?_) (List.forall_mem_nil _))
    obtain ⟨p, hmem, hq⟩ := List.mem_flatMap.1 hq
    exact regular_membersUnder op (ih p hmem (regular_group.1 hp p hmem)) q hq
  | compare path op operand q =>
    rw [simplify, if_neg hp]
    exact hp
  | columns left op right =>
    rw [simplify]
    exact hp
  | related via condition inverted threshold ih =>
    rw [simplify]
    exact ⟨(constrains_simplify condition).trans hp.1, ih hp.2⟩

/-- Simplified members that say the same make a group that says the same. -/
theorem meaning_simplify_group (hE : E.Identifies) {m : Model} {op : Connective}
    {members : List Predicate} (hregular : ∀ p ∈ members, p.Regular)
    (h : ∀ p ∈ members, p.simplify.meaning E db m t row = p.meaning E db m t row) :
    (group op members).simplify.meaning E db m t row = (group op members).meaning E db m t row := by
  have hparts : ∀ q ∈ members.flatMap fun p => p.simplify.membersUnder op, q.Regular := by
    intro q hq
    obtain ⟨p, hmem, hq⟩ := List.mem_flatMap.1 hq
    exact regular_membersUnder op (regular_simplify (hregular p hmem)) q hq
  rw [simplify, simplifyUnder_eq, meaning_close, joined_insertAll hE hparts, meaning]
  clear hparts
  induction members with
  | nil => rfl
  | cons p ps ih =>
    rw [List.forall_mem_cons] at h hregular
    rw [List.flatMap_cons, joined_append, joined_membersUnder, h.1, ih hregular.2 h.2, joined]

/-- **Simplification keeps the meaning** of a predicate without `notLikeOrNull` in which every
`related` constrains its rows: for every row of every table and database the truth value stays the
same, and what is absent stays absent. -/
theorem meaning_simplify (hE : E.Identifies) {p : Predicate} (hp : p.Regular) (m : Model)
    (t : Table) (row : Row D) :
    p.simplify.meaning E db m t row = p.meaning E db m t row := by
  induction p using tree_induction generalizing t row with
  | group op members ih =>
    have hmembers := regular_group.1 hp
    exact meaning_simplify_group hE hmembers fun p hmem => ih p hmem (hmembers p hmem) t row
  | compare path op operand q => rw [simplify, if_neg hp]
  | columns left op right => rw [simplify]
  | related via condition inverted threshold ih =>
    rw [simplify, meaning, meaning]
    simp only [ih hp.2]

end Predicate

namespace Shop

/-- A database of texts, in which every other parameter is the empty text. -/
def texts : Engine String := { engine with datum := fun v _ => v.text?.getD "" }

theorem identifies_texts : texts.Identifies := by
  intro v w type h
  cases v <;> cases w <;> simp_all [Value.eqv, texts, Value.text?]

/-- Some line has one of two articles, or, asked in another way, one of two others. -/
def articles : Predicate :=
  let article (path : Path) (s : String) : Predicate := .ofValue path .eq (.text s)
  .group .or [.trivial, article ⟨["lines", "sku"]⟩ "ink", .group .or
    [.related ⟨["lines"]⟩ (article ⟨["sku"]⟩ "pen") false none, article ⟨["lines", "sku"]⟩ "nib",
      .related ⟨["lines"]⟩ (article ⟨["sku"]⟩ "pad") false none]]

/-- The same with lists of articles. -/
def articleLists : Predicate :=
  let article (path : Path) (ss : List String) : Predicate :=
    .compare path .eq (.values (ss.map .text)) .any
  .group .or [article ⟨["lines", "sku"]⟩ ["ink", "nib"],
    .related ⟨["lines"]⟩ (article ⟨["sku"]⟩ ["pen", "pad"]) false none]

theorem simplify_articles : articles.simplify = articleLists := by
  rfl

theorem regular_articles : articles.Regular := by
  simp [articles, Predicate.Regular, Predicate.RegularAll, Predicate.trivial, Predicate.ofValue,
    Predicate.constrains]

end Shop

/-- Four conditions on the lines of an order are asked as two. -/
theorem meaning_simplify_articles :
    Shop.texts.Identifies ∧ Shop.articles.Regular ∧
      ∀ db row, Shop.articleLists.meaning Shop.texts db (Shop.model Shop.plain) Shop.orders row =
        Shop.articles.meaning Shop.texts db (Shop.model Shop.plain) Shop.orders row := by
  refine ⟨Shop.identifies_texts, Shop.regular_articles, fun db row => ?_⟩
  rw [← Shop.simplify_articles]
  exact Predicate.meaning_simplify Shop.identifies_texts Shop.regular_articles _ _ row

end EntityQuery
