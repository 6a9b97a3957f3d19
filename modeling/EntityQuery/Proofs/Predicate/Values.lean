import EntityQuery.Proofs.Predicate.Writing

/-!
# Other values in a predicate

`Predicate.mapValues s` puts `s v` in the place of every value `v` that a predicate compares with,
also in the conditions of related rows and in the filters of subqueries.

Values steer the normal form of a predicate: equal ones are listed once, nulls are not listed, and
the number of different values that related rows must have is a number in the text. A map is a
*renaming* (`Value.Renaming`) if it keeps all that can be seen of values there: which of them are
equal, which are null and which are text. A renaming commutes with simplification
(`simplify_mapValues`) and correlation (`correlate_mapValues`), also in its failures.
-/

namespace EntityQuery

/-! ## Renamings -/

/-- The map keeps what is equal, what is null and what is text, and what is not. -/
structure Value.Renaming (s : Value → Value) : Prop where
  eqv : ∀ v w, (s v).eqv (s w) = v.eqv w
  null : s .null = .null
  text : ∀ v, (s v).text?.isSome = v.text?.isSome

namespace Value

theorem isNull_eq_eqv (v : Value) : v.isNull = v.eqv null := by
  cases v <;> rfl

theorem renaming_id : Renaming id := ⟨fun _ _ => rfl, rfl, fun _ => rfl⟩

namespace Renaming

variable {s : Value → Value} (hs : Renaming s)

include hs

theorem isNull (v : Value) : (s v).isNull = v.isNull := by
  rw [isNull_eq_eqv, isNull_eq_eqv, ← hs.eqv v .null, hs.null]

theorem any_isNull (vs : List Value) : (vs.map s).any (·.isNull) = vs.any (·.isNull) := by
  rw [List.any_map]
  exact congrArg vs.any (funext hs.isNull)

theorem memOf (v : Value) (vs : List Value) : (s v).memOf (vs.map s) = v.memOf vs := by
  rw [Value.memOf, Value.memOf, List.any_map]
  exact congrArg vs.any (funext fun w => hs.eqv w v)

theorem extend (vs ws : List Value) :
    Value.extend (vs.map s) (ws.map s) = (Value.extend vs ws).map s := by
  rw [Value.extend, Value.extend]
  induction ws generalizing vs with
  | nil => rfl
  | cons w ws ih =>
    rw [List.map_cons, List.foldl_cons, List.foldl_cons, hs.memOf]
    by_cases h : w.memOf vs
    · rw [if_pos h, if_pos h]
      exact ih vs
    · rw [if_neg h, if_neg h, ← ih (vs ++ [w]), List.map_append]
      rfl

theorem distinct (vs : List Value) : Value.distinct (vs.map s) = (Value.distinct vs).map s :=
  hs.extend [] vs

end Renaming

end Value

/-! ## Predicates -/

mutual

/-- The predicate with other values. -/
def Predicate.mapValues (s : Value → Value) : Predicate → Predicate
  | .group op members => .group op (mapValuesAll s members)
  | .compare path op operand q => .compare path op (operand.mapValues s) q
  | .columns left op right => .columns left op right
  | .related via condition inverted threshold =>
    .related via (condition.mapValues s) inverted threshold

def mapValuesAll (s : Value → Value) : List Predicate → List Predicate
  | [] => []
  | p :: ps => p.mapValues s :: mapValuesAll s ps

def Operand.mapValues (s : Value → Value) : Operand → Operand
  | .value v => .value (s v)
  | .values vs => .values (vs.map s)
  | .subquery q => .subquery (q.mapValues s)

def SubQuery.mapValues (s : Value → Value) : SubQuery → SubQuery
  | ⟨table, column, filter⟩ => ⟨table, column, mapValuesFilter s filter⟩

def mapValuesFilter (s : Value → Value) : Option Predicate → Option Predicate
  | none => none
  | some p => some (p.mapValues s)

end

theorem mapValuesAll_eq_map (s : Value → Value) (ps : List Predicate) :
    mapValuesAll s ps = ps.map (·.mapValues s) := by
  induction ps with
  | nil => rfl
  | cons p ps ih => rw [mapValuesAll, ih, List.map_cons]

mutual

theorem Predicate.mapValues_id (p : Predicate) : p.mapValues id = p := by
  match p with
  | .group op members => rw [Predicate.mapValues, mapValuesAll_id members]
  | .compare path op operand q => rw [Predicate.mapValues, operand.mapValues_id]
  | .columns left op right => rw [Predicate.mapValues]
  | .related via condition inverted threshold => rw [Predicate.mapValues, condition.mapValues_id]

theorem mapValuesAll_id (ps : List Predicate) : mapValuesAll id ps = ps := by
  match ps with
  | [] => rw [mapValuesAll]
  | p :: ps => rw [mapValuesAll, p.mapValues_id, mapValuesAll_id ps]

theorem Operand.mapValues_id (operand : Operand) : operand.mapValues id = operand := by
  match operand with
  | .value v => rw [Operand.mapValues, id]
  | .values vs => rw [Operand.mapValues, List.map_id]
  | .subquery ⟨table, column, filter⟩ =>
    rw [Operand.mapValues, SubQuery.mapValues, mapValuesFilter_id filter]

theorem mapValuesFilter_id (filter : Option Predicate) : mapValuesFilter id filter = filter := by
  match filter with
  | none => rw [mapValuesFilter]
  | some p => rw [mapValuesFilter, p.mapValues_id]

end

variable {s : Value → Value}

theorem Operand.listed?_mapValues (hs : Value.Renaming s) (operand : Operand) :
    (operand.mapValues s).listed? = operand.listed?.map (·.map s) := by
  cases operand with
  | value v =>
    simp only [mapValues, listed?, hs.isNull]
    split <;> rfl
  | values vs =>
    simp only [mapValues, listed?, hs.any_isNull]
    split <;> rfl
  | subquery q => rfl

namespace Predicate

/-! ## Simplification -/

theorem mergeCompare_mapValues (hs : Value.Renaming s) (connective : Connective) (path : Path)
    (op : Operator) (operand : Operand) (q : Quantifier) (a : Predicate) :
    mergeCompare connective path op (operand.mapValues s) q (a.mapValues s) =
      (mergeCompare connective path op operand q a).map (·.mapValues s) := by
  cases a with
  | compare path' op' operand' q' =>
    simp only [mapValues, mergeCompare, operand.listed?_mapValues hs, operand'.listed?_mapValues hs]
    split
    · cases operand'.listed? with
      | none => rfl
      | some vs =>
        cases operand.listed? with
        | none => rfl
        | some ws =>
          simp [hs.extend, mapValues, Operand.mapValues]
    · rfl
  | group => rfl
  | columns => rfl
  | related => rfl

theorem openCondition?_mapValues (connective : Connective) (via : Path) (inverted : Bool)
    (threshold : Option Threshold) (a : Predicate) :
    openCondition? connective via inverted threshold (a.mapValues s) =
      (openCondition? connective via inverted threshold a).map (·.mapValues s) := by
  cases a with
  | related via' condition' inverted' threshold' =>
    simp only [mapValues, openCondition?]
    split <;> rfl
  | group => rfl
  | columns => rfl
  | compare => rfl

theorem membersUnder_mapValues (op : Connective) (p : Predicate) :
    (p.mapValues s).membersUnder op = (p.membersUnder op).map (·.mapValues s) := by
  cases p with
  | group op' members =>
    simp only [mapValues, membersUnder, mapValuesAll_eq_map, List.isEmpty_map]
    split
    · rfl
    · rw [List.map_singleton, mapValues, mapValuesAll_eq_map]
  | compare => rfl
  | columns => rfl
  | related => rfl

theorem close_mapValues (op : Connective) (members : List Predicate) :
    close op (members.map (·.mapValues s)) = (close op members).mapValues s := by
  match members with
  | [] => rfl
  | [p] => rfl
  | p :: p' :: rest =>
    show group op ((p :: p' :: rest).map (·.mapValues s)) = (group op (p :: p' :: rest)).mapValues s
    rw [mapValues, mapValuesAll_eq_map]

theorem insertWith_mapValues {merge merge' : Predicate → Option Predicate}
    (hmerge : ∀ a, merge' (a.mapValues s) = (merge a).map (·.mapValues s)) (p : Predicate)
    (members : List Predicate) :
    insertWith merge' (p.mapValues s) (members.map (·.mapValues s)) =
      (insertWith merge p members).map (·.mapValues s) := by
  induction members with
  | nil => rfl
  | cons a rest ih =>
    rw [List.map_cons, insertWith, insertWith, hmerge, ih]
    cases merge a <;> rfl

theorem insertAll_mapValues_of {connective : Connective} (ps members : List Predicate)
    (h : ∀ p ∈ ps, ∀ members : List Predicate,
      insert connective (members.map (·.mapValues s)) (p.mapValues s) =
        (insert connective members p).map (·.mapValues s)) :
    insertAll connective (members.map (·.mapValues s)) (ps.map (·.mapValues s)) =
      (insertAll connective members ps).map (·.mapValues s) := by
  induction ps generalizing members with
  | nil => simp only [List.map_nil, insertAll]
  | cons p ps ih =>
    rw [List.forall_mem_cons] at h
    rw [List.map_cons, insertAll, insertAll, h.1, ih _ h.2]

theorem insert_mapValues (hs : Value.Renaming s) (connective : Connective)
    (members : List Predicate) (p : Predicate) :
    insert connective (members.map (·.mapValues s)) (p.mapValues s) =
      (insert connective members p).map (·.mapValues s) := by
  induction p using insert_induction generalizing connective members with
  | compare path op operand q =>
    have hwith := insertWith_mapValues (mergeCompare_mapValues hs connective path op operand q)
      (compare path op operand q) members
    rw [mapValues] at hwith
    rw [mapValues, insert, insert, hwith]
  | columns left op right => simp only [mapValues, insert, List.map_append, List.map_singleton]
  | group op inner => simp only [mapValues, insert, List.map_append, List.map_singleton]
  | related via condition inverted threshold ih =>
    rw [insert_related, ← insertWith_mapValues ?_ (related via condition inverted threshold),
      mapValues, insert_related]
    intro a
    rw [openCondition?_mapValues, Option.map_map, Option.map_map]
    congr 1
    funext c
    simp only [Function.comp_apply, membersUnder_mapValues, mapValues,
      insertAll_mapValues_of _ _ fun p hp members => ih p hp .or members, close_mapValues]

/-- **Renamings commute with simplification.** -/
theorem simplify_mapValues (hs : Value.Renaming s) (p : Predicate) :
    (p.mapValues s).simplify = p.simplify.mapValues s := by
  induction p using tree_induction with
  | group op members ih =>
    have hunder : simplifyUnder op (members.map (·.mapValues s)) =
        (simplifyUnder op members).map (·.mapValues s) := by
      rw [simplifyUnder_eq, simplifyUnder_eq, List.flatMap_map, List.map_flatMap]
      refine congrArg List.flatten (List.map_congr_left fun p hp => ?_)
      rw [ih p hp, membersUnder_mapValues]
    rw [mapValues, simplify, simplify, mapValuesAll_eq_map, hunder]
    have hinsert := insertAll_mapValues_of (simplifyUnder op members) []
      fun p _ members => insert_mapValues hs op members p
    rw [List.map_nil] at hinsert
    rw [hinsert, close_mapValues]
  | compare path op operand q =>
    rw [mapValues, simplify, simplify]
    split
    · simp only [nullOrNotLike, mapValues, mapValuesAll, Operand.mapValues, hs.null]
    · rfl
  | columns left op right => rfl
  | related via condition inverted threshold ih => rw [mapValues, simplify, simplify, ih, mapValues]

/-! ## Correlation -/

variable {m : Model} {t : Table}

theorem containment_mapValues (hs : Value.Renaming s) (path via rest : Path) (vs : List Value)
    (inverted : Bool) :
    containment m t path via rest (vs.map s) inverted =
      (containment m t path via rest vs inverted).map (·.mapValues s) := by
  rw [containment, containment]
  cases m.relationshipAt? t via with
  | none => rfl
  | some r =>
    simp only [hs.distinct, List.isEmpty_map, List.length_map]
    split
    · rfl
    · split
      · rfl
      · rfl

theorem invert_compare_mapValues (hs : Value.Renaming s) (path : Path) (op : Operator)
    (operand : Operand) (q : Quantifier) :
    (compare path op (operand.mapValues s) q).invert =
      (compare path op operand q).invert.map (·.mapValues s) := by
  have hcompare : invertCompare path op (operand.mapValues s) q =
      (invertCompare path op operand q).mapValues s := by
    rw [invertCompare, invertCompare]
    cases op.inverse? with
    | some op' => rfl
    | none => simp only [mapValues, mapValuesAll, Operand.mapValues, hs.null]
  cases operand with
  | value v => exact congrArg Except.ok hcompare
  | values vs => exact congrArg Except.ok hcompare
  | subquery q => rfl

theorem correlateAt_mapValues (hs : Value.Renaming s) (path via rest : Path) (op : Operator)
    (operand : Operand) (q : Quantifier) :
    correlateAt m t path via rest op (operand.mapValues s) q =
      (correlateAt m t path via rest op operand q).map (·.mapValues s) := by
  cases q with
  | any =>
    cases operand with
    | values vs =>
      cases op with
      | ne => exact containment_mapValues hs path via rest vs true
      | _ => rfl
    | value v => cases op <;> rfl
    | subquery x => cases op <;> rfl
  | all =>
    have hfailing : (do
          let failing ← (compare rest op (operand.mapValues s) .all).invert
          return related via failing true none) =
        Except.map (·.mapValues s) (do
          let failing ← (compare rest op operand .all).invert
          return related via failing true none) := by
      rw [invert_compare_mapValues hs]
      cases (compare rest op operand .all).invert <;> rfl
    cases operand with
    | values vs =>
      cases op with
      | eq => exact containment_mapValues hs path via rest vs false
      | _ => exact hfailing
    | value v => cases op <;> exact hfailing
    | subquery x => cases op <;> exact hfailing

theorem correlateCompare_mapValues (hs : Value.Renaming s) (path : Path) (op : Operator)
    (operand : Operand) (q : Quantifier) :
    correlateCompare m t path op (operand.mapValues s) q =
      (correlateCompare m t path op operand q).map (·.mapValues s) := by
  rw [correlateCompare, correlateCompare]
  cases m.firstMany? t path with
  | none => rfl
  | some found =>
    dsimp only
    split
    · rfl
    · exact correlateAt_mapValues hs ..

theorem correlateColumns_mapValues (left right : Path) (op : Operator) :
    (correlateColumns m t left op right).map (·.mapValues s) =
      correlateColumns m t left op right := by
  rw [correlateColumns]
  split
  · rfl
  · split <;> rfl
  · rfl

theorem correlateRelated_mapValues (via : Path) (condition : Predicate) (inverted : Bool)
    (threshold : Option Threshold) :
    correlateRelated m t via (condition.mapValues s) inverted threshold =
      (correlateRelated m t via condition inverted threshold).mapValues s := by
  rw [correlateRelated, correlateRelated]
  split
  · split <;> rfl
  · rfl

/-- **Renamings commute with correlation**, which fails for both or for none. -/
theorem correlate_mapValues (hs : Value.Renaming s) (p : Predicate) :
    (p.mapValues s).correlate m t = (p.correlate m t).map (·.mapValues s) := by
  induction p using tree_induction with
  | group op members ih =>
    have hall : correlateAll m t (members.map (·.mapValues s)) =
        (correlateAll m t members).map (·.map (·.mapValues s)) := by
      induction members with
      | nil => rfl
      | cons p ps ihs =>
        rw [List.forall_mem_cons] at ih
        rw [List.map_cons, correlateAll, correlateAll, ih.1, ihs ih.2]
        cases p.correlate m t with
        | error e => rfl
        | ok c => cases correlateAll m t ps <;> rfl
    rw [mapValues, correlate, correlate, mapValuesAll_eq_map, hall]
    cases correlateAll m t members with
    | error e => rfl
    | ok cs =>
      show Except.ok (group op (cs.map (·.mapValues s))) = .ok ((group op cs).mapValues s)
      rw [mapValues, mapValuesAll_eq_map]
  | compare path op operand q =>
    have hnull := correlateCompare_mapValues (m := m) (t := t) hs path .eq (.value .null) q
    rw [Operand.mapValues, hs.null] at hnull
    rw [mapValues, correlate, correlate]
    split
    · rw [correlateCompare_mapValues hs path .notLike operand q]
      cases hfirst : correlateCompare m t path .eq (.value .null) q with
      | error e => rfl
      | ok first =>
        rw [hfirst] at hnull
        have hsame : first = first.mapValues s := Except.ok.inj hnull
        cases correlateCompare m t path .notLike operand q with
        | error e => rfl
        | ok unlike =>
          show Except.ok (group .or [first, unlike.mapValues s]) = .ok (mapValues s _)
          rw [mapValues, mapValuesAll, mapValuesAll, mapValuesAll, ← hsame]
    · exact correlateCompare_mapValues hs path op operand q
  | columns left op right =>
    rw [mapValues, correlate, correlateColumns_mapValues]
  | related via condition inverted threshold =>
    rw [mapValues, correlate, correlate, correlateRelated_mapValues]
    rfl

/-- **Renamings commute with the normal form.** -/
theorem normal_mapValues (hs : Value.Renaming s) (p : Predicate) :
    (p.mapValues s).normal m t = (p.normal m t).map (·.mapValues s) := by
  rw [normal, normal, simplify_mapValues hs, correlate_mapValues hs]
  cases p.simplify.correlate m t with
  | error e => rfl
  | ok c => exact congrArg Except.ok (simplify_mapValues hs c)

end Predicate

end EntityQuery
