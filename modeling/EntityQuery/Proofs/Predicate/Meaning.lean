import EntityQuery.Proofs.Graph.Reach
import Mathlib.Data.List.DropRight

/-!
# The meaning of predicates

What a predicate says of a row, in the three-valued logic of SQL.

**Rows.** `JoinStep.rows` lists the rows that a row is joined to, and `reached` those that a walk
leads to; they are the ones that `JoinStep.Links` and `reaches` speak of. A walk of one-to-one
relationships leads to one row (`followed`), perhaps of NULLs.

**Comparisons.** Where the path does not fan out, the comparison is the one that is written in SQL
for the row the path leads to, and may be unknown (`Operand.truth`). Across a fan-out it is true or
false: ANY asks for a reached row that satisfies it, ALL for none that satisfies the opposite, and
a list with `= ALL` for related rows that have all its values.

**Related rows.** They come in groups (`siblings`), a new one behind every fan-out that is not the
last step, because the different values of a threshold are counted for one parent.

**Groups.** A group without members is absent: it says nothing of a row, and a group around it does
not take notice of it. So the meaning of a predicate is a truth value or none.
-/

namespace EntityQuery

open EntityQuery.Sql (Expr Engine Database Env Row Truth bindCtes)

variable {D : Type} [DecidableEq D] (E : Engine D) (db : Database D)

/-! ## Rows -/

instance (j : JoinStep) (row : Row D) : Decidable (j.Accepts E db row) :=
  inferInstanceAs (Decidable (∀ f ∈ j.filters, _))

/-- The rows of the joined table that belong to the row on the left. -/
def JoinStep.rows (j : JoinStep) (left : Row D) : List (Row D) :=
  (db j.schema j.table).filter fun row =>
    E.truth (E.binary .eq (left j.leftColumn) (row j.rightColumn)) = some true ∧ j.Accepts E db row

/-- These rows or, without any, a row of NULLs. -/
def JoinStep.leftRows (j : JoinStep) (left : Row D) : List (Row D) :=
  if j.rows E db left = [] then [Row.null] else j.rows E db left

/-- The rows that the joins of a relationship lead to. -/
def Relationship.rows (step : JoinStep → Row D → List (Row D)) (r : Relationship)
    (parent : Row D) : List (Row D) :=
  match r.linkJoin with
  | none => step r.childJoin parent
  | some link => (step link parent).flatMap (step r.childJoin)

/-- The rows that a walk leads to, with NULLs for missing rows behind the first fan-out, or from the
start if `extended`. -/
def reached (extended : Bool) : List Relationship → Row D → List (Row D)
  | [], row => [row]
  | r :: rest, row =>
    (r.rows (if extended && !r.fansOut then JoinStep.leftRows E db else JoinStep.rows E db)
      row).flatMap (reached (extended || r.fansOut) rest)

/-- The row that one-to-one relationships lead to. -/
def followed (hops : List Relationship) (row : Row D) : Row D :=
  (reached E db true hops row).headD Row.null

/-- The rows related through a walk, in groups: behind every fan-out but one at the end each row
begins a group of its own. -/
def siblings : List Relationship → List (Row D) → List (List (Row D))
  | [], rows => [rows]
  | r :: rest, rows =>
    let next := rows.flatMap (r.rows (JoinStep.rows E db))
    if r.fansOut && !rest.isEmpty then next.flatMap fun c => siblings rest [c]
    else siblings rest next

/-- The rows related through a walk. -/
def relatedRows (hops : List Relationship) (row : Row D) : List (Row D) :=
  (siblings E db hops [row]).flatten

/-- The relationships lead from one row to another, without a row of NULLs on the way. -/
def leadsTo : List Relationship → Row D → Row D → Prop
  | [], first, last => last = first
  | r :: rest, first, last => ∃ x, r.Follows (JoinStep.Links E db) first x ∧ leadsTo rest x last

section

variable {E db} {j : JoinStep} {left row c : Row D} {extended : Bool}

theorem JoinStep.mem_rows : row ∈ j.rows E db left ↔ j.Links E db left row := by
  simp only [rows, List.mem_filter, decide_eq_true_eq, E.truth_binary_eq, Links]

theorem JoinStep.mem_leftRows : row ∈ j.leftRows E db left ↔ j.LeftLinks E db left row := by
  have hnil : j.rows E db left = [] ↔ ∀ x, ¬ j.Links E db left x := by
    simp only [List.eq_nil_iff_forall_not_mem, mem_rows]
  rw [leftRows, LeftLinks, ← hnil]
  by_cases h : j.rows E db left = []
  · have hlinks : ¬ j.Links E db left row := hnil.1 h row
    simp [h, hlinks]
  · simp [h, mem_rows]

omit [DecidableEq D] in
theorem Relationship.mem_rows {step : JoinStep → Row D → List (Row D)}
    {links : JoinStep → Row D → Row D → Prop}
    (hstep : ∀ j a b, b ∈ step j a ↔ links j a b) {r : Relationship} {parent : Row D} :
    c ∈ r.rows step parent ↔ r.Follows links parent c := by
  cases hlink : r.linkJoin with
  | none => simp only [rows, Follows, hlink, hstep]
  | some link => simp only [rows, Follows, hlink, List.mem_flatMap, hstep]

/-- The rows that are listed are the ones that the walk leads to. -/
theorem mem_reached {hops : List Relationship} :
    c ∈ reached E db extended hops row ↔ reaches E db extended hops row c := by
  induction hops generalizing extended row with
  | nil => rw [reached, reaches, List.mem_singleton]
  | cons r rest ih =>
    simp only [reached, reaches, List.mem_flatMap, ih]
    refine exists_congr fun x => and_congr_left fun _ => Relationship.mem_rows fun j a b => ?_
    split
    · exact JoinStep.mem_leftRows
    · exact JoinStep.mem_rows

/-- The groups together have the rows that are related. -/
theorem mem_siblings {hops : List Relationship} {rows : List (Row D)} :
    c ∈ (siblings E db hops rows).flatten ↔ ∃ row ∈ rows, leadsTo E db hops row c := by
  induction hops generalizing rows with
  | nil => simp [siblings, leadsTo]
  | cons r rest ih =>
    have hnext : (∃ x ∈ rows.flatMap (r.rows (JoinStep.rows E db)), leadsTo E db rest x c) ↔
        ∃ row ∈ rows, leadsTo E db (r :: rest) row c := by
      simp only [List.mem_flatMap, Relationship.mem_rows fun _ _ _ => JoinStep.mem_rows, leadsTo]
      constructor
      · intro h
        obtain ⟨x, ⟨row, hrow, hx⟩, hc⟩ := h
        exact ⟨row, hrow, x, hx, hc⟩
      · intro h
        obtain ⟨row, hrow, x, hx, hc⟩ := h
        exact ⟨x, ⟨row, hrow, hx⟩, hc⟩
    rw [siblings, ← hnext]
    split
    · have hone : ∀ x, (∃ g ∈ siblings E db rest [x], c ∈ g) ↔ leadsTo E db rest x c := by
        intro x
        rw [← List.mem_flatten, ih]
        simp
      simp only [List.mem_flatten, List.mem_flatMap (f := fun x => siblings E db rest [x]), ← hone]
      constructor
      · intro h
        obtain ⟨g, ⟨x, hx, hg⟩, hc⟩ := h
        exact ⟨x, hx, g, hg, hc⟩
      · intro h
        obtain ⟨x, hx, g, hg, hc⟩ := h
        exact ⟨g, ⟨x, hx, hg⟩, hc⟩
    · exact ih

theorem mem_relatedRows {hops : List Relationship} :
    c ∈ relatedRows E db hops row ↔ leadsTo E db hops row c := by
  rw [relatedRows, mem_siblings]
  simp

end

/-! ## Comparisons -/

/-- The comparison of a column of `t` with an operand, as it is written for a row of `t`. What
cannot be written is unknown. -/
def Operand.truth (m : Model) (t : Table) (column : EntityColumn) (op : Operator)
    (operand : Operand) (q : Quantifier) (row : Row D) : Truth :=
  match StateT.run (operand.render m ⟨m.columnExpr t column, column.type, Path.empty⟩ op q)
      ⟨.ofTable m t, []⟩ with
  | (.error _, _) => none
  | (.ok e, g) =>
    let env := Env.empty.bind (m.aliasOf t) row
    E.truth (e.eval E db (bindCtes E db (fun _ => []) g.ctes) [env] env)

/-- Whether there are enough different values in a column of the rows. -/
def enough (count : Nat) (hops : List Relationship) (column : String) (rows : List (Row D)) :
    Bool :=
  Sql.rowCount count ≤ (rows.filterMap fun c => followed E db hops c column).dedup.length

/-- The rows related by the first fan-out of the path have all the values in its column. -/
def Resolution.contains (m : Model) (res : Resolution) (vs : List Value) (row : Row D) : Truth :=
  match res.splitMany? with
  | none => none
  | some (before, many, after) =>
    if after.any (·.fansOut) then none
    else
      let wanted := Value.distinct vs
      let rows := (relatedRows E db (before ++ [many]) row).filter fun c =>
        wanted.isEmpty || (Operand.values wanted).truth E db m res.table res.column .eq .any
          (followed E db after c) == some true
      some (if 1 < wanted.length then enough E db wanted.length after res.column.name rows
        else !rows.isEmpty)

/-- The rows that the path leads to satisfy a comparison, one of them or all. -/
def Resolution.quantified (m : Model) (res : Resolution) (op : Operator) (operand : Operand)
    (q : Quantifier) (row : Row D) : Truth :=
  let truth (op : Operator) (q : Quantifier) (c : Row D) : Bool :=
    operand.truth E db m res.table res.column op q c == some true
  let rows := reached E db false res.hops row
  match op, q, operand with
  | .eq, .all, .values vs => res.contains E db m vs row
  | .ne, .any, .values vs => (res.contains E db m vs row).not
  | op, .any, _ => some (rows.any (truth op .any))
  | .notLikeOrNull, .all, _ => some (rows.all (truth .notLikeOrNull .all))
  | _, .all, .subquery _ => none
  | op, .all, _ => op.inverse?.map fun op => !rows.any (truth op .any)

/-- A comparison of the column at the end of a path. -/
def compareTruth (m : Model) (t : Table) (path : Path) (op : Operator) (operand : Operand)
    (q : Quantifier) (row : Row D) : Truth :=
  match m.resolve t path with
  | .error _ => none
  | .ok res =>
    if res.crossesMany then res.quantified E db m op operand q row
    else operand.truth E db m res.table res.column op q (followed E db res.hops row)

/-- The comparison of two values. -/
def Operator.between (op : Operator) (a b : Option D) : Truth :=
  match op with
  | .notLikeOrNull => Truth.or (some a.isNone) (E.truth (E.binary .notLike a b))
  | op =>
    match op.binary? with
    | some binary => E.truth (E.binary binary a b)
    | none => none

/-- The relationships up to the last that fans out. -/
def spread (hops : List Relationship) : List Relationship := hops.rdropWhile (!·.fansOut)

/-- The one-to-one relationships behind them. -/
def behind (hops : List Relationship) : List Relationship := hops.rtakeWhile (!·.fansOut)

/-- The comparison of two columns for a row behind the fan-outs of both paths. -/
def Resolution.compared (op : Operator) (l r : Resolution) (c : Row D) : Truth :=
  op.between E (followed E db (behind l.hops) c l.column.name)
    (followed E db (behind r.hops) c r.column.name)

/-- A comparison of two columns, within one row behind the fan-outs of both paths. -/
def columnsTruth (m : Model) (t : Table) (left : Path) (op : Operator) (right : Path)
    (row : Row D) : Truth :=
  match m.resolve t left, m.resolve t right with
  | .ok l, .ok r =>
    if (spread l.hops).map (·.member) ≠ (spread r.hops).map (·.member) then none
    else if (spread l.hops).isEmpty then Resolution.compared E db op l r row
    else some ((reached E db false (spread l.hops) row).any
      (Resolution.compared E db op l r · == some true))
  | _, _ => none

/-! ## Predicates -/

/-- Two truth values under a connective. -/
def Connective.truth : Connective → Truth → Truth → Truth
  | and => Truth.and
  | or => Truth.or

/-- Two members of a group, of which either may be absent. -/
def Connective.join (op : Connective) : Option Truth → Option Truth → Option Truth :=
  Option.merge op.truth

/-- Whether a condition is true of a row; what is absent always is. -/
def satisfied : Option Truth → Bool
  | none => true
  | some t => t == some true

/-- What a threshold asks of the related rows that satisfy the condition. -/
def Model.test? (m : Model) (t : Table) : Option Threshold → Option (List (Row D) → Bool)
  | none => some (!·.isEmpty)
  | some ⟨column, count⟩ =>
    match m.resolve t column with
    | .error _ => none
    | .ok res =>
      if res.crossesMany then none else some (enough E db count res.hops res.column.name)

mutual

/-- **The meaning of a predicate** for a row of `t`: a truth value, or nothing at all. -/
def Predicate.meaning (m : Model) (t : Table) (row : Row D) : Predicate → Option Truth
  | .group op members => joined m t row op members
  | .compare path op operand q => some (compareTruth E db m t path op operand q row)
  | .columns left op right => some (columnsTruth E db m t left op right row)
  | .related via condition inverted threshold =>
    some <| match m.resolveRelationship t via with
    | .error _ => none
    | .ok route =>
      let child := route.last.child
      (m.test? E db child threshold).map fun test =>
        (siblings E db route.hops [row]).any (fun rows =>
          test (rows.filter fun c => satisfied (condition.meaning m child c))) != inverted

/-- The members of a group together. -/
def joined (m : Model) (t : Table) (row : Row D) (op : Connective) :
    List Predicate → Option Truth
  | [] => none
  | p :: ps => op.join (p.meaning m t row) (joined m t row op ps)

end

end EntityQuery
