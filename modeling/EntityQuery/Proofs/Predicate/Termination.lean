import EntityQuery.Proofs.Predicate.Settled
import EntityQuery.Proofs.Predicate.Weight

/-!
# Writing a predicate ends

A model with cycles has no last table: behind the orders of a customer there is the customer again.
And the functions that write a predicate do not call each other on its parts only. Two `related`
that merge get a new condition, which is simplified in its turn, and what is asked of related rows
is brought into normal form from the start.

**Calls inside each other.** `Predicate.simplifyIn`, `Predicate.correlateIn` and
`Predicate.compileIn` do the work with so many calls inside each other, and give nothing if these
are too few. Members are merged pair by pair, in passes, until a pass merges nothing.

**Simplifying.** A pass does what inserting the members one by one does (`foldlM_placeBy`), and
leaves nothing to merge for a second one (`passesBy_eq`). The condition of two `related` is lighter
than the two, so the weight of a predicate is calls enough (`simplifyIn_eq`).

**Writing.** No step makes the predicate heavier, and what is asked of related rows, or of the rows
of a subquery, is lighter than the predicate around it. Each time two calls are made, one for the
normal form and one to write it, so twice the weight is enough (`callsSuffice`).

The main result is `compile_terminates`: whatever the model, the root and the frame are, the weight
of the predicate bounds the calls.
-/

namespace EntityQuery

open EntityQuery.Sql (Expr Query)

namespace Predicate

variable {members ps : List Predicate} {op : Connective} {p : Predicate}

/-! ## Simplifying in so many calls -/

section

variable (call : Predicate → Option Predicate) (connective : Connective)

/-- The predicate that stands for two members, if they merge, with the conditions of two `related`
simplified by a call. -/
def mergeBy (a : Predicate) : Predicate → Option (Option Predicate)
  | compare path op operand q => some (mergeCompare connective path op operand q a)
  | related via condition inverted threshold =>
    match openCondition? connective via inverted threshold a with
    | none => some none
    | some c => do
      let joined ← call (group .or [c, condition])
      return some (related via joined inverted none)
  | _ => some none

/-- Puts a member into the first one that takes it, or behind them all. -/
def placeBy (p : Predicate) : List Predicate → Option (List Predicate)
  | [] => some [p]
  | a :: rest => do
    match ← mergeBy call connective a p with
    | some merged => return merged :: rest
    | none => return a :: (← placeBy p rest)

/-- One pass over the members. -/
def passBy (members : List Predicate) : Option (List Predicate) :=
  members.foldlM (fun merged p => placeBy call connective p merged) []

/-- Passes until nothing is merged any more, but not more than so many. -/
def passesBy : Nat → List Predicate → Option (List Predicate)
  | 0, _ => none
  | n + 1, members => do
    let merged ← passBy call connective members
    if merged.length = members.length then return merged else passesBy n merged

end

/-- Simplifies a predicate with at most `n` calls inside each other. -/
def simplifyIn : Nat → Predicate → Option Predicate
  | 0, _ => none
  | n + 1, group op members => do
    let parts ← members.mapM (simplifyIn n)
    let merged ← passesBy (simplifyIn n) op (n + 1) (parts.flatMap (membersUnder op))
    return close op merged
  | _ + 1, compare path op operand q =>
    some (if op = .notLikeOrNull then nullOrNotLike path operand q else compare path op operand q)
  | _ + 1, columns left op right => some (columns left op right)
  | n + 1, related via condition inverted threshold => do
    return related via (← simplifyIn n condition) inverted threshold

theorem insertAll_append (op : Connective) (members ps qs : List Predicate) :
    insertAll op members (ps ++ qs) = insertAll op (insertAll op members ps) qs := by
  induction ps generalizing members with
  | nil => rw [List.nil_append, insertAll]
  | cons p ps ih => rw [List.cons_append, insertAll, insertAll, ih]

theorem insertWith_congr {merge merge' : Predicate → Option Predicate}
    (h : ∀ a ∈ members, merge a = merge' a) :
    insertWith merge p members = insertWith merge' p members := by
  induction members with
  | nil => rfl
  | cons a rest ih =>
    rw [List.forall_mem_cons] at h
    rw [insertWith, insertWith, h.1, ih h.2]

/-- The conditions of two `related`, joined by OR and simplified again. -/
theorem simplify_or_settled {c d : Predicate} (hc : c.Settled) (hd : d.Settled) :
    (group .or [c, d]).simplify =
      close .or (insertAll .or (c.membersUnder .or) (d.membersUnder .or)) := by
  have hapart : ([] ++ c.membersUnder .or).Pairwise (merge? .or · · = none) :=
    (settledMembers_membersUnder .or hc).apart
  rw [simplify, simplifyUnder_eq, List.flatMap_cons, List.flatMap_singleton,
    simplify_of_settled hc, simplify_of_settled hd, insertAll_append, insertAll_of_apart hapart,
    List.nil_append]

/-- **Inserting is merging with the first member that merges.** -/
theorem insert_eq_insertWith (h : ∀ a ∈ members, a.Settled) (hp : p.Settled) :
    insert op members p = insertWith (merge? op · p) p members := by
  cases p with
  | compare path op' operand q =>
    rw [insert]
    rfl
  | columns left op' right =>
    rw [insert]
    exact (insertWith_of_none fun _ _ => rfl).symm
  | group op' inner =>
    rw [insert]
    exact (insertWith_of_none fun _ _ => rfl).symm
  | related via condition inverted threshold =>
    rw [insert_related]
    refine insertWith_congr fun a ha => ?_
    rw [merge?]
    cases hopen : openCondition? op via inverted threshold a with
    | none => rfl
    | some c =>
      have hrelated := h a ha
      rw [openCondition?_via hopen] at hrelated
      have hc : c.Settled := hrelated
      have hcondition : condition.Settled := hp
      rw [Option.map_some, Option.map_some, simplify_or_settled hc hcondition]

variable {call : Predicate → Option Predicate} {n : Nat}

theorem placeBy_of_mergeBy {merge : Predicate → Option Predicate}
    (h : ∀ a ∈ members, mergeBy call op a p = some (merge a)) :
    placeBy call op p members = some (insertWith merge p members) := by
  induction members with
  | nil => rfl
  | cons a rest ih =>
    rw [List.forall_mem_cons] at h
    rw [placeBy, insertWith, h.1, ih h.2]
    cases merge a <;> rfl

theorem mergeBy_eq (hcall : ∀ q, q.weight ≤ n → call q = some q.simplify) {a : Predicate}
    (hn : a.weight + p.weight ≤ n) : mergeBy call op a p = some (merge? op a p) := by
  cases p with
  | compare path op' operand q => rfl
  | columns left op' right => rfl
  | group op' inner => rfl
  | related via condition inverted threshold =>
    rw [mergeBy, merge?]
    cases hopen : openCondition? op via inverted threshold a with
    | none => rfl
    | some c =>
      rw [openCondition?_via hopen] at hn
      have hpair : (group .or [c, condition]).weight ≤ n := by
        simp only [weight, weightAll] at hn ⊢
        omega
      simp only [hcall _ hpair]
      rfl

/-- **One pass inserts the members one by one.** -/
theorem foldlM_placeBy (hcall : ∀ q, q.weight ≤ n → call q = some q.simplify)
    {done : List Predicate} (hdone : SettledMembers op done) (hps : ∀ p ∈ ps, SettledMembers op [p])
    (hn : weightAll done + weightAll ps ≤ n) :
    ps.foldlM (fun merged p => placeBy call op p merged) done = some (insertAll op done ps) := by
  induction ps generalizing done with
  | nil => rfl
  | cons p ps ih =>
    rw [List.forall_mem_cons] at hps
    simp only [weightAll] at hn
    have hp : p.Settled := hps.1.settled p (List.mem_singleton_self p)
    have hplace : placeBy call op p done = some (insert op done p) := by
      rw [insert_eq_insertWith hdone.settled hp]
      refine placeBy_of_mergeBy fun a ha => mergeBy_eq hcall ?_
      have := weight_le_weightAll ha
      omega
    have hweight := weightAll_insert op done p
    rw [List.foldlM_cons, hplace, insertAll]
    exact ih (settledMembers_insert hps.1 hdone) hps.2 (by omega)

theorem settledMembers_insertAll (hps : ∀ p ∈ ps, SettledMembers op [p]) :
    SettledMembers op (insertAll op [] ps) :=
  insertAll_of_insert _ (fun p hp _ => settledMembers_insert (hps p hp)) settledMembers_nil

/-- **Two passes are enough**: the second finds nothing to merge. -/
theorem passesBy_eq (hcall : ∀ q, q.weight ≤ n → call q = some q.simplify)
    (hps : ∀ p ∈ ps, SettledMembers op [p]) (hn : weightAll ps ≤ n) :
    passesBy call op (n + 1) ps = some (insertAll op [] ps) := by
  have hfirst : passBy call op ps = some (insertAll op [] ps) :=
    foldlM_placeBy hcall settledMembers_nil hps (by simpa [weightAll] using hn)
  have hmerged := settledMembers_insertAll hps
  have hapart : ([] ++ insertAll op [] ps).Pairwise (merge? op · · = none) := hmerged.apart
  have hsecond : passBy call op (insertAll op [] ps) = some (insertAll op [] ps) := by
    rw [passBy, foldlM_placeBy hcall settledMembers_nil]
    · rw [insertAll_of_apart hapart, List.nil_append]
    · exact fun p hp => hmerged.of_mem hp
    · have := weightAll_insertAll op [] ps
      simp only [weightAll] at this ⊢
      omega
  rw [passesBy, hfirst]
  cases ps with
  | nil => rfl
  | cons p ps =>
    have hpos := p.weight_pos
    simp only [weightAll] at hn
    obtain ⟨k, rfl⟩ : ∃ k, n = k + 1 := ⟨n - 1, by omega⟩
    simp only [Option.bind_eq_bind, Option.bind_some]
    split
    · rfl
    · rw [passesBy, hsecond]
      simp

theorem mapM_simplifyIn (h : ∀ p ∈ ps, p.simplifyIn n = some p.simplify) :
    ps.mapM (simplifyIn n) = some (ps.map simplify) := by
  induction ps with
  | nil => rfl
  | cons p ps ih =>
    rw [List.forall_mem_cons] at h
    rw [List.mapM_cons, h.1, ih h.2]
    rfl

/-- **Simplifying ends**, with no more calls inside each other than the predicate weighs. -/
theorem simplifyIn_eq (p : Predicate) (hn : p.weight ≤ n) : p.simplifyIn n = some p.simplify := by
  induction n generalizing p with
  | zero =>
    have := p.weight_pos
    omega
  | succ n ih =>
    cases p with
    | group op members =>
      simp only [weight] at hn
      have hmembers : members.mapM (simplifyIn n) = some (members.map simplify) := by
        refine mapM_simplifyIn fun p hp => ih p ?_
        have := weight_le_weightAll hp
        omega
      have hparts := weightAll_flatMap_membersUnder op fun p (_ : p ∈ members) => p.weight_simplify
      have hpasses : passesBy (simplifyIn n) op (n + 1)
          (members.flatMap fun p => p.simplify.membersUnder op) =
            some (insertAll op [] (members.flatMap fun p => p.simplify.membersUnder op)) := by
        refine passesBy_eq ih (fun q hq => ?_) (by omega)
        obtain ⟨p, -, hq⟩ := List.mem_flatMap.1 hq
        exact (settledMembers_membersUnder op (settled_simplify p)).of_mem hq
      simp only [simplifyIn, hmembers, Option.bind_eq_bind, Option.bind_some, List.flatMap_map,
        hpasses, simplify, simplifyUnder_eq]
      rfl
    | compare path op operand q => rw [simplifyIn, simplify]
    | columns left op right => rw [simplifyIn, simplify]
    | related via condition inverted threshold =>
      simp only [weight] at hn
      rw [simplifyIn, simplify, ih condition (by omega)]
      rfl

/-! ## Splitting paths in so many calls -/

/-- Splits the paths of a predicate with at most `n` calls inside each other. -/
def correlateIn (m : Model) (t : Table) : Nat → Predicate → ExceptT QueryError Option Predicate
  | 0, _ => .mk none
  | n + 1, group op members => do return group op (← members.mapM (correlateIn m t n))
  | n + 1, compare path op operand q =>
    if op = .notLikeOrNull then correlateIn m t n (nullOrNotLike path operand q)
    else .mk (some (correlateCompare m t path op operand q))
  | _ + 1, columns left op right => .mk (some (correlateColumns m t left op right))
  | _ + 1, related via condition inverted threshold =>
    .mk (some (.ok (correlateRelated m t via condition inverted threshold)))

theorem mapM_correlateIn {m : Model} {t : Table}
    (h : ∀ p ∈ ps, (p.correlateIn m t n).run = some (p.correlate m t)) :
    (ps.mapM (correlateIn m t n)).run = some (correlateAll m t ps) := by
  induction ps with
  | nil => rfl
  | cons p ps ih =>
    rw [List.forall_mem_cons] at h
    rw [List.mapM_cons, ExceptT.run_bind, h.1, correlateAll]
    cases p.correlate m t with
    | error e => rfl
    | ok c =>
      simp only [ExceptT.run_bind, ih h.2]
      cases correlateAll m t ps <;> rfl

/-- **Splitting paths ends**, with no more calls inside each other than the predicate weighs. -/
theorem correlateIn_eq (m : Model) (t : Table) (p : Predicate) (hn : p.weight ≤ n) :
    (p.correlateIn m t n).run = some (p.correlate m t) := by
  induction n generalizing p with
  | zero =>
    have := p.weight_pos
    omega
  | succ n ih =>
    cases p with
    | group op members =>
      simp only [weight] at hn
      have hmembers : (members.mapM (correlateIn m t n)).run = some (correlateAll m t members) := by
        refine mapM_correlateIn fun p hp => ih p ?_
        have := weight_le_weightAll hp
        omega
      rw [correlateIn, ExceptT.run_bind, hmembers, correlate]
      cases correlateAll m t members <;> rfl
    | compare path op operand q =>
      rw [correlateIn, correlate]
      split
      · rename_i hop
        subst hop
        have hlt := weight_nullOrNotLike path operand q
        rw [ih _ (by omega), nullOrNotLike, correlate, correlateAll, correlateAll, correlateAll,
          correlate, correlate, if_neg (by simp), if_neg (by simp)]
        cases correlateCompare m t path .eq (.value .null) q with
        | error e => rfl
        | ok null => cases correlateCompare m t path .notLike operand q <;> rfl
      · rfl
    | columns left op right => rw [correlateIn, correlate]; rfl
    | related via condition inverted threshold => rw [correlateIn, correlate]; rfl

end Predicate

/-! ## Writing in so many calls -/

/-- A computation that adds to a frame and may fail, or may need more calls than are allowed. -/
abbrev Limited := ExceptT QueryError (StateT Frame Option)

namespace Limited

variable {α β : Type}

/-- No call is left. -/
def exhausted : Limited α := fun _ => none

/-- A computation that needs no calls of its own. -/
def ofBuild (act : Build α) : Limited α := fun f => some (act f)

/-- The result of a computation that leaves the frame alone. -/
def ofResult (a : Option (Except QueryError α)) : Limited α := fun f => a.map (·, f)

/-- Runs a computation in a scope of its own and returns also what became of that scope. -/
def within (inner : Scope) (act : Limited α) : Limited (α × Scope) := fun f =>
  (act ⟨inner, f.ctes⟩).map fun r => (r.1.map (·, r.2.scope), ⟨f.scope, r.2.ctes⟩)

theorem ofBuild_pure (a : α) : ofBuild (pure a) = pure a := rfl

theorem ofBuild_bind (act : Build α) (k : α → Build β) :
    ofBuild (act >>= k) = ofBuild act >>= fun a => ofBuild (k a) := by
  funext f
  simp only [ofBuild, bind, ExceptT.bind, ExceptT.mk, StateT.bind, Option.bind_some]
  rcases act f with ⟨_ | a, g⟩ <;> rfl

theorem ofResult_some (a : Except QueryError α) : ofResult (some a) = ofBuild (.lift a) := by
  cases a <;> rfl

theorem within_ofBuild (inner : Scope) (act : Build α) :
    within inner (ofBuild act) = ofBuild (.within inner act) := by
  funext f
  simp only [within, ofBuild, Build.within, Option.map_some, StateT.run]
  rcases act ⟨inner, f.ctes⟩ with ⟨_ | a, g⟩ <;> rfl

end Limited

mutual

/-- Writes a predicate with at most so many calls inside each other. -/
def Predicate.compileIn (m : Model) (n : Nat) (p : Predicate) (origin : JoinOrigin) :
    Limited (Option Expr) :=
  match n with
  | 0 => .exhausted
  | n + 1 => do
    let root ← Limited.ofBuild .root
    let p ← Limited.ofResult ((p.simplifyIn n).map .ok)
    let p ← Limited.ofResult (p.correlateIn m root n)
    let p ← Limited.ofResult ((p.simplifyIn n).map .ok)
    p.renderIn m n origin

/-- Writes a correlated predicate with at most so many calls inside each other. -/
def Predicate.renderIn (m : Model) (n : Nat) (p : Predicate) (origin : JoinOrigin) :
    Limited (Option Expr) :=
  match n, p with
  | 0, _ => .exhausted
  | n + 1, .group op members => do
    let parts ← members.mapM fun p => p.renderIn m n origin
    return Expr.combine op.binary (parts.flatMap Option.toList)
  | n + 1, .compare path op operand q => do
    let target ← Limited.ofBuild (joinColumn m path origin)
    return some (← operand.renderIn m n target op q)
  | _ + 1, .columns left op right => do
    let left ← Limited.ofBuild (joinColumn m left origin)
    let right ← Limited.ofBuild (joinColumn m right origin)
    return some (← Limited.ofBuild (.lift (compareColumns left right op)))
  | n + 1, .related via condition inverted threshold => do
    let root ← Limited.ofBuild .root
    if via.length = 0 then
      throw (.pathNotFound root.entity.name via)
    else
      let route ← Limited.ofBuild (.lift (m.resolveRelationship root via))
      Limited.ofBuild (.join route.before origin)
      let ((condition, counted), body) ← Limited.within (.ofRelationship route.last) do
        let condition ← condition.compileIn m n .filter
        let counted ← Limited.ofBuild (joinThreshold m threshold)
        return (condition, counted)
      let keys := keysQuery route.last.linkKey (body.baseFilters ++ condition.toList) counted
      let name ← Limited.ofBuild (.addCte (body.apply keys false))
      let key := Expr.ofTable name linkColumn
      Limited.ofBuild (.joinCte name (.eq key route.last.parentKey) origin)
      return some (.isNull key (!inverted))

/-- Writes the comparison of a column with at most so many calls inside each other. -/
def Operand.renderIn (m : Model) (n : Nat) (target : Target) (op : Operator) (q : Quantifier)
    (operand : Operand) : Limited Expr :=
  match n, operand with
  | 0, _ => .exhausted
  | _ + 1, .value v => Limited.ofBuild (.lift (target.scalar op v))
  | _ + 1, .values vs => Limited.ofBuild (.lift (target.list op vs q))
  | n + 1, .subquery ⟨table, column, filter⟩ => do
    let negated ← Limited.ofBuild (.lift (subqueryNegated op))
    let ((selected, condition), scope) ← Limited.within (.ofTable m table) do
      let selected ← Limited.ofBuild (joinColumn m column .filter)
      let condition ← match filter with
        | none => pure none
        | some p => p.compileIn m n .filter
      return (selected.column, condition)
    let query := { Query.empty with items := [⟨selected, none⟩], condition := condition }
    return .inQuery target.column (scope.apply query false) negated

end

theorem Predicate.compile_eq (m : Model) (p : Predicate) (origin : JoinOrigin) :
    p.compile m origin = (do
      let root ← Build.root
      let q ← Build.lift (p.simplify.correlate m root)
      q.simplify.render m origin) := by
  rw [Predicate.compile]
  refine bind_congr fun root => ?_
  split
  · rename_i e he
    rw [he]
    rfl
  · rename_i q hq
    rw [hq]
    rfl

/-- The parts of a group, as they are written one after the other. -/
theorem mapM_renderIn {m : Model} {n : Nat} {ps : List Predicate} (origin : JoinOrigin)
    (h : ∀ p ∈ ps, p.renderIn m n origin = .ofBuild (p.render m origin)) :
    (do
      let parts ← ps.mapM fun p => p.renderIn m n origin
      return parts.flatMap Option.toList) = Limited.ofBuild (renderAll m ps origin) := by
  induction ps with
  | nil =>
    rw [renderAll]
    rfl
  | cons p ps ih =>
    rw [List.forall_mem_cons] at h
    rw [List.mapM_cons, h.1, renderAll, Limited.ofBuild_bind]
    simp only [bind_assoc, pure_bind, List.flatMap_cons]
    refine bind_congr fun part => ?_
    rw [Limited.ofBuild_bind, ← ih h.2]
    simp only [bind_assoc, pure_bind, Limited.ofBuild_pure]

variable {m : Model} {n : Nat}

/-- So many calls are enough for predicates and operands that are not too heavy. -/
structure CallsSuffice (m : Model) (n : Nat) : Prop where
  compile : ∀ (p : Predicate) origin, 2 * p.weight + 1 ≤ n →
    p.compileIn m n origin = .ofBuild (p.compile m origin)
  render : ∀ (p : Predicate) origin, 2 * p.weight ≤ n →
    p.renderIn m n origin = .ofBuild (p.render m origin)
  operand : ∀ (operand : Operand) target op q, 2 * operand.weight + 1 ≤ n →
    operand.renderIn m n target op q = .ofBuild (operand.render m target op q)

theorem CallsSuffice.compileIn (h : CallsSuffice m n) (p : Predicate) (origin : JoinOrigin)
    (hn : 2 * p.weight ≤ n) :
    p.compileIn m (n + 1) origin = .ofBuild (p.compile m origin) := by
  rw [Predicate.compileIn, Predicate.compile_eq, Limited.ofBuild_bind]
  refine bind_congr fun root => ?_
  rw [Predicate.simplifyIn_eq p (by omega), Option.map_some, Limited.ofResult_some,
    Limited.ofBuild_bind]
  have hsimplified := p.weight_simplify
  show Limited.ofResult (p.simplify.correlateIn m root n).run >>= _ = _
  rw [Predicate.correlateIn_eq m root p.simplify (by omega), Limited.ofResult_some]
  cases hcorrelated : p.simplify.correlate m root with
  | error e => rfl
  | ok q =>
    have hq := Predicate.weight_correlate hcorrelated
    have hnormal := q.weight_simplify
    show Limited.ofResult ((q.simplifyIn n).map .ok) >>= _ = _
    rw [Predicate.simplifyIn_eq q (by omega)]
    exact h.render q.simplify origin (by omega)

theorem CallsSuffice.renderIn (h : CallsSuffice m n) (p : Predicate) (origin : JoinOrigin)
    (hn : 2 * p.weight ≤ n + 1) :
    p.renderIn m (n + 1) origin = .ofBuild (p.render m origin) := by
  cases p with
  | group op members =>
    simp only [Predicate.weight] at hn
    have hmembers := mapM_renderIn origin fun p (hp : p ∈ members) => h.render p origin (by
      have := weight_le_weightAll hp
      omega)
    rw [Predicate.renderIn, Predicate.render, Limited.ofBuild_bind, ← hmembers]
    simp only [bind_assoc, pure_bind, Limited.ofBuild_pure]
  | compare path op operand q =>
    have hleast := Predicate.le_weight_compare path op operand q
    rw [Predicate.renderIn, Predicate.render, Limited.ofBuild_bind]
    refine bind_congr fun target => ?_
    rw [h.operand operand target op q (by omega), Limited.ofBuild_bind]
    rfl
  | columns left op right =>
    rw [Predicate.renderIn, Predicate.render]
    simp only [Limited.ofBuild_bind, Limited.ofBuild_pure]
  | related via condition inverted threshold =>
    simp only [Predicate.weight] at hn
    rw [Predicate.renderIn, Predicate.render, Limited.ofBuild_bind]
    refine bind_congr fun root => ?_
    split
    · rfl
    · rw [h.compile condition .filter (by omega)]
      simp only [← Limited.ofBuild_pure, ← Limited.ofBuild_bind, Limited.within_ofBuild]

theorem CallsSuffice.operandIn (h : CallsSuffice m n) (operand : Operand) (target : Target)
    (op : Operator) (q : Quantifier) (hn : 2 * operand.weight ≤ n) :
    operand.renderIn m (n + 1) target op q = .ofBuild (operand.render m target op q) := by
  cases operand with
  | value v => rw [Operand.renderIn, Operand.render]
  | values vs => rw [Operand.renderIn, Operand.render]
  | subquery s =>
    obtain ⟨table, column, filter⟩ := s
    simp only [Operand.weight, SubQuery.weight] at hn
    rw [Operand.renderIn, Operand.render]
    cases filter with
    | none =>
      rw [compileFilter]
      simp only [← Limited.ofBuild_pure, ← Limited.ofBuild_bind, Limited.within_ofBuild]
    | some p =>
      simp only [weightFilter] at hn
      rw [compileFilter]
      simp only [h.compile p .filter (by omega), ← Limited.ofBuild_pure, ← Limited.ofBuild_bind,
        Limited.within_ofBuild]

/-- **Calls for twice the weight are enough.** -/
theorem callsSuffice (m : Model) (n : Nat) : CallsSuffice m n := by
  induction n with
  | zero =>
    refine ⟨fun p origin hn => by omega, fun p origin hn => ?_,
      fun operand target op q hn => by omega⟩
    have := p.weight_pos
    omega
  | succ n ih =>
    exact ⟨fun p origin hn => ih.compileIn p origin (by omega), ih.renderIn,
      fun operand target op q hn => ih.operandIn operand target op q (by omega)⟩

/-- **Writing a predicate ends**, in every frame: its weight, which does not grow on the way, bounds
the calls that are made inside each other. -/
theorem compile_terminates (m : Model) (p : Predicate) (origin : JoinOrigin) (k : Nat) :
    p.simplify.weight ≤ p.weight ∧
    (∀ t q, p.correlate m t = .ok q → q.weight ≤ p.weight) ∧
    p.simplifyIn (p.weight + k) = some p.simplify ∧
    (∀ t, (p.correlateIn m t (p.weight + k)).run = some (p.correlate m t)) ∧
    ∀ f : Frame, p.compileIn m (2 * p.weight + 1 + k) origin f = some (p.compile m origin f) := by
  refine ⟨p.weight_simplify, fun t q => Predicate.weight_correlate, p.simplifyIn_eq (by omega),
    fun t => p.correlateIn_eq m t (by omega), fun f => ?_⟩
  rw [(callsSuffice m _).compile p origin (by omega)]
  rfl

end EntityQuery
