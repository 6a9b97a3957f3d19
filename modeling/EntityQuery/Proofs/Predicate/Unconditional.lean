import EntityQuery.Proofs.Predicate.Quantifier
import EntityQuery.Proofs.Predicate.Settled

/-!
# Unconditional checks of related rows

A check whether there is any related row is merged with a `related` through the same path like two
conditions. Its own condition is absent, and in a disjunction what is absent is not taken notice of,
so only the other condition is left: the merged check asks for a row that satisfies it. The check
survives only beside a condition that is absent too. With `inverted` it is the same of a check that
there is no related row.

**Everywhere.** Simplification looks at simplified members only (`Replaces.simplify_eq`), so it is
the same inside larger groups and conditions. A comparison with `= ALL` of an empty list, which asks
for some related row, is correlated to such a check and then lost in the same way.
-/

namespace EntityQuery

open EntityQuery.Sql (Engine Database Row)

namespace Predicate

/-- There is a related row; `inverted`, there is none. -/
def unconditional (v : Path) (inverted : Bool) : Predicate := related v trivial inverted none

/-- The rows behind a fan-out have all values of an empty list; `inverted`, they have not. -/
def emptyContainment (path : Path) (inverted : Bool) : Predicate :=
  compare path (bif inverted then .ne else .eq) (.values []) (bif inverted then .any else .all)

/-- `P` and `Q` differ in one place, where `p` stands in the one and `q` in the other. -/
inductive Replaces (p q : Predicate) : Predicate → Predicate → Prop
  | here : Replaces p q p q
  | member {P Q : Predicate} (op : Connective) (before after : List Predicate) :
      Replaces p q P Q →
      Replaces p q (group op (before ++ P :: after)) (group op (before ++ Q :: after))
  | condition {P Q : Predicate} (via : Path) (inverted : Bool) (threshold : Option Threshold) :
      Replaces p q P Q →
      Replaces p q (related via P inverted threshold) (related via Q inverted threshold)

/-- Predicates that are simplified alike may stand for each other. -/
theorem Replaces.simplify_eq {p q P Q : Predicate} (h : Replaces p q P Q)
    (hpq : p.simplify = q.simplify) : P.simplify = Q.simplify := by
  induction h with
  | here => exact hpq
  | member op before after _ ih =>
    simp only [simplify, simplifyUnder_eq, List.flatMap_append, List.flatMap_cons, ih]
  | condition via inverted threshold _ ih => rw [simplify, simplify, ih]

section

variable {v : Path} {c d : Predicate} {inverted : Bool}

theorem openCondition?_related :
    openCondition? (Connective.or.under inverted) v inverted none (related v c inverted none) =
      some c := by
  cases inverted <;> simp [openCondition?, Connective.under, Connective.dual]

/-- Two checks through one path become one. -/
theorem simplify_related_pair :
    (group (Connective.or.under inverted)
        [related v c inverted none, related v d inverted none]).simplify =
      related v (close .or (insertAll .or (c.simplify.membersUnder .or)
        (d.simplify.membersUnder .or))) inverted none := by
  have hmembers : simplifyUnder (Connective.or.under inverted)
      [related v c inverted none, related v d inverted none] =
      [related v c.simplify inverted none, related v d.simplify inverted none] := by
    simp only [simplifyUnder_eq, List.flatMap_cons, List.flatMap_nil, simplify, membersUnder,
      List.singleton_append, List.append_nil]
  have hfirst : insert (Connective.or.under inverted) [] (related v c.simplify inverted none) =
      [related v c.simplify inverted none] := by
    rw [insert_related, insertWith]
  rw [simplify, hmembers, insertAll, insertAll, insertAll, hfirst, insert_related, insertWith,
    openCondition?_related]
  rfl

theorem simplify_trivial : trivial.simplify = group .and [] := rfl

/-- What is left of the two is the condition of the one. -/
theorem simplify_unconditional {members : List Predicate}
    (hmembers : members = [unconditional v inverted, related v c inverted none] ∨
      members = [related v c inverted none, unconditional v inverted]) :
    (group (Connective.or.under inverted) members).simplify =
      related v (close .or (c.simplify.membersUnder .or)) inverted none := by
  have hapart := (settledMembers_membersUnder .or (settled_simplify c)).apart
  rcases hmembers with rfl | rfl
  · rw [unconditional, simplify_related_pair, simplify_trivial]
    have hnil : membersUnder .or (group .and []) = [] := rfl
    rw [hnil, insertAll_of_apart (by exact hapart), List.nil_append]
  · rw [unconditional, simplify_related_pair, simplify_trivial]
    have hnil : membersUnder .or (group .and []) = [] := rfl
    rw [hnil, insertAll]

/-- An empty list of values asks for some related row. -/
theorem correlate_emptyContainment {m : Model} {t : Table} {path : Path} {i : Nat}
    {r : Relationship} {p : Predicate} (hmany : m.firstMany? t path = some (i, r))
    (h : (emptyContainment path inverted).correlate m t = .ok p) :
    p = unconditional (path.take (i + 1)) inverted := by
  have hop : (bif inverted then Operator.ne else .eq) ≠ .notLikeOrNull := by
    cases inverted <;> exact nofun
  rw [emptyContainment, correlate, if_neg hop, correlateCompare, hmany] at h
  dsimp only at h
  split at h
  · cases h
  have hcontainment : containment m t path (path.take (i + 1)) (path.drop (i + 1)) [] inverted =
      .ok p := by
    cases inverted <;> exact h
  simp only [containment] at hcontainment
  split at hcontainment
  · cases hcontainment
  split at hcontainment
  · cases hcontainment
  cases hcontainment
  rfl

/-- Two simplified members that do not merge stay side by side. -/
theorem simplify_pair {op : Connective} {a b : Predicate}
    (ha : a.simplify.membersUnder op = [a.simplify])
    (hb : b.simplify.membersUnder op = [b.simplify])
    (hapart : merge? op a.simplify b.simplify = none) :
    (group op [a, b]).simplify = group op [a.simplify, b.simplify] := by
  have hpair : ([] ++ [a.simplify, b.simplify]).Pairwise (merge? op · · = none) := by
    simpa using hapart
  rw [simplify, simplifyUnder, simplifyUnder, simplifyUnder, ha, hb, List.append_nil,
    List.singleton_append, insertAll_of_apart hpair]
  rfl

theorem correlate_pair {m : Model} {t : Table} {op : Connective} {a b x y : Predicate}
    (ha : a.correlate m t = .ok x) (hb : b.correlate m t = .ok y) :
    (group op [a, b]).correlate m t = .ok (group op [x, y]) := by
  have hboth : correlateAll m t [a, b] = .ok [x, y] := by
    rw [correlateAll, correlateAll, correlateAll, ha, hb]
    rfl
  rw [correlate, hboth]
  rfl

/-- Beside a `related` through the path up to the fan-out, such a list is lost as well. -/
theorem normal_emptyContainment {m : Model} {t : Table} {path : Path} {i : Nat}
    {r : Relationship} {p : Predicate} (hmany : m.firstMany? t path = some (i, r))
    (hv : v = path.take (i + 1)) (h : (emptyContainment path inverted).correlate m t = .ok p)
    {members : List Predicate}
    (hmembers : members = [emptyContainment path inverted, related v c inverted none] ∨
      members = [related v c inverted none, emptyContainment path inverted]) :
    (group (Connective.or.under inverted) members).normal m t =
      .ok (related v (close .or (c.simplify.membersUnder .or)) inverted none) := by
  have hself : (emptyContainment path inverted).simplify = emptyContainment path inverted := by
    cases inverted <;> rfl
  have hrelated : (related v c inverted none).simplify = related v c.simplify inverted none := by
    rw [simplify]
  have hempty : (emptyContainment path inverted).correlate m t =
      .ok (unconditional v inverted) := by
    rw [h, correlate_emptyContainment hmany h, hv]
  have hcondition : (related v c.simplify inverted none).correlate m t =
      .ok (related v c.simplify inverted none) := by
    have hlast := fansOutLast_take hmany
    rw [← hv] at hlast
    rw [correlate, correlateRelated]
    split
    · rename_i j s hj
      rw [if_neg (Nat.not_lt.2 (Nat.le_of_eq (hlast j s hj).symm))]
    · rfl
  -- The two do not merge before they are correlated.
  have hcorrelated : ∃ members',
      (group (Connective.or.under inverted) members).simplify.correlate m t =
        .ok (group (Connective.or.under inverted) members') ∧
      (members' = [unconditional v inverted, related v c.simplify inverted none] ∨
        members' = [related v c.simplify inverted none, unconditional v inverted]) := by
    rcases hmembers with rfl | rfl
    · refine ⟨_, ?_, .inl rfl⟩
      rw [simplify_pair (by rw [hself]; rfl) (by rw [hrelated]; rfl)
        (by rw [hself, hrelated]; rfl), hself, hrelated]
      exact correlate_pair hempty hcondition
    · refine ⟨_, ?_, .inr rfl⟩
      rw [simplify_pair (by rw [hrelated]; rfl) (by rw [hself]; rfl)
        (by rw [hself, hrelated]; rfl), hself, hrelated]
      exact correlate_pair hcondition hempty
  obtain ⟨members', hcorrelate, hmembers'⟩ := hcorrelated
  refine normal_eq_ok.2 ⟨_, hcorrelate, ?_⟩
  rw [simplify_unconditional hmembers', simplify_of_settled (settled_simplify c)]

end

/-- A check is true if a related row satisfies the condition, or, inverted, if none does. -/
theorem meaning_related_iff {D : Type} [DecidableEq D] {E : Engine D} {db : Database D}
    {m : Model} {t : Table} {row : Row D} {via : Path} {route : Route}
    (hroute : m.resolveRelationship t via = .ok route) {c : Predicate} {inverted : Bool} :
    (related via c inverted none).meaning E db m t row = some (some true) ↔
      ((∃ x, leadsTo E db route.hops row x ∧
        satisfied (c.meaning E db m route.last.child x) = true) ↔ inverted = false) := by
  have hexists : (∃ x, leadsTo E db route.hops row x ∧
      satisfied (c.meaning E db m route.last.child x) = true) ↔
      (relatedRows E db route.hops row).any
        (fun x => satisfied (c.meaning E db m route.last.child x)) = true := by
    simp only [List.any_eq_true, mem_relatedRows]
  rw [meaning_related, hroute, hexists]
  dsimp only
  generalize (relatedRows E db route.hops row).any _ = found
  cases found <;> cases inverted <;> simp

/-- What is left of the condition is satisfied by the rows that satisfy it, or by all. -/
theorem satisfied_close {D : Type} [DecidableEq D] {E : Engine D} {db : Database D} {m : Model}
    {t : Table} {x : Row D} {c : Predicate} :
    satisfied ((close .or (c.simplify.membersUnder .or)).meaning E db m t x) = true ↔
      (c.constrains = true → c.simplify.meaning E db m t x = some (some true)) := by
  have hsome : (c.simplify.meaning E db m t x).isSome = c.constrains := by
    rw [isSome_meaning, constrains_simplify]
  rw [meaning_close, joined_membersUnder, ← hsome]
  rcases c.simplify.meaning E db m t x with _ | _ | _ | _ <;> simp [satisfied]

/-- **An unconditional check is lost** when it is merged with a conditional one through the same
path, in either order. What is asked then is whether a related row satisfies the condition, if there
is one, and in every place where the two checks stand the second alone would do. A comparison with
all values of an empty list is correlated to an unconditional check and is lost with it. -/
theorem unconditional_absorbed (inverted : Bool) (v : Path) (c : Predicate)
    {members : List Predicate}
    (hmembers : members = [unconditional v inverted, related v c inverted none] ∨
      members = [related v c inverted none, unconditional v inverted]) :
    (∀ (D : Type) [DecidableEq D] (E : Engine D) (db : Database D) (m : Model) (t : Table)
        (route : Route) (row : Row D), m.resolveRelationship t v = .ok route →
      ((group (Connective.or.under inverted) members).simplify.meaning E db m t row =
          some (some true) ↔
        ((∃ x, leadsTo E db route.hops row x ∧ (c.constrains = true →
          c.simplify.meaning E db m route.last.child x = some (some true))) ↔
            inverted = false))) ∧
    (c.constrains = true → ∀ P Q,
      Replaces (group (Connective.or.under inverted) members) (related v c inverted none) P Q →
        P.simplify = Q.simplify) ∧
    ∀ (m : Model) (t : Table) (path : Path) (i : Nat) (r : Relationship) (p : Predicate),
      m.firstMany? t path = some (i, r) → v = path.take (i + 1) →
      (emptyContainment path inverted).correlate m t = .ok p →
      p = unconditional v inverted ∧ (c.constrains = true → ∀ members',
        members' = [emptyContainment path inverted, related v c inverted none] ∨
          members' = [related v c inverted none, emptyContainment path inverted] →
        (group (Connective.or.under inverted) members').normal m t =
          .ok (related v c.simplify inverted none)) := by
  refine ⟨?_, fun hc P Q hPQ => ?_, fun m t path i r p hmany hv hp => ⟨?_, fun hc members' h => ?_⟩⟩
  · intro D _ E db m t route row hroute
    simp only [simplify_unconditional hmembers, meaning_related_iff hroute, satisfied_close]
  · refine hPQ.simplify_eq ?_
    rw [simplify_unconditional hmembers, simplify, close_membersUnder .or (settled_simplify c)
      ((constrains_simplify c).trans hc)]
  · rw [correlate_emptyContainment hmany hp, hv]
  · rw [normal_emptyContainment hmany hv hp h, close_membersUnder .or (settled_simplify c)
      ((constrains_simplify c).trans hc)]

end Predicate

namespace Shop

/-- The line has the article. -/
def ink : Predicate := .ofValue ⟨["sku"]⟩ .eq (.text "ink")

/-- Another article is not the one. -/
theorem meaning_ink (db : Database String) :
    ink.simplify.meaning engine db (model plain) (orderLines plain).child (fun _ => some "pen") =
      some (some false) := by
  have hink : ink.simplify = .compare ⟨["sku"]⟩ .eq (.value (.text "ink")) .any := rfl
  have hres : (model plain).resolve (orderLines plain).child ⟨["sku"]⟩ =
      .ok ⟨[], (orderLines plain).child, column "sku"⟩ := rfl
  have hlisted : (Operand.value (.text "ink")).listed? = some [.text "ink"] := rfl
  have htruth : (Operand.value (.text "ink")).truth engine db (model plain)
      (orderLines plain).child (column "sku") .eq .any (fun _ => some "pen") =
      oneOf engine (some "pen") none [.text "ink"] := Operand.truth_listed hlisted false
  have hother : oneOf engine (some "pen") none [.text "ink"] = some false := by decide
  rw [hink, Predicate.meaning, compareTruth, hres, ← hother, ← htruth]
  rfl

end Shop

/-- An order has a line, of another article than the one asked for. The check whether it has any
line at all is lost: the simplified predicate is not true of the order. -/
theorem unconditional_absorbed_lines :
    leadsTo Shop.engine (Shop.uniform "pen") [Shop.orderLines Shop.plain] (fun _ => some "pen")
        (fun _ => some "pen") ∧
      (Predicate.group .or [.anyRelated ⟨["lines"]⟩,
        .related ⟨["lines"]⟩ Shop.ink false none]).simplify.meaning Shop.engine
          (Shop.uniform "pen") (Shop.model Shop.plain) Shop.orders (fun _ => some "pen") ≠
          some (some true) := by
  refine ⟨⟨_, Shop.links_uniform rfl "pen", rfl⟩, fun htrue => ?_⟩
  have hlost := (Predicate.unconditional_absorbed false ⟨["lines"]⟩ Shop.ink (.inl rfl)).1 String
    Shop.engine (Shop.uniform "pen") (Shop.model Shop.plain) Shop.orders _ (fun _ => some "pen")
    (Shop.resolve_lines Shop.plain)
  obtain ⟨x, ⟨y, hy, rfl⟩, hink⟩ := (hlost.1 htrue).2 rfl
  have hlinks : (Shop.orderLines Shop.plain).childJoin.Links Shop.engine (Shop.uniform "pen")
    (fun _ => some "pen") x := hy
  obtain rfl := List.mem_singleton.1 hlinks.1
  cases (Shop.meaning_ink (Shop.uniform "pen")).symm.trans (hink rfl)

end EntityQuery
