import EntityQuery.Proofs.Predicate.Settled

/-!
# Where a simplified predicate is normal

`Predicate.Settled` says that nothing is left to simplify. Here it is read off at every place of a
simplified predicate (`Predicate.Occurs`): in each group, however deep, also in the conditions of
related rows.

**Merging is symmetric.** Whether two members of a group merge does not depend on which of them
comes first (`merge?_comm`). So a group of which no member merges with a later one is a group of
which no member can be put into the others, wherever it stands (`mergeInto?_of_apart`).

**Two columns** that are compared by `notLikeOrNull` stay as they are: only a comparison with values
is put as two.
-/

namespace EntityQuery

namespace Predicate

/-! ## Places in a predicate -/

/-- The first is the second, or within a member of a group or the condition of related rows. -/
inductive Occurs (q : Predicate) : Predicate → Prop
  | here : Occurs q q
  | member {op : Connective} {members : List Predicate} {p : Predicate} :
      p ∈ members → Occurs q p → Occurs q (group op members)
  | condition {via : Path} {c : Predicate} {inverted : Bool} {threshold : Option Threshold} :
      Occurs q c → Occurs q (related via c inverted threshold)

theorem Settled.of_occurs {p q : Predicate} (hp : p.Settled) (h : Occurs q p) : q.Settled := by
  induction h with
  | here => exact hp
  | member hmem _ ih => exact ih ((settled_group.1 hp).2.settled _ hmem)
  | condition _ ih => exact ih hp

section

variable {left right : Path} {op : Operator}

theorem occurs_columns_group {connective : Connective} {members : List Predicate} :
    Occurs (columns left op right) (group connective members) ↔
      ∃ p ∈ members, Occurs (columns left op right) p := by
  constructor
  · intro h
    cases h with
    | member hmem hp => exact ⟨_, hmem, hp⟩
  · rintro ⟨p, hmem, hp⟩
    exact .member hmem hp

theorem not_occurs_columns_compare {path : Path} {op' : Operator} {operand : Operand}
    {q : Quantifier} : ¬ Occurs (columns left op right) (compare path op' operand q) := by
  intro h
  cases h

theorem occurs_columns_related {via : Path} {condition : Predicate} {inverted : Bool}
    {threshold : Option Threshold} :
    Occurs (columns left op right) (related via condition inverted threshold) ↔
      Occurs (columns left op right) condition := by
  constructor
  · intro h
    cases h with
    | condition hc => exact hc
  · exact .condition

/-- Simplification compares no columns that were not compared before. -/
theorem Occurs.of_simplify {p : Predicate} (h : Occurs (columns left op right) p.simplify) :
    Occurs (columns left op right) p := by
  have hhereditary : Hereditary fun (_ : Unit) x =>
      Occurs (columns left op right) x → Occurs (columns left op right) p :=
    { group := by simp only [occurs_columns_group]; grind
      compare := fun _ h => (not_occurs_columns_compare h).elim
      value := fun _ _ h => (not_occurs_columns_compare h).elim
      values := fun _ _ h => (not_occurs_columns_compare h).elim
      related := fun _ _ => ⟨(), fun _ => ⟨True, fun _ _ => by
        rw [occurs_columns_related, true_and]⟩⟩ }
  exact (hhereditary.simplify (t := ())).2 id h

end

/-! ## Members that cannot be put together -/

section

variable {op : Connective} {a b p : Predicate} {members : List Predicate}

/-- Members that merge: comparisons of one column with values that may be listed, or related rows
through one path, without a threshold, where either condition may be met. -/
inductive Merge (op : Connective) : Predicate → Predicate → Prop
  | compare {path : Path} {op' : Operator} {x y : Operand} {vs ws : List Value} {q : Quantifier} :
      listsValues op op' q = true → x.listed? = some vs → y.listed? = some ws →
      Merge op (compare path op' x q) (compare path op' y q)
  | related {via : Path} {c d : Predicate} {inverted : Bool} :
      op.under inverted = .or → Merge op (related via c inverted none) (related via d inverted none)

theorem Merge.symm (h : Merge op a b) : Merge op b a := by
  cases h with
  | compare hlists hx hy => exact .compare hlists hy hx
  | related hop => exact .related hop

theorem merge_iff : Merge op a b ↔ merge? op a b ≠ none := by
  constructor
  · intro h
    cases h with
    | compare hlists hx hy => simp [merge?, mergeCompare, hlists, hx, hy]
    | related hop => simp [merge?, openCondition?, hop]
  · intro h
    cases b with
    | compare path op' y q =>
      obtain ⟨merged, hmerged⟩ := Option.ne_none_iff_exists'.1 h
      rw [merge?] at hmerged
      obtain ⟨x, -, rfl, -⟩ := mergeCompare_eq_some hmerged
      simp only [mergeCompare, true_and, Option.bind_eq_bind] at hmerged
      split at hmerged
      · rename_i hlists
        obtain ⟨vs, hvs, hws⟩ := Option.bind_eq_some_iff.1 hmerged
        obtain ⟨ws, hws, -⟩ := Option.bind_eq_some_iff.1 hws
        exact .compare hlists hvs hws
      · cases hmerged
    | related via d inverted threshold =>
      obtain ⟨c, hopen⟩ := Option.ne_none_iff_exists'.1 (mt Option.map_eq_none_iff.2 h)
      cases openCondition?_via hopen
      simp only [openCondition?, true_and, Option.ite_none_right_eq_some] at hopen
      obtain ⟨⟨rfl, hop⟩, -⟩ := hopen
      exact .related hop
    | columns left op' right => exact absurd rfl h
    | group op' inner => exact absurd rfl h

/-- Whether two members merge does not depend on their order. -/
theorem merge?_comm : merge? op a b = none ↔ merge? op b a = none := by
  rw [← not_iff_not, ← ne_eq, ← ne_eq, ← merge_iff, ← merge_iff]
  exact ⟨.symm, .symm⟩

theorem mergeInto?_eq_none :
    mergeInto? op p members = none ↔ ∀ a ∈ members, merge? op a p = none := by
  induction members with
  | nil => simp [mergeInto?]
  | cons a rest ih =>
    rw [mergeInto?, List.forall_mem_cons, ← ih]
    cases merge? op a p with
    | none => simp
    | some merged => simp

/-- What is apart from all later members is apart from all others. -/
theorem mergeInto?_of_apart {before after : List Predicate}
    (h : (before ++ a :: after).Pairwise (merge? op · · = none)) :
    mergeInto? op a (before ++ after) = none := by
  rw [List.pairwise_append, List.pairwise_cons] at h
  obtain ⟨-, ⟨hafter, -⟩, hbefore⟩ := h
  rw [mergeInto?_eq_none, List.forall_mem_append]
  exact ⟨fun x hx => hbefore x hx a List.mem_cons_self, fun x hx => merge?_comm.1 (hafter x hx)⟩

/-- A group that contributes itself to another is not empty and has another connective. -/
theorem membersUnder_group_eq_self {op' : Connective} {inner : List Predicate}
    (h : (group op' inner).membersUnder op = [group op' inner]) : op' ≠ op ∧ inner ≠ [] := by
  rw [membersUnder] at h
  constructor
  · rintro rfl
    rw [if_pos (by simp)] at h
    -- No list of predicates has the group of itself as its member.
    have hsize : sizeOf inner = sizeOf [group op' inner] := congrArg sizeOf h
    simp only [List.cons.sizeOf_spec, List.nil.sizeOf_spec, group.sizeOf_spec] at hsize
    omega
  · rintro rfl
    simp at h

end

/-! ## The normal form -/

/-- **Simplification gives a normal form.** In a simplified predicate, and in the conditions of its
related rows, no group has just one member, none has an empty group or a group of its own connective
as a member, and no member can be put into the others. No comparison with values is left that asks
for NULL or no match, and two columns are compared so only where they were before. So simplifying
again changes nothing. -/
theorem simplify_normal_form (p : Predicate) :
    (∀ op members, Occurs (group op members) p.simplify →
      members.length ≠ 1 ∧
      (∀ op' inner, group op' inner ∈ members → op' ≠ op ∧ inner ≠ []) ∧
      ∀ before a after, members = before ++ a :: after →
        mergeInto? op a (before ++ after) = none) ∧
    (∀ path op operand q, Occurs (compare path op operand q) p.simplify → op ≠ .notLikeOrNull) ∧
    (∀ left right, Occurs (columns left .notLikeOrNull right) p.simplify →
      Occurs (columns left .notLikeOrNull right) p) ∧
    p.simplify.simplify = p.simplify := by
  have hsettled := settled_simplify p
  refine ⟨fun op members h => ?_, fun path op operand q h => hsettled.of_occurs h,
    fun left right h => h.of_simplify, simplify_of_settled hsettled⟩
  obtain ⟨hlength, hmembers⟩ := settled_group.1 (hsettled.of_occurs h)
  refine ⟨hlength, fun op' inner hinner => ?_, ?_⟩
  · exact membersUnder_group_eq_self (hmembers.single _ hinner)
  · rintro before a after rfl
    exact mergeInto?_of_apart hmembers.apart

/-- One of two numbers, or a line whose code is missing or unlike a pattern. -/
def numberedOrUnlike : Predicate :=
  .group .or [.compare ⟨["number"]⟩ .eq (.value (.int 1)) .any,
    .related ⟨["lines"]⟩
      (.group .and [.compare ⟨["code"]⟩ .notLikeOrNull (.value (.text "k%")) .any]) false none,
    .compare ⟨["number"]⟩ .eq (.value (.int 2)) .any]

/-- The numbers are put together, and the group in the condition is replaced. -/
theorem simplify_normal_form_numbered :
    let numbers := compare ⟨["number"]⟩ .eq (.values [.int 1, .int 2]) .any
    let unlike := nullOrNotLike ⟨["code"]⟩ (.value (.text "k%")) .any
    numberedOrUnlike.simplify = group .or [numbers, related ⟨["lines"]⟩ unlike false none] ∧
      Occurs unlike numberedOrUnlike.simplify ∧
      mergeInto? .or numbers [related ⟨["lines"]⟩ unlike false none] = none ∧
      numberedOrUnlike.simplify.simplify = numberedOrUnlike.simplify := by
  intro numbers unlike
  obtain ⟨hgroups, -, -, hagain⟩ := simplify_normal_form numberedOrUnlike
  have hsimplify : numberedOrUnlike.simplify =
      group .or [numbers, related ⟨["lines"]⟩ unlike false none] := rfl
  rw [hsimplify] at hgroups
  refine ⟨hsimplify, ?_, (hgroups .or _ .here).2.2 [] numbers _ rfl, hagain⟩
  rw [hsimplify]
  exact .member (List.mem_cons_of_mem _ List.mem_cons_self) (.condition .here)

/-- Two columns that are compared so are left as they are. -/
theorem simplify_notLikeOrNull_columns :
    Occurs (columns ⟨["a"]⟩ .notLikeOrNull ⟨["b"]⟩)
      (columns ⟨["a"]⟩ .notLikeOrNull ⟨["b"]⟩).simplify := by
  rw [simplify]
  exact .here

end Predicate

end EntityQuery
