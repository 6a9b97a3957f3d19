import EntityQuery.Proofs.Predicate.Simplified

/-!
# The normal form of simplification

**Settled predicates.** In a group none of whose members can be merged with a later one, which has
no member of its own connective, no empty one and not just one, there is nothing left to simplify;
so it is in the conditions of related rows (`Predicate.Settled`).

**Merging settles.** A merged member merges with the same members as before: the path, the operator
and the quantifier of a comparison stay, and so do the path and the inversion of a `related`
(`Alike`). So inserting a member keeps the group settled (`settledMembers_insert`), a simplified
predicate is settled (`settled_simplify`), and simplifying it again changes nothing
(`simplify_of_settled`).
-/

namespace EntityQuery

namespace Predicate

variable {members : List Predicate} {op : Connective} {p : Predicate}

mutual

/-- There is nothing to simplify. -/
def Settled : Predicate → Prop
  | group op members =>
    members.length ≠ 1 ∧ members.Pairwise (merge? op · · = none) ∧ SettledAll op members
  | compare _ op _ _ => op ≠ .notLikeOrNull
  | columns .. => True
  | related _ condition _ _ => condition.Settled

/-- So it is with all members, and each contributes itself to the group. -/
def SettledAll (op : Connective) : List Predicate → Prop
  | [] => True
  | p :: ps => (p.membersUnder op = [p] ∧ p.Settled) ∧ SettledAll op ps

end

/-- Members that stand in a group as they are. -/
structure SettledMembers (op : Connective) (members : List Predicate) : Prop where
  apart : members.Pairwise (merge? op · · = none)
  single : ∀ p ∈ members, p.membersUnder op = [p]
  settled : ∀ p ∈ members, p.Settled

theorem settled_group :
    (group op members).Settled ↔ members.length ≠ 1 ∧ SettledMembers op members := by
  have hall : SettledAll op members ↔ ∀ p ∈ members, p.membersUnder op = [p] ∧ p.Settled := by
    induction members with
    | nil => simp [SettledAll]
    | cons p ps ih => simp [SettledAll, ih]
  rw [Settled, hall]
  refine and_congr_right fun _ => ⟨fun h => ?_, fun h => ⟨h.apart, fun p hp => ?_⟩⟩
  · exact ⟨h.1, fun p hp => (h.2 p hp).1, fun p hp => (h.2 p hp).2⟩
  · exact ⟨h.single p hp, h.settled p hp⟩

theorem settledMembers_nil : SettledMembers op [] :=
  ⟨.nil, List.forall_mem_nil _, List.forall_mem_nil _⟩

theorem settledMembers_singleton (hsingle : p.membersUnder op = [p]) (hp : p.Settled) :
    SettledMembers op [p] :=
  ⟨List.pairwise_singleton _ _, List.forall_mem_singleton.2 hsingle,
    List.forall_mem_singleton.2 hp⟩

theorem SettledMembers.of_mem (h : SettledMembers op members) (hp : p ∈ members) :
    SettledMembers op [p] :=
  settledMembers_singleton (h.single p hp) (h.settled p hp)

theorem settledMembers_membersUnder (op : Connective) (hp : p.Settled) :
    SettledMembers op (p.membersUnder op) := by
  cases p with
  | group op' members =>
    by_cases hop : op' = op
    · subst hop
      rw [membersUnder, if_pos (by simp)]
      exact (settled_group.1 hp).2
    · cases members with
      | nil =>
        rw [membersUnder, if_pos (by simp)]
        exact settledMembers_nil
      | cons x xs =>
        have hsingle : (group op' (x :: xs)).membersUnder op = [group op' (x :: xs)] := by
          rw [membersUnder, if_neg (by simp [hop])]
        rw [hsingle]
        exact settledMembers_singleton hsingle hp
  | compare path op' operand q => exact settledMembers_singleton rfl hp
  | columns left op' right => exact settledMembers_singleton rfl hp
  | related via condition inverted threshold => exact settledMembers_singleton rfl hp

theorem settled_close (h : SettledMembers op members) : (close op members).Settled := by
  match members with
  | [] => exact settled_group.2 ⟨by simp, h⟩
  | [p] => exact h.settled p (List.mem_singleton_self p)
  | _ :: _ :: _ => exact settled_group.2 ⟨by simp, h⟩

/-- A settled predicate is the group of what it contributes to one. -/
theorem close_membersUnder (op : Connective) (hp : p.Settled) (hconstrains : p.constrains = true) :
    close op (p.membersUnder op) = p := by
  cases p with
  | group op' members =>
    cases members with
    | nil => cases hconstrains
    | cons x xs =>
      by_cases hop : op' = op
      · subst hop
        rw [membersUnder, if_pos (by simp)]
        cases xs with
        | nil => exact absurd rfl (settled_group.1 hp).1
        | cons y ys => rfl
      · rw [membersUnder, if_neg (by simp [hop]), close]
  | compare path op' operand q => rfl
  | columns left op' right => rfl
  | related via condition inverted threshold => rfl

/-! ## Members that merge alike -/

/-- The two merge with the same members, before them and behind. -/
structure Alike (op : Connective) (a b : Predicate) : Prop where
  before : ∀ x, merge? op a x = none ↔ merge? op b x = none
  behind : ∀ x, merge? op x a = none ↔ merge? op x b = none

/-- Of two comparisons that compare the same way, only that there are values matters. -/
theorem alike_compare {connective : Connective} {path : Path} {op : Operator} {q : Quantifier}
    {operand operand' : Operand} {vs ws : List Value} (hvs : operand.listed? = some vs)
    (hws : operand'.listed? = some ws) :
    Alike connective (compare path op operand q) (compare path op operand' q) where
  before x := by
    cases x with
    | compare path' op' operand'' q' => simp [merge?, mergeCompare, hvs, hws]
    | related via condition inverted threshold => simp [merge?, openCondition?]
    | columns left op' right => simp [merge?]
    | group op' members => simp [merge?]
  behind x := by
    cases x with
    | compare path' op' operand'' q' => simp [merge?, mergeCompare, hvs, hws]
    | related via condition inverted threshold => simp [merge?, mergeCompare]
    | columns left op' right => simp [merge?, mergeCompare]
    | group op' members => simp [merge?, mergeCompare]

/-- Of two `related`, the conditions do not matter. -/
theorem alike_related {connective : Connective} {via : Path} {c d : Predicate} {inverted : Bool} :
    Alike connective (related via c inverted none) (related via d inverted none) where
  before x := by
    cases x with
    | compare path op operand q => simp [merge?, mergeCompare]
    | related via' condition inverted' threshold => simp [merge?, openCondition?]
    | columns left op right => simp [merge?]
    | group op members => simp [merge?]
  behind x := by
    cases x with
    | compare path op operand q => simp [merge?, openCondition?]
    | related via' condition inverted' threshold => simp [merge?, openCondition?]
    | columns left op right => simp [merge?, openCondition?]
    | group op members => simp [merge?, openCondition?]

/-- A merged comparison stands where the other stood. -/
theorem alike_mergeCompare {connective : Connective} {path : Path} {op : Operator}
    {operand : Operand} {q : Quantifier} {a b : Predicate}
    (h : mergeCompare connective path op operand q a = some b) :
    Alike connective a b ∧ b.Settled ∧ b.membersUnder connective = [b] := by
  cases a with
  | compare path' op' operand' q' =>
    simp only [mergeCompare] at h
    split at h
    · rename_i hsame
      obtain ⟨rfl, rfl, rfl, hlists⟩ := hsame
      simp only [Option.bind_eq_bind, Option.bind_eq_some_iff] at h
      obtain ⟨vs, hvs, ws, hws, h⟩ := h
      cases h
      refine ⟨alike_compare hvs (Operand.listed?_extend hvs hws), ?_, rfl⟩
      obtain ⟨negated, -, rfl, -⟩ := listsValues_eq_true hlists
      cases negated <;> simp [Settled]
    · contradiction
  | _ => simp [mergeCompare] at h

/-! ## Inserting keeps members settled -/

theorem pairwise_insertWith {R : Predicate → Predicate → Prop}
    {merge : Predicate → Option Predicate} (hp : ∀ a, merge a = none → R a p)
    (hmerge : ∀ a b, merge a = some b → ∀ x, (R a x → R b x) ∧ (R x a → R x b))
    (h : members.Pairwise R) : (insertWith merge p members).Pairwise R := by
  induction h with
  | nil => exact List.pairwise_singleton _ _
  | @cons a rest hrest _ ih =>
    rw [insertWith]
    split
    · rename_i b hm
      exact .cons (fun x hx => (hmerge a b hm x).1 (hrest x hx)) ‹_›
    · rename_i hm
      exact .cons (forall_mem_insertWith (fun c d hcd => (hmerge c d hcd a).2) (hp a hm) hrest) ih

theorem settledMembers_insertWith {op : Connective} {merge : Predicate → Option Predicate}
    {p : Predicate} (hp : SettledMembers op [p])
    (hnone : ∀ a, merge a = none → merge? op a p = none)
    (halike : ∀ a b, merge a = some b → Alike op a b ∧ b.membersUnder op = [b])
    (hsettled : ∀ a b, merge a = some b → a.Settled → b.Settled)
    {members : List Predicate} (h : SettledMembers op members) :
    SettledMembers op (insertWith merge p members) where
  apart := by
    refine pairwise_insertWith hnone (fun a b hm x => ?_) h.apart
    obtain ⟨hlike, -⟩ := halike a b hm
    exact ⟨(hlike.before x).1, (hlike.behind x).1⟩
  single := forall_mem_insertWith (fun a b hm _ => (halike a b hm).2)
    (hp.single p (List.mem_singleton_self p)) h.single
  settled := forall_mem_insertWith hsettled (hp.settled p (List.mem_singleton_self p)) h.settled

/-- What merges with nothing is added at the end. -/
theorem settledMembers_concat (hp : SettledMembers op [p]) (h : SettledMembers op members)
    (hnone : ∀ a ∈ members, merge? op a p = none) : SettledMembers op (members ++ [p]) where
  apart := List.pairwise_append.2 ⟨h.apart, hp.apart, fun a ha b hb => by
    rw [List.mem_singleton.1 hb]
    exact hnone a ha⟩
  single := List.forall_mem_append.2 ⟨h.single, hp.single⟩
  settled := List.forall_mem_append.2 ⟨h.settled, hp.settled⟩

/-- **Inserting a member** keeps the others apart. -/
theorem settledMembers_insert (hp : SettledMembers op [p]) (h : SettledMembers op members) :
    SettledMembers op (insert op members p) := by
  induction p using insert_induction generalizing op members with
  | compare path op' operand q =>
    rw [insert]
    refine settledMembers_insertWith hp (fun a hm => hm) (fun a b hm => ?_) (fun a b hm _ => ?_) h
    · exact ⟨(alike_mergeCompare hm).1, (alike_mergeCompare hm).2.2⟩
    · exact (alike_mergeCompare hm).2.1
  | columns left op' right =>
    rw [insert]
    exact settledMembers_concat hp h fun a _ => rfl
  | group op' inner =>
    rw [insert]
    exact settledMembers_concat hp h fun a _ => rfl
  | related via condition inverted threshold ih =>
    rw [insert_related]
    refine settledMembers_insertWith hp (fun a hm => ?_) (fun a b hm => ?_) (fun a b hm ha => ?_) h
    · rw [Option.map_eq_none_iff] at hm
      rw [merge?, hm, Option.map_none]
    · obtain ⟨c, hopen, rfl⟩ := Option.map_eq_some_iff.1 hm
      rw [openCondition?_via hopen]
      exact ⟨alike_related, rfl⟩
    · obtain ⟨c, hopen, rfl⟩ := Option.map_eq_some_iff.1 hm
      rw [openCondition?_via hopen] at ha
      have hcondition : condition.Settled :=
        hp.settled (related via condition inverted threshold) (List.mem_singleton_self _)
      have hparts := settledMembers_membersUnder .or hcondition
      refine settled_close (insertAll_of_insert (SettledMembers .or) (fun q hq members => ?_)
        (settledMembers_membersUnder .or ha))
      exact ih q hq (hparts.of_mem hq)

/-! ## Simplified predicates -/

theorem settled_simplify (p : Predicate) : p.simplify.Settled := by
  induction p using tree_induction with
  | group op members ih =>
    rw [simplify, simplifyUnder_eq]
    refine settled_close (insertAll_of_insert (SettledMembers op) (fun q hq _ => ?_)
      settledMembers_nil)
    obtain ⟨p, hmem, hq⟩ := List.mem_flatMap.1 hq
    exact settledMembers_insert ((settledMembers_membersUnder op (ih p hmem)).of_mem hq)
  | compare path op operand q =>
    rw [simplify]
    split
    · refine settled_group.2 ⟨by simp, ⟨?_, ?_, ?_⟩⟩
      · simp [merge?, mergeCompare]
      · simp [membersUnder]
      · simp [Settled]
    · assumption
  | columns left op right =>
    rw [simplify]
    exact ⟨⟩
  | related via condition inverted threshold ih =>
    rw [simplify]
    exact ih

theorem insertWith_of_none {merge : Predicate → Option Predicate}
    (h : ∀ a ∈ members, merge a = none) : insertWith merge p members = members ++ [p] := by
  induction members with
  | nil => rfl
  | cons a rest ih =>
    rw [List.forall_mem_cons] at h
    rw [insertWith, h.1, ih h.2, List.cons_append]

/-- A member that merges with none of those before it is added behind them. -/
theorem insert_of_none (h : ∀ a ∈ members, merge? op a p = none) :
    insert op members p = members ++ [p] := by
  cases p with
  | compare path op' operand q =>
    rw [insert]
    exact insertWith_of_none h
  | columns left op' right => rw [insert]
  | group op' inner => rw [insert]
  | related via condition inverted threshold =>
    rw [insert_related]
    refine insertWith_of_none fun a ha => ?_
    have hnone := h a ha
    rw [merge?, Option.map_eq_none_iff] at hnone
    rw [hnone, Option.map_none]

theorem insertAll_of_apart {done ps : List Predicate}
    (h : (done ++ ps).Pairwise (merge? op · · = none)) : insertAll op done ps = done ++ ps := by
  induction ps generalizing done with
  | nil => rw [insertAll, List.append_nil]
  | cons p ps ih =>
    have hp : ∀ a ∈ done, merge? op a p = none :=
      fun a ha => (List.pairwise_append.1 h).2.2 a ha p List.mem_cons_self
    rw [List.append_cons] at h
    rw [insertAll, insert_of_none hp, ih h, List.append_assoc, List.singleton_append]

/-- **A settled predicate is not changed by simplifying it.** -/
theorem simplify_of_settled (hp : p.Settled) : p.simplify = p := by
  induction p using tree_induction with
  | group op members ih =>
    obtain ⟨hlength, hmembers⟩ := settled_group.1 hp
    have hparts : members.flatMap (fun p => p.simplify.membersUnder op) = members := by
      have heach : ∀ p ∈ members, p.simplify.membersUnder op = [p] := by
        intro p hmem
        rw [ih p hmem (hmembers.settled p hmem), hmembers.single p hmem]
      rw [List.flatMap_congr heach, List.flatMap_singleton' members]
    have hapart : ([] ++ members).Pairwise (merge? op · · = none) := hmembers.apart
    rw [simplify, simplifyUnder_eq, hparts, insertAll_of_apart hapart, List.nil_append]
    match members, hlength with
    | [], _ => rfl
    | _ :: _ :: _, _ => rfl
  | compare path op operand q => rw [simplify, if_neg hp]
  | columns left op right => rw [simplify]
  | related via condition inverted threshold ih => rw [simplify, ih hp]

end Predicate

end EntityQuery
