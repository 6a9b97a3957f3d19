import EntityQuery.Proofs.Scope.Joins

/-!
# Why a join is there

A join is marked by what it was needed for first, and a filter that needs it later marks it anew.
Filters come first. So as long as only filters have been written, a further one changes no mark;
and what is joined for the select list afterwards keeps the marks too. Either way the joins that
are there stay as they are, and new ones follow with the mark of their origin (`Scope.Extends`).

It follows that the joins of the filters can be told from the others by their marks, and that they
stand in front (`Scope.Extends.joinsFor_true`).
-/

namespace EntityQuery

open EntityQuery.Sql (Expr)

namespace Scope

variable {s s' s'' : Scope} {origin : JoinOrigin}

/-- The same joins, followed by joins with the origin. -/
def Extends (origin : JoinOrigin) (s s' : Scope) : Prop :=
  ∃ new, s'.joins = s.joins ++ new ∧ ∀ j ∈ new, j.origin = origin

/-- No join that is there would be marked anew. -/
def Settled (origin : JoinOrigin) (s : Scope) : Prop :=
  origin = .filter → ∀ j ∈ s.joins, j.origin = .filter

theorem settled_select (s : Scope) : s.Settled .select := fun h => nomatch h

theorem Extends.refl (s : Scope) : s.Extends origin s := ⟨[], by simp, by simp⟩

theorem Extends.trans (h : s.Extends origin s') (h' : s'.Extends origin s'') :
    s.Extends origin s'' := by
  obtain ⟨new, hjoins, hnew⟩ := h
  obtain ⟨new', hjoins', hnew'⟩ := h'
  refine ⟨new ++ new', ?_, List.forall_mem_append.2 ⟨hnew, hnew'⟩⟩
  rw [hjoins', hjoins, List.append_assoc]

theorem Extends.settled (h : s.Extends origin s') (hs : s.Settled origin) :
    s'.Settled origin := by
  obtain ⟨new, hjoins, hnew⟩ := h
  intro horigin
  rw [hjoins, List.forall_mem_append]
  exact ⟨hs horigin, fun j hj => (hnew j hj).trans horigin⟩

/-- A join with a key that is there changes nothing, another one goes to the end. -/
theorem addTo_eq {new : ScopedJoin} {js : List ScopedJoin}
    (h : new.origin = .filter → ∀ j ∈ js, j.origin = .filter) :
    addTo new js = js ∨ addTo new js = js ++ [new] := by
  induction js with
  | nil => exact .inr rfl
  | cons j js ih =>
    rw [addTo]
    by_cases hkey : j.key = new.key
    · left
      rw [if_pos hkey]
      by_cases horigin : new.origin = .filter
      · rw [if_pos horigin, ← h horigin j List.mem_cons_self]
      · rw [if_neg horigin]
    · rw [if_neg hkey]
      rcases ih fun horigin i hi => h horigin i (List.mem_cons_of_mem j hi) with heq | heq
      · exact .inl (by rw [heq])
      · exact .inr (by rw [heq, List.cons_append])

theorem extends_addJoin {new : ScopedJoin} (hs : s.Settled origin) (hnew : new.origin = origin) :
    s.Extends origin (s.addJoin new) := by
  subst hnew
  rcases addTo_eq hs with heq | heq
  · exact ⟨[], by simp [addJoin, heq], by simp⟩
  · exact ⟨[new], by simp [addJoin, heq], by simp⟩

theorem extends_foldl {news : List ScopedJoin} (hs : s.Settled origin)
    (hnews : ∀ j ∈ news, j.origin = origin) : s.Extends origin (news.foldl addJoin s) := by
  induction news generalizing s with
  | nil => exact .refl s
  | cons new news ih =>
    rw [List.forall_mem_cons] at hnews
    have hstep := extends_addJoin hs hnews.1
    exact hstep.trans (ih (hstep.settled hs) hnews.2)

theorem extends_joinHops {hops : List Relationship} (hs : s.Settled origin)
    (h : s.joinHops hops origin = .ok s') : s.Extends origin s' := by
  rw [joinHops_eq_ok h]
  refine extends_foldl hs fun j hj => ?_
  obtain ⟨r, -, hj⟩ := List.mem_flatMap.1 hj
  obtain ⟨step, -, rfl⟩ := List.mem_map.1 hj
  rfl

/-- **The joins of the filters are the first ones.** -/
theorem Extends.joinsFor_true (h : s.Extends .select s') (hbase : s'.baseJoins = s.baseJoins)
    (hs : ∀ j ∈ s.joins, j.origin = .filter) : s'.joinsFor true = s.joinsFor false := by
  obtain ⟨new, hjoins, hnew⟩ := h
  have hold : s.joins.filter (fun j => !true || j.origin == .filter) = s.joins :=
    List.filter_eq_self.2 fun j hj => by simp [hs j hj]
  have hrest : new.filter (fun j => !true || j.origin == .filter) = [] :=
    List.filter_eq_nil_iff.2 fun j hj => by simp [hnew j hj]
  rw [joinsFor_false, joinsFor, hbase, hjoins, List.filter_append, hold, hrest, List.append_nil]

end Scope

/-! ## Writing -/

variable {m : Model} {P : Table → Prop} {f g : Frame} {origin : JoinOrigin}

/-- What the joins of the task are marked with. -/
def Task.Marks (origin : JoinOrigin) : Task → Prop
  | .compile _ o | .render _ o | .renderAll _ o => o = origin
  | .operand .. => True
  | .filter _ => origin = .filter

theorem extends_joinColumn {path : Path} {target : Target} (hf : f.scope.Settled origin)
    (h : (joinColumn m path origin).Gives f target g) : f.scope.Extends origin g.scope := by
  obtain ⟨r, s, -, -, hs, -, rfl⟩ := gives_joinColumn.1 h
  exact Scope.extends_joinHops hf hs

/-- **Writing marks what it joins, and nothing else.** -/
theorem Writes.extends {task : Task} {es : List Expr} (h : Writes m P task f es g)
    (htask : task.Marks origin) (hf : f.scope.Settled origin) :
    f.scope.Extends origin g.scope := by
  induction h with
  | compile _ _ ih => exact ih htask hf
  | group _ ih => exact ih htask hf
  | compare htarget _ ih =>
    cases htask
    have hstep := extends_joinColumn hf htarget
    exact hstep.trans (ih ⟨⟩ (hstep.settled hf))
  | columns hl hr _ =>
    cases htask
    have hstep := extends_joinColumn hf hl
    exact hstep.trans (extends_joinColumn (hstep.settled hf) hr)
  | related _ hs _ _ _ =>
    -- The body is written in a scope of its own.
    cases htask
    have hstep := Scope.extends_joinHops hf hs
    exact hstep.trans (Scope.extends_addJoin (hstep.settled hf) rfl)
  | value _ => exact .refl _
  | values _ => exact .refl _
  | subquery _ _ _ _ _ => exact .refl _
  | nil => exact .refl _
  | cons _ _ ih₁ ih₂ =>
    have hstep := ih₁ htask hf
    exact hstep.trans (ih₂ htask (hstep.settled hf))
  | noFilter => exact .refl _
  | filter _ ih => exact ih htask.symm hf

end EntityQuery
