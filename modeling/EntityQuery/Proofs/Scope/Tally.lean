import EntityQuery.Proofs.Scope.Joins

/-!
# What has been asked of a scope

Joins are asked for along walks and by the names of CTEs, again and again, for conditions and for
the select list. A scope keeps a tally of what was asked for (`Scope.Tallies`): one join for each
key, in the order in which the keys came up first, with the table and the condition of the first
request, and marked for filters if one of the requests was made by a filter.

One request keeps the tally (`Tallies.addTo`), so a list of them does (`Tallies.foldl`). A call asks
for several joins at once, or is refused and asks for none (`JoinCall.requests`).
-/

namespace EntityQuery

open EntityQuery.Sql (Expr Query)

namespace Scope

variable {new : ScopedJoin} {asked js : List ScopedJoin}

/-! ## One request -/

/-- The join after a further request. -/
def promote (new j : ScopedJoin) : ScopedJoin :=
  if j.key = new.key ∧ new.origin = .filter then { j with origin := .filter } else j

theorem key_promote (new j : ScopedJoin) : (promote new j).key = j.key := by
  unfold promote
  split <;> rfl

theorem join_promote (new j : ScopedJoin) : (promote new j).join = j.join := by
  unfold promote
  split <;> rfl

theorem origin_promote (new j : ScopedJoin) :
    (promote new j).origin = .filter ↔
      j.origin = .filter ∨ (j.key = new.key ∧ new.origin = .filter) := by
  unfold promote
  split
  · next h => simp [h]
  · next h => simp [h]

theorem promote_of_ne {j : ScopedJoin} (h : j.key ≠ new.key) : promote new j = j :=
  if_neg fun hnew => h hnew.1

theorem addTo_of_not_mem (h : new.key ∉ js.map (·.key)) : addTo new js = js ++ [new] := by
  induction js with
  | nil => rfl
  | cons j js ih =>
    rw [List.map_cons, List.mem_cons, not_or] at h
    rw [addTo, if_neg (Ne.symm h.1), ih h.2, List.cons_append]

theorem addTo_of_mem (hnodup : (js.map (·.key)).Nodup) (h : new.key ∈ js.map (·.key)) :
    addTo new js = js.map (promote new) := by
  induction js with
  | nil => cases h
  | cons j js ih =>
    rw [List.map_cons, List.nodup_cons] at hnodup
    by_cases hkey : j.key = new.key
    · -- No other join has the key.
      have hrest : js.map (promote new) = js := by
        rw [List.map_congr_left fun i hi => promote_of_ne ?_, List.map_id']
        intro hi'
        exact hnodup.1 (List.mem_map.2 ⟨i, hi, hi'.trans hkey.symm⟩)
      rw [addTo, if_pos hkey, List.map_cons, hrest, promote]
      by_cases horigin : new.origin = .filter
      · rw [if_pos horigin, if_pos ⟨hkey, horigin⟩]
      · rw [if_neg horigin, if_neg fun hnew => horigin hnew.2]
    · have hmem := (List.mem_cons.1 h).resolve_left (Ne.symm hkey)
      rw [addTo, if_neg hkey, ih hnodup.2 hmem, List.map_cons, promote_of_ne hkey]

/-! ## Tallies -/

/-- The joins that a list of requests comes to. -/
structure Tallies (asked js : List ScopedJoin) : Prop where
  nodup : (js.map (·.key)).Nodup
  keys : js.map (·.key) = (asked.map (·.key)).eraseDups
  first : ∀ j ∈ js, (asked.find? (·.key == j.key)).map (·.join) = some j.join
  origin : ∀ j ∈ js, j.origin = .filter ↔ ∃ a ∈ asked, a.key = j.key ∧ a.origin = .filter

namespace Tallies

theorem mem_keys (h : Tallies asked js) {key : JoinKey} :
    key ∈ js.map (·.key) ↔ key ∈ asked.map (·.key) := by
  rw [h.keys, List.mem_eraseDups]

theorem addTo_of_mem (h : Tallies asked js) (hnew : new.key ∈ js.map (·.key)) :
    Tallies (asked ++ [new]) (addTo new js) := by
  rw [Scope.addTo_of_mem h.nodup hnew]
  have hkeys : (js.map (promote new)).map (·.key) = js.map (·.key) := by
    rw [List.map_map]
    exact List.map_congr_left fun j _ => key_promote new j
  have hdrop : [new.key].removeAll (asked.map (·.key)) = [] := by
    simpa [List.removeAll] using h.mem_keys.1 hnew
  refine ⟨hkeys ▸ h.nodup, ?_, List.forall_mem_map.2 fun j hj => ?_,
    List.forall_mem_map.2 fun j hj => ?_⟩
  · rw [hkeys, h.keys, List.map_append, List.eraseDups_append, List.map_singleton, hdrop,
      List.eraseDups_nil, List.append_nil]
  · obtain ⟨a, ha, hjoin⟩ := Option.map_eq_some_iff.1 (h.first j hj)
    rw [key_promote, join_promote, List.find?_append, ha, Option.some_or, Option.map_some, hjoin]
  · rw [key_promote, origin_promote, h.origin j hj]
    simp only [List.mem_append, List.mem_singleton, or_and_right, exists_or, exists_eq_left,
      eq_comm (a := new.key)]

theorem addTo_of_not_mem (h : Tallies asked js) (hnew : new.key ∉ js.map (·.key)) :
    Tallies (asked ++ [new]) (addTo new js) := by
  rw [Scope.addTo_of_not_mem hnew]
  have hasked : ∀ a ∈ asked, a.key ≠ new.key := by
    intro a ha hkey
    exact hnew (h.mem_keys.2 (List.mem_map.2 ⟨a, ha, hkey⟩))
  have hkeep : [new.key].removeAll (asked.map (·.key)) = [new.key] := by
    simpa [List.removeAll] using hasked
  refine ⟨?_, ?_, List.forall_mem_append.2 ⟨fun j hj => ?_, List.forall_mem_singleton.2 ?_⟩,
    List.forall_mem_append.2 ⟨fun j hj => ?_, List.forall_mem_singleton.2 ?_⟩⟩
  · rw [List.map_append, List.map_singleton]
    exact List.concat_eq_append ▸ h.nodup.concat hnew
  · rw [List.map_append, List.map_append, List.eraseDups_append, List.map_singleton, hkeep, h.keys]
    rfl
  · obtain ⟨a, ha, hjoin⟩ := Option.map_eq_some_iff.1 (h.first j hj)
    rw [List.find?_append, ha, Option.some_or, Option.map_some, hjoin]
  · have hnone : asked.find? (·.key == new.key) = none := by
      simpa [List.find?_eq_none] using hasked
    rw [List.find?_append, hnone, Option.none_or]
    simp
  · have hkey : new.key ≠ j.key := fun hkey => hnew (hkey ▸ List.mem_map_of_mem hj)
    rw [h.origin j hj]
    simp [or_and_right, exists_or, hkey]
  · simp only [List.mem_append, List.mem_singleton, or_and_right, exists_or, exists_eq_left,
      true_and]
    refine ⟨.inr, fun horigin => horigin.resolve_left ?_⟩
    rintro ⟨a, ha, hkey, -⟩
    exact hasked a ha hkey

/-- **One request keeps the tally.** -/
theorem addTo (h : Tallies asked js) (new : ScopedJoin) :
    Tallies (asked ++ [new]) (addTo new js) := by
  by_cases hnew : new.key ∈ js.map (·.key)
  · exact h.addTo_of_mem hnew
  · exact h.addTo_of_not_mem hnew

/-- **And so does every list of requests.** -/
theorem foldl (h : Tallies asked js) (news : List ScopedJoin) :
    Tallies (asked ++ news) (news.foldl (fun js new => Scope.addTo new js) js) := by
  induction news generalizing asked js with
  | nil => rwa [List.append_nil]
  | cons new news ih =>
    rw [List.append_cons]
    exact ih (h.addTo new)

theorem nil : Tallies [] [] := ⟨List.nodup_nil, rfl, by simp, by simp⟩

end Tallies

/-- Requests for distinct keys that are new are all put at the end. -/
theorem foldl_addTo {before : List ScopedJoin} (h : ((before ++ js).map (·.key)).Nodup) :
    js.foldl (fun js new => addTo new js) before = before ++ js := by
  induction js generalizing before with
  | nil => rw [List.foldl_nil, List.append_nil]
  | cons j js ih =>
    rw [List.append_cons] at h ⊢
    have hj : j.key ∉ before.map (·.key) := by
      rw [List.map_append, List.map_append, List.nodup_append', List.nodup_append'] at h
      intro hmem
      exact h.1.2.2 hmem List.mem_cons_self
    rw [List.foldl_cons, addTo_of_not_mem hj, ih h]

/-- Joins with distinct keys are the tally of themselves. -/
theorem tallies_self (h : (js.map (·.key)).Nodup) : Tallies js js := by
  have htally := Tallies.nil.foldl js
  rwa [foldl_addTo (by rwa [List.nil_append])] at htally

theorem joins_foldl (s : Scope) (news : List ScopedJoin) :
    (news.foldl addJoin s).joins = news.foldl (fun js new => addTo new js) s.joins := by
  induction news generalizing s with
  | nil => rfl
  | cons new news ih => exact ih (s.addJoin new)

/-- The first relationship of a walk, if it does not start at the root of the scope or below. -/
def outside? (s : Scope) (hops : List Relationship) : Option Relationship :=
  hops.head?.filter fun first => !first.parent.isAtOrBelow s.root

theorem joinHops_of_outside {s : Scope} {hops : List Relationship} {first : Relationship}
    (h : s.outside? hops = some first) (origin : JoinOrigin) :
    s.joinHops hops origin = .error (.pathNotFound s.root.entity.name ⟨[first.member]⟩) := by
  cases hops with
  | nil => cases h
  | cons r rest =>
    obtain ⟨hfirst, houtside⟩ := Option.filter_eq_some_iff.1 h
    cases hfirst
    rw [joinHops, if_neg (by simpa using houtside)]

theorem joinHops_of_inside {s : Scope} {hops : List Relationship} (h : s.outside? hops = none)
    (origin : JoinOrigin) :
    s.joinHops hops origin = .ok ((hops.flatMap (joinsOf origin)).foldl addJoin s) := by
  cases hops with
  | nil => rfl
  | cons r rest =>
    have hinside : r.parent.isAtOrBelow s.root = true := by
      simpa [outside?, Option.filter_eq_none_iff] using h
    rw [joinHops, if_pos hinside]

end Scope

/-! ## Calls -/

/-- A call that asks for joins. -/
inductive JoinCall where
  | walk (hops : List Relationship) (origin : JoinOrigin)
  | cte (name : String) (on : Expr) (origin : JoinOrigin)

namespace JoinCall

def act : JoinCall → Build Unit
  | walk hops origin => Build.join hops origin
  | cte name on origin => Build.joinCte name on origin

/-- The joins that a call asks a scope for. A walk from elsewhere is refused as a whole. -/
def requests (s : Scope) : JoinCall → List ScopedJoin
  | walk hops origin =>
    if (s.outside? hops).isSome then [] else hops.flatMap (Scope.joinsOf origin)
  | cte name on origin => [⟨.cte name, ⟨.left, ⟨none, name, none⟩, on⟩, origin⟩]

/-- What a call asks for depends on where the scope starts, not on what it has joined. -/
theorem requests_congr {s s' : Scope} (h : s'.root = s.root) (c : JoinCall) :
    c.requests s' = c.requests s := by
  cases c with
  | walk hops origin =>
    have houtside : s'.outside? hops = s.outside? hops := by
      rw [Scope.outside?, Scope.outside?, h]
    rw [requests, requests, houtside]
  | cte name on origin => rfl

end JoinCall

theorem Build.run_join_of_error {f : Frame} {hops : List Relationship} {origin : JoinOrigin}
    {e : QueryError} (h : f.scope.joinHops hops origin = .error e) :
    StateT.run (Build.join hops origin) f = (.error e, f) := by
  show StateT.run (ExceptT.bindCont (fun scope => (set (Frame.mk scope f.ctes) : Build Unit))
      (StateT.run (lift (f.scope.joinHops hops origin)) f).1)
    (StateT.run (lift (f.scope.joinHops hops origin)) f).2 = _
  rw [h]
  rfl

namespace Frame

/-- The frame after a call, whether it succeeds or not. -/
def after (f : Frame) (c : JoinCall) : Frame := (StateT.run c.act f).2

def afterAll (f : Frame) (calls : List JoinCall) : Frame := calls.foldl after f

/-- All requests so far: the joins that are there, and what the calls ask for. -/
def asked (f : Frame) (calls : List JoinCall) : List ScopedJoin :=
  f.scope.joins ++ calls.flatMap (·.requests f.scope)

theorem after_eq (f : Frame) (c : JoinCall) :
    f.after c = ⟨(c.requests f.scope).foldl Scope.addJoin f.scope, f.ctes⟩ := by
  cases c with
  | cte name on origin => rfl
  | walk hops origin =>
    cases h : f.scope.outside? hops with
    | none =>
      have hrun := (Build.gives_join (u := ())).2 ⟨_, Scope.joinHops_of_inside h origin, rfl⟩
      rw [after, JoinCall.act, hrun, JoinCall.requests, h]
      rfl
    | some first =>
      have hrun := Build.run_join_of_error (Scope.joinHops_of_outside h origin)
      rw [after, JoinCall.act, hrun, JoinCall.requests, h]
      rfl

theorem afterAll_eq (f : Frame) (calls : List JoinCall) :
    f.afterAll calls =
      ⟨(calls.flatMap (·.requests f.scope)).foldl Scope.addJoin f.scope, f.ctes⟩ := by
  induction calls generalizing f with
  | nil => rfl
  | cons c calls ih =>
    have hroot : (f.after c).scope.root = f.scope.root := by
      rw [after_eq]
      exact (Scope.grows_foldl f.scope _).root
    have hrest : calls.flatMap (·.requests (f.after c).scope) =
        calls.flatMap (·.requests f.scope) := by
      rw [funext (JoinCall.requests_congr hroot)]
    rw [List.flatMap_cons, List.foldl_append, ← hrest]
    refine (ih (f.after c)).trans ?_
    rw [after_eq]

theorem tallies_afterAll {f : Frame} (h : (f.scope.joins.map (·.key)).Nodup)
    (calls : List JoinCall) : Scope.Tallies (f.asked calls) (f.afterAll calls).scope.joins := by
  rw [afterAll_eq, Scope.joins_foldl]
  exact (Scope.tallies_self h).foldl _

end Frame

/-- **The joins of a scope are a tally of the requests.** After any calls no two joins have the same
key; there is one for every key that was asked for, in the order of the first requests; each has the
table and the condition of its first request, and it is marked for filters exactly if one of the
requests was. A walk that starts elsewhere is refused and changes nothing. A query that takes the
joins of the filters only has those that a filter asked for, in the same order. -/
theorem joins_afterAll {f : Frame} (h : (f.scope.joins.map (·.key)).Nodup)
    (calls : List JoinCall) :
    ((f.afterAll calls).scope.joins.map (·.key)).Nodup ∧
    (f.afterAll calls).scope.joins.map (·.key) = ((f.asked calls).map (·.key)).eraseDups ∧
    (∀ j ∈ (f.afterAll calls).scope.joins,
      ((f.asked calls).find? (·.key == j.key)).map (·.join) = some j.join ∧
        (j.origin = .filter ↔ ∃ a ∈ f.asked calls, a.key = j.key ∧ a.origin = .filter)) ∧
    (∀ first rest origin, first.parent.isAtOrBelow f.scope.root = false →
      StateT.run (Build.join (first :: rest) origin) (f.afterAll calls) =
        (.error (.pathNotFound f.scope.root.entity.name ⟨[first.member]⟩), f.afterAll calls)) ∧
    (∀ q : Query, ((f.afterAll calls).scope.apply q true).joins =
      q.joins ++ (f.scope.baseJoins ++ ((f.afterAll calls).scope.joins.filter fun j =>
        (f.asked calls).any fun a => a.key == j.key && a.origin == .filter).map (·.join))) ∧
    (∀ q : Query, ((f.afterAll calls).scope.apply q false).joins =
      q.joins ++ (f.scope.baseJoins ++ (f.afterAll calls).scope.joins.map (·.join))) ∧
    (f.afterAll calls).ctes = f.ctes := by
  have htally := Frame.tallies_afterAll h calls
  have hgrows : f.scope.Grows (f.afterAll calls).scope := by
    rw [Frame.afterAll_eq]
    exact Scope.grows_foldl _ _
  refine ⟨htally.nodup, htally.keys, fun j hj => ⟨htally.first j hj, htally.origin j hj⟩, ?_, ?_,
    ?_, ?_⟩
  · intro first rest origin hfirst
    rw [← hgrows.root] at hfirst ⊢
    refine Build.run_join_of_error (Scope.joinHops_of_outside ?_ origin)
    simp [Scope.outside?, hfirst]
  · intro q
    have hfilter : ∀ j ∈ (f.afterAll calls).scope.joins, (!true || j.origin == .filter) =
        (f.asked calls).any fun a => a.key == j.key && a.origin == .filter := by
      intro j hj
      rw [Bool.eq_iff_iff]
      simpa using htally.origin j hj
    rw [Scope.apply, Scope.joinsFor, hgrows.baseJoins, List.filter_congr hfilter]
  · intro q
    rw [Scope.apply, Scope.joinsFor_false, hgrows.baseJoins]
  · rw [Frame.afterAll_eq]

namespace Shop

def orderFrame : Frame := ⟨.ofTable (model plain) orders, []⟩

/-- The lines of an order are joined for the select list and, with their tags, for a filter. The
lines of no order are not in the scope, and so their tags are refused. -/
def joinCalls : List JoinCall :=
  [.walk [orderLines plain] .select,
    .cte "cte_0" (.eq (orderLines plain).parentKey (.ofTable "cte_0" "k")) .select,
    .walk (orderLines plain :: (model plain).relationships (orderLines plain).child) .filter,
    .walk ((model plain).relationships (Model.root line ⟨[2]⟩)) .filter]

theorem joins_afterAll_joinCalls :
    (orderFrame.scope.joins.map (·.key)).Nodup ∧
    (orderFrame.afterAll joinCalls).scope.joins.map (·.origin) =
      [.filter, .select, .filter, .filter] ∧
    ((orderFrame.afterAll joinCalls).scope.joins.map (·.key)).Nodup ∧
    ∀ j ∈ (orderFrame.afterAll joinCalls).scope.joins, j.origin = .filter ↔
      ∃ a ∈ orderFrame.asked joinCalls, a.key = j.key ∧ a.origin = .filter := by
  obtain ⟨hnodup, -, hjoins, -⟩ := joins_afterAll (f := orderFrame) List.nodup_nil joinCalls
  exact ⟨List.nodup_nil, by decide +kernel, hnodup, fun j hj => (hjoins j hj).2⟩

end Shop

end EntityQuery
