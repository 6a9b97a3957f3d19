import EntityQuery.Proofs.Scope.Scoped
import EntityQuery.Select.Shape

/-!
# Properties of levels

If everything found for a level has a property, so has its query, whatever the form of its rows:
with one column for each value, as documents built by functions, or as one document
(`Level.Carries.shaped`). A nested level is one value of the row above it
(`Level.Carries.nestedExpr`).

An order that is added to the select list is referred to by its name in the result, which needs no
table.

A level that may refer to the rows around it is scoped if all that was found for it is
(`Level.Scoped.carries`).
-/

namespace EntityQuery

open EntityQuery.Sql (Expr Query Cte SelectItem OrderItem Dialect)

variable {m : Model} {ctes : List Cte} {vis : List String}

/-! ## Objects -/

namespace JsonTree

variable {P : Expr → Prop}

mutual

/-- Every value in the tree has the property. -/
def All (P : Expr → Prop) : JsonTree → Prop
  | .leaf e => P e
  | .object fields => AllFields P fields

def AllFields (P : Expr → Prop) : Fields → Prop
  | [] => True
  | (_, tree) :: rest => tree.All P ∧ AllFields P rest

end

theorem allFields_append {fields rest : Fields} (h : AllFields P fields)
    (hrest : AllFields P rest) : AllFields P (fields ++ rest) := by
  induction fields with
  | nil => exact hrest
  | cons field fields ih => exact ⟨h.1, ih h.2⟩

theorem allFields_changeObject {name : String} {change : Fields → Fields} {fields : Fields}
    (hchange : ∀ fields, AllFields P fields → AllFields P (change fields))
    (h : AllFields P fields) : AllFields P (changeObject name change fields) := by
  fun_induction changeObject name change fields with
  | case1 => exact ⟨hchange [] ⟨⟩, ⟨⟩⟩
  | case2 n e rest ih => exact ⟨h.1, ih h.2⟩
  | case3 fields rest => exact ⟨hchange fields h.1, h.2⟩
  | case4 n fields rest _ ih => exact ⟨h.1, ih h.2⟩

theorem allFields_insert {e : Expr} (he : P e) (key : List String) {fields : Fields}
    (h : AllFields P fields) : AllFields P (insert e key fields) := by
  induction key generalizing fields with
  | nil => exact h
  | cons name rest ih =>
    cases rest with
    | nil => exact allFields_append h ⟨he, ⟨⟩⟩
    | cons => exact allFields_changeObject (fun _ => ih) h

theorem allFields_foldl {entries : List (Path × Expr)} (hentries : ∀ x ∈ entries, P x.2)
    {fields : Fields} (h : AllFields P fields) :
    AllFields P (entries.foldl (fun fields (key, e) => insert e key.segments fields) fields) := by
  induction entries generalizing fields with
  | nil => exact h
  | cons entry entries ih =>
    rw [List.forall_mem_cons] at hentries
    exact ih hentries.2 (allFields_insert hentries.1 _ h)

mutual

/-- What holds of constants, and of calls with such arguments, holds of an object of such values. -/
theorem forall_expr (hliteral : ∀ l, P (.literal l))
    (hcall : ∀ name args, (∀ e ∈ args, P e) → P (.apply name args)) (object : String)
    (tree : JsonTree) (h : tree.All P) : P (tree.expr object) := by
  match tree with
  | .leaf e => exact h
  | .object fields => exact hcall object _ (forall_args hliteral hcall object fields h)

theorem forall_args (hliteral : ∀ l, P (.literal l))
    (hcall : ∀ name args, (∀ e ∈ args, P e) → P (.apply name args)) (object : String)
    (fields : Fields) (h : AllFields P fields) : ∀ e ∈ args object fields, P e := by
  match fields with
  | [] => simp [args]
  | (name, tree) :: rest =>
    rw [args, List.forall_mem_cons, List.forall_mem_cons]
    exact ⟨hliteral _, forall_expr hliteral hcall object tree h.1,
      forall_args hliteral hcall object rest h.2⟩

end

end JsonTree

/-! ## Levels -/

/-- Constants have the property, and so do calls with such arguments. -/
structure Sql.Expr.Calls (P : Expr → Prop) : Prop where
  literal : ∀ l, P (.literal l)
  call : ∀ {name args distinct}, (∀ e ∈ args, P e) → P (.call name args distinct)

namespace Level

variable {l : Level}

/-- Orders are selected or referred to by a label. Those that are added to the select list stand at
its end. -/
theorem exists_coverOrder {P : Expr → Prop} (hlabel : ∀ label, P (.column ⟨none, label⟩)) (i : Nat)
    (items : List SelectItem) {orderBy : List OrderItem} (h : ∀ o ∈ orderBy, P o.expr) :
    ∃ added, (coverOrder i items orderBy).1 = items ++ added ∧ (∀ x ∈ added, P x.expr) ∧
      (∀ o ∈ (coverOrder i items orderBy).2, P o.expr) ∧ added.length ≤ orderBy.length ∧
      (coverOrder i items orderBy).2.length = orderBy.length := by
  induction orderBy generalizing i items with
  | nil => exact ⟨[], by simp [coverOrder]⟩
  | cons o rest ih =>
    rw [List.forall_mem_cons] at h
    rw [coverOrder]
    split
    · obtain ⟨added, hitems, hadded, horder, hle, hlength⟩ := ih (i + 1) items h.2
      exact ⟨added, hitems, hadded, List.forall_mem_cons.2 ⟨h.1, horder⟩, Nat.le_succ_of_le hle,
        congrArg (· + 1) hlength⟩
    · obtain ⟨added, hitems, hadded, horder, hle, hlength⟩ :=
        ih (i + 1) (items ++ [⟨o.expr, some ("o" ++ toString i)⟩]) h.2
      exact ⟨⟨o.expr, some ("o" ++ toString i)⟩ :: added,
        hitems.trans (List.append_assoc _ _ _), List.forall_mem_cons.2 ⟨h.1, hadded⟩,
        List.forall_mem_cons.2 ⟨hlabel _, horder⟩, Nat.succ_le_succ hle,
        congrArg (· + 1) hlength⟩

/-- Paging sets how many rows are taken and nothing else. -/
theorem exists_paging (paging : Option Paging) (q : Query) :
    ∃ top window, paging.elim q (·.apply q) = { q with top, window } := by
  rcases paging with _ | n | ⟨number, size⟩ | ⟨n, _ | offset⟩
  · exact ⟨q.top, q.window, by cases q; rfl⟩
  · exact ⟨_, _, rfl⟩
  · exact ⟨_, _, rfl⟩
  · exact ⟨_, _, rfl⟩
  · exact ⟨_, _, rfl⟩

/-- The query of a level, with the select list and the order as they are in it. -/
theorem exists_covered {P : Expr → Prop} (l : Level) (hlabel : ∀ label, P (.column ⟨none, label⟩))
    {items : List SelectItem} (hitems : ∀ x ∈ items, P x.expr)
    (horder : ∀ o ∈ l.orderBy, P o.expr) :
    ∃ items' orderBy top window,
      l.query items = l.scope.apply { l.base items' with orderBy, top, window } false ∧
      (∀ x ∈ items', P x.expr) ∧ ∀ o ∈ orderBy, P o.expr := by
  obtain ⟨items', orderBy, hq, hitems', horder'⟩ : ∃ items' orderBy,
      l.query items = l.scope.apply (l.paging.elim { l.base items' with orderBy }
        (·.apply { l.base items' with orderBy })) false ∧
      (∀ x ∈ items', P x.expr) ∧ ∀ o ∈ orderBy, P o.expr := by
    cases hdistinct : l.distinct with
    | true =>
      obtain ⟨added, hcover, hadded, horder', -⟩ := exists_coverOrder hlabel 0 items horder
      refine ⟨(coverOrder 0 items l.orderBy).1, (coverOrder 0 items l.orderBy).2,
        by simp only [Level.query, hdistinct, if_true], ?_, horder'⟩
      rw [hcover]
      exact List.forall_mem_append.2 ⟨hitems, hadded⟩
    | false => exact ⟨_, _, by simp only [Level.query, hdistinct]; rfl, hitems, horder⟩
  obtain ⟨top, window, hpaging⟩ := exists_paging l.paging { l.base items' with orderBy }
  rw [hpaging] at hq
  exact ⟨items', orderBy, top, window, hq, hitems', horder'⟩

/-- The values of a row of the level have the property `R`. It passes on to the query of the level,
as `Q`, and to the value that the level is in the row above it, as `O`. -/
structure Carries (l : Level) (R O : Expr → Prop) (Q : Query → Prop) : Prop where
  inner : Expr.Calls R
  outer : Expr.Calls O
  label : ∀ label, R (.column ⟨none, label⟩)
  entries : ∀ x ∈ l.entries, R x.2
  orderBy : ∀ o ∈ l.orderBy, R o.expr
  select : ∀ {items orderBy} top window, (∀ x ∈ items, R x.expr) → (∀ o ∈ orderBy, R o.expr) →
    Q (l.scope.apply { l.base items with orderBy, top, window } false)
  reshape : ∀ {q} top window forJson, Q q → Q { q with top, window, forJson }
  /-- The rows of a query as one array. -/
  array : ∀ {rows} function, Q rows → Q { Query.empty with
    items := [⟨.apply function [.ofTable "s" jsonColumn], none⟩]
    source := some (.derived rows "s") }
  subquery : ∀ {q}, Q q → O (.subquery q)

namespace Carries

variable {R O : Expr → Prop} {Q : Query → Prop} (h : l.Carries R O Q)

include h

theorem query {items : List SelectItem} (hitems : ∀ x ∈ items, R x.expr) : Q (l.query items) := by
  obtain ⟨items', orderBy, top, window, hquery, hitems', horder⟩ :=
    l.exists_covered h.label hitems h.orderBy
  rw [hquery]
  exact h.select top window hitems' horder

theorem queryJson (functions : Sql.JsonFunctions) : Q (l.query (l.jsonItems functions)) := by
  refine h.query (List.forall_mem_singleton.2 ?_)
  exact JsonTree.forall_expr h.inner.literal (fun _ _ => h.inner.call) _ _
    (JsonTree.allFields_foldl h.entries ⟨⟩)

theorem queryPaths (forJson : Option Sql.ForJson) : Q { l.query l.pathItems with forJson } := by
  refine h.reshape _ _ forJson (h.query fun x hx => ?_)
  obtain ⟨entry, hentry, rfl⟩ := List.mem_map.1 hx
  exact h.entries entry hentry

theorem atMostOne {q : Query} (hq : Q q) (toOne : Bool) : Q (l.atMostOne toOne q) := by
  rw [Level.atMostOne]
  split
  · exact h.reshape (some 1) q.window q.forJson hq
  · exact hq

/-- **A nested level is a value of the row above it.** -/
theorem nestedExpr (toOne : Bool) (d : Dialect) : O (l.nestedExpr toOne d) := by
  rw [Level.nestedExpr]
  split
  · rename_i functions _
    have hrows := h.atMostOne (h.queryJson functions) toOne
    dsimp only
    split
    · exact h.subquery hrows
    · exact h.outer.call (List.forall_mem_cons.2 ⟨h.subquery (h.array _ hrows),
        List.forall_mem_singleton.2 (h.outer.call (List.forall_mem_nil _))⟩)
  · have hrows := h.subquery (h.atMostOne (h.queryPaths (some ⟨toOne, true⟩)) toOne)
    dsimp only
    split
    · exact h.outer.call (List.forall_mem_singleton.2 hrows)
    · refine h.outer.call (List.forall_mem_singleton.2 (h.outer.call ?_))
      exact List.forall_mem_cons.2 ⟨hrows, List.forall_mem_singleton.2 (h.outer.literal _)⟩

/-- **The outermost level, in each of its shapes.** -/
theorem shaped (d : Dialect) : Q (l.shaped d).1 := by
  rw [Level.shaped]
  split
  · refine h.query (List.forall_mem_map.2 fun i hi => ?_)
    exact h.entries (i.key, i.expr) (List.mem_append_left _ (List.mem_map_of_mem hi))
  · split
    · exact h.queryJson _
    · exact h.queryPaths _

end Carries

/-! ## Scoped levels -/

theorem calls_scoped : Expr.Calls (Expr.Scoped m A ctes vis) :=
  ⟨(Expr.kept_scoped m A ctes vis).literal, Expr.scoped_call⟩

/-- Everything found for the level is scoped, where the conditions and the values may refer to the
rows around it. -/
structure Scoped (m : Model) (A : Prop) (ctes : List Cte) (vis : List String) (l : Level) :
    Prop where
  frame : (Frame.mk l.scope ctes).Scoped m A
  conditions : ∀ e ∈ l.conditions, e.Scoped m A ctes (l.scope.boundNames ++ vis)
  entries : ∀ x ∈ l.entries, x.2.Scoped m A ctes (l.scope.boundNames ++ vis)
  groupBy : ∀ c ∈ l.groupBy, (Expr.column c).Scoped m A ctes (l.scope.boundNames ++ vis)
  orderBy : ∀ o ∈ l.orderBy, o.expr.Scoped m A ctes (l.scope.boundNames ++ vis)

/-- The rows of a query as one array: they have a name of their own. -/
theorem scoped_array {rows : Query} (h : rows.Scoped m A ctes vis) (function : String) :
    ({ Query.empty with
      items := [⟨.apply function [.ofTable "s" jsonColumn], none⟩]
      source := some (.derived rows "s") } : Query).Scoped m A ctes vis := by
  have hitem : (Expr.apply function [.ofTable "s" jsonColumn]).Scoped m A ctes ("s" :: vis) :=
    Expr.scoped_call (List.forall_mem_singleton.2 (Expr.scoped_ofTable _ List.mem_cons_self))
  refine ⟨⟨rfl, h.closed, ⟨⟩, ⟨hitem.closed, ⟨⟩⟩, ⟨⟩, ⟨⟩, ⟨⟩, ⟨⟩⟩, fun x hx => ?_⟩
  rw [Sql.Query.selects_eq] at hx
  rcases List.mem_cons.1 hx with rfl | hx
  · have hnodup := List.nodup_singleton "s"
    exact fun _ hn => iff_of_true hnodup (not_doubles_of_nodup hn hnodup)
  · refine h.aliases x ?_
    simpa [Query.empty, Sql.selectsCtes, Sql.selectsItems, Sql.selectsSource, Sql.selectsJoins,
      Sql.selectsOption, Sql.selectsAll, Sql.selectsOrder, Expr.apply, Expr.selects,
      selects_ofTable] using hx

/-- **A scoped level** has a scoped query and is a scoped value. -/
theorem Scoped.carries (h : l.Scoped m A ctes vis) :
    l.Carries (Expr.Scoped m A ctes (l.scope.boundNames ++ vis)) (Expr.Scoped m A ctes vis)
      (Query.Scoped m A ctes vis) where
  inner := calls_scoped
  outer := calls_scoped
  label := Expr.scoped_label
  entries := h.entries
  orderBy := h.orderBy
  select top window hitems horder := by
    refine h.frame.apply rfl rfl rfl hitems (fun e he => ?_) (fun e he => ?_) horder
    · exact (Expr.kept_scoped m A ctes _).combine h.conditions e he
    · obtain ⟨c, hc, rfl⟩ := List.mem_map.1 he
      exact h.groupBy c hc
  reshape top window forJson hq := hq.reshape top window forJson
  array function hrows := scoped_array hrows function
  subquery hq := Expr.scoped_subquery hq

end Level

end EntityQuery
