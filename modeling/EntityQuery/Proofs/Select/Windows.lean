import EntityQuery.Proofs.Select.Filtered
import EntityQuery.Proofs.Sql.Windows

/-!
# The windows of statements

Which part of its rows a query asks for is written into one SELECT of the statement, at every level:
the window that was asked for, or one row where a relationship leads to at most one and nothing else
was asked for. No other SELECT has a window.

**Predicates.** The SELECTs of conditions, of their CTEs and of orders by related rows take all rows
(`Writes.windowless`), so they do not count.

**Numbers.** A page begins behind all rows of the pages before it. Their number is saturated twice,
in 64 bits and in the 63 that databases count with, which comes to the same as once
(`saturated_rowsBefore`).

**Levels.** `Shows qs ws` says that the SELECTs are well formed and that their windows are `ws`, in
some order. The query of a level shows its own window and those of its select list
(`Level.Windowed.shows_query`), where the levels nested in it stand in a document or side by side
(`Level.Windowed.shows_jsonItems`, `Level.Windowed.shows_pathItems`). So a statement shows exactly
the windows that are asked for (`SelectQuery.windowed_assemble`).
-/

namespace EntityQuery

open Build
open EntityQuery.Sql (Expr Query Cte SelectItem OrderItem Dialect Source TableRef Extent)

variable {m : Model} {P : Table → Prop} {d : Dialect} {f g : Frame} {q : Query}
  {origin : JoinOrigin} {ctes : List Cte}

/-! ## SELECTs without a window -/

/-- The SELECT takes all rows. -/
def Sql.Query.Windowless (q : Query) : Prop := q.top = none ∧ q.window = none

def Sql.Expr.Windowless (e : Expr) : Prop := ∀ q ∈ e.selects, q.Windowless

theorem Sql.Expr.windowless_of_selects {e : Expr} (h : e.selects = []) : e.Windowless := by
  simp [Windowless, h]

theorem Sql.Expr.kept_windowless : Expr.Kept Expr.Windowless := Expr.kept_selects _

/-- No SELECT of the frame has a window. -/
structure Frame.Windowless (f : Frame) : Prop where
  plain : f.scope.Plain
  ctes : ∀ c ∈ f.ctes, ∀ q ∈ c.query.selects, q.Windowless

namespace Frame.Windowless

theorem joinHops {hops : List Relationship} {s : Scope} (h : f.Windowless)
    (hs : f.scope.joinHops hops origin = .ok s) : (Frame.mk s f.ctes).Windowless :=
  ⟨h.plain.joinHops hs, h.ctes⟩

end Frame.Windowless

theorem selectsOver_windowless : SelectsOver m P Scope.Plain Query.Windowless where
  plain h := h
  select _ _ htop hwindow := ⟨htop, hwindow⟩
  ofTable _ := Scope.plain_ofTable m _
  ofRelationship _ _ _ := Scope.plain_ofRelationship _
  joinHops h _ hs := h.joinHops hs
  withKeys h := h.joinCte rfl

/-- **No SELECT of a predicate has a window.** -/
theorem Writes.windowless {task : Task} {es : List Expr} (h : Writes m P task f es g)
    (hf : f.Windowless) (hplain : task.Plain) : g.Windowless ∧ ∀ e ∈ es, e.Windowless := by
  obtain ⟨⟨hscope, hctes⟩, hes⟩ := h.over selectsOver_windowless ⟨hf.plain, hf.ctes⟩ hplain
  exact ⟨⟨hscope, hctes⟩, hes⟩

theorem windowless_extremeQuery {many : Relationship} {after : List Relationship} {r : Resolution}
    {dir : Sql.SortDir} (hq : extremeQuery m many after r dir = .ok q) :
    ∀ s ∈ q.selects, s.Windowless := by
  obtain ⟨body, hbody, hq⟩ := bind_eq_ok.1 hq
  cases hq
  refine forall_selects_apply ((Scope.plain_ofRelationship many).joinHops hbody) rfl ⟨rfl, rfl⟩ ?_
  have hconditions : ∀ q ∈ Sql.selectsOption (Expr.combine .and
      (body.baseFilters ++ [many.correlation])), q.Windowless := by
    refine forall_selects_combine (List.forall_mem_append.2 ⟨fun e he => ?_, ?_⟩)
    · rw [(Scope.grows_joinHops hbody).baseFilters] at he
      exact Expr.windowless_of_selects (JoinStep.selects_filterExprs e he)
    · exact List.forall_mem_singleton.2 (Expr.windowless_of_selects rfl)
  simpa [Query.empty, Sql.selectsCtes, Sql.selectsItems, Sql.selectsAll, Sql.selectsOrder,
    Sql.selectsOption, Expr.apply, Sql.Expr.selects, Model.columnExpr, selects_ofTable]
    using hconditions

/-- No value of a level that nests nothing has a window, and no order has. -/
theorem admission_windowless : OrderAdmission m (fun _ => True) Frame.Windowless
    (fun _ => Expr.Windowless) (fun _ => Expr.Windowless) where
  grows _ he := he
  growsCondition _ he := he
  param _ v := Expr.kept_windowless.param v none
  star _ := Expr.windowless_of_selects rfl
  call h q hq := by
    obtain ⟨e, he, hq⟩ := Sql.mem_selectsAll.1 hq
    exact h e he q hq
  case hbranches hotherwise := by
    refine List.forall_mem_append.2 ⟨fun q hq => ?_, fun q hq => ?_⟩
    · obtain ⟨b, hb, hq | hq⟩ := Sql.mem_selectsBranches.1 hq
      · exact (hbranches b hb).1 q hq
      · exact (hbranches b hb).2 q hq
    · obtain ⟨e, he, hq⟩ := Sql.mem_selectsOption.1 hq
      exact hotherwise e he q hq
  always _ := Expr.windowless_of_selects rfl
  joinHops hf _ hs := hf.joinHops hs
  column _ _ _ := Expr.windowless_of_selects rfl
  condition hp origin f e g hf he := by
    obtain ⟨hg, hes⟩ := (writes_compile hp he).windowless hf ⟨⟩
    exact ⟨grows_compile he, hg, fun x hx => hes x (Option.mem_toList.2 hx)⟩
  parentColumn _ _ := Expr.windowless_of_selects rfl
  extreme _ _ _ _ hq := windowless_extremeQuery hq

/-! ## Orders -/

/-- **Every order that was asked for is written.** -/
theorem Ordered.length_foldlM {acc acc' : Ordered} {nested : List NestedItem}
    {orders : List OrderBy} (h : (orders.foldlM (Ordered.add m nested) acc).Gives f acc' g) :
    acc'.orderBy.length = acc.orderBy.length + orders.length := by
  induction orders generalizing f acc with
  | nil =>
    obtain ⟨rfl, rfl⟩ := gives_pure.1 h
    rfl
  | cons o orders ih =>
    rw [List.foldlM_cons, gives_bind] at h
    obtain ⟨acc₁, f₁, hadd, hrest⟩ := h
    have hlength : acc₁.orderBy.length = acc.orderBy.length + 1 := by
      obtain ⟨r, s, -, -, ⟨-, -, rfl⟩ | ⟨before, many, after, q, -, -, -, -, -, rfl⟩⟩ :=
        Ordered.gives_add hadd
      · exact List.length_append
      · exact List.length_append
    rw [ih hrest, hlength, List.length_cons]
    omega

/-- A window always has an order: the one that was asked for, or one of its own. -/
theorem ordersOf_ne_nil {root : Table} {order orders : List OrderBy} {paging : Option Paging}
    (h : ordersOf root order paging = .ok orders) (hwindow : paging.any (·.isWindow)) :
    orders ≠ [] := by
  cases paging with
  | none => simp at hwindow
  | some w =>
    rcases ordersOf_window hwindow h with ⟨hne, rfl⟩ | ⟨-, o, -, rfl⟩
    · exact hne
    · simp

/-! ## The windows of SELECTs -/

theorem Sql.Query.with_ctes (h : q.ctes = ctes) : { q with ctes } = q := by
  cases q
  cases h
  rfl

theorem Sql.Query.with_forJson {forJson : Option Sql.ForJson} (h : q.forJson = forJson) :
    { q with forJson } = q := by
  cases q
  cases h
  rfl

/-- The SELECT has one kind of window at most, and an order if it has one at the end. -/
structure Sql.Query.Formed (q : Query) : Prop where
  single : q.top = none ∨ q.window = none
  ordered : q.Ordered

theorem Sql.Query.Windowless.formed (h : q.Windowless) : q.Formed :=
  ⟨.inl h.1, fun hne => absurd h.2 hne⟩

theorem Sql.Query.Windowless.extent (h : q.Windowless) : q.extent = .all := by
  simp [Query.extent, Extent.all, h.1, h.2, Sql.rowCount]

/-- The windows of SELECTs, each with the rows that it is taken from. -/
def windowsOf (qs : List Query) : List (Option Source × Extent) :=
  (qs.map fun q => (q.source, q.extent)).filter (·.2 ≠ .all)

theorem windowsOf_append (qs rs : List Query) :
    windowsOf (qs ++ rs) = windowsOf qs ++ windowsOf rs := by
  simp [windowsOf]

theorem windowsOf_windowless {qs : List Query} (h : ∀ q ∈ qs, q.Windowless) :
    windowsOf qs = [] := by
  rw [windowsOf, List.filter_eq_nil_iff, List.forall_mem_map]
  intro q hq
  simp [(h q hq).extent]

/-- The SELECTs are well formed, and their windows are these, in some order. -/
structure Shows (qs : List Query) (ws : List (Option Source × Extent)) : Prop where
  formed : ∀ q ∈ qs, q.Formed
  windows : (windowsOf qs).Perm ws

namespace Shows

variable {qs rs : List Query} {vs ws : List (Option Source × Extent)}

theorem append (h : Shows qs vs) (h' : Shows rs ws) : Shows (qs ++ rs) (vs ++ ws) where
  formed := List.forall_mem_append.2 ⟨h.formed, h'.formed⟩
  windows := by
    rw [windowsOf_append]
    exact h.windows.append h'.windows

theorem ofWindowless (h : ∀ q ∈ qs, q.Windowless) : Shows qs [] where
  formed q hq := (h q hq).formed
  windows := by rw [windowsOf_windowless h]

/-- A SELECT with a window in front. -/
theorem cons (hq : q.Formed) (h : Shows qs ws) : Shows (q :: qs) (windowsOf [q] ++ ws) := by
  have hfirst : Shows [q] (windowsOf [q]) := ⟨List.forall_mem_singleton.2 hq, .refl _⟩
  exact hfirst.append h

/-- The windows are read off the tokens of the SELECTs. -/
theorem read (h : Shows qs ws) (d : Dialect) :
    ((qs.map fun q => (q.source, Extent.read (q.tokens d))).filter (·.2 ≠ .all)).Perm ws := by
  have hsame : (qs.map fun q => (q.source, Extent.read (q.tokens d))) =
      qs.map fun q => (q.source, q.extent) :=
    List.map_congr_left fun q hq => by rw [q.read_tokens d (h.formed q hq).single]
  rw [hsame]
  exact h.windows

end Shows

/-! ## The windows that are asked for -/

/-- A number of rows, or the largest that databases count with. -/
def saturated (n : Nat) : Int := min n (2 ^ 63 - 1)

/-- The rows of a page, from one on, or those behind an offset. -/
def Paging.extent : Paging → Extent
  | top n => ⟨[saturated n], 0⟩
  | page number size => ⟨[saturated size], saturated ((number - 1) * size)⟩
  | limit n offset => ⟨[saturated n], saturated offset⟩

/-- The rows of a level: those that are asked for, or else one where there is at most one. -/
def extentOf (paging : Option Paging) (toOne : Bool) : Extent :=
  paging.elim (if toOne then ⟨[1], 0⟩ else .all) (·.extent)

/-- A window over a table, if it leaves out any rows. -/
def windowAt (source : TableRef) (x : Extent) : List (Option Source × Extent) :=
  if x = .all then [] else [(some (.table source), x)]

theorem windowsOf_singleton {source : TableRef} (h : q.source = some (.table source)) :
    windowsOf [q] = windowAt source q.extent := by
  by_cases hall : q.extent = .all <;> simp [windowsOf, windowAt, h, hall]

theorem rowCount_eq_saturated (n : Nat) : (Sql.rowCount n : Int) = saturated n := by
  have h63 : twoPow 63 = 2 ^ 63 := rfl
  rw [Sql.rowCount, saturated, h63]
  omega

/-- **Saturating twice is saturating once.** -/
theorem saturated_rowsBefore (number size : Nat) :
    saturated (rowsBefore number size) = saturated ((number - 1) * size) := by
  rw [saturated, saturated, rowsBefore]
  omega

/-- Paging gives a query one window at most, and that is the one asked for. -/
theorem Paging.exists_window (paging : Option Paging) (hq : q.Windowless) :
    ∃ top window, paging.elim q (·.apply q) = { q with top, window } ∧
      (top = none ∨ window = none) ∧ (window ≠ none → paging.any (·.isWindow)) ∧
      { q with top, window }.extent = extentOf paging false ∧
      (paging = none → top = none ∧ window = none) := by
  obtain ⟨htop, hwindow⟩ := hq
  rcases paging with _ | n | ⟨number, size⟩ | ⟨n, _ | offset⟩
  · refine ⟨q.top, q.window, by cases q; rfl, .inl htop, fun hne => absurd hwindow hne, ?_,
      fun _ => ⟨htop, hwindow⟩⟩
    exact Sql.Query.Windowless.extent ⟨htop, hwindow⟩
  · refine ⟨some n, q.window, rfl, .inr hwindow, fun hne => absurd hwindow hne, ?_, by simp⟩
    simp [Query.extent, hwindow, rowCount_eq_saturated, extentOf, extent]
    rfl
  · refine ⟨q.top, _, rfl, .inl htop, fun _ => rfl, ?_, by simp⟩
    simp [Query.extent, htop, rowCount_eq_saturated, saturated_rowsBefore, extentOf, extent]
  · refine ⟨q.top, _, rfl, .inl htop, fun _ => rfl, ?_, by simp⟩
    simp [Query.extent, htop, rowCount_eq_saturated, extentOf, extent]
  · refine ⟨q.top, _, rfl, .inl htop, fun _ => rfl, ?_, by simp⟩
    simp [Query.extent, htop, rowCount_eq_saturated, extentOf, extent]

mutual

/-- The windows that a node asks for, level by level. -/
def SelectNode.windows : SelectNode → List (Option Source × Extent)
  | .nested _ r query => query.windowsAt r.childJoin.tableRef (!r.fansOut)
  | .column .. | .function .. | .case .. => []

def windowsAll : List SelectNode → List (Option Source × Extent)
  | [] => []
  | node :: rest => node.windows ++ windowsAll rest

/-- The window of a query over a table, and those of the queries nested in it. -/
def SelectQuery.windowsAt (q : SelectQuery) (source : TableRef) (toOne : Bool) :
    List (Option Source × Extent) :=
  match q with
  | ⟨_, nodes, _, _, paging, _, _, _⟩ =>
    windowAt source (extentOf paging toOne) ++ windowsAll nodes

end

theorem SelectQuery.windowsAt_eq (q : SelectQuery) (source : TableRef) (toOne : Bool) :
    q.windowsAt source toOne = windowAt source (extentOf q.paging toOne) ++ windowsAll q.nodes := by
  cases q
  rw [windowsAt]

/-! ## Levels -/

/-- Nothing found for the level has a window but the levels nested in it, which show `ws`. -/
structure Level.Windowed (l : Level) (ws : List (Option Source × Extent)) : Prop where
  plain : l.scope.Plain
  conditions : ∀ e ∈ l.conditions, e.Windowless
  items : ∀ i ∈ l.items, i.expr.Windowless
  nested : Shows (l.nested.flatMap (·.expr.selects)) ws
  keys : ∀ n ∈ l.nested, n.key.segments ≠ []
  orderBy : ∀ o ∈ l.orderBy, o.expr.Windowless
  ordered : l.paging.any (·.isWindow) → l.orderBy ≠ []

namespace Level

variable {l : Level} {vs ws : List (Option Source × Extent)} {items : List SelectItem}

theorem selectsItems_append (xs ys : List SelectItem) :
    Sql.selectsItems (xs ++ ys) = Sql.selectsItems xs ++ Sql.selectsItems ys := by
  induction xs with
  | nil => rfl
  | cons x xs ih =>
    cases x
    simp [Sql.selectsItems, ih]

/-- The query selects from the rows of the level, and its clauses show `vs`. -/
structure SelectsFrom (l : Level) (vs : List (Option Source × Extent)) (q : Query) : Prop where
  source : q.source = some (.table l.scope.source)
  joins : q.joins = l.scope.joinsFor false
  condition : q.condition = Expr.combine .and l.conditions
  groupBy : q.groupBy = l.groupBy.map .column
  having : q.having = none
  items : Shows (Sql.selectsItems q.items) vs
  orderBy : ∀ o ∈ q.orderBy, o.expr.Windowless

/-- **The query of a level** selects from its rows, in the window that is asked for. -/
theorem Windowed.query (h : l.Windowed ws) (hitems : Shows (Sql.selectsItems items) vs) :
    l.SelectsFrom vs (l.query items) ∧ (l.query items).Formed ∧
      (l.query items).extent = extentOf l.paging false ∧
      (l.paging = none → (l.query items).Windowless) := by
  obtain ⟨items', orderBy, hquery, hitems', horder, hordered⟩ : ∃ items' orderBy,
      l.query items = l.scope.apply (l.paging.elim { l.base items' with orderBy }
        (·.apply { l.base items' with orderBy })) false ∧
      Shows (Sql.selectsItems items') vs ∧ (∀ o ∈ orderBy, o.expr.Windowless) ∧
      (l.orderBy ≠ [] → orderBy ≠ []) := by
    cases hdistinct : l.distinct with
    | true =>
      obtain ⟨added, hcover, hadded, horder, -, hlength⟩ :=
        exists_coverOrder (fun _ => Expr.windowless_of_selects rfl) 0 items h.orderBy
      refine ⟨(coverOrder 0 items l.orderBy).1, (coverOrder 0 items l.orderBy).2,
        by simp only [Level.query, hdistinct, if_true], ?_, horder, ?_⟩
      · have hrest : Shows (Sql.selectsItems added) [] := Shows.ofWindowless fun q hq => by
          obtain ⟨x, hx, hq⟩ := Sql.mem_selectsItems.1 hq
          exact hadded x hx q hq
        rw [hcover, selectsItems_append]
        simpa using hitems.append hrest
      · rw [← List.length_pos_iff, ← List.length_pos_iff, hlength]
        exact id
    | false =>
      exact ⟨items, l.orderBy, by simp only [Level.query, hdistinct]; rfl, hitems, h.orderBy, id⟩
  obtain ⟨top, window, hpaging, hsingle, hwindow, hextent, hnone⟩ :=
    Paging.exists_window l.paging (q := { l.base items' with orderBy }) ⟨rfl, rfl⟩
  rw [hquery, hpaging]
  exact ⟨⟨rfl, rfl, rfl, rfl, rfl, hitems', horder⟩,
    ⟨hsingle, fun hne => hordered (h.ordered (hwindow hne))⟩, hextent, hnone⟩

/-- What stands inside a SELECT of the level does not depend on its window. -/
theorem Windowed.shows_selects (h : l.Windowed ws) (hq : l.SelectsFrom vs q)
    (hctes : ∀ c ∈ q.ctes, ∀ s ∈ c.query.selects, s.Windowless) (hformed : q.Formed) :
    Shows q.selects (windowAt l.scope.source q.extent ++ vs) := by
  have hctes : Shows (Sql.selectsCtes q.ctes) [] := .ofWindowless fun s hs => by
    obtain ⟨c, hc, hs⟩ := Sql.mem_selectsCtes.1 hs
    exact hctes c hc s hs
  have hjoins : Shows (Sql.selectsJoins q.joins) [] := .ofWindowless fun s hs => by
    obtain ⟨j, hj, hs⟩ := Sql.mem_selectsJoins.1 hs
    rw [hq.joins] at hj
    rw [h.plain j hj] at hs
    exact absurd hs List.not_mem_nil
  have hcondition : Shows (Sql.selectsOption q.condition) [] := by
    rw [hq.condition]
    exact .ofWindowless (forall_selects_combine h.conditions)
  have hgroup : Shows (Sql.selectsAll q.groupBy) [] := .ofWindowless fun s hs => by
    obtain ⟨e, he, hs⟩ := Sql.mem_selectsAll.1 hs
    rw [hq.groupBy] at he
    obtain ⟨c, -, rfl⟩ := List.mem_map.1 he
    exact absurd hs List.not_mem_nil
  have horder : Shows (Sql.selectsOrder q.orderBy) [] := .ofWindowless fun s hs => by
    obtain ⟨o, ho, hs⟩ := Sql.mem_selectsOrder.1 hs
    exact hq.orderBy o ho s hs
  have hrest := ((((hctes.append hq.items).append hjoins).append hcondition).append hgroup).append
    horder
  simp only [List.append_nil, List.nil_append] at hrest
  rw [Sql.Query.selects_eq, ← windowsOf_singleton hq.source]
  refine Shows.cons hformed ?_
  simpa only [hq.source, hq.having, Sql.selectsSource, Sql.selectsOption, List.append_nil] using
    hrest

/-- **A level shows its window** and those of its select list, in every form of its rows. -/
theorem Windowed.shows_query (h : l.Windowed ws) (hitems : Shows (Sql.selectsItems items) vs)
    (toOne : Bool) (forJson : Option Sql.ForJson)
    (hctes : ∀ c ∈ ctes, ∀ q ∈ c.query.selects, q.Windowless) :
    Shows { l.atMostOne toOne { l.query items with forJson } with ctes }.selects
      (windowAt l.scope.source (extentOf l.paging toOne) ++ vs) := by
  obtain ⟨hselects, hformed, hextent, hnone⟩ := h.query hitems
  rw [atMostOne]
  split
  · rename_i hone
    rw [Bool.and_eq_true, Option.isNone_iff_eq_none] at hone
    obtain ⟨rfl, hpaging⟩ := hone
    obtain ⟨htop, hwindow⟩ := hnone hpaging
    have hone : extentOf l.paging true =
        { l.query items with ctes, forJson, top := some 1 }.extent := by
      have hcount : Sql.rowCount 1 = 1 := rfl
      have hzero : Sql.rowCount 0 = 0 := rfl
      simp [extentOf, hpaging, Query.extent, hwindow, hcount, hzero]
    rw [hone]
    exact h.shows_selects
      ⟨hselects.source, hselects.joins, hselects.condition, hselects.groupBy, hselects.having,
        hselects.items, hselects.orderBy⟩ hctes ⟨.inr hwindow, fun hne => absurd hwindow hne⟩
  · rename_i hone
    have hsame : extentOf l.paging toOne = extentOf l.paging false := by
      cases hpaging : l.paging with
      | some paging => rfl
      | none =>
        cases toOne with
        | false => rfl
        | true => simp [hpaging] at hone
    rw [hsame, ← hextent]
    exact h.shows_selects
      ⟨hselects.source, hselects.joins, hselects.condition, hselects.groupBy, hselects.having,
        hselects.items, hselects.orderBy⟩ hctes ⟨hformed.single, hformed.ordered⟩

/-! ### Documents -/

/-- The windows in the values of an object. -/
def objectWindows (object : String) (fields : JsonTree.Fields) : List (Option Source × Extent) :=
  windowsOf (Sql.selectsAll (JsonTree.args object fields))

theorem objectWindows_cons (object name : String) (tree : JsonTree) (rest : JsonTree.Fields) :
    objectWindows object ((name, tree) :: rest) =
      windowsOf (tree.expr object).selects ++ objectWindows object rest := by
  rw [objectWindows, JsonTree.args, Sql.selectsAll, Sql.selectsAll, windowsOf_append,
    windowsOf_append]
  rfl

@[simp]
theorem objectWindows_nil (object : String) : objectWindows object [] = [] := rfl

theorem objectWindows_append (object : String) (xs ys : JsonTree.Fields) :
    objectWindows object (xs ++ ys) = objectWindows object xs ++ objectWindows object ys := by
  induction xs with
  | nil => rfl
  | cons field xs ih =>
    rw [List.cons_append, objectWindows_cons, objectWindows_cons, ih, List.append_assoc]

/-- What is added to one object is added to the whole. -/
theorem perm_changeObject (object name : String) {change : JsonTree.Fields → JsonTree.Fields}
    (hchange : ∀ fields,
      (objectWindows object (change fields)).Perm (vs ++ objectWindows object fields))
    (fields : JsonTree.Fields) :
    (objectWindows object (JsonTree.changeObject name change fields)).Perm
      (vs ++ objectWindows object fields) := by
  fun_induction JsonTree.changeObject name change fields with
  | case1 =>
    rw [objectWindows_cons, objectWindows_nil, List.append_nil]
    exact hchange []
  | case2 n e rest ih =>
    rw [objectWindows_cons, objectWindows_cons]
    exact (ih.append_left _).trans (List.perm_append_comm_assoc _ _ _)
  | case3 fields rest =>
    rw [objectWindows_cons, objectWindows_cons, ← List.append_assoc]
    exact (hchange fields).append_right _
  | case4 n fields rest _ ih =>
    rw [objectWindows_cons, objectWindows_cons]
    exact (ih.append_left _).trans (List.perm_append_comm_assoc _ _ _)

/-- A value is put at one place. Only a value without a place is dropped. -/
theorem perm_insert (object : String) {e : Expr} (key : List String) (fields : JsonTree.Fields)
    (hkey : key = [] → windowsOf e.selects = []) :
    (objectWindows object (JsonTree.insert e key fields)).Perm
      (windowsOf e.selects ++ objectWindows object fields) := by
  induction key generalizing fields with
  | nil =>
    rw [hkey rfl]
    exact .refl _
  | cons name rest ih =>
    cases rest with
    | nil =>
      rw [JsonTree.insert, objectWindows_append, objectWindows_cons]
      exact List.perm_append_comm.trans (by simp [objectWindows, JsonTree.args, JsonTree.expr,
        Sql.selectsAll, windowsOf])
    | cons member rest =>
      exact perm_changeObject object name (fun fields => ih fields (by simp)) fields

theorem perm_foldl_insert (object : String) {entries : List (Path × Expr)}
    (hentries : ∀ x ∈ entries, x.1.segments = [] → windowsOf x.2.selects = [])
    (fields : JsonTree.Fields) :
    (objectWindows object
      (entries.foldl (fun fields (key, e) => JsonTree.insert e key.segments fields) fields)).Perm
      (windowsOf (entries.flatMap (·.2.selects)) ++ objectWindows object fields) := by
  induction entries generalizing fields with
  | nil => exact .refl _
  | cons entry entries ih =>
    rw [List.forall_mem_cons] at hentries
    rw [List.foldl_cons, List.flatMap_cons, windowsOf_append, List.append_assoc]
    refine (ih hentries.2 _).trans ?_
    exact ((perm_insert object _ fields hentries.1).append_left _).trans
      (List.perm_append_comm_assoc _ _ _)

/-- The values of a level show the windows of the levels nested in it. -/
theorem Windowed.shows_entries (h : l.Windowed ws) :
    Shows (l.entries.flatMap (·.2.selects)) ws := by
  have hitems : Shows (l.items.flatMap (·.expr.selects)) [] := .ofWindowless fun q hq => by
    obtain ⟨i, hi, hq⟩ := List.mem_flatMap.1 hq
    exact h.items i hi q hq
  rw [entries, List.flatMap_append, List.flatMap_map, List.flatMap_map]
  exact hitems.append h.nested

theorem Windowed.shows_jsonItems (h : l.Windowed ws) (functions : Sql.JsonFunctions) :
    Shows (Sql.selectsItems (l.jsonItems functions)) ws := by
  have hentries := h.shows_entries
  rw [jsonItems, Sql.selectsItems, Sql.selectsItems, List.append_nil]
  constructor
  · refine JsonTree.forall_expr (P := fun e => ∀ q ∈ e.selects, q.Formed)
      (by simp [Sql.Expr.selects]) (fun _ args hargs q hq => ?_) functions.object _
      (JsonTree.allFields_foldl (fun x hx q hq => ?_) ⟨⟩)
    · obtain ⟨e, he, hq⟩ := Sql.mem_selectsAll.1 hq
      exact hargs e he q hq
    · exact hentries.formed q (List.mem_flatMap.2 ⟨x, hx, hq⟩)
  · refine (perm_foldl_insert functions.object (fun x hx hkey => ?_) []).trans ?_
    · rcases List.mem_append.1 hx with hx | hx
      · obtain ⟨i, hi, rfl⟩ := List.mem_map.1 hx
        exact windowsOf_windowless (h.items i hi)
      · obtain ⟨n, hn, rfl⟩ := List.mem_map.1 hx
        exact absurd hkey (h.keys n hn)
    · rw [objectWindows_nil, List.append_nil]
      exact hentries.windows

theorem Windowed.shows_pathItems (h : l.Windowed ws) :
    Shows (Sql.selectsItems l.pathItems) ws := by
  have heq : Sql.selectsItems l.pathItems = l.entries.flatMap (·.2.selects) := by
    rw [pathItems]
    induction l.entries with
    | nil => rfl
    | cons entry entries ih => rw [List.map_cons, Sql.selectsItems, ih, List.flatMap_cons]
  rw [heq]
  exact h.shows_entries

/-! ### Results -/

theorem ctes_query (items : List SelectItem) : (l.query items).ctes = [] := by
  obtain ⟨items', orderBy, hquery⟩ : ∃ items' orderBy, l.query items =
      l.scope.apply (l.paging.elim { l.base items' with orderBy }
        (·.apply { l.base items' with orderBy })) false := ⟨_, _, rfl⟩
  obtain ⟨top, window, hpaging⟩ := exists_paging l.paging { l.base items' with orderBy }
  rw [hquery, hpaging]
  rfl

/-- The rows of a nested level. -/
theorem Windowed.shows_rows (h : l.Windowed ws) (hitems : Shows (Sql.selectsItems items) vs)
    (toOne : Bool) (forJson : Option Sql.ForJson) :
    Shows (l.atMostOne toOne { l.query items with forJson }).selects
      (windowAt l.scope.source (extentOf l.paging toOne) ++ vs) := by
  have hctes : (l.atMostOne toOne { l.query items with forJson }).ctes = [] := by
    rw [atMostOne]
    split <;> exact ctes_query items
  rw [← Query.with_ctes hctes]
  exact h.shows_query hitems toOne forJson (List.forall_mem_nil _)

/-- **A nested level shows its window** once, as a document or as an array. -/
theorem Windowed.shows_nestedExpr (h : l.Windowed ws) (toOne : Bool) (d : Dialect) :
    Shows (l.nestedExpr toOne d).selects
      (windowAt l.scope.source (extentOf l.paging toOne) ++ ws) := by
  rw [nestedExpr]
  split
  · rename_i functions _
    have hrows := h.shows_rows (h.shows_jsonItems functions) toOne
      (l.query (l.jsonItems functions)).forJson
    rw [Query.with_forJson rfl] at hrows
    dsimp only
    split
    · exact hrows
    · have harray : Query.Windowless { Query.empty with
          items := [⟨.apply functions.arrayOfRows [.ofTable "s" jsonColumn], none⟩]
          source := some (.derived (l.atMostOne toOne (l.query (l.jsonItems functions))) "s") } :=
        ⟨rfl, rfl⟩
      have hshows := Shows.append (.ofWindowless (List.forall_mem_singleton.2 harray)) hrows
      simp only [Expr.apply, Sql.Expr.selects, Sql.selectsAll, List.append_nil]
      rw [Sql.Query.selects_eq]
      simpa [Query.empty, Expr.apply, Expr.ofTable, Sql.Expr.selects, Sql.selectsAll,
        Sql.selectsCtes, Sql.selectsItems, Sql.selectsSource, Sql.selectsJoins, Sql.selectsOption,
        Sql.selectsOrder] using hshows
  · have hrows := h.shows_rows h.shows_pathItems toOne (some ⟨toOne, true⟩)
    dsimp only
    split
    · simpa [Expr.apply, Sql.Expr.selects, Sql.selectsAll] using hrows
    · simpa [Expr.apply, Sql.Expr.selects, Sql.selectsAll] using hrows

/-- **A statement shows its window** and those of the levels nested in it. -/
theorem Windowed.shows_shaped (h : l.Windowed ws) (d : Dialect)
    (hctes : ∀ c ∈ ctes, ∀ q ∈ c.query.selects, q.Windowless) :
    Shows { (l.shaped d).1 with ctes }.selects
      (windowAt l.scope.source (extentOf l.paging false) ++ ws) := by
  have hshows {items : List SelectItem} (hitems : Shows (Sql.selectsItems items) ws)
      (forJson : Option Sql.ForJson) := h.shows_query hitems false forJson hctes
  rw [shaped]
  split
  · rename_i hnested
    have hitems : Shows (Sql.selectsItems (l.items.map fun i => ⟨i.expr, some i.label⟩)) ws := by
      have hempty : ws = [] := by
        have hperm := h.nested.windows
        rw [List.isEmpty_iff.1 hnested] at hperm
        exact List.nil_perm.1 hperm
      rw [hempty]
      refine .ofWindowless fun q hq => ?_
      obtain ⟨x, hx, hq⟩ := Sql.mem_selectsItems.1 hq
      obtain ⟨i, hi, rfl⟩ := List.mem_map.1 hx
      exact h.items i hi q hq
    have hquery := hshows hitems
      (l.query (l.items.map fun i => ⟨i.expr, some i.label⟩)).forJson
    rwa [Query.with_forJson rfl] at hquery
  · split
    · rename_i functions _
      have hquery := hshows (h.shows_jsonItems functions)
        (l.query (l.jsonItems functions)).forJson
      rwa [Query.with_forJson rfl] at hquery
    · exact hshows h.shows_pathItems _

end Level

/-! ## Assembling -/

/-- What the nodes contribute shows the windows. -/
structure Parts.Windowed (parts : Parts) (ws : List (Option Source × Extent)) : Prop where
  items : ∀ i ∈ parts.items, i.expr.Windowless
  nested : Shows (parts.nested.flatMap (·.expr.selects)) ws
  keys : ∀ n ∈ parts.nested, n.key.segments ≠ []

theorem Parts.Windowed.append {xs ys : Parts} {vs ws : List (Option Source × Extent)}
    (h : xs.Windowed vs) (h' : ys.Windowed ws) : (xs ++ ys).Windowed (vs ++ ws) where
  items := List.forall_mem_append.2 ⟨h.items, h'.items⟩
  nested := by
    rw [show (xs ++ ys).nested = xs.nested ++ ys.nested from rfl, List.flatMap_append]
    exact h.nested.append h'.nested
  keys := List.forall_mem_append.2 ⟨h.keys, h'.keys⟩

mutual

/-- **A node shows the windows that it asks for.** -/
theorem SelectNode.windowed_assemble (node : SelectNode) {parts : Parts} {f g : Frame}
    (hf : f.Windowless) (h : (node.assemble m d).Gives f parts g) :
    g.Windowless ∧ parts.Windowed node.windows := by
  match node with
  | .column .. | .function .. | .case .. =>
    obtain ⟨-, hg, item, fansOut, rfl, hitem, -⟩ :=
      admission_windowless.assemble (by simp) (t := f.scope.root)
        (by simp [SelectNode.Placed, Predicate.onTables_true]) hf h
    refine ⟨hg, List.forall_mem_singleton.2 hitem, ?_, List.forall_mem_nil _⟩
    rw [SelectNode.windows]
    exact .ofWindowless (List.forall_mem_nil _)
  | .nested path r query =>
    obtain ⟨route, s, level, inner, hroute, hs, hassemble, rfl, rfl⟩ := gives_assemble_nested h
    obtain ⟨hinner, hsource, hpaging, hlevel⟩ :=
      query.windowed_assemble (f := ⟨.ofRelationship r, f.ctes⟩)
        ⟨Scope.plain_ofRelationship r, hf.ctes⟩
        (fun e he => Expr.windowless_of_selects (JoinStep.selects_filterExprs e he))
        (fun e he => Option.some.inj he ▸ Expr.windowless_of_selects rfl) hassemble
    have hshows := hlevel.shows_nestedExpr (!r.fansOut) d
    refine ⟨⟨hf.plain.joinHops hs, hinner.ctes⟩, List.forall_mem_nil _, ?_, ?_⟩
    · rw [SelectNode.windows, SelectQuery.windowsAt_eq, ← hpaging]
      simpa [hsource, Scope.ofRelationship] using hshows
    · refine List.forall_mem_singleton.2 (List.length_pos_iff.1 ?_)
      exact Model.length_pos_of_resolveRelationship hroute

theorem windowed_assembleAll (nodes : List SelectNode) {parts : Parts} {f g : Frame}
    (hf : f.Windowless) (h : (assembleAll m d nodes).Gives f parts g) :
    g.Windowless ∧ parts.Windowed (windowsAll nodes) := by
  match nodes with
  | [] =>
    rw [assembleAll] at h
    obtain ⟨rfl, rfl⟩ := gives_pure.1 h
    rw [windowsAll]
    exact ⟨hf, List.forall_mem_nil _, .ofWindowless (List.forall_mem_nil _), List.forall_mem_nil _⟩
  | node :: rest =>
    obtain ⟨part, f₁, parts, hpart, hparts, rfl⟩ := gives_assembleAll_cons h
    obtain ⟨hf₁, hpart⟩ := node.windowed_assemble hf hpart
    obtain ⟨hg, hparts⟩ := windowed_assembleAll rest hf₁ hparts
    rw [windowsAll]
    exact ⟨hg, hpart.append hparts⟩

/-- **A level shows the windows that its nodes ask for**, and a window of its own has an order. -/
theorem SelectQuery.windowed_assemble (q : SelectQuery) {correlation : Option Expr} {l : Level}
    {f g : Frame} (hf : f.Windowless) (hbase : ∀ e ∈ f.scope.baseFilters, e.Windowless)
    (hcorrelation : ∀ e ∈ correlation, e.Windowless)
    (h : (q.assemble m d correlation).Gives f l g) :
    g.Windowless ∧ l.scope.source = f.scope.source ∧ l.paging = q.paging ∧
      l.Windowed (windowsAll q.nodes) := by
  have hgrows := q.grows_assemble h
  match q with
  | ⟨root, nodes, filter, order, paging, distinct, eagerDepth, ancestors⟩ =>
    obtain ⟨condition, f₁, parts, f₂, orders, ordered, hcondition, hparts, horders, hordered, -,
      rfl⟩ := SelectQuery.gives_assemble h
    obtain ⟨hf₁, hcondition⟩ :=
      (writes_filter (onTablesFilter_true filter) hcondition).windowless hf ⟨⟩
    obtain ⟨hf₂, hparts⟩ := windowed_assembleAll nodes hf₁ hparts
    have hlength := Ordered.length_foldlM hordered
    obtain ⟨-, hg, hordered⟩ := admission_windowless.foldlM hf₂ ⟨hparts.items,
      fun _ _ => Expr.windowless_of_selects rfl, List.forall_mem_nil _⟩ hordered
    refine ⟨hg, hgrows.scope.source, rfl, hg.plain, ?_, hordered.items, hparts.nested, hparts.keys,
      hordered.orderBy, fun hwindow => ?_⟩
    · refine List.forall_mem_append.2 ⟨List.forall_mem_append.2 ⟨?_, ?_⟩, hcondition⟩
      · rw [hgrows.scope.baseFilters]
        exact hbase
      · exact fun e he => hcorrelation e (Option.mem_toList.1 he)
    · have hpos := List.length_pos_iff.2 (ordersOf_ne_nil horders hwindow)
      refine List.length_pos_iff.1 ?_
      rw [hlength]
      exact Nat.lt_of_lt_of_le hpos (Nat.le_add_left _ _)

end

/-! ## Statements -/

/-- **The windows of a statement.** No SELECT of a statement is cut twice, and one with a window at
its end has an order, so nothing is ever ordered by `(SELECT NULL)`. The numbers that are read off
its SELECTs are those that were asked for, level by level, which no dialect changes: saturated once,
and one row where there is at most one. -/
theorem compile_windows {q : SelectQuery} {c : CompiledQuery} (hc : q.compile m d = .ok c) :
    (∀ s ∈ c.query.selects, (s.top = none ∨ s.window = none) ∧
      (s.window ≠ none → s.orderBy ≠ []) ∧ ∀ d', Extent.read (s.tokens d') = s.extent) ∧
    (∀ d', ¬ Sql.anyOrder <:+: c.query.tokens d') ∧
    ((c.query.selects.map fun s => (s.source, Extent.read (s.tokens d))).filter (·.2 ≠ .all)).Perm
      (q.windowsAt (m.tableRef q.root) false) := by
  obtain ⟨l, g, hassemble, rfl⟩ := SelectQuery.compile_eq_ok hc
  obtain ⟨hg, hsource, hpaging, hlevel⟩ := q.windowed_assemble
    (f := ⟨.ofTable m q.root, []⟩) ⟨Scope.plain_ofTable m q.root, List.forall_mem_nil _⟩
    (List.forall_mem_nil _) (by simp) hassemble
  have hshows := hlevel.shows_shaped d hg.ctes
  rw [hsource, hpaging, ← SelectQuery.windowsAt_eq] at hshows
  refine ⟨fun s hs => ?_, fun d' => ?_, hshows.read d⟩
  · have hformed := hshows.formed s hs
    exact ⟨hformed.single, hformed.ordered, fun d' => s.read_tokens d' hformed.single⟩
  · exact Sql.Query.not_anyOrder d' fun s hs => (hshows.formed s hs).ordered

namespace Shop

/-- The third of pages that are larger than any table, with the customers and some of the lines. -/
def thirdPage : Except QueryError SelectQuery := do
  let q ← (SelectQuery.ofTable orders).includeRelated (model plain) ⟨["customer"]⟩
  let lines ← q.focus (model plain) ⟨["lines"]⟩
  let inner ← lines.inner.withPaging (.limit 5 40)
  (lines.replace inner).withPaging (.page 3 (2 ^ 63))

end Shop

theorem compile_thirdPage_windows :
    ∃ q c, Shop.thirdPage = .ok q ∧ q.compile (Shop.model Shop.plain) .sqlServer = .ok c ∧
      ((c.query.selects.map fun s => Extent.read (s.tokens .sqlServer)).filter (· ≠ .all)).Perm
        [⟨[2 ^ 63 - 1], 2 ^ 63 - 1⟩, ⟨[1], 0⟩, ⟨[5], 40⟩] := by
  have hcompile : (Shop.thirdPage >>= fun q =>
      (q.compile (Shop.model Shop.plain) .sqlServer).map fun _ =>
        (q.windowsAt ((Shop.model Shop.plain).tableRef q.root) false).map (·.2)) =
      .ok [⟨[2 ^ 63 - 1], 2 ^ 63 - 1⟩, ⟨[1], 0⟩, ⟨[5], 40⟩] := by
    cbv
  obtain ⟨q, hq, hc⟩ := bind_eq_ok.1 hcompile
  obtain ⟨c, hc, hlisted⟩ := map_eq_ok.1 hc
  obtain ⟨-, -, hwindows⟩ := compile_windows hc
  refine ⟨q, c, hq, hc, ?_⟩
  rw [← hlisted]
  simpa [List.filter_map, Function.comp_def] using hwindows.map (·.2)

end EntityQuery
