import EntityQuery.Proofs.Scope.Closed
import EntityQuery.Proofs.Scope.Selects

/-!
# Aliases of a scope

Which aliases a scope gives to its tables. Its root and the link table beside it lie on one level,
everything joined by a walk lies below, and CTEs have names of their own (`Scope.Layered`). A join
is kept once for its key, so with a naming without collisions no alias is given twice, unless the
root of the scope is the child of a relationship whose link table has the same identity
(`Model.Doubles`).

**Runs.** Writing a predicate keeps the frame layered, and every SELECT that is written is one over
a layered scope (`Writes.layered`).
-/

namespace EntityQuery

open EntityQuery.Sql (Expr Query)

/-- A position of the model, below a root whose identity is never derived. -/
def Model.Position (m : Model) (t : Table) : Prop :=
  m.Covers t ∧ ∃ k, m.naming.Depth t.identity k

/-- The SELECT starts on the far side of a relationship whose link table has the identity of its
child. -/
def Model.Doubles (m : Model) (q : Query) : Prop :=
  ∃ t r, m.Position t ∧ m.Relates t r ∧ r.LinkClash ∧ r.labels.reverse <+: q.boundNames

/-- Given `A`, the SELECT gives no alias twice, apart from that. -/
def AliasesDiffer (m : Model) (A : Prop) (q : Query) : Prop :=
  A → m.naming.Faithful → (q.boundNames.Nodup ↔ ¬ m.Doubles q)

/-- What is joined under the key lies below the position, or is a CTE. -/
def JoinKey.Below (m : Model) (t : Table) : JoinKey → Prop
  | .table id => ∃ k l, k < l ∧ m.naming.Depth t.identity k ∧ m.naming.Depth id l
  | .cte name => ∃ i, name = Build.cteName i

/-- The aliases of the FROM item and of the link table. -/
def Scope.baseNames (s : Scope) : List String :=
  s.source.boundName :: s.baseJoins.map (·.table.boundName)

structure Scope.Layered (m : Model) (s : Scope) : Prop where
  root : m.Position s.root
  base : ∀ name ∈ s.baseNames, ∃ id k, name = m.naming.tableAlias id ∧
    m.naming.Depth id k ∧ m.naming.Depth s.root.identity k
  baseApart : m.naming.Faithful → s.baseNames.Nodup ∨
    ∃ t r, m.Position t ∧ m.Relates t r ∧ r.LinkClash ∧ r.labels.reverse = s.baseNames
  keyed : ∀ j ∈ s.joins, j.join.table.boundName = j.key.name m
  keys : (s.joins.map (·.key)).Nodup
  below : ∀ key ∈ s.joins.map (·.key), key.Below m s.root

variable {m : Model} {s s' : Scope} {t : Table} {r : Relationship} {f g : Frame}
  {hops : List Relationship} {origin : JoinOrigin} {q : Query} {A : Prop}

theorem Model.Position.child (ht : m.Position t) (hr : m.Relates t r) : m.Position r.child :=
  ⟨hr.covers_child, ht.2.imp' (· + 1) fun _ => hr.depth_child⟩

theorem Model.Position.endOf (ht : m.Position t) (hwalk : m.Walk t hops) :
    m.Position (Model.endOf t hops) := by
  induction hwalk with
  | nil => exact ht
  | cons hr _ ih =>
    rw [Model.endOf_cons]
    exact ih (ht.child hr)

/-! ## Distinct aliases -/

theorem Model.Relates.nodup_labels_iff (hr : m.Relates t r) (hn : m.naming.Faithful) :
    r.labels.Nodup ↔ ¬ r.LinkClash := by
  rw [hr.labels_eq, List.nodup_map_iff hn.tableAlias, hr.nodup_identities_iff hn.derive]

theorem not_doubles_of_nodup (hn : m.naming.Faithful) (h : q.boundNames.Nodup) : ¬ m.Doubles q := by
  intro hex
  obtain ⟨t, r, -, hr, hclash, hprefix⟩ := hex
  refine (hr.nodup_labels_iff hn).1 ?_ hclash
  exact List.nodup_reverse.1 (h.sublist hprefix.sublist)

theorem not_doubles_of_names (h : ∀ e ∈ m.entities, e.name ≠ "link:") : ¬ m.Doubles q := by
  intro hex
  obtain ⟨t, r, ht, hr, ⟨hname, -⟩, -⟩ := hex
  rw [hr.parent_eq] at hname
  exact h t.entity ht.1 hname

theorem JoinKey.name_inj (hn : m.naming.Faithful) {a b : JoinKey} (ha : a.Below m t)
    (hb : b.Below m t) (h : a.name m = b.name m) : a = b := by
  cases a with
  | table id =>
    cases b with
    | table id' => rw [hn.tableAlias h]
    | cte name =>
      obtain ⟨i, rfl⟩ := hb
      exact absurd h (hn.ne_cteName _ _)
  | cte name =>
    cases b with
    | table id =>
      obtain ⟨i, rfl⟩ := ha
      exact absurd h.symm (hn.ne_cteName _ _)
    | cte name' => exact congrArg JoinKey.cte h

namespace Scope.Layered

theorem boundNames_eq (h : s.Layered m) :
    s.boundNames = s.baseNames ++ (s.joins.map (·.key)).map (·.name m) := by
  rw [List.map_map, boundNames, baseNames, List.cons_append]
  exact congrArg (_ :: _ ++ ·) (List.map_congr_left h.keyed)

/-- What is joined has aliases of its own. -/
theorem nodup (h : s.Layered m) (hn : m.naming.Faithful) (hbase : s.baseNames.Nodup) :
    s.boundNames.Nodup := by
  rw [h.boundNames_eq, List.nodup_append']
  refine ⟨hbase, h.keys.map_on fun a ha b hb => ?_, fun name hname hjoin => ?_⟩
  · exact JoinKey.name_inj hn (h.below a ha) (h.below b hb)
  obtain ⟨id, k, rfl, hid, hroot⟩ := h.base name hname
  obtain ⟨key, hkey, hname⟩ := List.mem_map.1 hjoin
  have hbelow := h.below key hkey
  cases key with
  | table id' =>
    obtain ⟨k', l, hlt, hroot', hid'⟩ := hbelow
    rw [hn.tableAlias hname] at hid'
    have := hroot.unique hn.derive hroot'
    have := hid.unique hn.derive hid'
    omega
  | cte name =>
    obtain ⟨i, rfl⟩ := hbelow
    exact hn.ne_cteName _ _ hname.symm

/-- **A query over a layered scope gives no alias twice**, unless it starts at a doubled link. -/
theorem aliasesDiffer (h : A → s.Layered m) (hjoins : q.joins = []) :
    AliasesDiffer m A (s.apply q false) := by
  intro hA hn
  specialize h hA
  have hnames := s.boundNames_apply hjoins
  refine ⟨not_doubles_of_nodup hn, fun hsingle => ?_⟩
  rw [hnames]
  rcases h.baseApart hn with hbase | ⟨t, r, ht, hr, hclash, hlabels⟩
  · exact h.nodup hn hbase
  · refine absurd ⟨t, r, ht, hr, hclash, ?_⟩ hsingle
    rw [hnames, hlabels, h.boundNames_eq]
    exact List.prefix_append _ _

/-! ## Joins -/

theorem addJoin {new : ScopedJoin} (h : s.Layered m)
    (hkey : new.join.table.boundName = new.key.name m) (hbelow : new.key.Below m s.root) :
    (s.addJoin new).Layered m where
  root := h.root
  base := h.base
  baseApart := h.baseApart
  keyed := by
    intro j hj
    rcases mem_addTo hj with ⟨i, hi, hik, hij⟩ | rfl
    · rw [← hik, ← hij]
      exact h.keyed i hi
    · exact hkey
  keys := by
    rw [Scope.addJoin, map_key_addTo]
    split
    · exact h.keys
    · rename_i hnew
      rw [← List.concat_eq_append]
      exact h.keys.concat hnew
  below := by
    intro key hmem
    rw [Scope.addJoin, map_key_addTo] at hmem
    split at hmem
    · exact h.below key hmem
    · rcases List.mem_append.1 hmem with hmem | hmem
      · exact h.below key hmem
      · rw [List.mem_singleton.1 hmem]
        exact hbelow

theorem foldl {news : List ScopedJoin} (h : s.Layered m)
    (hnews : ∀ new ∈ news,
      new.join.table.boundName = new.key.name m ∧ new.key.Below m s.root) :
    (news.foldl Scope.addJoin s).Layered m := by
  induction news generalizing s with
  | nil => exact h
  | cons new news ih =>
    rw [List.forall_mem_cons] at hnews
    obtain ⟨⟨hkey, hbelow⟩, hnews⟩ := hnews
    exact ih (h.addJoin hkey hbelow) hnews

/-- What a walk from the root joins lies below it. -/
theorem joinHops (h : s.Layered m) (hwalk : m.Walk s.root hops)
    (hs : s.joinHops hops origin = .ok s') : s'.Layered m := by
  rw [joinHops_eq_ok hs]
  obtain ⟨k, hk⟩ := h.root.2
  refine h.foldl fun new hnew => ?_
  obtain ⟨r, hr, hnew⟩ := List.mem_flatMap.1 hnew
  obtain ⟨j, hj, rfl⟩ := List.mem_map.1 hnew
  obtain ⟨u, -, hu⟩ := hwalk.relates h.root.1 r hr
  obtain ⟨l, hl, hdepth⟩ := hwalk.depth hk j (List.mem_flatMap.2 ⟨r, hr, hj⟩)
  exact ⟨hu.label_eq hj, k, l, hl, hk, hdepth⟩

theorem joinCte (h : s.Layered m) (i : Nat) (r : Relationship) (origin : JoinOrigin) :
    (s.joinCte (Build.cteName i) (.eq (.ofTable (Build.cteName i) linkColumn) r.parentKey)
      origin).Layered m :=
  h.addJoin rfl ⟨i, rfl⟩

end Scope.Layered

/-! ## New scopes -/

theorem Scope.layered_ofTable (ht : m.Position t) : (Scope.ofTable m t).Layered m where
  root := ht
  base := by
    obtain ⟨k, hk⟩ := ht.2
    intro name hname
    exact ⟨t.identity, k, List.mem_singleton.1 hname, hk, hk⟩
  baseApart _ := .inl (List.nodup_singleton _)
  keyed := by simp [ofTable]
  keys := List.nodup_nil
  below := by simp [ofTable]

/-- The link table stands beside the child. -/
theorem Scope.layered_ofRelationship (ht : m.Position t) (hr : m.Relates t r) :
    (Scope.ofRelationship r).Layered m := by
  have hnames : (Scope.ofRelationship r).baseNames = r.labels.reverse := by
    cases hlink : r.linkJoin with
    | none => simp [Relationship.labels, Relationship.joins, baseNames, ofRelationship, hlink,
        JoinStep.tableRef, Sql.TableRef.boundName]
    | some link => simp [Relationship.labels, Relationship.joins, baseNames, ofRelationship, hlink,
        JoinStep.tableRef, Sql.TableRef.boundName]
  obtain ⟨k, hk⟩ := ht.2
  refine ⟨ht.child hr, fun name hname => ?_, fun hn => ?_,
    by simp [ofRelationship], List.nodup_nil, by simp [ofRelationship]⟩
  · rw [hnames, List.mem_reverse] at hname
    obtain ⟨j, hj, rfl⟩ := List.mem_map.1 hname
    exact ⟨j.identity, k + 1, hr.label_eq hj, hr.depth hj hk, hr.depth_child hk⟩
  · rw [hnames, List.nodup_reverse, hr.nodup_labels_iff hn]
    by_cases hclash : r.LinkClash
    · exact .inr ⟨t, r, ht, hr, hclash, rfl⟩
    · exact .inl hclash

/-! ## Frames -/

/-- Given `A`, the scope is layered and no SELECT of a CTE gives an alias twice. -/
structure Frame.Layered (m : Model) (A : Prop) (f : Frame) : Prop where
  plain : f.scope.Plain
  scope : A → f.scope.Layered m
  ctes : ∀ c ∈ f.ctes, ∀ q ∈ c.query.selects, AliasesDiffer m A q

theorem Frame.Layered.joinHops (h : f.Layered m A) (hwalk : m.Walk f.scope.root hops)
    (hs : f.scope.joinHops hops origin = .ok s) : (Frame.mk s f.ctes).Layered m A :=
  ⟨h.plain.joinHops hs, fun hA => (h.scope hA).joinHops hwalk hs, h.ctes⟩

theorem selectsOver_layered {P : Table → Prop} (hP : A → ∀ t, P t → m.Position t) :
    SelectsOver m P (fun s => s.Plain ∧ (A → s.Layered m)) (AliasesDiffer m A) where
  plain h := h.1
  select h hjoins _ _ := Scope.Layered.aliasesDiffer h.2 hjoins
  ofTable ht := ⟨Scope.plain_ofTable m _, fun hA => Scope.layered_ofTable (hP hA _ ht)⟩
  ofRelationship h hwalk hr := ⟨Scope.plain_ofRelationship _, fun hA =>
    Scope.layered_ofRelationship ((h.2 hA).root.endOf hwalk) hr⟩
  joinHops h hwalk hs := ⟨h.1.joinHops hs, fun hA => (h.2 hA).joinHops hwalk hs⟩
  withKeys h := ⟨h.1.joinCte rfl, fun hA => (h.2 hA).joinCte _ _ _⟩

/-- **No SELECT of a predicate gives an alias twice.** -/
theorem Writes.layered {P : Table → Prop} {task : Task} {es : List Expr}
    (h : Writes m P task f es g) (hP : A → ∀ t, P t → m.Position t) (hf : f.Layered m A)
    (hplain : task.Plain) :
    g.Layered m A ∧ ∀ e ∈ es, ∀ q ∈ e.selects, AliasesDiffer m A q := by
  obtain ⟨⟨hscope, hctes⟩, hes⟩ :=
    h.over (selectsOver_layered hP) ⟨⟨hf.plain, hf.scope⟩, hf.ctes⟩ hplain
  exact ⟨⟨hscope.1, hscope.2, hctes⟩, hes⟩

end EntityQuery
