import EntityQuery.Proofs.Graph.Cache
import EntityQuery.Proofs.Predicate.Failing
import EntityQuery.Proofs.Select.Apart
import EntityQuery.Proofs.Select.Filtered
import EntityQuery.QueryFile
import Mathlib.Data.List.Pairwise

/-!
# Conflicts of keys

In the document of a row every value has a place, and no place may lie inside another. A selection
of columns and documents under their own paths keeps to that at a level if the level is apart
(`SelectQuery.ApartHere`): columns do not lie on the way to anything, and what is selected for an
order is new and in no document.

**Errors.** So such a selection never fails for its keys (`SelectQuery.not_ofKeys_assemble`). And
one that is not apart is never written, whatever its filter and its order
(`SelectQuery.apart_of_assemble`).

**Files.** A query file is a run of calls with a filter, an order and a window (`QueryFile.calls`).
-/

namespace EntityQuery

open Build
open EntityQuery.Sql (Expr Dialect)

variable {m : Model} {d : Dialect} {t : Table} {f g : Frame} {e : QueryError}
  {correlation : Option Expr} {nodes : List SelectNode} {x : SelectQuery} {via : Path}

/-! ## Paths of columns -/

theorem Path.startsWith_iff {path : Path} :
    path.startsWith via = true ↔ path = via ∨ path.continues via = true := by
  rw [startsWith, List.isPrefixOf_iff_prefix, continues_iff]
  constructor
  · rintro ⟨rest, hrest⟩
    rcases rest with _ | ⟨a, rest⟩
    · left
      obtain ⟨segments⟩ := path
      exact congrArg Path.mk (by simpa using hrest.symm)
    · exact .inr ⟨a :: rest, by simp, hrest.symm⟩
  · rintro (rfl | ⟨rest, -, hrest⟩)
    · exact List.prefix_rfl
    · exact ⟨rest, hrest.symm⟩

namespace Model

theorem walk?_of_continues {path : Path} {hops : List Relationship} (h : m.walk? t path = some hops)
    (hbelow : path.continues via = true) : m.walk? t via ≠ none := by
  obtain ⟨rest, -, hpath⟩ := Path.continues_iff.1 hbelow
  rw [walk?, hpath] at h
  obtain ⟨hops₁, -, h₁, -⟩ := walkMembers?_append.1 h
  simp [walk?, h₁]

/-- On the way to a column there are relationships only. -/
theorem walk?_of_resolve {path : Path} {r : Resolution} (h : m.resolve t path = .ok r)
    (hbelow : path.continues via = true) : m.walk? t via ≠ none := by
  obtain ⟨rest, hne, hpath⟩ := Path.continues_iff.1 hbelow
  obtain ⟨segments⟩ := path
  change segments = _ at hpath
  obtain ⟨init, last, rfl⟩ : ∃ init last, rest = init ++ [last] :=
    ⟨_, _, (List.dropLast_append_getLast hne).symm⟩
  rw [← List.append_assoc] at hpath
  subst hpath
  obtain ⟨hops₁, -, h₁, -⟩ := walkMembers?_append.1 (resolve_concat_eq_ok h).1
  simp [walk?, h₁]

namespace Unambiguous

variable {path other : Path} {r r' : Resolution}

/-- A column lies on the way to no relationship. -/
theorem startsWith_relationship (hm : m.Unambiguous) (ht : m.Covers t)
    (h : m.resolve t path = .ok r) {route : Route}
    (hother : m.resolveRelationship t other = .ok route) : other.startsWith path = false := by
  have hnone := hm.walk?_eq_none ht h
  have hwalk := resolveRelationship_eq_ok hother
  rw [Bool.eq_false_iff]
  intro hstarts
  rcases Path.startsWith_iff.1 hstarts with rfl | hbelow
  · cases hnone.symm.trans hwalk
  · exact walk?_of_continues hwalk hbelow hnone

/-- A column lies on the way to no other. -/
theorem startsWith_column (hm : m.Unambiguous) (ht : m.Covers t) (h : m.resolve t path = .ok r)
    (hother : m.resolve t other = .ok r') (hne : other ≠ path) :
    other.startsWith path = false := by
  rw [Bool.eq_false_iff]
  intro hstarts
  rcases Path.startsWith_iff.1 hstarts with rfl | hbelow
  · exact hne rfl
  · exact walk?_of_resolve hother hbelow (hm.walk?_eq_none ht h)

end Unambiguous

end Model

/-! ## Values -/

/-- The values are columns under their own paths, different ones and none in a document. -/
structure KeyedItems (m : Model) (t : Table) (nested : List NestedItem) (items : List FlatItem) :
    Prop where
  column : ∀ i ∈ items, ∃ r, m.resolve t i.key = .ok r ∧ i.expr = m.columnExpr r.table r.column
  nodup : (items.map (·.key)).Nodup
  outside : ∀ i ∈ items, ∀ n ∈ nested, i.key.continues n.key = false

namespace KeyedItems

variable {nested : List NestedItem} {items : List FlatItem} {acc acc' : Ordered}

/-- **An order adds no column twice** and none to a document. -/
theorem add {o : OrderBy} (h : KeyedItems m f.scope.root nested acc.items)
    (hadd : (acc.add m nested o).Gives f acc' g) :
    KeyedItems m f.scope.root nested acc'.items := by
  obtain ⟨r, s, hresolve, -, ⟨-, -, rfl⟩ | ⟨before, many, after, q, -, -, -, -, -, rfl⟩⟩ :=
    Ordered.gives_add hadd
  · dsimp only
    split
    · rename_i hnew
      rw [Bool.and_eq_true, Bool.not_eq_true', Bool.not_eq_true', List.any_eq_false,
        List.any_eq_false] at hnew
      obtain ⟨hout, hnew⟩ := hnew
      have hkey : o.path ∉ acc.items.map (·.key) := by
        intro hmem
        obtain ⟨i, hi, hpath⟩ := List.mem_map.1 hmem
        obtain ⟨r', hr', hexpr⟩ := h.column i hi
        rw [hpath, hresolve] at hr'
        cases hr'
        exact hnew i hi (by simp [hexpr, Model.columnExpr, Expr.ofTable, Expr.eqv])
      refine ⟨?_, ?_, ?_⟩
      · rw [List.forall_mem_append, List.forall_mem_singleton]
        exact ⟨h.column, r, hresolve, rfl⟩
      · rw [List.map_append, List.nodup_append']
        exact ⟨h.nodup, List.nodup_singleton _, List.disjoint_singleton.2 hkey⟩
      · rw [List.forall_mem_append, List.forall_mem_singleton]
        refine ⟨h.outside, fun n hn => ?_⟩
        rw [Bool.eq_false_iff]
        exact fun hbelow => hout n hn (Path.startsWith_iff.2 (.inr hbelow))
    · rw [List.append_nil]
      exact h
  · exact h

theorem foldlM {orders : List OrderBy} (h : KeyedItems m f.scope.root nested acc.items)
    (horders : (orders.foldlM (Ordered.add m nested) acc).Gives f acc' g) :
    KeyedItems m f.scope.root nested acc'.items := by
  have hinv : g.scope.root = f.scope.root ∧ KeyedItems m f.scope.root nested acc'.items := by
    refine foldlM_induction
      (fun g acc => g.scope.root = f.scope.root ∧ KeyedItems m f.scope.root nested acc.items)
      (fun o _ f₁ acc₁ g acc₂ hinv hadd => ?_) ⟨rfl, h⟩ horders
    obtain ⟨hroot, hkeyed⟩ := hinv
    rw [← hroot] at hkeyed ⊢
    exact ⟨(Ordered.adds_add hadd).grows.scope.root, hkeyed.add hadd⟩
  exact hinv.2

/-- **No place lies inside another**, if that is so among the documents. -/
theorem checkKeys (h : KeyedItems m t nested items) (hm : m.Unambiguous) (ht : m.Covers t)
    (hroutes : ∀ n ∈ nested, ∃ route, m.resolveRelationship t n.key = .ok route)
    (hnested : (nested.map (·.key)).Pairwise fun key other =>
      key.startsWith other = false ∧ other.startsWith key = false) :
    checkKeys items nested = .ok () := by
  refine checkKeys_eq_ok.2 (List.pairwise_append.2 ⟨?_, hnested, ?_⟩)
  · refine h.nodup.imp_of_mem fun {key other} hkey hother hne => ?_
    obtain ⟨i, hi, rfl⟩ := List.mem_map.1 hkey
    obtain ⟨j, hj, rfl⟩ := List.mem_map.1 hother
    obtain ⟨r, hr, -⟩ := h.column i hi
    obtain ⟨r', hr', -⟩ := h.column j hj
    exact ⟨hm.startsWith_column ht hr' hr hne, hm.startsWith_column ht hr hr' (Ne.symm hne)⟩
  · intro key hkey other hother
    obtain ⟨i, hi, rfl⟩ := List.mem_map.1 hkey
    obtain ⟨n, hn, rfl⟩ := List.mem_map.1 hother
    obtain ⟨r, hr, -⟩ := h.column i hi
    obtain ⟨route, hroute⟩ := hroutes n hn
    have hback := hm.startsWith_relationship ht hr hroute
    refine ⟨?_, hback⟩
    rw [Bool.eq_false_iff]
    intro hstarts
    rcases Path.startsWith_iff.1 hstarts with heq | hbelow
    · rw [heq, Path.startsWith_iff.2 (.inl rfl)] at hback
      cases hback
    · rw [h.outside i hi n hn] at hbelow
      cases hbelow

end KeyedItems

/-- What plain nodes contribute: columns and documents under their own paths. -/
structure Parts.Keyed (m : Model) (t : Table) (nodes : List SelectNode) (parts : Parts) :
    Prop where
  items : parts.items.map (·.key) = nodes.filterMap (·.columnPath?)
  nested : parts.nested.map (·.key) = nodes.filterMap (·.nestedPath?)
  column : ∀ i ∈ parts.items,
    ∃ r, m.resolve t i.key = .ok r ∧ i.expr = m.columnExpr r.table r.column
  routes : ∀ n ∈ parts.nested, ∃ route, m.resolveRelationship t n.key = .ok route

theorem SelectNode.keyed_assemble {node : SelectNode} {parts : Parts} (hplain : node.Plain)
    (h : (node.assemble m d).Gives f parts g) : parts.Keyed m f.scope.root [node] := by
  cases node with
  | column path label =>
    obtain rfl : label = none := hplain
    obtain ⟨r, hr, rfl⟩ := gives_assemble_column h
    have hresolve := (gives_joinSelected hr).1
    exact ⟨rfl, rfl, List.forall_mem_singleton.2 ⟨r, hresolve, rfl⟩,
      by simp [Parts.ofItem, Parts.empty]⟩
  | nested path r query =>
    obtain ⟨route, s, level, inner, hroute, -, -, -, rfl⟩ := gives_assemble_nested h
    exact ⟨rfl, rfl, by simp [Parts.empty], List.forall_mem_singleton.2 ⟨route, hroute⟩⟩
  | function => cases hplain
  | case => cases hplain

theorem keyed_assembleAll {parts : Parts} (hplain : ∀ node ∈ nodes, node.Plain)
    (h : (assembleAll m d nodes).Gives f parts g) : parts.Keyed m f.scope.root nodes := by
  induction nodes generalizing f parts with
  | nil =>
    rw [assembleAll] at h
    obtain ⟨rfl, -⟩ := gives_pure.1 h
    exact ⟨rfl, rfl, by simp [Parts.empty], by simp [Parts.empty]⟩
  | cons node nodes ih =>
    rw [List.forall_mem_cons] at hplain
    obtain ⟨part, f₁, rest, hpart, hrest, rfl⟩ := gives_assembleAll_cons h
    have hone := SelectNode.keyed_assemble hplain.1 hpart
    have hroot := (node.adds_assemble hpart).grows.scope.root
    have hall := hroot ▸ ih hplain.2 hrest
    refine ⟨?_, ?_, List.forall_mem_append.2 ⟨hone.column, hall.column⟩,
      List.forall_mem_append.2 ⟨hone.routes, hall.routes⟩⟩
    · show (part.items ++ rest.items).map _ = _
      rw [List.map_append, hone.items, hall.items, ← List.filterMap_append]
      rfl
    · show (part.nested ++ rest.nested).map _ = _
      rw [List.map_append, hone.nested, hall.nested, ← List.filterMap_append]
      rfl

/-! ## Levels -/

namespace SelectQuery

variable {q q' inner : SelectQuery} {path : Path} {P : Table → Prop}

theorem nests_iff : q.Nests path ↔ path ∈ q.nodes.filterMap (·.nestedPath?) := by
  rw [List.mem_filterMap]
  constructor
  · rintro ⟨r, inner, hnode⟩
    exact ⟨_, hnode, rfl⟩
  · rintro ⟨node, hnode, hpath⟩
    cases node with
    | nested via r inner =>
      cases hpath
      exact ⟨r, inner, hnode⟩
    | column => cases hpath
    | function => cases hpath
    | case => cases hpath

theorem has_iff : q.Has path ↔
    path ∈ q.nodes.filterMap (·.columnPath?) ∨ path ∈ q.nodes.filterMap (·.nestedPath?) := by
  have hpath : ∀ node : SelectNode, node.path? = some path ↔
      node.columnPath? = some path ∨ node.nestedPath? = some path := by
    intro node
    cases node <;> simp [SelectNode.path?, SelectNode.columnPath?, SelectNode.nestedPath?]
  simp only [Has, hpath, and_or_left, exists_or, List.mem_filterMap]

/-- A level of different columns and documents under their own paths. -/
structure PlainHere (m : Model) (q : SelectQuery) : Prop where
  root : m.Covers q.root
  nodes : ∀ node ∈ q.nodes, node.Plain
  distinct : q.Distinct

section

variable {parts : Parts} {orders : List OrderBy} {ordered : Ordered}

/-- **A level that is apart has no conflict.** -/
theorem PlainHere.checkKeys (hq : q.PlainHere m) (hapart : q.ApartHere) (hm : m.Unambiguous)
    (hroot : f.scope.root = q.root) (hparts : (assembleAll m d q.nodes).Gives f parts g)
    {k : Frame} (hordered : (orders.foldlM (Ordered.add m parts.nested)
      ⟨parts.items, parts.keys, []⟩).Gives g ordered k) :
    EntityQuery.checkKeys ordered.items parts.nested = .ok () := by
  have hkeyed := keyed_assembleAll hq.nodes hparts
  have hkept : g.scope.root = f.scope.root := (adds_assembleAll q.nodes hparts).grows.scope.root
  -- A document takes nothing at this level.
  have hnot : ∀ key, q.Has key → ∀ n ∈ parts.nested, key.continues n.key = false := by
    intro key hkey n hn
    obtain ⟨route, hroute⟩ := hkeyed.routes n hn
    have hnests : q.Nests n.key := nests_iff.2 (hkeyed.nested ▸ List.mem_map_of_mem hn)
    rw [Bool.eq_false_iff]
    exact fun hbelow => hapart key hkey
      ⟨n.key, hnests, Model.length_pos_of_resolveRelationship hroute, hbelow⟩
  have hitems : KeyedItems m g.scope.root parts.nested parts.items := by
    rw [hkept]
    refine ⟨hkeyed.column, hkeyed.items ▸ hq.distinct.columns, fun i hi n hn => ?_⟩
    exact hnot i.key (has_iff.2 (.inl (hkeyed.items ▸ List.mem_map_of_mem hi))) n hn
  have hnested : (parts.nested.map (·.key)).Pairwise fun key other =>
      key.startsWith other = false ∧ other.startsWith key = false := by
    have hone : ∀ n ∈ parts.nested, ∀ n' ∈ parts.nested, n.key ≠ n'.key →
        n.key.startsWith n'.key = false := by
      intro n hn n' hn' hne
      have hhas := has_iff.2 (.inr (hkeyed.nested ▸ List.mem_map_of_mem hn))
      rw [Bool.eq_false_iff]
      intro hstarts
      rcases Path.startsWith_iff.1 hstarts with heq | hbelow
      · exact hne heq
      · cases (hnot n.key hhas n' hn').symm.trans hbelow
    have hnodup : (parts.nested.map (·.key)).Nodup := hkeyed.nested ▸ hq.distinct.nested
    refine hnodup.imp_of_mem fun {key other} hkey hother hne => ?_
    obtain ⟨n, hn, rfl⟩ := List.mem_map.1 hkey
    obtain ⟨n', hn', rfl⟩ := List.mem_map.1 hother
    exact ⟨hone n hn n' hn' hne, hone n' hn' n hn (Ne.symm hne)⟩
  refine (hitems.foldlM hordered).checkKeys hm ?_ ?_ hnested
  · rw [hkept, hroot]
    exact hq.root
  · rw [hkept]
    exact hkeyed.routes

/-- **A level without conflict is apart.** -/
theorem apartHere_of_checkKeys (hplain : ∀ node ∈ q.nodes, node.Plain)
    (hparts : (assembleAll m d q.nodes).Gives f parts g) {k : Frame}
    (hordered : (orders.foldlM (Ordered.add m parts.nested)
      ⟨parts.items, parts.keys, []⟩).Gives g ordered k)
    (hkeys : parts.nested ≠ [] → checkKeys ordered.items parts.nested = .ok ()) : q.ApartHere := by
  intro path hpath htakes
  obtain ⟨via, hvia, -, hbelow⟩ := htakes
  have hkeyed := keyed_assembleAll hplain hparts
  have hstarts : path.startsWith via = true := Path.startsWith_iff.2 (.inr hbelow)
  have hmem : via ∈ parts.nested.map (·.key) := hkeyed.nested ▸ nests_iff.1 hvia
  obtain ⟨new, hitems, -⟩ := Ordered.items_foldlM (fun _ => false) hordered
  have hpair := checkKeys_eq_ok.1 (hkeys fun hnil => by simp [hnil] at hmem)
  rw [hitems, List.map_append, hkeyed.items, List.append_assoc] at hpair
  obtain ⟨-, hrest, hcross⟩ := List.pairwise_append.1 hpair
  rcases has_iff.1 hpath with hcolumn | hnested
  · have hapart := hcross path hcolumn via (List.mem_append_right _ hmem)
    cases hapart.1.symm.trans hstarts
  · have hne : path ≠ via := by
      rintro rfl
      cases (Path.not_continues_self path).symm.trans hbelow
    have hsymm : Std.Symm fun key other : Path =>
        key.startsWith other = false ∧ other.startsWith key = false := ⟨fun _ _ => And.symm⟩
    have hapart := (List.pairwise_append.1 hrest).2.1.forall (hkeyed.nested ▸ hnested) hmem hne
    cases hapart.1.symm.trans hstarts

end

end SelectQuery

/-! ## Errors -/

/-- The error is about places of a document. -/
def QueryError.OfKeys : QueryError → Prop
  | conflictingKey .. => True
  | _ => False

theorem QueryError.not_ofKeys_of_kind (h : e.kind = .pathResolution) : ¬ e.OfKeys := by
  cases e <;> first | exact id | cases h

theorem QueryError.Excused.not_ofKeys {sound : Prop} (h : e.Excused sound) : ¬ e.OfKeys := by
  rcases h with h | ⟨h, -⟩
  · cases e <;> first | exact id | cases h
  · exact not_ofKeys_of_kind h

theorem Scope.kind_of_joinHops {s : Scope} {hops : List Relationship} {origin : JoinOrigin}
    (h : s.joinHops hops origin = .error e) : e.kind = .pathResolution := by
  simp only [joinHops] at h
  split at h
  · cases h
  · split at h <;> cases h
    rfl

theorem kind_of_joinSelected {path : Path} (h : (joinSelected m path).Throws f e) :
    e.kind = .pathResolution := by
  simp only [joinSelected, throws_bind, not_throws_root, gives_root, throws_lift, gives_lift,
    throws_join, not_throws_pure, false_or, and_false, exists_false, or_false] at h
  obtain ⟨_, _, ⟨rfl, rfl⟩, h | ⟨r, _, -, h⟩⟩ := h
  · exact Model.kind_of_resolve h
  · exact Scope.kind_of_joinHops h

theorem Ordered.kind_of_add {acc : Ordered} {nested : List NestedItem} {o : OrderBy}
    (h : (acc.add m nested o).Throws f e) : e.kind = .pathResolution := by
  simp only [Ordered.add, throws_bind, not_throws_root, gives_root, throws_lift, gives_lift,
    false_or] at h
  obtain ⟨_, _, ⟨rfl, rfl⟩, h | ⟨r, _, -, h⟩⟩ := h
  · exact Model.kind_of_resolve h
  · split at h
    · simp only [throws_bind, throws_join, throws_lift, not_throws_pure, and_false, exists_false,
        or_false] at h
      rcases h with h | ⟨_, _, -, h⟩
      · exact Scope.kind_of_joinHops h
      · rcases bind_eq_error.1 h with h | ⟨_, -, h⟩
        · exact Scope.kind_of_joinHops h
        · cases h
    · simp only [throws_bind, throws_join, not_throws_pure, and_false, exists_false, or_false] at h
      exact Scope.kind_of_joinHops h

theorem Ordered.kind_of_foldlM {acc : Ordered} {nested : List NestedItem} {orders : List OrderBy}
    (h : (orders.foldlM (Ordered.add m nested) acc).Throws f e) : e.kind = .pathResolution := by
  induction orders generalizing f acc with
  | nil => exact absurd h not_throws_pure
  | cons o orders ih =>
    rw [List.foldlM_cons, throws_bind] at h
    rcases h with h | ⟨acc', g, -, h⟩
    · exact kind_of_add h
    · exact ih h

theorem not_ofKeys_ordersOf {root : Table} {order : List OrderBy} {paging : Option Paging}
    (h : ordersOf root order paging = .error e) : ¬ e.OfKeys := by
  rw [ordersOf] at h
  split at h
  · unfold fallbackOrder at h
    split at h <;> cases h
    exact id
  · cases h

/-- Where a list of nodes fails, one of them does. -/
theorem exists_of_throws_assembleAll (h : (assembleAll m d nodes).Throws f e) :
    ∃ node ∈ nodes, ∃ g, g.scope.root = f.scope.root ∧ (node.assemble m d).Throws g e := by
  induction nodes generalizing f with
  | nil =>
    rw [assembleAll] at h
    exact absurd h not_throws_pure
  | cons node nodes ih =>
    simp only [assembleAll, throws_bind, not_throws_pure, and_false, exists_false, or_false] at h
    rcases h with h | ⟨part, f₁, hpart, h⟩
    · exact ⟨node, List.mem_cons_self, f, rfl, h⟩
    · obtain ⟨node', hmem, g, hg, h⟩ := ih h
      exact ⟨node', List.mem_cons_of_mem _ hmem, g,
        hg.trans (node.adds_assemble hpart).grows.scope.root, h⟩

theorem throws_assemble_nested {path : Path} {r : Relationship} {query : SelectQuery}
    (h : ((SelectNode.nested path r query).assemble m d).Throws f e) :
    e.kind = .pathResolution ∨
      (query.assemble m d (some r.correlation)).Throws ⟨.ofRelationship r, f.ctes⟩ e := by
  simp only [SelectNode.assemble, throws_bind, not_throws_root, gives_root, throws_lift, gives_lift,
    throws_join, gives_join, throws_within, not_throws_pure, false_or, and_false, exists_false,
    or_false] at h
  obtain ⟨_, _, ⟨rfl, rfl⟩, h | ⟨route, _, ⟨-, rfl⟩, h | ⟨_, _, ⟨s, -, rfl⟩, h⟩⟩⟩ := h
  · exact .inl (Model.kind_of_resolveRelationship h)
  · exact .inl (Scope.kind_of_joinHops h)
  · exact .inr h

/-- **Where an assembly fails**: before the keys are checked, or there. -/
theorem SelectQuery.throws_assemble {q : SelectQuery}
    (h : (q.assemble m d correlation).Throws f e) :
    (compileFilter m q.filter).Throws f e ∨
      ∃ condition f₁, (compileFilter m q.filter).Gives f condition f₁ ∧
        ((assembleAll m d q.nodes).Throws f₁ e ∨
          ∃ parts f₂, (assembleAll m d q.nodes).Gives f₁ parts f₂ ∧
            (ordersOf f.scope.root q.order q.paging = .error e ∨
              ∃ orders : List OrderBy,
                (orders.foldlM (Ordered.add m parts.nested) ⟨parts.items, parts.keys, []⟩).Throws
                    f₂ e ∨
                ∃ ordered g, (orders.foldlM (Ordered.add m parts.nested)
                    ⟨parts.items, parts.keys, []⟩).Gives f₂ ordered g ∧
                  checkKeys ordered.items parts.nested = .error e)) := by
  cases q with
  | mk root nodes filter order paging distinct eagerDepth ancestors =>
    simp only [SelectQuery.assemble, throws_bind, not_throws_root, not_throws_get, gives_root,
      gives_get, throws_lift, gives_lift, not_throws_pure, false_or, and_false, exists_false,
      or_false] at h
    obtain ⟨_, _, ⟨rfl, rfl⟩, h | ⟨condition, f₁, hcondition, _, _, ⟨rfl, rfl⟩, h⟩⟩ := h
    · exact .inl h
    refine .inr ⟨condition, _, hcondition, ?_⟩
    rcases h with h | ⟨parts, f₂, hparts, h⟩
    · exact .inl h
    refine .inr ⟨parts, f₂, hparts, ?_⟩
    obtain h | ⟨orders, _, ⟨-, rfl⟩, h | ⟨ordered, g, hordered, h⟩⟩ := h
    · exact .inl h
    · exact .inr ⟨orders, .inl h⟩
    · refine .inr ⟨orders, .inr ⟨ordered, g, hordered, ?_⟩⟩
      split at h
      · exact h
      · cases h

namespace SelectQuery

variable {q : SelectQuery} {P : Table → Prop}

/-- **A plain selection that is apart never fails for its keys.** -/
theorem not_ofKeys_assemble (hm : m.Unambiguous) (q : SelectQuery) {f : Frame}
    {correlation : Option Expr} (hplaced : q.Placed m P f.scope.root)
    (hplain : q.Everywhere (PlainHere m)) (hapart : q.Apart)
    (h : (q.assemble m d correlation).Throws f e) : ¬ e.OfKeys := by
  obtain ⟨hhere, hnested⟩ := everywhere_iff.1 hplain
  obtain ⟨hapartHere, hapartNested⟩ := apart_iff.1 hapart
  obtain ⟨hroot, hnodes, -⟩ := placed_iff.1 hplaced
  obtain h | ⟨condition, f₁, hcondition, h⟩ := throws_assemble h
  · exact (excused_filter hm h).not_ofKeys
  have hkept : f₁.scope.root = f.scope.root :=
    (writes_filter (onTablesFilter_true q.filter) hcondition).grows.scope.root
  obtain h | ⟨parts, f₂, hparts, h⟩ := h
  · obtain ⟨node, hmem, g, hg, h⟩ := exists_of_throws_assembleAll h
    have hnode := hnodes node hmem
    cases node with
    | column path label =>
      simp only [SelectNode.assemble, throws_bind, not_throws_pure, and_false, exists_false,
        or_false] at h
      exact QueryError.not_ofKeys_of_kind (kind_of_joinSelected h)
    | nested path r inner =>
      rcases throws_assemble_nested h with h | h
      · exact QueryError.not_ofKeys_of_kind h
      · rw [SelectNode.Placed] at hnode
        exact not_ofKeys_assemble hm inner hnode.2 (hnested path r inner hmem)
          (hapartNested path r inner hmem) h
    | function => cases hhere.nodes _ hmem
    | case => cases hhere.nodes _ hmem
  obtain h | ⟨orders, h | ⟨ordered, g, hordered, h⟩⟩ := h
  · exact not_ofKeys_ordersOf h
  · exact QueryError.not_ofKeys_of_kind (Ordered.kind_of_foldlM h)
  · rw [hhere.checkKeys hapartHere hm (hkept.trans hroot.symm) hparts hordered] at h
    cases h
termination_by sizeOf q
decreasing_by
  have hlt := List.sizeOf_lt_of_mem hmem
  cases q
  simp only [SelectNode.nested.sizeOf_spec, SelectQuery.mk.sizeOf_spec] at hlt ⊢
  omega

/-- Every node of an assembled query is assembled. -/
theorem exists_of_gives_assembleAll {parts : Parts} (h : (assembleAll m d nodes).Gives f parts g) :
    ∀ node ∈ nodes, ∃ f₁ part g₁, (node.assemble m d).Gives f₁ part g₁ := by
  induction nodes generalizing f parts with
  | nil => simp
  | cons node nodes ih =>
    obtain ⟨part, f₁, rest, hpart, hrest, -⟩ := gives_assembleAll_cons h
    exact List.forall_mem_cons.2 ⟨⟨f, part, f₁, hpart⟩, ih hrest⟩

/-- And so is every query in it. -/
theorem Contains.exists_assemble {y : SelectQuery} (hy : q.Contains y) {l : Level}
    (h : (q.assemble m d correlation).Gives f l g) :
    ∃ correlation' f' l' g', (y.assemble m d correlation').Gives f' l' g' := by
  induction hy generalizing f g correlation l with
  | here => exact ⟨correlation, f, l, g, h⟩
  | nested hnode _ ih =>
    obtain ⟨_, _, parts, _, _, _, -, hparts, -⟩ := gives_assemble h
    obtain ⟨f₁, part, g₁, hpart⟩ := exists_of_gives_assembleAll hparts _ hnode
    obtain ⟨_, _, level, inner, -, -, hinner, -⟩ := gives_assemble_nested hpart
    exact ih hinner

/-- **A plain selection that is not apart is never written.** -/
theorem apart_of_assemble (hplain : q.Everywhere (PlainHere m)) {l : Level}
    (h : (q.assemble m d correlation).Gives f l g) : q.Apart := by
  intro y hy
  obtain ⟨correlation', f', l', g', hy'⟩ := hy.exists_assemble h
  obtain ⟨_, _, parts, _, orders, ordered, -, hparts, -, hordered, hkeys, -⟩ := gives_assemble hy'
  exact apartHere_of_checkKeys (hplain y hy).nodes hparts hordered hkeys

/-! ## Runs -/

theorem throws_of_compile (h : q.compile m d = .error e) :
    (q.assemble m d none).Throws ⟨.ofTable m q.root, []⟩ e := by
  rw [compile] at h
  split at h
  · rename_i e' frame hrun
    cases h
    exact ⟨frame, hrun⟩
  · cases h

/-- Whether the documents of a selection have conflicts is known before it is written. -/
structure ConflictsUnless (m : Model) (q : SelectQuery) (clear : Bool) : Prop where
  apart : q.Apart ↔ clear = true
  fits : clear = true → ∀ d key other, q.compile m d ≠ .error (.conflictingKey key other)
  fails : clear = false → ∀ d c, q.compile m d ≠ .ok c

theorem conflictsUnless (hm : m.Unambiguous) (hplaced : q.Placed m P q.root)
    (hplain : q.Everywhere (PlainHere m)) {clear : Bool} (hclear : q.Apart ↔ clear = true) :
    q.ConflictsUnless m clear where
  apart := hclear
  fits := by
    intro h d key other hcompile
    exact not_ofKeys_assemble hm q hplaced hplain (hclear.2 h) (throws_of_compile hcompile) ⟨⟩
  fails := by
    intro h d c hcompile
    obtain ⟨l, g, hassemble, -⟩ := compile_eq_ok hcompile
    rw [hclear.1 (apart_of_assemble hplain hassemble)] at h
    cases h

theorem kept_plain (m : Model) :
    Kept m SelectNode.Plain fun y => ∀ node ∈ y.nodes, node.Plain where
  column := by
    intro q path label h hA _ _
    exact List.forall_mem_append.2 ⟨h, List.forall_mem_singleton.2 hA⟩
  value := by
    intro q node h hA _
    exact List.forall_mem_append.2 ⟨h, List.forall_mem_singleton.2 hA⟩
  opened := by
    intro q via route h _ _ _
    refine ⟨List.forall_mem_append.2 ⟨fun node hnode => h node (List.mem_filter.1 hnode).1,
      List.forall_mem_singleton.2 ⟨⟩⟩, List.forall_mem_map.2 fun node hnode => ?_⟩
    have hnode := h node (List.mem_filter.1 hnode).1
    cases node <;> exact hnode
  inside := by
    intro q inner inner' via h hinner _
    obtain ⟨before, r, after, hnodes, hset⟩ := exists_setNested hinner
    rw [hnodes, List.forall_mem_append, List.forall_mem_cons] at h
    rw [hset, List.forall_mem_append, List.forall_mem_cons]
    exact h
  other := fun h _ hnodes => hnodes ▸ h

/-- The empty selection from a table, with a depth for all columns. -/
def start (t : Table) (eagerDepth : Nat) : SelectQuery := { ofTable t with eagerDepth }

/-- **Conflicts after a run**, whatever the filter, the order and the window are. -/
theorem conflictsUnless_run {eagerDepth : Nat} {calls : List Call} (hm : m.Unambiguous)
    (ht : m.Covers t) (hrun : (start t eagerDepth).run m calls = .ok q) (hroot : x.root = q.root)
    (hnodes : x.nodes = q.nodes) : x.ConflictsUnless m ((start t eagerDepth).clearRun m calls) := by
  have hempty : ∀ {I : SelectQuery → Prop}, I (start t eagerDepth) →
      (start t eagerDepth).Everywhere I := fun h => everywhere_iff.2 ⟨h, by simp [start, ofTable]⟩
  have hsteps : Steps m SelectNode.Plain (start t eagerDepth) x := by
    refine .trans ?_ (.other hroot hnodes)
    exact run_induction (I := Steps m _ _) (fun _ _ _ hx h => h.trans (Call.steps hx)) hrun
      (.refl _)
  have hcovers := hsteps.everywhere (kept_covers m _) (hempty ht)
  have hplain := hsteps.everywhere (kept_plain m) (hempty (by simp [start, ofTable]))
  have hdistinct := hsteps.everywhere (kept_distinct m _)
    (hempty ⟨by simp [start, ofTable], by simp [start, ofTable]⟩)
  have hplaced : q.Placed m (fun _ => True) t := run_induction
    (fun _ _ _ hx h => h.call hx) hrun ((placed_ofTable t).congr rfl rfl rfl)
  obtain ⟨hqroot, hqnodes, -⟩ := placed_iff.1 hplaced
  refine conflictsUnless hm (P := fun _ => True) ?_
    (fun y hy => ⟨hcovers y hy, hplain y hy, hdistinct y hy⟩) ?_
  · rw [hroot, hqroot]
    exact placed_iff.2 ⟨hroot.trans hqroot, hnodes ▸ hqnodes, onTablesFilter_true x.filter⟩
  · have hsame : x.Apart ↔ q.Apart := by
      rw [apart_iff, apart_iff, ApartHere, ApartHere]
      simp only [Has, Takes, Nests, hnodes]
    rw [hsame, apart_run hm (hempty ht) hrun, and_iff_right]
    exact hempty fun path hpath => by simp [Has, start, ofTable] at hpath

end SelectQuery

/-! ## Files -/

/-- The calls that a query file stands for. -/
def QueryFile.calls (file : QueryFile) : List SelectQuery.Call :=
  (if file.select.isEmpty && file.include_.isEmpty then [.selectAll] else []) ++
    (file.select.map .select ++ file.include_.map .includeRelated)

theorem SelectQuery.run_append {q q' : SelectQuery} {calls rest : List Call} :
    q.run m (calls ++ rest) = .ok q' ↔ ∃ x, q.run m calls = .ok x ∧ x.run m rest = .ok q' := by
  rw [run, List.foldlM_append, bind_eq_ok]
  rfl

theorem SelectQuery.nodes_foldlM_addOrder {q q' : SelectQuery} {orders : List OrderBy}
    (h : orders.foldlM (fun q o => q.addOrder m o.path o.dir) q = .ok q') :
    q'.root = q.root ∧ q'.nodes = q.nodes := by
  induction orders generalizing q with
  | nil =>
    cases h
    exact ⟨rfl, rfl⟩
  | cons o orders ih =>
    rw [List.foldlM_cons, bind_eq_ok] at h
    obtain ⟨x, hx, hrest⟩ := h
    obtain ⟨-, -, hx⟩ := bind_eq_ok.1 hx
    cases hx
    have hsame := ih hrest
    exact hsame

/-- **A file is a run of its calls**, and what it adds are no nodes. -/
theorem QueryFile.run_of_applyTo {file : QueryFile} {q : SelectQuery}
    (h : file.applyTo m q = .ok x) :
    ∃ q', q.run m file.calls = .ok q' ∧ x.root = q'.root ∧ x.nodes = q'.nodes := by
  simp only [applyTo] at h
  obtain ⟨q₁, hselect, h⟩ := bind_eq_ok.1 h
  obtain ⟨q₂, hinclude, h⟩ := bind_eq_ok.1 h
  refine ⟨q₂, ?_, ?_⟩
  · rw [calls, SelectQuery.run_append]
    refine ⟨if file.select.isEmpty && file.include_.isEmpty then q.selectAll m else q, ?_,
      SelectQuery.run_append.2 ⟨q₁, ?_, ?_⟩⟩
    · split <;> rfl
    · rw [SelectQuery.run, List.foldlM_map]
      exact hselect
    · rw [SelectQuery.run, List.foldlM_map]
      exact hinclude
  · -- After the calls come the filter, the order and the window.
    split at h <;> obtain ⟨q₃, hfilter, h⟩ := bind_eq_ok.1 h
    all_goals
      obtain ⟨q₄, horder, h⟩ := bind_eq_ok.1 h
      obtain ⟨paging, -, h⟩ := bind_eq_ok.1 h
      obtain ⟨hroot, hnodes⟩ := SelectQuery.nodes_foldlM_addOrder horder
      have hwindow : x.root = q₄.root ∧ x.nodes = q₄.nodes := by
        cases paging with
        | some paging =>
          obtain ⟨q₅, hpaging, h⟩ := bind_eq_ok.1 h
          rw [SelectQuery.withPaging_eq_ok hpaging] at h
          cases h
          exact ⟨rfl, rfl⟩
        | none =>
          cases h
          exact ⟨rfl, rfl⟩
      rw [hwindow.1, hwindow.2, hroot, hnodes]
    · cases hfilter
      exact ⟨rfl, rfl⟩
    · obtain ⟨-, -, hfilter⟩ := bind_eq_ok.1 hfilter
      cases hfilter
      exact ⟨rfl, rfl⟩

namespace Session

variable {s s' : Session} {now : Nat}

/-- The model of a session is built, and the roots that it keeps are positions of the model. -/
structure Rooted (s : Session) : Prop where
  model : ∃ naming schema all, Model.build naming schema all = .ok s.model
  cache : ∀ entry ∈ s.cache.entries, s.model.Covers entry.table

theorem rooted_build {naming : Naming} {settings : Settings} {all : List EntityDecl}
    (h : buildWith naming settings all = .ok s) : s.Rooted := by
  obtain ⟨model, hmodel, h⟩ := bind_eq_ok.1 h
  cases h
  exact ⟨⟨_, _, all, hmodel⟩, by simp [Cache.mem_entries]⟩

/-- It stays so, and hands out such a root. -/
theorem Rooted.lookup {key : CacheKey} (hs : s.Rooted) (h : (s.lookup now key).1 = .ok t) :
    (s.lookup now key).2.Rooted ∧ (s.lookup now key).2.model = s.model ∧ s.model.Covers t := by
  have hkept : ∀ {k e}, s.cache.find? k = some e → s.model.Covers e.table :=
    fun hfind => hs.cache _ (Cache.mem_entries.2 ⟨_, hfind⟩)
  cases husable : s.usable? now key with
  | some found =>
    obtain ⟨htable, hbecomes⟩ := lookup_kept husable
    have hfound := hkept (Option.filter_eq_some_iff.1 husable).1
    cases htable.symm.trans h
    refine ⟨⟨hbecomes.model ▸ hs.model, fun entry hentry => ?_⟩, hbecomes.model, hfound⟩
    obtain ⟨k, hk⟩ := Cache.mem_entries.1 hentry
    rw [hbecomes.find] at hk
    rw [hbecomes.model]
    exact hkept hk
  | none =>
    cases hentity : s.model.entity? key.entity with
    | none => exact absurd ((lookup_unknown husable hentity).1.symm.trans h) (by simp)
    | some entity =>
      obtain ⟨htable, hbecomes⟩ := lookup_built husable hentity
      have hroot : s.model.Covers (Model.root entity (s.model.naming.draw s.draws)) :=
        List.mem_of_find?_eq_some hentity
      cases htable.symm.trans h
      refine ⟨⟨hbecomes.model ▸ hs.model, fun entry hentry => ?_⟩, hbecomes.model, hroot⟩
      obtain ⟨k, hk⟩ := Cache.mem_entries.1 hentry
      rw [hbecomes.find, Function.update_apply] at hk
      rw [hbecomes.model]
      split at hk
      · cases hk
        exact hroot
      · exact hkept hk

/-- A query starts at such a root. -/
theorem exists_lookup {entity : String} {q : SelectQuery}
    (h : s.query now entity = .ok (q, s')) : ∃ key t, (s.lookup now key).1 = .ok t ∧
      s' = (s.lookup now key).2 ∧ q = .start t s'.settings.eagerDepth := by
  refine ⟨⟨entity, s.settings.defaultSchema⟩, ?_⟩
  rw [query, Session.select, shared] at h
  cases hlookup : s.lookup now ⟨entity, s.settings.defaultSchema⟩ with
  | mk found left =>
    rw [hlookup] at h
    cases found with
    | error e => exact absurd h (by simp [settle, Except.map])
    | ok t =>
      cases h
      exact ⟨t, rfl, rfl, rfl⟩

end Session

/-- **Conflicts of a file** are those of its calls, on the query that the session starts with. -/
theorem QueryFile.conflictsUnless_build {file : QueryFile} {s s' : Session} {now : Nat}
    (hs : s.Rooted) (h : file.build s now = .ok (x, s')) :
    ∃ q, s.query now file.entity = .ok (q, s') ∧
      x.ConflictsUnless s.model (q.clearRun s.model file.calls) := by
  obtain ⟨⟨q, s₁⟩, hquery, h⟩ := bind_eq_ok.1 h
  obtain ⟨x, happly, h⟩ := bind_eq_ok.1 h
  cases h
  refine ⟨q, hquery, ?_⟩
  obtain ⟨key, t, hlookup, rfl, rfl⟩ := Session.exists_lookup hquery
  obtain ⟨-, hmodel, hcovers⟩ := hs.lookup hlookup
  obtain ⟨_, _, _, hbuilt⟩ := hs.model
  obtain ⟨q', hrun, hroot, hnodes⟩ := run_of_applyTo happly
  rw [hmodel] at hrun
  exact SelectQuery.conflictsUnless_run (Model.unambiguous_build hbuilt) hcovers hrun hroot hnodes

/-- **A conflict is decided when all columns are listed.** After calls that select and include,
whatever else the selection has, and for every query file, the documents have no conflict if all
columns were clear each time they were listed, and otherwise the selection is never written. -/
theorem compile_conflicts {naming : Naming} {schema : Option String} {all : List EntityDecl}
    (hm : Model.build naming schema all = .ok m) (ht : m.Covers t) {eagerDepth : Nat}
    {calls : List SelectQuery.Call} {q x : SelectQuery}
    (hrun : (SelectQuery.start t eagerDepth).run m calls = .ok q) (hroot : x.root = q.root)
    (hnodes : x.nodes = q.nodes) :
    x.ConflictsUnless m ((SelectQuery.start t eagerDepth).clearRun m calls) ∧
      ∀ (s s' : Session) (file : QueryFile) (now : Nat) (y : SelectQuery), s.Rooted →
        file.build s now = .ok (y, s') →
        ∃ start, s.query now file.entity = .ok (start, s') ∧
          y.ConflictsUnless s.model (start.clearRun s.model file.calls) := by
  constructor
  · exact SelectQuery.conflictsUnless_run (Model.unambiguous_build hm) ht hrun hroot hnodes
  · intro s s' file now y hs hbuild
    exact QueryFile.conflictsUnless_build hs hbuild

namespace Shop

/-- The labels of all lines and all columns; then the customer becomes a document. -/
def basketCalls : List SelectQuery.Call :=
  [.select ⟨["lines", "tags", "label"]⟩, .selectAll, .includeRelated ⟨["customer"]⟩]

/-- The newest orders with their customers and lines. -/
def overview : QueryFile where
  entity := "Order"
  select := [⟨["id"]⟩, ⟨["customer", "name"]⟩, ⟨["lines", "sku"]⟩]
  include_ := [⟨["customer"]⟩]
  filters := [.related ⟨["lines"]⟩ false []]
  order := [⟨⟨["customer", "name"]⟩, .desc⟩]
  top := some 10
  page := none
  limit := none
  distinct := none

theorem clearRun_basketCalls (naming : Naming) :
    ((SelectQuery.start orders 2).run (model naming) basketCalls).isOk = true ∧
      (SelectQuery.start orders 2).clearRun (model naming) basketCalls = true := by
  constructor <;> cbv

theorem clearRun_overview (naming : Naming) (id : Identity) :
    (overview.applyTo (model naming) (.start (Model.root order id) 2)).isOk = true ∧
      (SelectQuery.start (Model.root order id) 2).clearRun (model naming) overview.calls =
        true := by
  constructor <;> cbv

/-- A session over the shop that has handed out no root yet. -/
def session : Session := ⟨model .hashed, .default, .empty Settings.default.ttlSeconds, 0⟩

theorem build_session : Session.build .default declarations = .ok session := by
  rfl

end Shop

/-- Selections after which the documents of lines and customers are apart. -/
theorem compile_conflicts_basket :
    (∃ q, (SelectQuery.start Shop.orders 2).run (Shop.model Shop.plain) Shop.basketCalls = .ok q ∧
      ∀ d key other, q.compile (Shop.model Shop.plain) d ≠ .error (.conflictingKey key other)) ∧
    ∃ x s, Shop.overview.build Shop.session 0 = .ok (x, s) ∧
      ∀ d key other, x.compile Shop.session.model d ≠ .error (.conflictingKey key other) := by
  obtain ⟨hok, hclear⟩ := Shop.clearRun_basketCalls Shop.plain
  obtain ⟨hfile, hclear'⟩ := Shop.clearRun_overview .hashed (Identity.ofDraw 0)
  cases hrun : (SelectQuery.start Shop.orders 2).run (Shop.model Shop.plain) Shop.basketCalls with
  | error e => simp [hrun, Except.isOk, Except.toBool] at hok
  | ok q =>
    obtain ⟨hcalls, hfiles⟩ := compile_conflicts (x := q) (Shop.build_declarations _)
      (Shop.covers_orders _) hrun rfl rfl
    refine ⟨⟨q, rfl, hcalls.fits hclear⟩, ?_⟩
    cases happly : Shop.overview.applyTo (Shop.model .hashed)
        (SelectQuery.start (Model.root Shop.order (Identity.ofDraw 0)) 2) with
    | error e => simp [happly, Except.isOk, Except.toBool] at hfile
    | ok x =>
      have hquery : Shop.session.query 0 "Order" = .ok
          (SelectQuery.start (Model.root Shop.order (Identity.ofDraw 0)) 2, _) := rfl
      have hbuild : Shop.overview.build Shop.session 0 = .ok (x, _) :=
        bind_eq_ok.2 ⟨_, hquery, bind_eq_ok.2 ⟨x, happly, rfl⟩⟩
      obtain ⟨y, hy, hx⟩ :=
        hfiles _ _ _ _ x (Session.rooted_build Shop.build_session) hbuild
      cases hquery.symm.trans hy
      exact ⟨x, _, hbuild, hx.fits hclear'⟩

/-! ## A parcel

Parcels to a customer at an address: relationships that all lead to one row. -/

namespace Parcel

def declarations : List EntityDecl :=
  [⟨"Parcel", "parcels", none, some "id", ["id", "customer_id"].map Shop.columnDecl,
      [⟨"customer", .oneToOne, "Customer", some "customer_id", none, none, []⟩]⟩,
    ⟨"Customer", "customers", none, some "id", ["id", "address_id"].map Shop.columnDecl,
      [⟨"address", .oneToOne, "Address", some "address_id", none, none, []⟩]⟩,
    ⟨"Address", "addresses", none, some "id", ["id", "city"].map Shop.columnDecl, []⟩]

/-- A naming by the lengths of the parts. -/
def sizes : Naming where
  draw := Identity.ofDraw
  derive parts := ⟨parts.map (·.length.toUInt8)⟩
  tableAlias id := String.ofList ('t' :: id.bytes.map Char.ofUInt8)
  columnAlias id name := String.ofList ('c' :: id.bytes.map Char.ofUInt8) ++ name

/-- A selection of parcels, built and then written for PostgreSQL. -/
def written (select : Model → SelectQuery → Except QueryError SelectQuery) :
    Except QueryError CompiledQuery := do
  let m ← Model.build sizes none declarations
  match m.entity? "Parcel" with
  | some parcel => (← select m (.start (Model.root parcel ⟨[1]⟩) 2)).compile m .postgreSql
  | none => throw (.unknownEntity "Parcel")

/-- The address of the customer, and the customer. -/
def addressed : QueryFile :=
  ⟨"Parcel", [⟨["customer", "address"]⟩], [⟨["customer"]⟩], [], [], none, none, none, none⟩

end Parcel

/-- All columns after a document are added beside it, and those of a document beside the documents
that it takes. -/
theorem compile_parcels_conflict :
    Parcel.written (fun m q => q.run m [.includeRelated ⟨["customer"]⟩, .selectAll]) =
      .error (.conflictingKey ⟨["customer"]⟩ ⟨["customer", "id"]⟩) ∧
    Parcel.written (fun m q => Parcel.addressed.applyTo m q) =
      .error (.conflictingKey ⟨["address"]⟩ ⟨["address", "id"]⟩) := by
  constructor <;> cbv

end EntityQuery
