import EntityQuery.Proofs.Select.Aggregates
import EntityQuery.Proofs.Text.Paths

/-!
# Documents of a row

A row becomes a document whose values stand at the places that their keys name. It is built by
inserting one value after the other, each into the objects on the way to its place, which may have
been begun by any value before it.

**Places.** If no key lies on the way to another, a value that is inserted meets no value on its way
and ends at none of the objects. So each step keeps the names of every object apart, leaves no
object empty and adds exactly one value (`JsonTree.placed_insert`), and in the end the values of the
document are those of the row (`JsonTree.placed_foldl`). Then every value is found by its key, name
by name, in the expression of the document (`JsonTree.fieldAt?_expr`).

**Grouping.** The document can also be made object by object, where each takes the values behind its
name at once and a name that is done is passed over (`JsonTree.groupIn`). The fields are the same
(`JsonTree.groupIn_eq_insertAll`).

**Names with dots.** Where the document is made of the columns' names, these are the keys with dots
between their members. Without dots in the members the two say the same.
-/

namespace EntityQuery

open EntityQuery.Sql (Expr SelectItem JsonFunctions)

/-! ## Reading a document -/

namespace Sql

/-- The value behind a name, where names and values take turns. -/
def fieldIn? (name : String) : List Expr → Option Expr
  | .literal (.text n) :: e :: rest => if n = name then some e else fieldIn? name rest
  | _ => none

/-- The value of a name in an object, which is a call of a function. -/
def Expr.field? (object name : String) : Expr → Option Expr
  | .call function args false => if function = object then fieldIn? name args else none
  | _ => none

/-- The value at the end of a path of names. -/
def Expr.fieldAt? (object : String) : List String → Expr → Option Expr
  | [], e => some e
  | name :: rest, e => (e.field? object name).bind (Expr.fieldAt? object rest)

end Sql

namespace JsonTree

mutual

/-- The values of a tree with their paths. -/
def leaves : JsonTree → List (List String × Expr)
  | .leaf e => [([], e)]
  | .object fields => leavesOf fields

def leavesOf : Fields → List (List String × Expr)
  | [] => []
  | (name, tree) :: rest => tree.leaves.map (fun x => (name :: x.1, x.2)) ++ leavesOf rest

end

mutual

/-- No object has a name twice, and none is empty. -/
def Formed : JsonTree → Prop
  | .leaf _ => True
  | .object fields => fields ≠ [] ∧ FormedFields fields

def FormedFields : Fields → Prop
  | [] => True
  | (name, tree) :: rest => name ∉ rest.map (·.1) ∧ tree.Formed ∧ FormedFields rest

end

variable {fields : Fields} {name : String} {tree : JsonTree} {e : Expr} {key path : List String}

theorem mem_leavesOf : (path, e) ∈ leavesOf fields ↔
    ∃ name tree rest, (name, tree) ∈ fields ∧ (rest, e) ∈ tree.leaves ∧ path = name :: rest := by
  induction fields with
  | nil => simp [leavesOf]
  | cons field fields ih =>
    obtain ⟨n, t⟩ := field
    rw [leavesOf, List.mem_append, ih, List.mem_map]
    constructor
    · rintro (⟨⟨rest, e'⟩, hmem, heq⟩ | ⟨name, tree, rest, hfield, hmem, rfl⟩)
      · cases heq
        exact ⟨n, t, rest, List.mem_cons_self, hmem, rfl⟩
      · exact ⟨name, tree, rest, List.mem_cons_of_mem _ hfield, hmem, rfl⟩
    · rintro ⟨name, tree, rest, hfield, hmem, rfl⟩
      rcases List.mem_cons.1 hfield with heq | hfield
      · cases heq
        exact .inl ⟨_, hmem, rfl⟩
      · exact .inr ⟨name, tree, rest, hfield, hmem, rfl⟩

/-- There is a value in every object. -/
theorem leaves_ne_nil : (tree : JsonTree) → tree.Formed → tree.leaves ≠ []
  | .leaf e, _ => by simp [leaves]
  | .object [], h => absurd rfl h.1
  | .object ((name, tree) :: rest), h => by
    have hfirst := leaves_ne_nil tree h.2.2.1
    simp [leaves, leavesOf, hfirst]

theorem formedFields_append : FormedFields (fields ++ [(name, tree)]) ↔
    FormedFields fields ∧ name ∉ fields.map (·.1) ∧ tree.Formed := by
  induction fields with
  | nil => simp [FormedFields]
  | cons field fields ih =>
    obtain ⟨n, t⟩ := field
    simp only [List.cons_append, FormedFields, ih, List.map_append, List.map_cons, List.map_nil,
      List.mem_append, List.mem_cons, List.not_mem_nil, or_false, not_or, eq_comm (a := n)]
    tauto

theorem leavesOf_append (fields rest : Fields) :
    leavesOf (fields ++ rest) = leavesOf fields ++ leavesOf rest := by
  induction fields with
  | nil => rfl
  | cons field fields ih =>
    obtain ⟨n, t⟩ := field
    rw [List.cons_append, leavesOf, leavesOf, ih, List.append_assoc]

/-! ## Inserting a value -/

/-- No value lies on the way of the key, and the key on the way of no value. -/
def Clear (key : List String) (fields : Fields) : Prop :=
  ∀ x ∈ leavesOf fields, ¬ x.1 <+: key ∧ ¬ key <+: x.1

/-- The second fields are the first with one value more, all at their places. -/
structure Placed (e : Expr) (key : List String) (fields fields' : Fields) : Prop where
  formed : FormedFields fields'
  leaves : (leavesOf fields').Perm ((key, e) :: leavesOf fields)

theorem Placed.ne_nil {fields' : Fields} (h : Placed e key fields fields') : fields' ≠ [] := by
  rintro rfl
  exact absurd h.leaves (List.not_perm_nil_cons _ _)

theorem FormedFields.of_mem (hformed : FormedFields fields) (hfield : (name, tree) ∈ fields) :
    tree.Formed := by
  induction fields with
  | nil => cases hfield
  | cons field fields ih =>
    rcases List.mem_cons.1 hfield with rfl | hfield
    · exact hformed.2.1
    · exact ih hformed.2.2 hfield

/-- An object has no field with the last name of a key that is clear. -/
theorem Clear.not_mem (hclear : Clear [name] fields) (hformed : FormedFields fields) :
    name ∉ fields.map (·.1) := by
  intro hname
  obtain ⟨⟨_, tree⟩, hfield, rfl⟩ := List.mem_map.1 hname
  obtain ⟨⟨rest, e⟩, hleaf⟩ :=
    List.exists_mem_of_ne_nil _ (leaves_ne_nil tree (hformed.of_mem hfield))
  have hmem := mem_leavesOf.2 ⟨_, tree, rest, hfield, hleaf, rfl⟩
  exact (hclear _ hmem).2 (List.cons_prefix_cons.2 ⟨rfl, List.nil_prefix⟩)

theorem clear_cons : Clear key ((name, tree) :: fields) ↔
    (∀ x ∈ tree.leaves, ¬ name :: x.1 <+: key ∧ ¬ key <+: name :: x.1) ∧ Clear key fields := by
  simp only [Clear, leavesOf, List.forall_mem_append, List.forall_mem_map]

/-- A field with another name than that of the object on the way is passed over. -/
theorem Placed.cons {fields' : Fields} {n : String} (h : Placed e key fields fields')
    (hnames : ∀ n', n' ∈ fields'.map (·.1) ↔ n' = name ∨ n' ∈ fields.map (·.1)) (hne : n ≠ name)
    (hformed : FormedFields ((n, tree) :: fields)) :
    Placed e key ((n, tree) :: fields) ((n, tree) :: fields') ∧
      ∀ n', n' ∈ ((n, tree) :: fields').map (·.1) ↔
        n' = name ∨ n' ∈ ((n, tree) :: fields).map (·.1) := by
  refine ⟨⟨⟨?_, hformed.2.1, h.formed⟩, ?_⟩, fun n' => ?_⟩
  · rw [hnames, not_or]
    exact ⟨hne, hformed.1⟩
  · rw [leavesOf, leavesOf]
    exact (h.leaves.append_left _).trans List.perm_middle
  · simp only [List.map_cons, List.mem_cons, hnames]
    tauto

/-- A value is placed in an object if it is placed in the object on its way. -/
theorem placed_changeObject {change : Fields → Fields}
    (hchange : ∀ inner, FormedFields inner → Clear key inner → Placed e key inner (change inner))
    (hformed : FormedFields fields) (hclear : Clear (name :: key) fields) :
    Placed e (name :: key) fields (changeObject name change fields) ∧
      ∀ n, n ∈ (changeObject name change fields).map (·.1) ↔ n = name ∨ n ∈ fields.map (·.1) := by
  have hobject : ∀ inner, Placed e key inner (change inner) →
      ((leavesOf (change inner)).map fun x => (name :: x.1, x.2)).Perm
        ((name :: key, e) :: (leavesOf inner).map fun x => (name :: x.1, x.2)) :=
    fun inner h => h.leaves.map _
  fun_induction changeObject name change fields with
  | case1 =>
    have hnew := hchange [] ⟨⟩ (by simp [Clear, leavesOf])
    refine ⟨⟨⟨List.not_mem_nil, ⟨hnew.ne_nil, hnew.formed⟩, ⟨⟩⟩, ?_⟩, by simp⟩
    simp only [leavesOf, leaves, List.append_nil]
    exact hobject [] hnew
  | case2 n value rest ih =>
    rw [clear_cons] at hclear
    obtain ⟨hplaced, hnames⟩ := ih hformed.2.2 hclear.2
    -- A value with the name would lie on the way.
    have hne : n ≠ name := by
      rintro rfl
      exact (hclear.1 ([], value) (by simp [leaves])).1
        (List.cons_prefix_cons.2 ⟨rfl, List.nil_prefix⟩)
    exact hplaced.cons hnames hne hformed
  | case3 inner rest =>
    rw [clear_cons] at hclear
    have hinner := hchange inner hformed.2.1.2 fun x hx =>
      (hclear.1 x hx).imp (fun h h' => h (List.cons_prefix_cons.2 ⟨rfl, h'⟩))
        fun h h' => h (List.cons_prefix_cons.2 ⟨rfl, h'⟩)
    refine ⟨⟨⟨hformed.1, ⟨hinner.ne_nil, hinner.formed⟩, hformed.2.2⟩, ?_⟩, by simp⟩
    rw [leavesOf, leavesOf, leaves, leaves]
    exact (hobject inner hinner).append_right _
  | case4 n inner rest hne ih =>
    rw [clear_cons] at hclear
    obtain ⟨hplaced, hnames⟩ := ih hformed.2.2 hclear.2
    exact hplaced.cons hnames hne hformed

/-- **One value more.** -/
theorem placed_insert (e : Expr) (hkey : key ≠ []) (hformed : FormedFields fields)
    (hclear : Clear key fields) : Placed e key fields (insert e key fields) := by
  induction key generalizing fields with
  | nil => exact absurd rfl hkey
  | cons name rest ih =>
    cases rest with
    | nil =>
      refine ⟨formedFields_append.2 ⟨hformed, hclear.not_mem hformed, ⟨⟩⟩, ?_⟩
      rw [insert, leavesOf_append]
      exact List.perm_append_singleton _ _
    | cons member rest =>
      exact (placed_changeObject (fun inner => ih (List.cons_ne_nil member rest)) hformed hclear).1

/-- **All values are placed**, if no key lies on the way to another. -/
theorem placed_foldl (fields : Fields) {entries : List (Path × Expr)}
    (hkeys : ∀ x ∈ entries, x.1.segments ≠ [])
    (hapart : entries.Pairwise fun x y => ¬ x.1.segments <+: y.1.segments ∧
      ¬ y.1.segments <+: x.1.segments)
    (hformed : FormedFields fields) (hclear : ∀ x ∈ entries, Clear x.1.segments fields) :
    let fields' := entries.foldl (fun fields (key, e) => insert e key.segments fields) fields
    FormedFields fields' ∧
      (leavesOf fields').Perm (entries.map (fun x => (x.1.segments, x.2)) ++ leavesOf fields) := by
  induction entries generalizing fields with
  | nil => exact ⟨hformed, List.Perm.refl _⟩
  | cons entry entries ih =>
    obtain ⟨key, e⟩ := entry
    rw [List.forall_mem_cons] at hkeys hclear
    rw [List.pairwise_cons] at hapart
    have hfirst := placed_insert e hkeys.1 hformed hclear.1
    have hrest : ∀ x ∈ entries, Clear x.1.segments (insert e key.segments fields) := by
      intro x hx y hy
      rcases List.mem_cons.1 (hfirst.leaves.mem_iff.1 hy) with rfl | hy
      · exact hapart.1 x hx
      · exact hclear.2 x hx y hy
    obtain ⟨hall, hleaves⟩ := ih (insert e key.segments fields) hkeys.2 hapart.2 hfirst.formed hrest
    exact ⟨hall, hleaves.trans ((hfirst.leaves.append_left _).trans List.perm_middle)⟩

/-! ## Finding a value -/

theorem find?_of_mem (hformed : FormedFields fields) (hfield : (name, tree) ∈ fields) :
    fields.find? (·.1 == name) = some (name, tree) := by
  induction fields with
  | nil => cases hfield
  | cons field fields ih =>
    obtain ⟨n, t⟩ := field
    rcases List.mem_cons.1 hfield with heq | hfield
    · cases heq
      simp
    · have hne : n ≠ name := by
        rintro rfl
        exact hformed.1 (List.mem_map_of_mem hfield)
      rw [List.find?_cons_of_neg (by simpa using hne)]
      exact ih hformed.2.2 hfield

theorem fieldIn?_args (object name : String) (fields : Fields) :
    Sql.fieldIn? name (args object fields) =
      (fields.find? (·.1 == name)).map (·.2.expr object) := by
  induction fields with
  | nil => rfl
  | cons field fields ih =>
    obtain ⟨n, t⟩ := field
    rw [args, Sql.fieldIn?]
    by_cases hn : n = name
    · rw [if_pos hn, List.find?_cons_of_pos (by simpa using hn), Option.map_some]
    · rw [if_neg hn, List.find?_cons_of_neg (by simpa using hn), ih]

/-- **A value is found by its key.** -/
theorem fieldAt?_expr (object : String) (hformed : tree.Formed) (hleaf : (path, e) ∈ tree.leaves) :
    (tree.expr object).fieldAt? object path = some e := by
  induction path generalizing tree with
  | nil =>
    cases tree with
    | leaf value =>
      cases List.mem_singleton.1 hleaf
      rfl
    | object fields =>
      obtain ⟨_, _, _, -, -, hnil⟩ := mem_leavesOf.1 hleaf
      cases hnil
  | cons name rest ih =>
    cases tree with
    | leaf value => cases List.mem_singleton.1 hleaf
    | object fields =>
      obtain ⟨_, tree, _, hfield, hleaf, heq⟩ := mem_leavesOf.1 hleaf
      cases heq
      have hfound : ((JsonTree.object fields).expr object).field? object name =
          some (tree.expr object) := by
        simp [expr, Expr.apply, Expr.field?, fieldIn?_args, find?_of_mem hformed.2 hfield]
      rw [Expr.fieldAt?, hfound]
      exact ih (hformed.2.of_mem hfield) hleaf

/-! ## Grouping by names

The objects can also be made one after the other, each from all the values that belong to it. -/

/-- The keys that go on behind a name, without it. -/
def behind (name : String) (entries : List (List String × Expr)) : List (List String × Expr) :=
  entries.filterMap fun
    | (n :: member :: rest, e) => if n = name then some (member :: rest, e) else none
    | _ => none

/-- One field for each key of one name, and one object for each name that longer keys begin with,
where the first of them stands. `done` are the names that have their objects. -/
def groupFrom (inner : String → Fields) : List String → List (List String × Expr) → Fields
  | _, [] => []
  | done, ([], _) :: rest => groupFrom inner done rest
  | done, ([name], e) :: rest => (name, leaf e) :: groupFrom inner done rest
  | done, (name :: _ :: _, _) :: rest =>
    if name ∈ done then groupFrom inner done rest
    else (name, object (inner name)) :: groupFrom inner (name :: done) rest

/-- The fields of an object and of the objects in it, with at most `n` inside each other. -/
def groupIn : Nat → List (List String × Expr) → Fields
  | 0, _ => []
  | n + 1, entries => groupFrom (fun name => groupIn n (behind name entries)) [] entries

/-- Puts every value at its place, one after the other. -/
def insertAll (entries : List (List String × Expr)) : Fields :=
  entries.foldl (fun fields x => insert x.2 x.1 fields) []

section Grouping

variable {entries : List (List String × Expr)} {inner inner' : String → Fields}
  {done rest : List String} {member : String}

theorem insertAll_concat (entries : List (List String × Expr)) (key : List String) (e : Expr) :
    insertAll (entries ++ [(key, e)]) = insert e key (insertAll entries) := by
  rw [insertAll, List.foldl_append]
  rfl

theorem groupFrom_concat_short (hkey : key.length ≤ 1) :
    groupFrom inner done (entries ++ [(key, e)]) =
      groupFrom inner done entries ++ insert e key [] := by
  fun_induction groupFrom inner done entries with
  | case1 done =>
    match key, hkey with
    | [], _ => rfl
    | [_], _ => rfl
  | case2 done e' entries ih => exact ih
  | case3 done n e' entries ih => rw [List.cons_append, groupFrom, ih, List.cons_append]
  | case4 done n _ _ _ entries hn ih => rw [List.cons_append, groupFrom, if_pos hn, ih]
  | case5 done n _ _ _ entries hn ih =>
    rw [List.cons_append, groupFrom, if_neg hn, ih, List.cons_append]

/-- A longer key adds nothing where its first name is done. -/
theorem groupFrom_concat_done (hdone : name ∈ done) (hother : ∀ n ≠ name, inner' n = inner n) :
    groupFrom inner' done (entries ++ [(name :: member :: rest, e)]) =
      groupFrom inner done entries := by
  fun_induction groupFrom inner done entries with
  | case1 done => simp [groupFrom, hdone]
  | case2 done e' entries ih => exact ih hdone
  | case3 done n e' entries ih => rw [List.cons_append, groupFrom, ih hdone]
  | case4 done n _ _ _ entries hn ih => rw [List.cons_append, groupFrom, if_pos hn, ih hdone]
  | case5 done n _ _ _ entries hn ih =>
    have hne : n ≠ name := fun heq => hn (heq ▸ hdone)
    rw [List.cons_append, groupFrom, if_neg hn, hother n hne, ih (List.mem_cons_of_mem _ hdone)]

/-- Otherwise it changes the object of its first name, or adds one. -/
theorem groupFrom_concat {change : Fields → Fields} (hdone : name ∉ done)
    (hother : ∀ n ≠ name, inner' n = inner n) (hchange : inner' name = change (inner name))
    (hnew : behind name entries = [] → inner name = []) :
    groupFrom inner' done (entries ++ [(name :: member :: rest, e)]) =
      changeObject name change (groupFrom inner done entries) := by
  fun_induction groupFrom inner done entries with
  | case1 done => simp [groupFrom, hdone, changeObject, hchange, hnew rfl]
  | case2 done e' entries ih => exact ih hdone hnew
  | case3 done n e' entries ih => rw [List.cons_append, groupFrom, changeObject, ih hdone hnew]
  | case4 done n _ _ _ entries hn ih =>
    have hne : n ≠ name := fun heq => hdone (heq ▸ hn)
    rw [List.cons_append, groupFrom, if_pos hn]
    exact ih hdone (by simpa [behind, hne] using hnew)
  | case5 done n _ _ _ entries hn ih =>
    rw [List.cons_append, groupFrom, if_neg hn, changeObject]
    by_cases hne : n = name
    · -- The object is made here, so what follows finds the name done.
      subst hne
      rw [if_pos rfl, hchange, groupFrom_concat_done List.mem_cons_self hother]
    · rw [if_neg hne, hother n hne, ih (by simp [hdone, Ne.symm hne])]
      simpa [behind, hne] using hnew

/-- If inserting makes the objects, it makes the fields. -/
theorem groupFrom_insertAll (entries : List (List String × Expr)) :
    groupFrom (fun name => insertAll (behind name entries)) [] entries = insertAll entries := by
  induction entries using List.reverseRecOn with
  | nil => rfl
  | append_singleton entries x ih =>
    obtain ⟨key, e⟩ := x
    rw [insertAll_concat, ← ih]
    match key with
    | [] => simp [behind, groupFrom_concat_short, insert]
    | [name] => simp [behind, groupFrom_concat_short, insert]
    | name :: member :: rest =>
      rw [insert]
      refine groupFrom_concat List.not_mem_nil (fun n hne => ?_) ?_ fun hnone => by rw [hnone]; rfl
      · simp [behind, Ne.symm hne]
      · rw [← insertAll_concat]
        simp [behind]

theorem length_lt_of_mem_behind {n : Nat} {x : List String × Expr}
    (hn : ∀ x ∈ entries, x.1.length < n + 1) (hx : x ∈ behind name entries) : x.1.length < n := by
  obtain ⟨⟨key, e⟩, hmem, hsome⟩ := List.mem_filterMap.1 hx
  have hlength := hn _ hmem
  grind

/-- **Grouping and inserting give the same fields**, if no key is too long. -/
theorem groupIn_eq_insertAll {n : Nat} (hn : ∀ x ∈ entries, x.1.length < n) :
    groupIn n entries = insertAll entries := by
  induction n generalizing entries with
  | zero =>
    have hnil : entries = [] :=
      List.eq_nil_iff_forall_not_mem.2 fun x hx => Nat.not_lt_zero _ (hn x hx)
    rw [hnil]
    rfl
  | succ n ih =>
    have hinner (name : String) : groupIn n (behind name entries) =
        insertAll (behind name entries) := ih fun x hx => length_lt_of_mem_behind hn hx
    rw [groupIn, funext hinner, groupFrom_insertAll]

end Grouping

end JsonTree

/-- **The object of a row is made by grouping.** -/
theorem Level.jsonObject_eq_groupIn (l : Level) (functions : JsonFunctions) {n : Nat}
    (hn : ∀ x ∈ l.entries, x.1.segments.length < n) :
    l.jsonObject functions = (JsonTree.object
      (JsonTree.groupIn n (l.entries.map fun x => (x.1.segments, x.2)))).expr functions.object := by
  rw [JsonTree.groupIn_eq_insertAll (List.forall_mem_map.2 hn), JsonTree.insertAll, List.foldl_map]
  rfl

/-! ## Names of columns -/

/-- The place that the name of a column says, member by member. -/
def Sql.SelectItem.place (item : SelectItem) : List String × Expr :=
  ((Text.pieces '.' (item.label.getD "").toList).map String.ofList, item.expr)

theorem Path.pieces_text {path : Path} (hne : path.segments ≠ [])
    (hdots : ∀ s ∈ path.segments, '.' ∉ s.toList) :
    (Text.pieces '.' path.text.toList).map String.ofList = path.segments := by
  rw [pieces_toList_text hne hdots, List.map_map]
  have hid : String.ofList ∘ String.toList = id := funext fun _ => String.ofList_toList
  rw [hid, List.map_id]

/-- **A document has every value once, at its place.** Keys are accepted exactly if none is on the
way to another. Then, of keys that are not empty, the object of a row holds every value at the end
of its key; it is written from a tree in which no object has a name twice and whose values are those
of the row; and these are also the values at the places that the names of the columns say, unless a
member has a dot. -/
theorem jsonObject_places (l : Level) (functions : JsonFunctions) :
    (checkKeys l.items l.nested = .ok () ↔
      (l.entries.map (·.1.segments)).Pairwise fun a b => ¬ a <+: b ∧ ¬ b <+: a) ∧
    (checkKeys l.items l.nested = .ok () → (∀ x ∈ l.entries, x.1.segments ≠ []) →
      (∀ key e, (key, e) ∈ l.entries →
        (l.jsonObject functions).fieldAt? functions.object key.segments = some e) ∧
      ∃ fields, l.jsonObject functions = (JsonTree.object fields).expr functions.object ∧
        JsonTree.FormedFields fields ∧
        (JsonTree.leavesOf fields).Perm (l.entries.map fun x => (x.1.segments, x.2)) ∧
        ((∀ x ∈ l.entries, ∀ s ∈ x.1.segments, '.' ∉ s.toList) →
          (JsonTree.leavesOf fields).Perm (l.pathItems.map (·.place)))) := by
  have haccepts : checkKeys l.items l.nested = .ok () ↔
      (l.entries.map (·.1.segments)).Pairwise fun a b => ¬ a <+: b ∧ ¬ b <+: a := by
    have hentries : l.entries.map (·.1.segments) =
        (l.items.map (·.key) ++ l.nested.map (·.key)).map (·.segments) := by
      simp [Level.entries, Function.comp_def]
    rw [checkKeys_eq_ok, hentries, List.pairwise_map]
    simp only [Path.startsWith, ← Bool.not_eq_true, List.isPrefixOf_iff_prefix]
    exact List.Pairwise.iff fun {a b} => and_comm
  refine ⟨haccepts, fun hok hkeys => ?_⟩
  obtain ⟨hformed, hleaves⟩ := JsonTree.placed_foldl [] hkeys
    (List.pairwise_map.1 (haccepts.1 hok)) ⟨⟩ (by simp [JsonTree.Clear, JsonTree.leavesOf])
  rw [JsonTree.leavesOf, List.append_nil] at hleaves
  refine ⟨fun key e hentry => ?_, _, rfl, hformed, hleaves, fun hdots => ?_⟩
  · have hleaf := hleaves.mem_iff.2 (List.mem_map_of_mem hentry)
    refine JsonTree.fieldAt?_expr functions.object ⟨?_, hformed⟩ hleaf
    intro hnil
    rw [hnil] at hleaf
    cases hleaf
  · have hitems : l.pathItems.map (·.place) = l.entries.map fun x => (x.1.segments, x.2) := by
      rw [Level.pathItems, List.map_map]
      refine List.map_congr_left fun x hx => ?_
      simp only [Function.comp_apply, Sql.SelectItem.place, Option.getD_some,
        Path.pieces_text (hkeys x hx) (hdots x hx)]
    rw [hitems]
    exact hleaves

namespace Shop

/-- The functions of PostgreSQL. -/
def inline : JsonFunctions := ⟨"JSONB_BUILD_OBJECT", "JSONB_AGG", "JSONB_BUILD_ARRAY"⟩

/-- An order with the name, the city and the orders of its customer; its own identifier stands
between them. -/
def addressed : Level where
  scope := .ofTable (model plain) orders
  conditions := []
  items := [⟨.ofTable "c" "name", "name", ⟨["customer", "name"]⟩, .key⟩,
    ⟨.ofTable "o" "id", "id", ⟨["id"]⟩, .key⟩,
    ⟨.ofTable "c" "city", "city", ⟨["customer", "address", "city"]⟩, .key⟩]
  nested := [⟨⟨["customer", "orders"]⟩, .param (.text "[]") none⟩]
  groupBy := []
  orderBy := []
  paging := none
  distinct := false
  filterCtes := 0

end Shop

/-- The values of the customer come together in one object. -/
theorem jsonObject_places_addressed :
    checkKeys Shop.addressed.items Shop.addressed.nested = .ok () ∧
      (∀ x ∈ Shop.addressed.entries, x.1.segments ≠ []) ∧
      (∀ x ∈ Shop.addressed.entries, ∀ s ∈ x.1.segments, '.' ∉ s.toList) ∧
      (Shop.addressed.jsonObject Shop.inline).fieldAt? "JSONB_BUILD_OBJECT"
        ["customer", "address", "city"] = some (.ofTable "c" "city") ∧
      ∃ fields, Shop.addressed.jsonObject Shop.inline =
          (JsonTree.object fields).expr "JSONB_BUILD_OBJECT" ∧
        JsonTree.FormedFields fields ∧
        (JsonTree.leavesOf fields).Perm (Shop.addressed.pathItems.map (·.place)) := by
  have hkeys : ∀ x ∈ Shop.addressed.entries, x.1.segments ≠ [] := by
    simp [Level.entries, Shop.addressed]
  have hdots : ∀ x ∈ Shop.addressed.entries, ∀ s ∈ x.1.segments, '.' ∉ s.toList := by
    simp only [Level.entries, Shop.addressed, List.map_cons, List.map_nil, List.cons_append,
      List.nil_append, List.forall_mem_cons]
    decide
  obtain ⟨hfound, fields, hobject, hformed, -, hplaces⟩ :=
    (jsonObject_places Shop.addressed Shop.inline).2 rfl hkeys
  exact ⟨rfl, hkeys, hdots, hfound ⟨["customer", "address", "city"]⟩ _ (by
    simp [Level.entries, Shop.addressed]), fields, hobject, hformed, hplaces hdots⟩

end EntityQuery
