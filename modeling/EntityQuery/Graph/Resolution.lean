import EntityQuery.Graph.Table

/-!
# Resolving paths

A path is walked from a position along relationships; a column path ends at a column of the
position reached. The position of a path decides its identity, and `Table.isBelow` reads the
position off the lineage.
-/

namespace EntityQuery

/-- A column path with the relationships that lead to its table. -/
structure Resolution where
  hops : List Relationship
  table : Table
  column : EntityColumn

namespace Resolution

/-- The index of the first relationship that fans out. -/
def firstMany? (r : Resolution) : Option Nat := r.hops.findIdx? (·.fansOut)

/-- The relationships before the first that fans out, that one, and those after it. -/
def splitMany? (r : Resolution) : Option (List Relationship × Relationship × List Relationship) :=
  match r.hops.span (!·.fansOut) with
  | (before, many :: after) => some (before, many, after)
  | (_, []) => none

def crossesMany (r : Resolution) : Bool := r.firstMany?.isSome

end Resolution

/-- A walk along at least one relationship. -/
structure Route where
  before : List Relationship
  last : Relationship

namespace Route

def hops (r : Route) : List Relationship := r.before ++ [r.last]

def ofHops? (hops : List Relationship) : Option Route :=
  hops.getLast?.map fun last => ⟨hops.dropLast, last⟩

end Route

namespace Model

/-- Follows the members as relationships. -/
def walkMembers? (m : Model) (t : Table) : List String → Option (List Relationship)
  | [] => some []
  | member :: rest => do
    let r ← m.relationship? t member
    let hops ← m.walkMembers? r.child rest
    return r :: hops

theorem length_walkMembers? {m : Model} {t : Table} {members : List String}
    {hops : List Relationship} (h : m.walkMembers? t members = some hops) :
    hops.length = members.length := by
  induction members generalizing t hops with
  | nil => simp_all [walkMembers?]
  | cons member rest ih =>
    simp only [walkMembers?, Option.bind_eq_bind, Option.bind_eq_some_iff] at h
    obtain ⟨r, -, hops', hrest, h⟩ := h
    cases h
    simp [ih hrest]

def walk? (m : Model) (t : Table) (p : Path) : Option (List Relationship) :=
  m.walkMembers? t p.segments

/-- The table at the end of a walk from `t`. -/
def endOf (t : Table) (hops : List Relationship) : Table :=
  match hops.getLast? with
  | some r => r.child
  | none => t

/-- The last relationship of a walk; the empty path has none. -/
def relationshipAt? (m : Model) (t : Table) (p : Path) : Option Relationship :=
  (m.walk? t p).bind (·.getLast?)

/-- Resolves a column path. -/
def resolve (m : Model) (t : Table) (p : Path) : Except QueryError Resolution :=
  match p.last?, m.walk? t (p.take (p.length - 1)) with
  | some member, some hops =>
    let table := endOf t hops
    match table.column? member with
    | some column => .ok ⟨hops, table, column⟩
    | none =>
      if (m.relationship? table member).isSome then .error (.notAColumn t.entity.name p)
      else .error (.pathNotFound t.entity.name p)
  | _, _ => .error (.pathNotFound t.entity.name p)

/-- All members of a column path but the last are relationships. -/
theorem length_hops_resolve {m : Model} {t : Table} {p : Path} {r : Resolution}
    (h : m.resolve t p = .ok r) : r.hops.length + 1 = p.length := by
  simp only [resolve] at h
  split at h
  · rename_i member hops hlast hwalk
    split at h
    · cases h
      have hlen := length_walkMembers? hwalk
      have hpos : p.segments ≠ [] := by
        intro hnil
        simp [Path.last?, hnil] at hlast
      have := List.length_pos_iff.2 hpos
      simp only [Path.take, Path.length, List.length_take] at hlen ⊢
      omega
    · split at h <;> contradiction
  · contradiction

theorem firstMany?_resolve_lt {m : Model} {t : Table} {p : Path} {r : Resolution} {i : Nat}
    (h : m.resolve t p = .ok r) (hi : r.firstMany? = some i) : i + 1 < p.length := by
  have hlen := length_hops_resolve h
  obtain ⟨hlt, -⟩ := List.findIdx?_eq_some_iff_getElem.1 hi
  omega

/-- Resolves a relationship path, which must not be empty. -/
def resolveRelationship (m : Model) (t : Table) (p : Path) : Except QueryError Route :=
  match (m.walk? t p).bind Route.ofHops? with
  | some route => .ok route
  | none =>
    match m.resolve t p with
    | .ok _ => .error (.notARelationship t.entity.name p)
    | .error _ => .error (.pathNotFound t.entity.name p)

def column? (m : Model) (t : Table) (p : Path) : Option (Table × EntityColumn) :=
  match m.resolve t p with
  | .ok r => some (r.table, r.column)
  | .error _ => none

/-- The first relationship of a chain of members that fans out, counted from `index`. The chain
is followed no further than that. -/
def firstManyMember? (m : Model) (t : Table) (index : Nat) :
    List String → Option (Nat × Relationship)
  | [] => none
  | member :: rest => do
    let r ← m.relationship? t member
    if r.fansOut then some (index, r) else m.firstManyMember? r.child (index + 1) rest

def firstMany? (m : Model) (t : Table) (p : Path) : Option (Nat × Relationship) :=
  m.firstManyMember? t 0 p.segments

theorem firstManyMember?_lt {m : Model} {t : Table} {start i : Nat} {members : List String}
    {r : Relationship} (h : m.firstManyMember? t start members = some (i, r)) :
    i < start + members.length := by
  induction members generalizing t start with
  | nil => simp [firstManyMember?] at h
  | cons member rest ih =>
    simp only [firstManyMember?, Option.bind_eq_bind, Option.bind_eq_some_iff] at h
    obtain ⟨s, -, h⟩ := h
    split at h
    · cases h
      simp
    · have := ih h
      simp only [List.length_cons]
      omega

theorem firstMany?_lt {m : Model} {t : Table} {p : Path} {i : Nat} {r : Relationship}
    (h : m.firstMany? t p = some (i, r)) : i < p.length := by
  have := firstManyMember?_lt h
  simpa [Path.length] using this

end Model

namespace Table

/-- Whether `a` is reached from `b` through relationships. -/
def isBelow (a b : Table) : Bool := a.lineage.any (·.identity == b.identity)

def isAtOrBelow (a b : Table) : Bool := a.identity == b.identity || a.isBelow b

/-- Whether `a` lies below the parent of `b`; below a root, or at it, if `b` is one. -/
def isInFamilyOf (a b : Table) : Bool :=
  match b.lineage with
  | [] => a.isAtOrBelow b
  | parent :: _ => a.identity != parent.identity && a.lineage.any (·.identity == parent.identity)

end Table

end EntityQuery
