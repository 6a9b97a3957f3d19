import EntityQuery.Graph.Table
import EntityQuery.Settings

/-!
# Shared roots

A `Session` hands out root positions of a model. A fresh root takes the next identity that the
naming has for roots; a shared root is built once and kept in a `Cache` for a while. Time is a
number of seconds and comes from the caller.
-/

namespace EntityQuery

/-- Roots are shared by entity and schema. -/
structure CacheKey where
  entity : String
  schema : Option String
  deriving DecidableEq

structure CacheEntry where
  table : Table
  /-- When the root was built. -/
  built : Nat

/-- The place of a key. It stays empty as long as the root cannot be built. -/
structure CacheSlot where
  key : CacheKey
  entry : Option CacheEntry

/-- There is one slot at most for each key. -/
structure Cache where
  /-- How long an entry is used. -/
  ttl : Nat
  slots : List CacheSlot
  distinct : (slots.map (·.key)).Nodup

namespace Cache

def empty (ttl : Nat) : Cache := ⟨ttl, [], List.nodup_nil⟩

/-- Drops the other slots. -/
def retain (c : Cache) (keeps : CacheSlot → Bool) : Cache where
  ttl := c.ttl
  slots := c.slots.filter keeps
  distinct := c.distinct.sublist (List.filter_sublist.map _)

/-- An entry is used for less than the time to live. -/
def isExpired (c : Cache) (now : Nat) (e : CacheEntry) : Bool := c.ttl ≤ now - e.built

/-- Drops the slot of a key if its entry cannot be used any more. -/
def expire (c : Cache) (now : Nat) (key : CacheKey) : Cache :=
  c.retain fun slot => !(slot.key == key && slot.entry.any (c.isExpired now))

/-- Adds an empty slot for a key that has none. -/
def reserve (c : Cache) (key : CacheKey) : Cache :=
  if h : key ∈ c.slots.map (·.key) then c
  else {
    ttl := c.ttl
    slots := c.slots ++ [⟨key, none⟩]
    distinct := by
      rw [List.map_append, List.map_singleton, List.nodup_append]
      refine ⟨c.distinct, List.pairwise_singleton _ _, fun k hk _ hkey heq => h ?_⟩
      rwa [heq, List.mem_singleton.1 hkey] at hk }

def find? (c : Cache) (key : CacheKey) : Option CacheEntry :=
  (c.slots.find? (·.key == key)).bind (·.entry)

/-- Puts an entry into the slot of a key. -/
def fill (c : Cache) (key : CacheKey) (e : CacheEntry) : Cache where
  ttl := c.ttl
  slots := c.slots.map fun slot => if slot.key = key then { slot with entry := some e } else slot
  distinct := by
    have hkeys : (fun slot : CacheSlot =>
        (if slot.key = key then { slot with entry := some e } else slot).key) = (·.key) := by
      funext slot
      split <;> rfl
    rw [List.map_map, Function.comp_def, hkeys]
    exact c.distinct

/-- Drops the roots of an entity. -/
def invalidate (c : Cache) (entity : String) : Cache :=
  c.retain (·.key.entity != entity)

def clear (c : Cache) : Cache := c.retain fun _ => false

/-- The roots that have been built. -/
def entries (c : Cache) : List CacheEntry := c.slots.filterMap (·.entry)

def size (c : Cache) : Nat := c.entries.length

end Cache

structure Session where
  model : Model
  settings : Settings
  cache : Cache
  /-- How many identities have been drawn. -/
  draws : Nat

namespace Session

/-- A session over the checked declarations. -/
def buildWith (naming : Naming) (settings : Settings) (declarations : List EntityDecl) :
    Except QueryError Session := do
  let model ← Model.build naming settings.defaultSchema declarations
  return ⟨model, settings, Cache.empty settings.ttlSeconds, 0⟩

/-- A session with the naming of the program. -/
def build (settings : Settings) (declarations : List EntityDecl) : Except QueryError Session :=
  buildWith .hashed settings declarations

/-- A root of its own, with the next identity. -/
def fresh (s : Session) (entity : String) : Except QueryError (Table × Session) :=
  match s.model.entity? entity with
  | some e => .ok (Model.root e (s.model.naming.draw s.draws), { s with draws := s.draws + 1 })
  | none => .error (.unknownEntity entity)

/-- The root kept under a key; a fresh one if there is none that can be used. Where there is no
fresh one either, an empty slot is left. -/
def lookup (s : Session) (now : Nat) (key : CacheKey) : Except QueryError Table × Session :=
  let cache := (s.cache.expire now key).reserve key
  match cache.find? key with
  | some e => (.ok e.table, { s with cache })
  | none =>
    match s.fresh key.entity with
    | .ok (t, s) => (.ok t, { s with cache := cache.fill key ⟨t, now⟩ })
    | .error e => (.error e, { s with cache })

/-- The shared root of an entity, and the session that is left. -/
def shared (s : Session) (now : Nat) (entity : String) : Except QueryError Table × Session :=
  s.lookup now ⟨entity, s.settings.defaultSchema⟩

/-- A result with the session that is left, where there is a result. -/
def settle {α : Type} : Except QueryError α × Session → Except QueryError (α × Session)
  | (.ok a, s) => .ok (a, s)
  | (.error e, _) => .error e

end Session

end EntityQuery
