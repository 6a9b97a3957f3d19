import EntityQuery.Graph.Session
import Mathlib.Data.List.Nodup
import Mathlib.Data.Nat.ModEq
import Mathlib.Logic.Function.Basic

/-!
# What a session keeps

A cache is seen through `Cache.find?`, the entries by their keys. Each operation has one equation
for it, and since no key has two slots, the entries that are found are all that there are
(`Cache.mem_entries`, `Cache.exists_live`).

**Looking up.** There are three cases (`Session.lookup_kept`, `Session.lookup_built`,
`Session.lookup_unknown`): an entry that can be used is handed out; otherwise a root is built and
kept; and for an unknown entity nothing is kept. What else a session has stays
(`Session.Becomes`).

**Drawing.** That the identity of a root is new is an assumption on the naming
(`Naming.DrawsNew`). The naming of the program meets it for the first `2 ^ 62` roots
(`Naming.drawsNew_hashed`).
-/

namespace EntityQuery

namespace Cache

variable {c : Cache} {key k : CacheKey} {e : CacheEntry} {now : Nat}

/-- **An entry is found where it is kept.** -/
theorem find?_eq_some : c.find? key = some e ↔ ⟨key, some e⟩ ∈ c.slots := by
  rw [find?, Option.bind_eq_some_iff]
  constructor
  · rintro ⟨slot, hslot, hentry⟩
    have hkey : slot.key = key := by simpa using List.find?_some hslot
    rw [← hkey, ← hentry]
    exact List.mem_of_find?_eq_some hslot
  · intro hmem
    obtain ⟨slot, hslot⟩ : ∃ slot, c.slots.find? (·.key == key) = some slot :=
      Option.isSome_iff_exists.1 (List.find?_isSome.2 ⟨_, hmem, beq_self_eq_true key⟩)
    have hkey : slot.key = key := by simpa using List.find?_some hslot
    have hsame : slot = ⟨key, some e⟩ :=
      List.inj_on_of_nodup_map c.distinct (List.mem_of_find?_eq_some hslot) hmem hkey
    exact ⟨slot, hslot, by rw [hsame]⟩

@[simp]
theorem find?_empty (ttl : Nat) : (empty ttl).find? key = none := rfl

theorem find?_retain (keeps : CacheSlot → Bool) :
    (c.retain keeps).find? key = (c.find? key).filter fun e => keeps ⟨key, some e⟩ := by
  ext e
  rw [find?_eq_some, retain, List.mem_filter, Option.filter_eq_some_iff, find?_eq_some]

theorem find?_expire :
    (c.expire now key).find? k =
      if k = key then (c.find? k).filter (!c.isExpired now ·) else c.find? k := by
  rw [expire, find?_retain]
  split
  · rename_i hkey
    simp [hkey]
  · rename_i hkey
    cases c.find? k <;> simp [Option.filter, hkey]

theorem find?_reserve : (c.reserve key).find? k = c.find? k := by
  ext e
  rw [find?_eq_some, find?_eq_some, reserve]
  split
  · rfl
  · simp

theorem mem_reserve : key ∈ (c.reserve key).slots.map (·.key) := by
  rw [reserve]
  split
  · assumption
  · simp

theorem find?_fill (h : key ∈ c.slots.map (·.key)) :
    (c.fill key e).find? k = if k = key then some e else c.find? k := by
  obtain ⟨slot, hslot, hkey⟩ := List.mem_map.1 h
  split
  · rename_i hk
    rw [find?_eq_some, fill]
    exact List.mem_map.2 ⟨slot, hslot, by rw [if_pos hkey, hkey, hk]⟩
  · rename_i hk
    ext e'
    rw [find?_eq_some, find?_eq_some, fill, List.mem_map]
    constructor
    · rintro ⟨other, hother, heq⟩
      split at heq
      · rename_i hsame
        exact absurd ((congrArg CacheSlot.key heq).symm.trans hsame) hk
      · rwa [← heq]
    · intro hmem
      exact ⟨_, hmem, if_neg hk⟩

theorem find?_invalidate (entity : String) :
    (c.invalidate entity).find? k = if k.entity = entity then none else c.find? k := by
  rw [invalidate, find?_retain]
  split
  · rename_i hentity
    simp [hentity]
  · rename_i hentity
    cases c.find? k <;> simp [Option.filter, hentity]

@[simp]
theorem find?_clear : c.clear.find? k = none := by
  simp [clear, find?_retain]

/-- **All entries are found.** -/
theorem mem_entries : e ∈ c.entries ↔ ∃ key, c.find? key = some e := by
  simp only [entries, List.mem_filterMap, find?_eq_some]
  constructor
  · rintro ⟨⟨key, entry⟩, hslot, rfl⟩
    exact ⟨key, hslot⟩
  · rintro ⟨key, hslot⟩
    exact ⟨_, hslot, rfl⟩

/-- **The size is the number of keys** that something is kept for. -/
theorem exists_live (c : Cache) : ∃ live : List CacheKey, live.Nodup ∧
    (∀ k, k ∈ live ↔ (c.find? k).isSome) ∧ c.size = live.length := by
  refine ⟨(c.slots.filter (·.entry.isSome)).map (·.key),
    c.distinct.sublist (List.filter_sublist.map _), fun k => ?_, ?_⟩
  · simp only [Option.isSome_iff_exists, find?_eq_some, List.mem_map, List.mem_filter]
    constructor
    · rintro ⟨⟨key, entry⟩, ⟨hslot, e, rfl⟩, rfl⟩
      exact ⟨e, hslot⟩
    · rintro ⟨e, hslot⟩
      exact ⟨_, ⟨hslot, e, rfl⟩, rfl⟩
  · rw [size, entries, List.length_map, ← List.countP_eq_length_filter,
      List.length_filterMap_eq_countP]

/-- The size depends on what is found only. -/
theorem size_congr {c' : Cache} (h : ∀ k, c'.find? k = c.find? k) : c'.size = c.size := by
  obtain ⟨live, hnodup, hlive, hsize⟩ := c.exists_live
  obtain ⟨live', hnodup', hlive', hsize'⟩ := c'.exists_live
  rw [hsize, hsize']
  refine ((List.perm_ext_iff_of_nodup hnodup' hnodup).2 fun k => ?_).length_eq
  rw [hlive, hlive', h]

end Cache

/-! ## Looking up -/

namespace Session

variable {s s' : Session} {now : Nat} {key : CacheKey}

/-- The sessions differ in the number of draws and in what is kept, if at all. -/
structure Becomes (s s' : Session) (draws : Nat) (kept : CacheKey → Option CacheEntry) : Prop where
  model : s'.model = s.model
  settings : s'.settings = s.settings
  ttl : s'.cache.ttl = s.cache.ttl
  draws : s'.draws = draws
  find : ∀ k, s'.cache.find? k = kept k

theorem fresh_of_entity {name : String} {entity : Entity}
    (h : s.model.entity? name = some entity) : s.fresh name =
      .ok (Model.root entity (s.model.naming.draw s.draws), { s with draws := s.draws + 1 }) := by
  rw [fresh, h]

theorem fresh_of_unknown {name : String} (h : s.model.entity? name = none) :
    s.fresh name = .error (.unknownEntity name) := by
  rw [fresh, h]

/-- The entry of a key, if it can be used. -/
def usable? (s : Session) (now : Nat) (key : CacheKey) : Option CacheEntry :=
  (s.cache.find? key).filter (!s.cache.isExpired now ·)

theorem find?_reserved (s : Session) (now : Nat) (key : CacheKey) :
    ((s.cache.expire now key).reserve key).find? key = s.usable? now key := by
  rw [Cache.find?_reserve, Cache.find?_expire, if_pos rfl, usable?]

/-- What is kept for other keys stays. -/
theorem find?_expire_of_ne {k : CacheKey} (h : k ≠ key) :
    ((s.cache.expire now key).reserve key).find? k = s.cache.find? k := by
  rw [Cache.find?_reserve, Cache.find?_expire, if_neg h]

theorem ttl_reserved (s : Session) (now : Nat) (key : CacheKey) :
    ((s.cache.expire now key).reserve key).ttl = s.cache.ttl := by
  rw [Cache.reserve]
  split <;> rfl

/-- **An entry that can be used is handed out.** -/
theorem lookup_kept {e : CacheEntry} (h : s.usable? now key = some e) :
    (s.lookup now key).1 = .ok e.table ∧
      s.Becomes (s.lookup now key).2 s.draws s.cache.find? := by
  have hfind := (Option.filter_eq_some_iff.1 h).1
  simp only [lookup, find?_reserved, h]
  refine ⟨trivial, rfl, rfl, s.ttl_reserved now key, rfl, fun k => ?_⟩
  by_cases hk : k = key
  · rw [hk, find?_reserved, h, hfind]
  · exact find?_expire_of_ne hk

/-- **Otherwise a root is built and kept.** -/
theorem lookup_built {entity : Entity} (h : s.usable? now key = none)
    (hentity : s.model.entity? key.entity = some entity) :
    (s.lookup now key).1 = .ok (Model.root entity (s.model.naming.draw s.draws)) ∧
      s.Becomes (s.lookup now key).2 (s.draws + 1) (Function.update s.cache.find? key
        (some ⟨Model.root entity (s.model.naming.draw s.draws), now⟩)) := by
  simp only [lookup, find?_reserved, h, fresh_of_entity hentity]
  refine ⟨trivial, rfl, rfl, s.ttl_reserved now key, rfl, fun k => ?_⟩
  rw [Cache.find?_fill Cache.mem_reserve, Function.update_apply]
  split
  · rfl
  · rename_i hk
    exact find?_expire_of_ne hk

/-- **Nothing is kept for an unknown entity.** -/
theorem lookup_unknown (h : s.usable? now key = none)
    (hentity : s.model.entity? key.entity = none) :
    (s.lookup now key).1 = .error (.unknownEntity key.entity) ∧
      s.Becomes (s.lookup now key).2 s.draws (Function.update s.cache.find? key none) := by
  simp only [lookup, find?_reserved, h, fresh_of_unknown hentity]
  refine ⟨trivial, rfl, rfl, s.ttl_reserved now key, rfl, fun k => ?_⟩
  rw [Function.update_apply]
  split
  · rename_i hk
    rw [hk, find?_reserved, h]
  · rename_i hk
    exact find?_expire_of_ne hk

end Session

/-! ## Identities -/

/-- The identity that comes after `n` others is none of them. -/
def Naming.DrawsNew (naming : Naming) (n : Nat) : Prop := ∀ k < n, naming.draw n ≠ naming.draw k

theorem Digest.littleEndian_inj {width a b : Nat}
    (h : littleEndian width a = littleEndian width b) : a % 256 ^ width = b % 256 ^ width := by
  induction width generalizing a b with
  | zero => simp [Nat.mod_one]
  | succ width ih =>
    rw [littleEndian, littleEndian, List.cons.injEq] at h
    have hlow : a % 256 = b % 256 := by
      have := congrArg UInt8.toNat h.1
      simpa using this
    have hhigh := ih h.2
    rw [Nat.pow_succ', Nat.mod_mul, Nat.mod_mul, hlow, hhigh]

/-- The low bits of a drawn identity are those of a multiple of an odd number. -/
theorem Identity.low_bits (r : Nat) :
    ((r &&& 0xFFFFFFFFFFFF4FFFBFFFFFFFFFFFFFFF) ||| 0x40008000000000000000) % 2 ^ 62 =
      r % 2 ^ 62 := by
  have hmask : 0xFFFFFFFFFFFF4FFFBFFFFFFFFFFFFFFF % 2 ^ 62 = 2 ^ 62 - 1 := by decide
  have hmarks : 0x40008000000000000000 % 2 ^ 62 = 0 := by decide
  rw [Nat.or_mod_two_pow, Nat.and_mod_two_pow, hmask, hmarks, Nat.or_zero,
    Nat.and_two_pow_sub_one_eq_mod, Nat.mod_mod]

theorem Identity.ofDraw_inj {n k : Nat} (hn : n < 2 ^ 62) (hk : k < 2 ^ 62)
    (h : ofDraw n = ofDraw k) : n = k := by
  simp only [ofDraw, Identity.mk.injEq, List.reverse_inj] at h
  have hbits := Digest.littleEndian_inj h
  have hlow := congrArg (· % 2 ^ 62) hbits
  have hdvd : 2 ^ 62 ∣ 256 ^ 16 := by decide
  have hdvd' : 2 ^ 62 ∣ twoPow 128 := by decide
  simp only [Nat.mod_mod_of_dvd _ hdvd, low_bits, Nat.mod_mod_of_dvd _ hdvd'] at hlow
  have hodd : Nat.Coprime (2 ^ 62) 0x9E3779B97F4A7C15F39CC0605CEDC835 := by decide
  have hmod : n + 1 ≡ k + 1 [MOD 2 ^ 62] := Nat.ModEq.cancel_right_of_coprime hodd hlow
  exact Nat.ModEq.eq_of_lt_of_lt (Nat.ModEq.add_right_cancel' 1 hmod) hn hk

/-- **Draws are new**, as far as anyone can draw. -/
theorem Naming.drawsNew_hashed {n : Nat} (hn : n < 2 ^ 62) : Naming.hashed.DrawsNew n := by
  intro k hk heq
  exact Nat.ne_of_gt hk (Identity.ofDraw_inj hn (Nat.lt_trans hk hn) heq)

end EntityQuery
