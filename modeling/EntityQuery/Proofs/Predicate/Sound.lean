import EntityQuery.Proofs.Graph.Division
import EntityQuery.Proofs.Graph.Parting

/-!
# Sound predicates

A predicate is sound at a table if its paths resolve where they are looked up: those of a condition
from the rows that it is about, those of a subquery from its own table (`Predicate.Sound`).
Validation says just that (`Predicate.sound_of_validate`).

**Two columns.** Whether two paths fan out into the same rows is decided by the identities of the
tables they lead to. So a sound comparison of columns has two paths that lead to one identity only
along the same members (`Model.TellsApart`), which is so with every naming without collisions
(`Predicate.tellsApart_of_injective`).

**Rewriting.** In a model where no member is both a column and a relationship, every path that
correlation cuts off a sound one resolves from the place it is cut at, and so the normal form of a
sound predicate is sound (`Predicate.sound_normal`).
-/

namespace EntityQuery

variable {m : Model} {t : Table}

/-! ## Paths -/

namespace Model

/-- The path leads to a column. -/
def Resolves (m : Model) (t : Table) (path : Path) : Prop := ∃ r, m.resolve t path = .ok r

/-- As long as two paths lead to one identity after as many members, the members are the same. -/
def TellsApart (m : Model) (t : Table) (left right : Path) : Prop :=
  ∀ n rs ss, n ≤ left.length → n ≤ right.length → m.walk? t (left.take n) = some rs →
    m.walk? t (right.take n) = some ss → (endOf t rs).identity = (endOf t ss).identity →
    left.take n = right.take n

theorem tellsApart_of_injective (hn : Function.Injective m.naming.derive) (left right : Path) :
    m.TellsApart t left right := by
  intro n rs ss hleft hright hrs hss hend
  refine congrArg Path.mk (eq_of_endOf_eq hn hrs hss ?_ hend)
  simp only [Path.length] at hleft hright
  simp [hleft, hright]

/-- A walk along a path goes on from where its first part ends. -/
theorem walk?_take_add {path : Path} {k n : Nat} {rs us : List Relationship}
    (hrs : m.walk? t (path.take k) = some rs)
    (hus : m.walk? (endOf t rs) ((path.drop k).take n) = some us) :
    m.walk? t (path.take (k + n)) = some (rs ++ us) := by
  rw [walk?, Path.take, List.take_add]
  exact walkMembers?_append.2 ⟨rs, us, hrs, hus, rfl⟩

/-- Paths that fan out at the same place into one identity do so through one relationship, and
behind it they are told apart like before. -/
theorem TellsApart.split {left right : Path} {i : Nat} {r s : Relationship}
    (h : m.TellsApart t left right) (hleft : m.firstMany? t left = some (i, r))
    (hright : m.firstMany? t right = some (i, s)) (hid : r.child.identity = s.child.identity) :
    left.take (i + 1) = right.take (i + 1) ∧ r = s ∧
      m.TellsApart r.child (left.drop (i + 1)) (right.drop (i + 1)) := by
  obtain ⟨rs, hrs, -⟩ := walk?_firstMany? hleft
  obtain ⟨ss, hss, -⟩ := walk?_firstMany? hright
  have hil := firstMany?_lt hleft
  have hir := firstMany?_lt hright
  have htake : left.take (i + 1) = right.take (i + 1) :=
    h (i + 1) _ _ hil hir hrs hss (by rw [endOf_concat, endOf_concat, hid])
  rw [htake, hss, Option.some.injEq] at hrs
  obtain ⟨rfl, hlast⟩ := List.append_inj' hrs rfl
  cases hlast
  refine ⟨htake, rfl, fun n us vs hnl hnr hus hvs hend => ?_⟩
  rw [Path.length_drop] at hnl hnr
  rw [← endOf_concat t ss] at hus hvs hend
  have hboth := h (i + 1 + n) _ _ (by omega) (by omega)
    (walk?_take_add (htake ▸ hss) hus) (walk?_take_add hss hvs)
    (by rw [endOf_append t (ss ++ [r]) us, endOf_append t (ss ++ [r]) vs, hend])
  have hadd : ∀ l : List String, l.take (i + 1 + n) = l.take (i + 1) ++ (l.drop (i + 1)).take n :=
    fun l => List.take_add
  simp only [Path.take, Path.drop, Path.mk.injEq] at htake hboth ⊢
  rw [hadd, hadd, htake] at hboth
  exact List.append_cancel_left hboth

end Model

/-! ## Predicates -/

mutual

/-- The paths of all comparisons of columns are told apart. -/
def Predicate.TellsApart (m : Model) (t : Table) : Predicate → Prop
  | .group _ members => TellsApartAll m t members
  | .compare _ _ operand _ => operand.TellsApart m
  | .columns left _ right => m.TellsApart t left right
  | .related via condition _ _ =>
    ∀ route, m.resolveRelationship t via = .ok route → condition.TellsApart m route.last.child

def TellsApartAll (m : Model) (t : Table) : List Predicate → Prop
  | [] => True
  | p :: ps => p.TellsApart m t ∧ TellsApartAll m t ps

def Operand.TellsApart (m : Model) : Operand → Prop
  | .value _ | .values _ => True
  | .subquery q => q.TellsApart m

def SubQuery.TellsApart (m : Model) : SubQuery → Prop
  | ⟨table, _, filter⟩ => TellsApartFilter m table filter

def TellsApartFilter (m : Model) (t : Table) : Option Predicate → Prop
  | none => True
  | some p => p.TellsApart m t

end

mutual

theorem Predicate.tellsApart_of_injective (hn : Function.Injective m.naming.derive) (t : Table)
    (p : Predicate) : p.TellsApart m t := by
  match p with
  | .group _ members => exact tellsApartAll_of_injective hn t members
  | .compare _ _ operand _ => exact operand.tellsApart_of_injective hn
  | .columns left _ right => exact Model.tellsApart_of_injective hn left right
  | .related _ condition _ _ =>
    exact fun route _ => condition.tellsApart_of_injective hn route.last.child

theorem tellsApartAll_of_injective (hn : Function.Injective m.naming.derive) (t : Table)
    (ps : List Predicate) : TellsApartAll m t ps := by
  match ps with
  | [] => exact ⟨⟩
  | p :: ps => exact ⟨p.tellsApart_of_injective hn t, tellsApartAll_of_injective hn t ps⟩

theorem Operand.tellsApart_of_injective (hn : Function.Injective m.naming.derive)
    (operand : Operand) : operand.TellsApart m := by
  match operand with
  | .value _ | .values _ => exact ⟨⟩
  | .subquery ⟨_, _, none⟩ => exact ⟨⟩
  | .subquery ⟨table, _, some p⟩ => exact p.tellsApart_of_injective hn table

end

mutual

/-- All paths resolve where they are looked up, and the tables of subqueries are the model's. -/
def Predicate.Sound (m : Model) (t : Table) : Predicate → Prop
  | .group _ members => SoundAll m t members
  | .compare path _ operand _ => m.Resolves t path ∧ operand.Sound m
  | .columns left _ right =>
    m.Resolves t left ∧ m.Resolves t right ∧ m.TellsApart t left right
  | .related via condition _ threshold =>
    ∃ route, m.resolveRelationship t via = .ok route ∧ condition.Sound m route.last.child ∧
      ∀ c ∈ threshold, m.Resolves route.last.child c.column

def SoundAll (m : Model) (t : Table) : List Predicate → Prop
  | [] => True
  | p :: ps => p.Sound m t ∧ SoundAll m t ps

def Operand.Sound (m : Model) : Operand → Prop
  | .value _ | .values _ => True
  | .subquery q => q.Sound m

def SubQuery.Sound (m : Model) : SubQuery → Prop
  | ⟨table, column, filter⟩ =>
    m.Covers table ∧ m.Resolves table column ∧ SoundFilter m table filter

def SoundFilter (m : Model) (t : Table) : Option Predicate → Prop
  | none => True
  | some p => p.Sound m t

end

mutual

/-- **A validated predicate is sound.** -/
theorem Predicate.sound_of_validate {t : Table} (p : Predicate) (h : p.validate m t = .ok ())
    (hp : p.OnTables m.Covers) (hapart : p.TellsApart m t) : p.Sound m t := by
  match p with
  | .group _ members => exact soundAll_of_validate members h hp hapart
  | .compare path _ operand _ =>
    rw [Predicate.validate] at h
    obtain ⟨r, hr, h⟩ := bind_eq_ok.1 h
    exact ⟨⟨r, hr⟩, operand.sound_of_validate h hp hapart⟩
  | .columns left _ right =>
    rw [Predicate.validate] at h
    obtain ⟨r, hr, h⟩ := bind_eq_ok.1 h
    obtain ⟨s, hs, -⟩ := bind_eq_ok.1 h
    exact ⟨⟨r, hr⟩, ⟨s, hs⟩, hapart⟩
  | .related via condition _ threshold =>
    rw [Predicate.validate] at h
    obtain ⟨route, hroute, h⟩ := bind_eq_ok.1 h
    obtain ⟨u, hcondition, h⟩ := bind_eq_ok.1 h
    refine ⟨route, hroute, condition.sound_of_validate hcondition hp (hapart route hroute), ?_⟩
    intro c hc
    rw [Option.mem_def] at hc
    subst hc
    obtain ⟨r, hr, -⟩ := bind_eq_ok.1 h
    exact ⟨r, hr⟩

theorem soundAll_of_validate {t : Table} (ps : List Predicate) (h : validateAll m t ps = .ok ())
    (hps : OnTablesAll m.Covers ps) (hapart : TellsApartAll m t ps) : SoundAll m t ps := by
  match ps with
  | [] => exact ⟨⟩
  | p :: ps =>
    rw [validateAll] at h
    obtain ⟨u, hp, h⟩ := bind_eq_ok.1 h
    exact ⟨p.sound_of_validate hp hps.1 hapart.1, soundAll_of_validate ps h hps.2 hapart.2⟩

theorem Operand.sound_of_validate (operand : Operand) (h : operand.validate m = .ok ())
    (hp : operand.OnTables m.Covers) (hapart : operand.TellsApart m) : operand.Sound m := by
  match operand with
  | .value _ | .values _ => exact ⟨⟩
  | .subquery ⟨table, column, filter⟩ =>
    rw [Operand.validate, SubQuery.validate] at h
    obtain ⟨r, hr, h⟩ := bind_eq_ok.1 h
    refine ⟨hp.1, ⟨r, hr⟩, ?_⟩
    match filter with
    | none => exact ⟨⟩
    | some p => exact p.sound_of_validate h hp.2 hapart

end

namespace Predicate

/-! ## Simplification -/

theorem soundAll_iff {ps : List Predicate} : SoundAll m t ps ↔ ∀ p ∈ ps, p.Sound m t := by
  induction ps with
  | nil => simp [SoundAll]
  | cons p ps ih => simp [SoundAll, ih]

theorem hereditary_sound (m : Model) : Hereditary (Sound m) where
  group := soundAll_iff
  compare := id
  value _ h := ⟨h.1, ⟨⟩⟩
  values _ h := ⟨h.1, ⟨⟩⟩
  related t via := by
    cases hvia : m.resolveRelationship t via with
    | error e => exact ⟨t, fun _ => ⟨False, fun _ _ => by simp [Sound, hvia]⟩⟩
    | ok route =>
      refine ⟨route.last.child, fun threshold =>
        ⟨∀ c ∈ threshold, m.Resolves route.last.child c.column, fun condition _ => ?_⟩⟩
      simp [Sound, hvia, and_comm]

/-! ## Correlation -/

/-- The rest of a path behind a fan-out starts at the related rows. -/
theorem sound_nested {via : Path} {condition : Predicate} {inverted : Bool}
    {threshold : Option Threshold} {i : Nat} {r : Relationship}
    (hp : (related via condition inverted threshold).Sound m t)
    (hmany : m.firstMany? t via = some (i, r)) (hlt : i + 1 < via.length) :
    (related (via.take (i + 1)) (related (via.drop (i + 1)) condition false threshold)
      inverted none).Sound m t := by
  obtain ⟨route, hroute, hcondition, hthreshold⟩ := hp
  obtain ⟨before, hwalk, -⟩ := Model.walk?_firstMany? hmany
  have hvia := Model.resolveRelationship_of_walk hwalk
  obtain ⟨rest, hrest, -⟩ := Model.resolveRelationship_drop hvia hroute (Path.continues_take hlt)
  rw [Path.length_take_of_lt hlt] at hrest
  exact ⟨_, hvia, ⟨_, hrest, hcondition, hthreshold⟩, by simp⟩

theorem Correlates.sound (hm : m.Unambiguous) (ht : m.Covers t) {p c : Predicate}
    (h : Correlates m t p c) (hp : p.Sound m t) : c.Sound m t := by
  induction h with
  | kept _ => exact hp
  | cons _ _ ih₁ ih₂ => exact ⟨ih₁ hp.1, ih₂ hp.2⟩
  | unlike _ _ ih₁ ih₂ => exact ⟨ih₁ ⟨hp.1, ⟨⟩⟩, ih₂ hp, ⟨⟩⟩
  | across hmany hasked =>
    -- Whatever is asked of the related rows, it is asked of the same column.
    obtain ⟨⟨res, hres⟩, hoperand⟩ := hp
    obtain ⟨-, before, res', hvia, hres'⟩ := hm.resolve_split ht hres hmany
    refine ⟨_, hvia, hasked.hereditary (hereditary_sound m) (q := .any)
      ⟨⟨res', hres'⟩, hoperand⟩, fun x hx => ?_⟩
    rw [hasked.column x hx]
    exact ⟨res', hres'⟩
  | columns hleft hright hid =>
    obtain ⟨⟨l, hl⟩, ⟨l', hl'⟩, hapart⟩ := hp
    obtain ⟨-, rfl, hapart⟩ := hapart.split hleft hright hid
    obtain ⟨-, before, res, hvia, hres⟩ := hm.resolve_split ht hl hleft
    obtain ⟨-, -, res', -, hres'⟩ := hm.resolve_split ht hl' hright
    exact ⟨_, hvia, ⟨⟨res, hres⟩, ⟨res', hres'⟩, hapart⟩, by simp⟩
  | nested hmany hlt => exact sound_nested hp hmany hlt

/-- **The normal form of a sound predicate is sound.** -/
theorem sound_normal (hm : m.Unambiguous) (ht : m.Covers t) {p q : Predicate} (hp : p.Sound m t)
    (h : p.normal m t = .ok q) : q.Sound m t := by
  obtain ⟨c, hc, rfl⟩ := normal_eq_ok.1 h
  exact (hereditary_sound m).simplify.2
    ((correlates_of_ok p.simplify hc).sound hm ht ((hereditary_sound m).simplify.2 hp))

end Predicate

end EntityQuery
