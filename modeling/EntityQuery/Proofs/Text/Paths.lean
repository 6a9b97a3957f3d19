import EntityQuery.Path
import EntityQuery.Proofs.Text.Pieces
import Mathlib.Data.List.DropRight

/-!
# The text of paths

Many texts are read as the same path, since blanks around a name and empty names are left aside. The
paths that come out of reading are told by their segments (`Path.IsSegment`): a name is not empty,
has no dot in it and no blank at either end. On these paths writing and reading undo each other, so
each of them has one text of its own among all that are read as it.
-/

namespace EntityQuery

/-! ## Trimmed texts -/

namespace Text

variable {cs : List Char}

/-- There is no blank at either end. -/
def Trimmed (cs : List Char) : Prop :=
  (∀ c ∈ cs.head?, isBlank c = false) ∧ ∀ c ∈ cs.getLast?, isBlank c = false

theorem trim_eq_rdropWhile (cs : List Char) :
    trim cs = (cs.dropWhile isBlank).rdropWhile isBlank := rfl

theorem mem_of_mem_trim {c : Char} (h : c ∈ trim cs) : c ∈ cs := by
  rw [trim_eq_rdropWhile] at h
  exact (List.dropWhile_suffix isBlank).subset ((List.rdropWhile_prefix isBlank _).subset h)

theorem trimmed_trim (cs : List Char) : Trimmed (trim cs) := by
  rw [trim_eq_rdropWhile]
  constructor
  · -- The first character is the one where the blanks in front end.
    intro c hc
    obtain ⟨rest, hrest⟩ := List.rdropWhile_prefix isBlank (cs.dropWhile isBlank)
    obtain ⟨tail, htail⟩ := List.head?_eq_some_iff.1 hc
    rw [htail, List.cons_append] at hrest
    have hfirst := List.head?_dropWhile_not isBlank cs
    rwa [← hrest] at hfirst
  · intro c hc
    have hne := List.ne_nil_of_mem (List.mem_of_getLast? hc)
    rw [Option.mem_def, List.getLast?_eq_some_getLast hne, Option.some.injEq] at hc
    simpa [hc] using List.rdropWhile_last_not isBlank _ hne

theorem Trimmed.trim_eq (h : Trimmed cs) : trim cs = cs := by
  obtain ⟨hfirst, hlast⟩ := h
  have hfront : cs.dropWhile isBlank = cs := by
    cases cs with
    | nil => rfl
    | cons c cs => exact List.dropWhile_cons_of_neg (by simpa using hfirst c rfl)
  rw [trim_eq_rdropWhile, hfront, List.rdropWhile_eq_self_iff]
  intro hne
  simpa using hlast _ (List.getLast?_eq_some_getLast hne)

end Text

namespace Path

/-! ## Segments -/

/-- The name is one that reading a path gives. -/
structure IsSegment (s : String) : Prop where
  ne_empty : s ≠ ""
  no_dot : '.' ∉ s.toList
  trimmed : Text.Trimmed s.toList

theorem isSegment_of_mem_parse {s seg : String} (h : seg ∈ (parse s).segments) :
    IsSegment seg := by
  obtain ⟨cs, hcs, rfl⟩ := List.mem_map.1 h
  obtain ⟨hcs, hne⟩ := List.mem_filter.1 hcs
  obtain ⟨piece, hpiece, rfl⟩ := List.mem_map.1 hcs
  refine ⟨?_, ?_, ?_⟩
  · simpa [← String.toList_eq_nil_iff] using hne
  · rw [String.toList_ofList]
    exact fun hdot => Text.not_mem_of_mem_pieces hpiece (Text.mem_of_mem_trim hdot)
  · rw [String.toList_ofList]
    exact Text.trimmed_trim piece

/-! ## Reading the text of a path -/

/-- Names without dots are the pieces of the text. -/
theorem pieces_toList_text {p : Path} (hne : p.segments ≠ [])
    (hdots : ∀ s ∈ p.segments, '.' ∉ s.toList) :
    Text.pieces '.' p.text.toList = p.segments.map String.toList := by
  have htext : p.text.toList = ['.'].intercalate (p.segments.map String.toList) :=
    String.toList_intercalate
  rw [htext]
  exact Text.pieces_intercalate (by simpa using hdots) (by simpa using hne)

theorem parse_text {p : Path} (h : ∀ seg ∈ p.segments, IsSegment seg) : parse p.text = p := by
  obtain ⟨segments⟩ := p
  -- The empty path is read from the empty text, whose only piece is left aside.
  rcases eq_or_ne segments [] with rfl | hne
  · rfl
  have htrim : (segments.map String.toList).map Text.trim = segments.map String.toList := by
    rw [List.map_map]
    exact List.map_congr_left fun seg hseg => (h seg hseg).trimmed.trim_eq
  have hkept : (segments.map String.toList).filter (!·.isEmpty) = segments.map String.toList := by
    rw [List.filter_eq_self]
    intro cs hcs
    obtain ⟨seg, hseg, rfl⟩ := List.mem_map.1 hcs
    simpa using (h seg hseg).ne_empty
  have hid : String.ofList ∘ String.toList = id := funext fun _ => String.ofList_toList
  rw [parse, pieces_toList_text hne fun seg hseg => (h seg hseg).no_dot, htrim, hkept,
    List.map_map, hid, List.map_id]

end Path

/-- **Paths and their texts.** What is read from a text is read again from its own text, and all its
segments are names without dots and without blanks at their ends; exactly the paths with such
segments are read from their texts; and of the paths that are read from texts no two have the same
text. -/
theorem path_round_trip (s s' : String) (p : Path) :
    Path.parse (Path.parse s).text = Path.parse s ∧
    (∀ seg ∈ (Path.parse s).segments, Path.IsSegment seg) ∧
    (Path.parse p.text = p ↔ ∀ seg ∈ p.segments, Path.IsSegment seg) ∧
    ((Path.parse s).text = (Path.parse s').text ↔ Path.parse s = Path.parse s') := by
  have hagain (s : String) : Path.parse (Path.parse s).text = Path.parse s :=
    Path.parse_text fun _ => Path.isSegment_of_mem_parse
  refine ⟨hagain s, fun _ => Path.isSegment_of_mem_parse, ⟨fun h => ?_, Path.parse_text⟩,
    fun h => ?_, congrArg Path.text⟩
  · rw [← h]
    exact fun _ => Path.isSegment_of_mem_parse
  · rw [← hagain s, h, hagain s']

example : (Path.parse ".\t lines..unit  price\n. .").segments = ["lines", "unit  price"] := by
  decide +kernel

end EntityQuery
