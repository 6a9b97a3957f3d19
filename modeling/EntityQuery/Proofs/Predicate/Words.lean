import EntityQuery.Proofs.Predicate.Elements
import EntityQuery.Proofs.Text.Pieces
import Mathlib.Data.List.Infix

/-!
# Words of a text

A text is asked for a word by four patterns: the word alone, at the start, at the end and inside,
with spaces where the text goes on.

**Patterns.** `Pattern.accepts` is LIKE on characters. A pattern of two parts matches the texts of
two parts (`Pattern.accepts_append`), so the four patterns together match a text with a part that
the word matches and that is cut off by spaces or by the ends of the text.

**Words.** Such a part is a run of the pieces between the spaces, one or several, and so the
comparison asks whether the word as a pattern matches a run of words (`WordsLike`). If the word has
no space and no wildcard it matches itself only, so the run is the word. A wildcard stands for other
characters too, and then there is always a text without the word in which it is found
(`exists_wordsLike`): the comparison finds words exactly if they have no wildcards.
-/

namespace EntityQuery

open EntityQuery.Sql (Expr Engine Database Ctes Env Truth)
open EntityQuery.Text (pieces)

/-! ## Patterns -/

namespace Pattern

/-- Whether a pattern of LIKE matches a text: `%` stands for any text, `_` for any character, and
every other character for itself. -/
def accepts : (pattern text : List Char) → Bool
  | [], text => text.isEmpty
  | c :: pattern, text =>
    if c = '%' then text.tails.any (accepts pattern)
    else
      match text with
      | [] => false
      | d :: rest => (c == '_' || c == d) && accepts pattern rest

variable {p p' text : List Char} {c : Char}

theorem accepts_nil : accepts [] text = true ↔ text = [] := List.isEmpty_iff

theorem accepts_percent : accepts ('%' :: p) text = true ↔
    ∃ a b, text = a ++ b ∧ accepts p b = true := by
  rw [accepts.eq_def]
  simp only [if_true, List.any_eq_true, List.mem_tails]
  constructor
  · rintro ⟨b, ⟨a, rfl⟩, hb⟩
    exact ⟨a, b, rfl, hb⟩
  · rintro ⟨a, b, rfl, hb⟩
    exact ⟨b, List.suffix_append a b, hb⟩

theorem accepts_cons (hc : c ≠ '%') : accepts (c :: p) text = true ↔
    ∃ d rest, text = d :: rest ∧ (c = '_' ∨ c = d) ∧ accepts p rest = true := by
  rw [accepts.eq_def]
  cases text with
  | nil => simp [hc]
  | cons d rest => simp [hc]

/-- The parts of a pattern match parts of the text. -/
theorem accepts_append : accepts (p ++ p') text = true ↔
    ∃ a b, text = a ++ b ∧ accepts p a = true ∧ accepts p' b = true := by
  induction p generalizing text with
  | nil => simp [accepts_nil]
  | cons c p ih =>
    rw [List.cons_append]
    by_cases hc : c = '%'
    · subst hc
      simp only [accepts_percent, ih]
      constructor
      · rintro ⟨a, _, rfl, b, b', rfl, hb, hb'⟩
        exact ⟨a ++ b, b', (List.append_assoc a b b').symm, ⟨a, b, rfl, hb⟩, hb'⟩
      · rintro ⟨_, b', rfl, ⟨a, b, rfl, hb⟩, hb'⟩
        exact ⟨a, b ++ b', List.append_assoc a b b', b, b', rfl, hb, hb'⟩
    · simp only [accepts_cons hc, ih]
      constructor
      · rintro ⟨d, _, rfl, hd, a, b, rfl, ha, hb⟩
        exact ⟨d :: a, b, rfl, ⟨d, a, rfl, hd, ha⟩, hb⟩
      · rintro ⟨_, b, rfl, ⟨d, a, rfl, hd, ha⟩, hb⟩
        exact ⟨d, a ++ b, rfl, hd, a, b, rfl, ha, hb⟩

/-- No character of the pattern stands for others. -/
def Literal (p : List Char) : Prop := ∀ c ∈ p, c ≠ '%' ∧ c ≠ '_'

instance (p : List Char) : Decidable (Literal p) :=
  List.decidableBAll (fun c => c ≠ '%' ∧ c ≠ '_') p

/-- Such a pattern matches itself only. -/
theorem accepts_literal (hp : Literal p) : accepts p text = true ↔ text = p := by
  induction p generalizing text with
  | nil => exact accepts_nil
  | cons c p ih =>
    obtain ⟨hc, hp⟩ := List.forall_mem_cons.1 hp
    simp only [accepts_cons hc.1, ih hp, hc.2, false_or]
    constructor
    · rintro ⟨d, rest, rfl, rfl, rfl⟩
      rfl
    · rintro rfl
      exact ⟨c, p, rfl, rfl, rfl⟩

/-- A character that a wildcard may stand for, and that is none; all else as it is. -/
def unwild (c : Char) : Char := if c = '%' ∨ c = '_' then 'x' else c

theorem accepts_map_unwild (p : List Char) : accepts p (p.map unwild) = true := by
  induction p with
  | nil => rfl
  | cons c p ih =>
    rw [List.map_cons]
    by_cases hc : c = '%'
    · subst hc
      exact accepts_percent.2 ⟨[unwild '%'], p.map unwild, rfl, ih⟩
    · refine (accepts_cons hc).2 ⟨unwild c, p.map unwild, rfl, ?_, ih⟩
      by_cases hc' : c = '_'
      · exact .inl hc'
      · exact .inr (by simp [unwild, hc, hc'])

end Pattern

/-! ## Runs of words -/

/-- Nothing, or a text that ends in a space. -/
def EndsApart (front : List Char) : Prop := front = [] ∨ ∃ a, front = a ++ [' ']

/-- Nothing, or a text that begins with a space. -/
def BeginsApart (back : List Char) : Prop := back = [] ∨ ∃ b, back = ' ' :: b

/-- The four patterns match a part of the text that is cut off by spaces or by its ends. -/
theorem any_wordPatterns {word : String} {text : List Char} :
    (Target.wordPatterns word).any (fun p => Pattern.accepts p.toList text) = true ↔
      ∃ front part back, text = front ++ part ++ back ∧ EndsApart front ∧ BeginsApart back ∧
        Pattern.accepts word.toList part = true := by
  have hfront : ∀ a, Pattern.accepts ['%', ' '] a = true ↔ ∃ b, a = b ++ [' '] := by
    intro a
    rw [Pattern.accepts_percent]
    simp [Pattern.accepts_literal (p := [' ']) (by decide)]
  have hback : ∀ a, Pattern.accepts [' ', '%'] a = true ↔ ∃ b, a = ' ' :: b := by
    intro a
    rw [Pattern.accepts_cons (by decide)]
    simp [Pattern.accepts_percent, Pattern.accepts_nil]
  have hpatterns : (Target.wordPatterns word).map String.toList =
      [word.toList, word.toList ++ [' ', '%'], ['%', ' '] ++ word.toList,
        ['%', ' '] ++ word.toList ++ [' ', '%']] := by
    simp [Target.wordPatterns]
  have hany : (Target.wordPatterns word).any (fun p => Pattern.accepts p.toList text) =
      ((Target.wordPatterns word).map String.toList).any (Pattern.accepts · text) := by
    rw [List.any_map]
    rfl
  rw [hany, hpatterns]
  simp only [List.any_cons, List.any_nil, Bool.or_false, Bool.or_eq_true, Pattern.accepts_append,
    hfront, hback]
  constructor
  · rintro (h | ⟨part, _, rfl, h, b, rfl⟩ | ⟨_, part, rfl, ⟨a, rfl⟩, h⟩ |
      ⟨_, _, rfl, ⟨_, part, rfl, ⟨a, rfl⟩, h⟩, b, rfl⟩)
    · exact ⟨[], text, [], by simp, .inl rfl, .inl rfl, h⟩
    · exact ⟨[], part, ' ' :: b, rfl, .inl rfl, .inr ⟨b, rfl⟩, h⟩
    · exact ⟨a ++ [' '], part, [], by simp, .inr ⟨a, rfl⟩, .inl rfl, h⟩
    · exact ⟨a ++ [' '], part, ' ' :: b, rfl, .inr ⟨a, rfl⟩, .inr ⟨b, rfl⟩, h⟩
  · rintro ⟨_, part, _, rfl, rfl | ⟨a, rfl⟩, rfl | ⟨b, rfl⟩, h⟩
    · exact .inl (by simpa using h)
    · exact .inr (.inl ⟨part, _, rfl, h, b, rfl⟩)
    · exact .inr (.inr (.inl ⟨_, part, by simp, ⟨a, rfl⟩, h⟩))
    · exact .inr (.inr (.inr ⟨_, _, rfl, ⟨_, part, rfl, ⟨a, rfl⟩, h⟩, b, rfl⟩))

/-- The word matches a run of the words of a text, with the spaces between them. -/
def WordsLike (word text : String) : Prop :=
  ∃ run, run ≠ [] ∧ run <:+: pieces ' ' text.toList ∧
    Pattern.accepts word.toList ([' '].intercalate run) = true

/-- What is cut off by spaces is a run of words. -/
theorem pieces_infix {front part back : List Char} (hfront : EndsApart front)
    (hback : BeginsApart back) :
    pieces ' ' part <:+: pieces ' ' (front ++ part ++ back) := by
  have hstart : pieces ' ' part <:+ pieces ' ' (front ++ part) := by
    rcases hfront with rfl | ⟨a, rfl⟩
    · exact List.suffix_rfl
    · rw [List.append_assoc, List.singleton_append, Text.pieces_append_cons]
      exact List.suffix_append _ _
  rcases hback with rfl | ⟨b, rfl⟩
  · rw [List.append_nil]
    exact hstart.isInfix
  · rw [Text.pieces_append_cons]
    exact hstart.isInfix.trans (List.prefix_append _ _).isInfix

/-- A run of words is cut off by spaces. -/
theorem exists_apart_of_infix {run : List (List Char)} {text : List Char} (hrun : run ≠ [])
    (h : run <:+: pieces ' ' text) :
    ∃ front back, text = front ++ [' '].intercalate run ++ back ∧ EndsApart front ∧
      BeginsApart back := by
  obtain ⟨before, after, hpieces⟩ := h
  have htext : text = [' '].intercalate (before ++ run ++ after) := by
    rw [hpieces, Text.intercalate_pieces]
  have hback : ∃ back, [' '].intercalate (run ++ after) = [' '].intercalate run ++ back ∧
      BeginsApart back := by
    by_cases hafter : after = []
    · exact ⟨[], by simp [hafter], .inl rfl⟩
    · exact ⟨_, Text.intercalate_append hrun hafter, .inr ⟨_, rfl⟩⟩
  obtain ⟨back, hjoined, hapart⟩ := hback
  rw [List.append_assoc] at htext
  by_cases hbefore : before = []
  · refine ⟨[], back, ?_, .inl rfl, hapart⟩
    rw [htext, hbefore, List.nil_append, hjoined, List.nil_append]
  · refine ⟨[' '].intercalate before ++ [' '], back, ?_, .inr ⟨_, rfl⟩, hapart⟩
    rw [htext, Text.intercalate_append hbefore (by simp [hrun]), hjoined]
    simp

/-- **The four patterns match the runs of words that the word matches.** -/
theorem any_wordPatterns_iff {word text : String} :
    (Target.wordPatterns word).any (fun p => Pattern.accepts p.toList text.toList) = true ↔
      WordsLike word text := by
  rw [any_wordPatterns]
  constructor
  · rintro ⟨front, part, back, htext, hfront, hback, hlike⟩
    refine ⟨pieces ' ' part, Text.pieces_ne_nil ' ' part, ?_, ?_⟩
    · rw [htext]
      exact pieces_infix hfront hback
    · rwa [Text.intercalate_pieces]
  · rintro ⟨run, hrun, hwithin, hlike⟩
    obtain ⟨front, back, htext, hfront, hback⟩ := exists_apart_of_infix hrun hwithin
    exact ⟨front, _, back, htext, hfront, hback, hlike⟩

/-! ## Words without wildcards -/

/-- A word without wildcards matches itself, which is a run of its own. -/
theorem wordsLike_iff_mem {word : String} (hspace : ' ' ∉ word.toList)
    (hliteral : Pattern.Literal word.toList) {text : String} :
    WordsLike word text ↔ word.toList ∈ pieces ' ' text.toList := by
  simp only [WordsLike, Pattern.accepts_literal hliteral]
  constructor
  · rintro ⟨run, hrun, hwithin, hword⟩
    have hpieces : ∀ p ∈ run, ' ' ∉ p := fun p hp =>
      Text.not_mem_of_mem_pieces (hwithin.subset hp)
    have hone : run = [word.toList] := by
      rw [← Text.pieces_intercalate hpieces hrun, hword, Text.pieces_of_not_mem hspace]
    rw [hone] at hwithin
    exact hwithin.subset (List.mem_singleton_self _)
  · intro hmem
    obtain ⟨before, after, hpieces⟩ := List.append_of_mem hmem
    exact ⟨[word.toList], List.cons_ne_nil _ _, ⟨before, after, by simp [hpieces]⟩,
      List.intercalate_singleton⟩

/-- Any other word is found in a text that does not have it. -/
theorem exists_wordsLike {word : String} (hspace : ' ' ∉ word.toList)
    (hwild : ¬ Pattern.Literal word.toList) :
    ∃ text, WordsLike word text ∧ word.toList ∉ pieces ' ' text.toList := by
  have hpieces : pieces ' ' (word.toList.map Pattern.unwild) =
      [word.toList.map Pattern.unwild] := by
    refine Text.pieces_of_not_mem fun hmem => ?_
    obtain ⟨c, hc, hspace'⟩ := List.mem_map.1 hmem
    rw [Pattern.unwild] at hspace'
    split at hspace'
    · cases hspace'
    · exact hspace (hspace' ▸ hc)
  refine ⟨String.ofList (word.toList.map Pattern.unwild), ?_, ?_⟩
  · refine ⟨_, List.cons_ne_nil (word.toList.map Pattern.unwild) [], ?_, ?_⟩
    · rw [String.toList_ofList, hpieces]
    · rw [List.intercalate_singleton]
      exact Pattern.accepts_map_unwild _
  · rw [String.toList_ofList, hpieces, List.mem_singleton]
    intro hsame
    -- The other text has no wildcards, and so it is not the word.
    refine hwild fun c hc => ?_
    rw [hsame] at hc
    obtain ⟨d, -, rfl⟩ := List.mem_map.1 hc
    rw [Pattern.unwild]
    split
    · decide
    · rename_i hd
      exact not_or.1 hd

/-! ## The comparison -/

/-- Texts of the type are matched with patterns character by character. -/
def Sql.Engine.LikesTexts {D : Type} (E : Engine D) (type : Option String) : Prop :=
  ∀ text pattern : String, E.like (E.datum (.text text) type) (E.datum (.text pattern) type) =
    Pattern.accepts pattern.toList text.toList

section

variable {D : Type} [DecidableEq D] {E : Engine D} {db : Database D} {ctes : Ctes D}
  {group : List (Env D)} {env : Env D} {target : Target} {text : String}

theorem truth_like (hlikes : E.LikesTexts target.type)
    (hcolumn : target.column.eval E db ctes group env = E.param (.text text) target.type)
    (negated : Bool) (pattern : String) :
    E.truth ((Expr.binary target.column (bif negated then .notLike else .like)
        (target.param (.text pattern))).eval E db ctes group env) =
      some (Pattern.accepts pattern.toList text.toList != negated) := by
  have hparam : (target.param (.text pattern)).eval E db ctes group env =
      some (E.datum (.text pattern) target.type) := by
    rw [Target.param, Expr.eval]
    rfl
  rw [Expr.eval, hparam, hcolumn, ← hlikes text pattern]
  cases negated with
  | false => exact congrArg some ((E.holds_ofBool _).trans (Bool.xor_false _).symm)
  | true => exact congrArg some ((E.holds_ofBool _).trans (Bool.xor_true _).symm)

/-- Of known truth values one is true, or all are. -/
theorem truth_map_bne (negated : Bool) (bs : List Bool) :
    (bif negated then Quantifier.all else .any).truth (bs.map fun b => some (b != negated)) =
      some (bs.any id != negated) := by
  induction bs with
  | nil => cases negated <;> rfl
  | cons b bs ih =>
    rw [List.map_cons, Quantifier.truth_cons, ih, List.any_cons]
    cases negated <;> cases b <;> cases bs.any id <;> rfl

end

/-- **The column is compared with the four patterns.** -/
theorem Target.exists_words (target : Target) (negated : Bool) (word : String) :
    ∃ x, target.scalar (bif negated then .notWordLike else .wordLike) (.text word) = .ok x ∧
      ∀ {D : Type} [DecidableEq D] {E : Engine D} {db : Database D} {ctes : Ctes D}
        {group : List (Env D)} {env : Env D} {text : String}, E.LikesTexts target.type →
        target.column.eval E db ctes group env = E.param (.text text) target.type →
        E.truth (x.eval E db ctes group env) = some ((Target.wordPatterns word).any
          (fun p => Pattern.accepts p.toList text.toList) != negated) := by
  set parts := (Target.wordPatterns word).map fun s =>
    Expr.binary target.column (bif negated then .notLike else .like) (target.param (.text s))
  obtain ⟨x, hx⟩ : ∃ x,
      Expr.combine (bif negated then Quantifier.all else .any).connective.binary parts = some x :=
    ⟨_, rfl⟩
  refine ⟨x, ?_, fun {D} _ {E db ctes group env text} hlikes hcolumn => ?_⟩
  · cases negated with
    | false => exact congrArg Except.ok (Option.some.inj hx)
    | true => exact congrArg Except.ok (Option.some.inj hx)
  · rw [truth_combine _ hx, List.map_map]
    have htruths : ((Target.wordPatterns word).map
        ((fun e => E.truth (e.eval E db ctes group env)) ∘ fun s =>
          Expr.binary target.column (bif negated then .notLike else .like)
            (target.param (.text s)))) =
        ((Target.wordPatterns word).map fun p => Pattern.accepts p.toList text.toList).map
          fun b => some (b != negated) := by
      rw [List.map_map]
      exact List.map_congr_left fun p _ => truth_like hlikes hcolumn negated p
    rw [htruths, truth_map_bne, List.any_map]
    rfl

/-- **A word is found by its patterns.** The comparison of a column with a word, and its negation,
are written wherever the column is found. They ask whether the word matches a run of the words of
the text, and so they ask for the word, of every text, exactly if it has no wildcards. -/
theorem render_words {m : Model} {origin : JoinOrigin} {path : Path} {f g : Frame}
    {target : Target} (htarget : (joinColumn m path origin).Gives f target g) {word : String}
    (hspace : ' ' ∉ word.toList) (q : Quantifier) :
    ∃ x x', ((Predicate.compare path .wordLike (.value (.text word)) q).render m origin).Gives f
        (some x) g ∧
      ((Predicate.compare path .notWordLike (.value (.text word)) q).render m origin).Gives f
        (some x') g ∧
      ∀ (D : Type) [DecidableEq D] (E : Engine D) (db : Database D) (ctes : Ctes D)
        (group : List (Env D)), E.LikesTexts target.type →
        let Reads (env : Env D) (text : String) : Prop :=
          target.column.eval E db ctes group env = E.param (.text text) target.type
        let Holds (y : Expr) (env : Env D) : Prop :=
          E.truth (y.eval E db ctes group env) = some true
        (∀ env text, Reads env text →
          (Holds x env ↔ WordsLike word text) ∧ (Holds x' env ↔ ¬ WordsLike word text)) ∧
        ((∀ env text, Reads env text → (Holds x env ↔ word.toList ∈ pieces ' ' text.toList) ∧
            (Holds x' env ↔ word.toList ∉ pieces ' ' text.toList)) ↔
          Pattern.Literal word.toList) := by
  obtain ⟨x, hx, htruth⟩ := target.exists_words false word
  obtain ⟨x', hx', htruth'⟩ := target.exists_words true word
  refine ⟨x, x',
    gives_render_compare.2 ⟨target, g, x, htarget, gives_render_value.2 ⟨hx, rfl⟩, rfl⟩,
    gives_render_compare.2 ⟨target, g, x', htarget, gives_render_value.2 ⟨hx', rfl⟩, rfl⟩, ?_⟩
  intro D _ E db ctes group hlikes Reads Holds
  have hruns : ∀ env text, Reads env text →
      (Holds x env ↔ WordsLike word text) ∧ (Holds x' env ↔ ¬ WordsLike word text) := by
    intro env text hreads
    simp only [Holds, htruth hlikes hreads, htruth' hlikes hreads, ← any_wordPatterns_iff]
    simp
  refine ⟨hruns, fun hwords => ?_, fun hliteral env text hreads => ?_⟩
  · by_contra hwild
    obtain ⟨text, hlike, hnot⟩ := exists_wordsLike hspace hwild
    obtain ⟨r, s, -, -, -, rfl, -⟩ := gives_joinColumn.1 htarget
    -- Some row reads the text.
    have hreads : Reads (fun _ _ => E.param (.text text) r.column.type) text := by
      simp only [Reads, Model.columnExpr, Expr.ofTable, Expr.eval]
    exact hnot ((hwords _ text hreads).1.1 ((hruns _ text hreads).1.2 hlike))
  · rw [← wordsLike_iff_mem hspace hliteral]
    exact hruns env text hreads

namespace Shop

/-- A database of texts that matches them with patterns. -/
def matching : Engine String :=
  { engine with like := fun text pattern => Pattern.accepts pattern.toList text.toList }

theorem likesTexts_matching (type : Option String) : matching.LikesTexts type :=
  fun _ _ => rfl

/-- The column of the identifiers of orders. -/
def identifier : Target := ⟨(model plain).columnExpr orders (column "id"), none, ⟨["id"]⟩⟩

theorem joinColumn_identifier (origin : JoinOrigin) :
    (joinColumn (model plain) ⟨["id"]⟩ origin).Gives ⟨.ofTable (model plain) orders, []⟩ identifier
      ⟨.ofTable (model plain) orders, []⟩ :=
  gives_joinColumn.2 ⟨_, _, rfl, rfl, rfl, rfl, rfl⟩

/-- A row that has one text everywhere. -/
def reading (text : String) : Env String := fun _ _ => some text

theorem eval_identifier (db : Database String) (ctes : Ctes String) (group : List (Env String))
    (text : String) :
    identifier.column.eval matching db ctes group (reading text) =
      matching.param (.text text) identifier.type := by
  simp only [identifier, Model.columnExpr, Expr.ofTable, Expr.eval]
  rfl

end Shop

/-- The word `rush` is found between two spaces and not at the start of another word. -/
theorem render_words_rush :
    (joinColumn (Shop.model Shop.plain) ⟨["id"]⟩ .filter).Gives
        ⟨.ofTable (Shop.model Shop.plain) Shop.orders, []⟩ Shop.identifier
        ⟨.ofTable (Shop.model Shop.plain) Shop.orders, []⟩ ∧
      ' ' ∉ "rush".toList ∧ Shop.matching.LikesTexts Shop.identifier.type ∧
      ∃ x x', ((Predicate.compare ⟨["id"]⟩ .wordLike (.value (.text "rush")) .any).render
          (Shop.model Shop.plain) .filter).Gives ⟨.ofTable (Shop.model Shop.plain) Shop.orders, []⟩
          (some x) ⟨.ofTable (Shop.model Shop.plain) Shop.orders, []⟩ ∧
        ((Predicate.compare ⟨["id"]⟩ .notWordLike (.value (.text "rush")) .any).render
          (Shop.model Shop.plain) .filter).Gives ⟨.ofTable (Shop.model Shop.plain) Shop.orders, []⟩
          (some x') ⟨.ofTable (Shop.model Shop.plain) Shop.orders, []⟩ ∧
        let Holds (y : Expr) (text : String) : Prop :=
          Shop.matching.truth (y.eval Shop.matching (fun _ _ => []) (fun _ => []) []
            (Shop.reading text)) = some true
        Holds x "a rush  job" ∧ ¬ Holds x' "a rush  job" ∧
          ¬ Holds x "rushed" ∧ Holds x' "rushed" := by
  have htarget := Shop.joinColumn_identifier .filter
  have hspace : ' ' ∉ "rush".toList := by decide
  obtain ⟨x, x', hx, hx', hmeaning⟩ := render_words htarget hspace .any
  obtain ⟨-, hwords⟩ := hmeaning String Shop.matching (fun _ _ => []) (fun _ => []) []
    (Shop.likesTexts_matching _)
  have hread : ∀ text, _ := fun text => hwords.2 (by decide) (Shop.reading text) text
    (Shop.eval_identifier _ _ _ text)
  refine ⟨htarget, hspace, Shop.likesTexts_matching _, x, x', hx, hx', ?_⟩
  exact ⟨(hread _).1.2 (by decide), fun h => (hread _).2.1 h (by decide),
    fun h => absurd ((hread _).1.1 h) (by decide), (hread _).2.2 (by decide)⟩

/-- The word `a_b` is found in a text that has another word only. -/
theorem render_words_wildcard :
    ∃ x, ((Predicate.compare ⟨["id"]⟩ .wordLike (.value (.text "a_b")) .any).render
        (Shop.model Shop.plain) .filter).Gives ⟨.ofTable (Shop.model Shop.plain) Shop.orders, []⟩
        (some x) ⟨.ofTable (Shop.model Shop.plain) Shop.orders, []⟩ ∧
      Shop.matching.LikesTexts Shop.identifier.type ∧
      Shop.matching.truth (x.eval Shop.matching (fun _ _ => []) (fun _ => []) []
        (Shop.reading "axb")) = some true ∧
      pieces ' ' "axb".toList = ["axb".toList] := by
  obtain ⟨x, hx, htruth⟩ := Shop.identifier.exists_words false "a_b"
  refine ⟨x, gives_render_compare.2 ⟨_, _, x, Shop.joinColumn_identifier .filter,
    gives_render_value.2 ⟨hx, rfl⟩, rfl⟩, Shop.likesTexts_matching _, ?_, by decide⟩
  rw [htruth (Shop.likesTexts_matching _) (Shop.eval_identifier _ _ _ "axb")]
  decide

end EntityQuery
