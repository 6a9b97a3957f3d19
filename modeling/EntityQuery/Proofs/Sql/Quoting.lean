import EntityQuery.Sql.Dialect
import Mathlib.Data.List.Basic

/-!
# Quoted tokens

What a database reads where a quoted identifier or a string literal has been written. The scanner
(`Quotes.scan`) follows the lexical rules of the databases and knows nothing of how tokens are
written: it takes one character at a time and remembers whether the last one was a closing quote,
which ends the token unless another one follows, or a backslash that escapes.

**Writing.** The dialects double characters all over a text, MySQL even twice in turn. Character by
character this writes each one in a form of its own (`Quotes.write`), once or twice.

**Reading.** The form of one character is read as that character, wherever the scanner is inside a
token (`Quotes.scan_write`), and so is a whole text (`Quotes.scan_flatMap_write`). The token then
ends at its closing quote exactly if no other one follows (`Quotes.scan_closing_iff`).
-/

namespace EntityQuery.Sql

/-! ## Reading -/

/-- The lexical rules of one kind of quoted token. -/
structure Quotes where
  opening : Char
  closing : Char
  /-- After a backslash a character stands for itself. -/
  escapes : Bool
  /-- An N may stand in front of the token. -/
  marks : Bool

namespace Dialect

def identifierQuotes : Dialect → Quotes
  | sqlServer => ⟨'[', ']', false, false⟩
  | mySql => ⟨'\x60', '\x60', false, false⟩
  | postgreSql => ⟨'"', '"', false, false⟩

def stringQuotes : Dialect → Quotes
  | sqlServer => ⟨'\'', '\'', false, true⟩
  | mySql => ⟨'\'', '\'', true, false⟩
  | postgreSql => ⟨'\'', '\'', false, false⟩

end Dialect

namespace Quotes

/-- Where a scanner is in a token. -/
inductive Place where
  | inside
  /-- A closing quote has been read. -/
  | closed
  /-- A backslash that escapes has been read. -/
  | escaped

/-- Reads a token from a place in it: the characters that it stands for from there, and the text
after it. A token that does not end is none. -/
def scan (q : Quotes) : Place → List Char → Option (List Char × List Char)
  | .inside, [] => none
  | .inside, c :: cs =>
    if c = q.closing then q.scan .closed cs
    else if q.escapes && c = '\\' then q.scan .escaped cs
    else (q.scan .inside cs).map (Prod.map (c :: ·) id)
  | .closed, [] => some ([], [])
  | .closed, c :: cs =>
    if c = q.closing then (q.scan .inside cs).map (Prod.map (c :: ·) id) else some ([], c :: cs)
  | .escaped, [] => none
  | .escaped, c :: cs => (q.scan .inside cs).map (Prod.map (c :: ·) id)

/-- Reads a token at the start of a text. -/
def token? (q : Quotes) : List Char → Option (List Char × List Char)
  | [] => none
  | c :: cs =>
    if c = q.opening then q.scan .inside cs
    else if q.marks && c = 'N' && cs.head? = some q.opening then q.scan .inside cs.tail
    else none

def read? (q : Quotes) (text : String) : Option (String × String) :=
  (q.token? text.toList).map (Prod.map String.ofList String.ofList)

/-! ## Writing -/

/-- What is written for a character in a token. -/
def write (q : Quotes) (c : Char) : List Char :=
  if c = q.closing ∨ q.escapes = true ∧ c = '\\' then [c, c] else [c]

variable {q : Quotes}

theorem flatMap_write (hescapes : q.escapes = false) (cs : List Char) :
    cs.flatMap q.write = Text.double q.closing cs := by
  induction cs with
  | nil => rfl
  | cons c cs ih =>
    rw [List.flatMap_cons, ih, Text.double, write]
    by_cases hc : c = q.closing <;> simp [hc, hescapes]

/-- Doubling the backslashes and then the quotes doubles each of them once. -/
theorem flatMap_write_escapes (hescapes : q.escapes = true) (hclosing : q.closing ≠ '\\')
    (cs : List Char) : cs.flatMap q.write = Text.double q.closing (Text.double '\\' cs) := by
  induction cs with
  | nil => rfl
  | cons c cs ih =>
    rw [List.flatMap_cons, ih, Text.double, write]
    by_cases hescape : c = '\\'
    · simp [hescape, hescapes, Text.double, hclosing.symm]
    · by_cases hc : c = q.closing <;> simp [hescape, hc, Text.double, hclosing]

end Quotes

namespace Dialect

variable (d : Dialect) (cs : List Char)

theorem identifierChars_eq : d.identifierChars cs =
    d.identifierQuotes.opening ::
      (cs.flatMap d.identifierQuotes.write ++ [d.identifierQuotes.closing]) := by
  have hescapes : d.identifierQuotes.escapes = false := by cases d <;> rfl
  rw [Quotes.flatMap_write hescapes]
  cases d <;> rfl

/-- A string literal may be marked where the dialect knows the mark. -/
theorem stringChars_eq : ∃ mark, (mark = [] ∨ mark = ['N'] ∧ d.stringQuotes.marks = true) ∧
    d.stringChars cs = mark ++ d.stringQuotes.opening ::
      (cs.flatMap d.stringQuotes.write ++ [d.stringQuotes.closing]) := by
  cases d with
  | sqlServer =>
    rw [Quotes.flatMap_write rfl, stringChars]
    split
    · exact ⟨[], .inl rfl, rfl⟩
    · exact ⟨['N'], .inr ⟨rfl, rfl⟩, rfl⟩
  | mySql =>
    rw [Quotes.flatMap_write_escapes rfl (by decide)]
    exact ⟨[], .inl rfl, rfl⟩
  | postgreSql =>
    rw [Quotes.flatMap_write rfl]
    exact ⟨[], .inl rfl, rfl⟩

end Dialect

/-! ## Reading what was written -/

namespace Quotes

variable (q : Quotes) (cs rest : List Char)

/-- One written character is read as itself. -/
theorem scan_write (c : Char) :
    q.scan .inside (q.write c ++ rest) = (q.scan .inside rest).map (Prod.map (c :: ·) id) := by
  rw [write]
  by_cases hclosing : c = q.closing
  · simp [hclosing, scan]
  · by_cases hescape : q.escapes = true ∧ c = '\\'
    · obtain ⟨hescapes, rfl⟩ := hescape
      simp [hclosing, hescapes, scan]
    · simp [hclosing, hescape, scan]

theorem scan_flatMap_write :
    q.scan .inside (cs.flatMap q.write ++ rest) =
      (q.scan .inside rest).map (Prod.map (cs ++ ·) id) := by
  induction cs with
  | nil => exact (Option.map_id_apply (x := q.scan .inside rest)).symm
  | cons c cs ih =>
    rw [List.flatMap_cons, List.append_assoc, scan_write, ih, Option.map_map]
    rfl

/-- A closing quote ends the token unless another one follows. -/
theorem scan_closing_iff :
    q.scan .inside (q.closing :: rest) = some ([], rest) ↔ rest.head? ≠ some q.closing := by
  cases rest with
  | nil => simp [scan]
  | cons c rest =>
    by_cases hc : c = q.closing <;> simp [scan, hc]

/-- The text of a token is read back, with the rest of the text, exactly if the rest does not go on
with a closing quote. -/
theorem scan_written_iff :
    q.scan .inside (cs.flatMap q.write ++ q.closing :: rest) = some (cs, rest) ↔
      rest.head? ≠ some q.closing := by
  rw [scan_flatMap_write, ← scan_closing_iff, Option.map_eq_some_iff]
  constructor
  · rintro ⟨⟨read, left⟩, hscan, heq⟩
    obtain ⟨hread, rfl⟩ := Prod.mk.inj heq
    rw [hscan, List.append_right_eq_self.1 hread]
    rfl
  · intro hscan
    exact ⟨_, hscan, by simp⟩

theorem token?_opening : q.token? (q.opening :: cs) = q.scan .inside cs := by
  simp [token?]

theorem token?_mark (hmarks : q.marks = true) (hopening : q.opening ≠ 'N') :
    q.token? ('N' :: q.opening :: cs) = q.scan .inside cs := by
  simp [token?, hmarks, hopening.symm]

theorem read?_eq_some_iff {text s rest : String} :
    q.read? text = some (s, rest) ↔ q.token? text.toList = some (s.toList, rest.toList) := by
  rw [read?, Option.map_eq_some_iff]
  constructor
  · rintro ⟨⟨read, left⟩, htoken, heq⟩
    obtain ⟨rfl, rfl⟩ := Prod.mk.inj heq
    simpa using htoken
  · intro htoken
    exact ⟨_, htoken, by simp⟩

end Quotes

/-- **Quoting cannot be broken out of.** In every dialect a quoted identifier and a string literal
are read back as the text that was quoted, and the scanner stops right after them, whatever the text
consists of and whatever follows; only that the next character is not a closing quote, with which
the token would go on. -/
theorem quoted_read_back (d : Dialect) (s rest : String) :
    (d.identifierQuotes.read? (d.quoteIdentifier s ++ rest) = some (s, rest) ↔
      rest.toList.head? ≠ some d.identifierQuotes.closing) ∧
    (d.stringQuotes.read? (d.quoteString s ++ rest) = some (s, rest) ↔
      rest.toList.head? ≠ some d.stringQuotes.closing) := by
  constructor
  · rw [Quotes.read?_eq_some_iff, String.toList_append, Dialect.quoteIdentifier,
      String.toList_ofList, d.identifierChars_eq, List.cons_append, List.append_assoc,
      Quotes.token?_opening]
    exact Quotes.scan_written_iff _ _ _
  · obtain ⟨mark, hmark, hchars⟩ := d.stringChars_eq s.toList
    have hopening : d.stringQuotes.opening ≠ 'N' := by cases d <;> decide
    have htoken : d.stringQuotes.token? (d.stringChars s.toList ++ rest.toList) =
        d.stringQuotes.scan .inside
          (s.toList.flatMap d.stringQuotes.write ++ d.stringQuotes.closing :: rest.toList) := by
      rw [hchars]
      rcases hmark with rfl | ⟨rfl, hmarks⟩
      · simp [Quotes.token?_opening]
      · simp [Quotes.token?_mark, hmarks, hopening]
    rw [Quotes.read?_eq_some_iff, String.toList_append, Dialect.quoteString,
      String.toList_ofList, htoken]
    exact Quotes.scan_written_iff _ _ _

example : Dialect.mySql.stringQuotes.read?
    (Dialect.mySql.quoteString "\\' OR '1'='1\\" ++ " --") = some ("\\' OR '1'='1\\", " --") := by
  decide +kernel

end EntityQuery.Sql
