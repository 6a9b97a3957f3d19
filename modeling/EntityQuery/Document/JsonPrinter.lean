import EntityQuery.Document.Basic
import EntityQuery.Double.Shortest
import EntityQuery.Text.Hex

/-!
# Writing JSON

`compact` writes a document without blanks, `pretty` with one item a line and two blanks for each
level. Characters outside ASCII stand for themselves; control characters are escaped.
-/

namespace EntityQuery.Document

def escaped (c : Char) : List Char :=
  match c with
  | '"' => ['\\', '"']
  | '\\' => ['\\', '\\']
  | '\x08' => ['\\', 'b']
  | '\x0c' => ['\\', 'f']
  | '\n' => ['\\', 'n']
  | '\r' => ['\\', 'r']
  | '\t' => ['\\', 't']
  | c =>
    if c.toNat < 0x20 then
      ['\\', 'u', '0', '0', Text.hexDigit (c.toNat / 16), Text.hexDigit (c.toNat % 16)]
    else [c]

def quoted (s : String) : String :=
  String.ofList ('"' :: (s.toList.flatMap escaped ++ ['"']))

/-- A double as a JSON number; there is none for NaN and the infinities. -/
def numberText (d : Double) : String :=
  if d.isNaN || d.isInfinite then "null" else Double.signed.finite d

/-- A line break followed by the indentation of a level. -/
def lineBreak (level : Nat) : String :=
  String.ofList ('\n' :: List.replicate (2 * level) ' ')

mutual

def compact : Document → String
  | null => "null"
  | bool true => "true"
  | bool false => "false"
  | int n => toString n
  | float d => numberText d
  | oversized => "null"
  | text s | datetime s => quoted s
  | list items => "[" ++ ",".intercalate (compactItems items) ++ "]"
  | table fields => "\x7b" ++ ",".intercalate (compactFields fields) ++ "\x7d"

def compactItems : List Document → List String
  | [] => []
  | d :: ds => d.compact :: compactItems ds

def compactFields : List (String × Document) → List String
  | [] => []
  | (n, d) :: ds => (quoted n ++ ":" ++ d.compact) :: compactFields ds

end

mutual

/-- The text of a document that starts at the given level. -/
def prettyAt (level : Nat) : Document → String
  | null => "null"
  | bool true => "true"
  | bool false => "false"
  | int n => toString n
  | float d => numberText d
  | oversized => "null"
  | text s | datetime s => quoted s
  | list [] => "[]"
  | list (d :: ds) =>
    "[" ++ lineBreak (level + 1) ++
      ("," ++ lineBreak (level + 1)).intercalate
        (d.prettyAt (level + 1) :: prettyItems (level + 1) ds) ++
      lineBreak level ++ "]"
  | table [] => "\x7b\x7d"
  | table ((n, d) :: ds) =>
    "\x7b" ++ lineBreak (level + 1) ++
      ("," ++ lineBreak (level + 1)).intercalate
        ((quoted n ++ ": " ++ d.prettyAt (level + 1)) :: prettyFields (level + 1) ds) ++
      lineBreak level ++ "\x7d"

def prettyItems (level : Nat) : List Document → List String
  | [] => []
  | d :: ds => d.prettyAt level :: prettyItems level ds

def prettyFields (level : Nat) : List (String × Document) → List String
  | [] => []
  | (n, d) :: ds => (quoted n ++ ": " ++ d.prettyAt level) :: prettyFields level ds

end

def pretty (d : Document) : String := d.prettyAt 0

end EntityQuery.Document
