import EntityQuery.Document.Toml.Block
import EntityQuery.Document.Toml.Quoted
import EntityQuery.Document.Toml.Word

/-!
# Reading TOML

A text is first read as a list of statements, headers and assignments; the statements then build
the root table one after the other. Arrays and inline tables may run over several lines. The
number of characters bounds every loop; values nest at most eighty deep, and a key has at most
eighty parts.
-/

namespace EntityQuery.Document.Toml

open EntityQuery

inductive Statement where
  | table (path : List String)
  | nextTable (path : List String)
  | assign (path : List String) (d : Document)

/-! ## Gaps -/

/-- Whether every carriage return stands before a line feed. -/
def returnsPaired : List Char → Bool
  | [] => true
  | '\r' :: '\n' :: cs => returnsPaired cs
  | c :: cs => c ≠ '\r' && returnsPaired cs

def isCommentChar (c : Char) : Bool := isPlain c || c = '\r'

/-- Skips blanks, line breaks and comments. -/
def gap? (inComment : Bool) : List Char → Option (List Char)
  | [] => some []
  | c :: cs =>
    if c = '\n' then gap? false cs
    else if inComment then if isCommentChar c then gap? true cs else none
    else if c = '#' then gap? true cs
    else if isLineChar c then gap? false cs
    else some (c :: cs)

/-- Skips the rest of a line, which holds at most a comment. -/
def lineEnd? (inComment : Bool) : List Char → Option (List Char)
  | [] => some []
  | c :: cs =>
    if c = '\n' then some cs
    else if inComment then if isCommentChar c then lineEnd? true cs else none
    else if c = '#' then lineEnd? true cs
    else if isLineChar c then lineEnd? false cs
    else none

def blanks (cs : List Char) : List Char := cs.dropWhile isLineChar

/-! ## Keys -/

def isKeyChar (c : Char) : Bool := c.isAlphanum || c = '_' || c = '-'

def simpleKey? (cs : List Char) : Option (String × List Char) :=
  match lineString? cs with
  | some (key, rest) => some (String.ofList key, rest)
  | none =>
    let (key, rest) := cs.span isKeyChar
    if key.isEmpty then none else some (String.ofList key, rest)

/-- The parts of a dotted key. -/
def keyFrom? : (fuel : Nat) → List Char → Option (List String × List Char)
  | 0, _ => none
  | fuel + 1, cs => do
    let (key, rest) ← simpleKey? (blanks cs)
    match blanks rest with
    | '.' :: rest =>
      let (keys, rest) ← keyFrom? fuel rest
      return (key :: keys, rest)
    | rest => return ([key], rest)

/-- How deep values may nest, and how many parts a key may have. -/
def maxDepth : Nat := 80

def key? (cs : List Char) : Option (List String × List Char) := do
  let (keys, rest) ← keyFrom? (cs.length + 1) cs
  if keys.length ≤ maxDepth then return (keys, rest) else none

/-! ## Values -/

/-- The fields of an inline table. -/
def inlineTable? (fields : List (List String × Document)) : Option Document := do
  let b ← fields.foldlM (fun b (path, d) => b.assign path d) (Block.empty .header)
  return b.document

mutual

def value? : (fuel depth : Nat) → List Char → Option (Document × List Char)
  | 0, _, _ => none
  | fuel + 1, depth, cs =>
    match cs with
    | '[' :: rest =>
      match depth with
      | 0 => none
      | depth + 1 => items? fuel depth [] rest
    | '\x7b' :: rest =>
      match depth with
      | 0 => none
      | depth + 1 => fields? fuel depth [] rest
    | c :: _ =>
      if c = '"' || c = '\'' then do
        let (s, rest) ← string? cs
        return (.text (String.ofList s), rest)
      else do
        let (word, rest) := splitWord cs
        return (← word? word, rest)
    | [] => none

/-- The rest of an array; `done` holds its items, the last one first. -/
def items? : (fuel depth : Nat) → List Document → List Char → Option (Document × List Char)
  | 0, _, _, _ => none
  | fuel + 1, depth, done, cs => do
    match ← gap? false cs with
    | ']' :: rest => return (.list done.reverse, rest)
    | cs =>
      let (d, rest) ← value? fuel depth cs
      match ← gap? false rest with
      | ',' :: rest => items? fuel depth (d :: done) rest
      | ']' :: rest => return (.list (d :: done).reverse, rest)
      | _ => none

/-- The rest of an inline table. Lines may end anywhere but inside a key. -/
def fields? : (fuel depth : Nat) → List (List String × Document) → List Char →
    Option (Document × List Char)
  | 0, _, _, _ => none
  | fuel + 1, depth, done, cs => do
    match ← gap? false cs with
    | '\x7d' :: rest => return (← inlineTable? done.reverse, rest)
    | cs =>
      let (path, rest) ← key? cs
      match ← gap? false rest with
      | '=' :: rest =>
        let (d, rest) ← value? fuel depth (← gap? false rest)
        let done := (path, d) :: done
        match ← gap? false rest with
        | ',' :: rest => fields? fuel depth done rest
        | '\x7d' :: rest => return (← inlineTable? done.reverse, rest)
        | _ => none
      | _ => none

end

/-! ## Statements -/

/-- The statement at the start of a text, and the rest of its line. -/
def statement? (cs : List Char) : Option (Statement × List Char) :=
  match cs with
  | '[' :: '[' :: cs => do
    match ← key? cs with
    | (path, ']' :: ']' :: rest) => return (.nextTable path, rest)
    | _ => none
  | '[' :: cs => do
    match ← key? cs with
    | (path, ']' :: rest) => return (.table path, rest)
    | _ => none
  | cs => do
    match ← key? cs with
    | (path, '=' :: rest) =>
      let (d, rest) ← value? (2 * cs.length + 1) maxDepth (blanks rest)
      return (.assign path d, rest)
    | _ => none

def statementsFrom? : (fuel : Nat) → List Char → Option (List Statement)
  | 0, _ => none
  | fuel + 1, cs => do
    match ← gap? false cs with
    | [] => return []
    | cs =>
      let (statement, rest) ← statement? cs
      let statements ← statementsFrom? fuel (← lineEnd? false rest)
      return statement :: statements

/-- The statements of a text. A byte order mark at its start does not count. -/
def statements? (cs : List Char) : Option (List Statement) :=
  let cs := match cs with
    | '\uFEFF' :: rest => rest
    | cs => cs
  if returnsPaired cs then statementsFrom? (cs.length + 1) cs else none

/-- The root table and the path of the table that assignments go to. -/
structure Assembly where
  root : Block
  current : List String

def Assembly.add (a : Assembly) : Statement → Option Assembly
  | .table path => do return ⟨← a.root.openTable path, path⟩
  | .nextTable path => do return ⟨← a.root.openNext path, path⟩
  | .assign path d => do
    return { a with root := ← a.root.change false (Block.assign path d) a.current }

/-- The document a whole TOML text says. -/
def read? (s : String) : Option Document := do
  let statements ← statements? s.toList
  let a ← statements.foldlM Assembly.add ⟨Block.empty .header, []⟩
  return a.root.document

end EntityQuery.Document.Toml
