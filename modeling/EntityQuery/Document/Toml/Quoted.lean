import EntityQuery.Text.Hex

/-!
# TOML strings

Basic strings have escapes, literal strings have none; both may be written over several lines
between triple quotes. Carriage returns are known to stand before line feeds.
-/

namespace EntityQuery.Document.Toml

open EntityQuery

/-- Tabs are the only control characters within a line. -/
def isPlain (c : Char) : Bool := c = '\t' || (0x20 ≤ c.toNat && c.toNat ≠ 0x7F)

def isLineChar (c : Char) : Bool := c = ' ' || c = '\t' || c = '\r'

def isNewline (c : Char) : Bool := c = '\n'

/-! ## Escapes -/

/-- The characters written as a backslash and one letter. -/
def escape? : Char → Option Char
  | 'b' => some '\x08'
  | 't' => some '\t'
  | 'n' => some '\n'
  | 'f' => some '\x0c'
  | 'r' => some '\r'
  | 'e' => some '\x1b'
  | '"' => some '"'
  | '\\' => some '\\'
  | _ => none

/-- The number of hexadecimal digits after the letter. -/
def escapeWidth? : Char → Option Nat
  | 'x' => some 2
  | 'u' => some 4
  | 'U' => some 8
  | _ => none

/-- The character with a code point of the given width; surrogates are none. -/
def codePoint? (width : Nat) (cs : List Char) : Option Char := do
  if cs.length < width then none
  let ds ← (cs.take width).mapM Text.hexValue?
  let n := ds.foldl (fun n d => n * 16 + d) 0
  if n < 0xD800 || (0xE000 ≤ n && n < 0x110000) then return Char.ofNat n else none

/-! ## Bodies

Each reads what follows the opening quotes; `acc` holds the characters read, the last one first. -/

def basicBody? (acc : List Char) : List Char → Option (List Char × List Char)
  | [] => none
  | '"' :: cs => some (acc.reverse, cs)
  | '\\' :: e :: cs =>
    match escapeWidth? e with
    | some width => do basicBody? ((← codePoint? width cs) :: acc) (cs.drop width)
    | none => do basicBody? ((← escape? e) :: acc) cs
  | c :: cs => if isPlain c && c ≠ '\\' then basicBody? (c :: acc) cs else none
termination_by cs => cs.length
decreasing_by all_goals simp; try omega

def literalBody? (acc : List Char) : List Char → Option (List Char × List Char)
  | [] => none
  | c :: cs =>
    if c = '\'' then some (acc.reverse, cs)
    else if isPlain c then literalBody? (c :: acc) cs
    else none

/-- The end of a string over several lines, after three quotes: two more belong to it. -/
def closing (quote : Char) (acc : List Char) (cs : List Char) : List Char × List Char :=
  let extra := (cs.take 2).takeWhile (· = quote)
  ((extra ++ acc).reverse, cs.drop extra.length)

/-- What follows a backslash at the end of a line, without the blanks before the next word. -/
def continued? (cs : List Char) : Option (List Char) :=
  match cs.dropWhile isLineChar with
  | '\n' :: rest => some (rest.dropWhile fun c => isLineChar c || isNewline c)
  | _ => none

theorem length_dropWhile_le (p : Char → Bool) (cs : List Char) :
    (cs.dropWhile p).length ≤ cs.length :=
  (List.dropWhile_sublist p).length_le

theorem length_continued?_le {cs rest : List Char} (h : continued? cs = some rest) :
    rest.length ≤ cs.length := by
  unfold continued? at h
  split at h
  · rename_i more heq
    cases h
    have h₁ := length_dropWhile_le isLineChar cs
    have h₂ := length_dropWhile_le (fun c => isLineChar c || isNewline c) more
    rw [heq, List.length_cons] at h₁
    omega
  · contradiction

def basicLines? (acc : List Char) : List Char → Option (List Char × List Char)
  | [] => none
  | '"' :: '"' :: '"' :: cs => some (closing '"' acc cs)
  | '\\' :: cs =>
    match _h : continued? cs with
    | some rest => basicLines? acc rest
    | none =>
      match cs with
      | [] => none
      | e :: cs =>
        match escapeWidth? e with
        | some width => do basicLines? ((← codePoint? width cs) :: acc) (cs.drop width)
        | none => do basicLines? ((← escape? e) :: acc) cs
  | c :: cs => if isPlain c || c = '\n' || c = '\r' then basicLines? (c :: acc) cs else none
termination_by cs => cs.length
decreasing_by
  · have := length_continued?_le _h
    simp
    omega
  all_goals simp; try omega

def literalLines? (acc : List Char) : List Char → Option (List Char × List Char)
  | [] => none
  | '\'' :: '\'' :: '\'' :: cs => some (closing '\'' acc cs)
  | c :: cs => if isPlain c || c = '\n' || c = '\r' then literalLines? (c :: acc) cs else none

/-! ## Strings -/

/-- The line break right after opening triple quotes does not count. -/
def firstLine : List Char → List Char
  | '\r' :: '\n' :: cs => cs
  | '\n' :: cs => cs
  | cs => cs

/-- A string on one line. -/
def lineString? : List Char → Option (List Char × List Char)
  | '"' :: cs => basicBody? [] cs
  | '\'' :: cs => literalBody? [] cs
  | _ => none

def string? : List Char → Option (List Char × List Char)
  | '"' :: '"' :: '"' :: cs => basicLines? [] (firstLine cs)
  | '\'' :: '\'' :: '\'' :: cs => literalLines? [] (firstLine cs)
  | cs => lineString? cs

end EntityQuery.Document.Toml
