import EntityQuery.Text.Letter

/-!
# Environment variables in text

A text may refer to variables as `$NAME` or `${NAME}`. It is cut into segments first, and the
values are put in afterwards, so what a value contains is not looked at again.
-/

namespace EntityQuery

/-- The variables that are set. -/
abbrev Environment := List (String × String)

namespace Environment

inductive Segment where
  | char (c : Char)
  | variable (name : String)
  deriving DecidableEq

def isNameChar (c : Char) : Bool := Text.isAlphanumeric c || c = '_'

theorem length_dropWhile_lt (p : Char → Bool) (c : Char) (cs : List Char) :
    (cs.dropWhile p).length < (c :: cs).length :=
  Nat.lt_succ_of_le (List.dropWhile_sublist p).length_le

/-- The segments of a text. A name in braces ends at the closing brace, or with the text; a name
without braces is as long as possible, and without one the sign stands for itself. -/
def segments : List Char → List Segment
  | [] => []
  | '$' :: '{' :: cs =>
    .variable (String.ofList (cs.takeWhile (· ≠ '}'))) ::
      segments ((cs.dropWhile (· ≠ '}')).drop 1)
  | '$' :: cs =>
    if (cs.takeWhile isNameChar).isEmpty then .char '$' :: segments cs
    else .variable (String.ofList (cs.takeWhile isNameChar)) ::
      segments (cs.dropWhile isNameChar)
  | c :: cs => .char c :: segments cs
termination_by cs => cs.length
decreasing_by
  · have := length_dropWhile_lt (· ≠ '}') '$' cs
    simp only [List.length_drop, List.length_cons] at *
    omega
  · simp
  · exact length_dropWhile_lt isNameChar '$' cs
  · simp

/-- The names that a text refers to. -/
def mentioned (text : String) : List String :=
  (segments text.toList).filterMap fun
    | .char _ => none
    | .variable name => some name

/-- The value of a segment; the name of a variable that is not set is the error. -/
def value (env : Environment) : Segment → Except String (List Char)
  | .char c => .ok [c]
  | .variable name =>
    match env.lookup name with
    | some v => .ok v.toList
    | none => .error name

/-- Replaces the variables of a text by their values. The error names the first one missing. -/
def expand (env : Environment) (text : String) : Except String String := do
  let parts ← (segments text.toList).mapM env.value
  return String.ofList parts.flatten

end Environment

end EntityQuery
