/-!
# Operators of conditions
-/

namespace EntityQuery

/-- How a column is compared with an operand. -/
inductive Operator where
  | eq | ne | gt | gte | lt | lte
  | like | notLike
  /-- The text holds the operand as one of its words, which are divided by blanks. -/
  | wordLike
  | notWordLike
  /-- The column is null or does not match. -/
  | notLikeOrNull
  deriving DecidableEq

namespace Operator

/-- The operator as it is shown. -/
def text : Operator → String
  | eq => "="
  | ne => "<>"
  | gt => ">"
  | gte => ">="
  | lt => "<"
  | lte => "<="
  | like => "LIKE"
  | notLike => "NOT LIKE"
  | wordLike => "WORD LIKE"
  | notWordLike => "NOT WORD LIKE"
  | notLikeOrNull => "NOT LIKE OR NULL"

/-- The names an operator may have in a query file. -/
def ofName? : String → Option Operator
  | "eq" | "=" | "==" => some eq
  | "ne" | "<>" | "!=" => some ne
  | "gt" | ">" => some gt
  | "gte" | ">=" => some gte
  | "lt" | "<" => some lt
  | "lte" | "<=" => some lte
  | "like" => some like
  | "not_like" => some notLike
  | "word_like" => some wordLike
  | "not_word_like" => some notWordLike
  | "not_like_or_null" => some notLikeOrNull
  | _ => none

end Operator

/-- Whether a comparison must hold for one or for every related row or value. -/
inductive Quantifier where
  | any | all
  deriving DecidableEq, Inhabited

namespace Quantifier

/-- The quantifier of the negated comparison. -/
def flip : Quantifier → Quantifier
  | any => all
  | all => any

def text : Quantifier → String
  | any => "ANY"
  | all => "ALL"

/-- Its name in a query file. -/
def ofName? : String → Option Quantifier
  | "any" => some any
  | "all" => some all
  | _ => none

end Quantifier

end EntityQuery
