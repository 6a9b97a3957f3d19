import EntityQuery.Text.Blank

/-!
# Member paths

A `Path` is a chain of member names such as `lines.product.name`. Its text joins the names with
dots; reading a text trims the names and drops the empty ones.
-/

namespace EntityQuery

structure Path where
  segments : List String
  deriving DecidableEq, Inhabited

namespace Path

def empty : Path := ⟨[]⟩

def parse (s : String) : Path :=
  ⟨(((Text.pieces '.' s.toList).map Text.trim).filter (!·.isEmpty)).map String.ofList⟩

def text (p : Path) : String := ".".intercalate p.segments

def length (p : Path) : Nat := p.segments.length

def isEmpty (p : Path) : Bool := p.segments.isEmpty

def last? (p : Path) : Option String := p.segments.getLast?

def take (p : Path) (n : Nat) : Path := ⟨p.segments.take n⟩

def drop (p : Path) (n : Nat) : Path := ⟨p.segments.drop n⟩

def append (p q : Path) : Path := ⟨p.segments ++ q.segments⟩

instance : Append Path := ⟨append⟩

def child (p : Path) (member : String) : Path := ⟨p.segments ++ [member]⟩

/-- Whether `p` is `q` or continues it. -/
def startsWith (p q : Path) : Bool := q.segments.isPrefixOf p.segments

/-- Whether `p` continues `q` by at least one member. -/
def continues (p q : Path) : Bool := q.length < p.length && p.startsWith q

theorem append_assoc (a b c : Path) : a ++ b ++ c = a ++ (b ++ c) :=
  congrArg Path.mk (List.append_assoc _ _ _)

theorem take_append_drop (p : Path) (n : Nat) : p.take n ++ p.drop n = p :=
  congrArg Path.mk (List.take_append_drop _ _)

theorem length_take (p : Path) (n : Nat) : (p.take n).length = min n p.length := by
  simp [take, length]

theorem length_drop (p : Path) (n : Nat) : (p.drop n).length = p.length - n := by
  simp [drop, length]

end Path

end EntityQuery
