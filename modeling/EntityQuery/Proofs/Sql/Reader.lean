import EntityQuery.Sql.Printing

/-!
# Reading conditions

A reader of SQL conditions that knows nothing of the trees they were printed from. It goes over the
tokens once, from left to right, and keeps what has been read of the current condition (`Pending`)
with one `Context` for every parenthesis that is open.

**Precedence.** Comparisons, LIKE, IN and IS NULL bind tightest, then AND, then OR, and operators of
one rank group from the left. A pending condition therefore has three unfinished parts, one of each
rank, in front of the operand that is being read; an operator finishes the parts of its own rank and
of the tighter ones.

**Parentheses.** They hold a condition, the arguments of a function, the values of a list, or the
SELECT that IN asks, with one column, a table, joins and a WHERE clause. The tree that results has
no node for parentheses that only group.
-/

namespace EntityQuery.Sql

/-- The operator that a token stands for. -/
def Token.operator? : Token → Option BinaryOp
  | eq => some .eq
  | ne => some .ne
  | lt => some .lt
  | gt => some .gt
  | lte => some .lte
  | gte => some .gte
  | and => some .and
  | or => some .or
  | like => some .like
  | notLike => some .notLike
  | _ => none

namespace Reader

/-- The place of the operand that is being read. -/
inductive Slot where
  /-- An operand is expected. -/
  | vacant
  /-- The name of a table and a dot. -/
  | qualifier (table : String)
  /-- The name of a function. -/
  | function (name : String)
  | filled (e : Expr)
  /-- An operand and NOT. -/
  | negated (e : Expr)
  /-- An operand and IN or NOT IN. -/
  | member (e : Expr) (negated : Bool)
  /-- A table is expected. -/
  | table
  | named (t : TableRef)
  /-- A table and AS. -/
  | label (t : TableRef)

/-- The part of a condition that has been read. -/
structure Pending where
  /-- What stands in front of the last OR. -/
  disjunct : Option Expr
  /-- What stands in front of the last AND after that. -/
  conjunct : Option Expr
  /-- What stands in front of the last comparison after that, with its operator. -/
  compared : Option (Expr × BinaryOp)
  slot : Slot

/-- An operand after what stands in front of it. -/
def after : Option (Expr × BinaryOp) → Expr → Expr
  | none, e => e
  | some (a, op), e => .binary a op e

namespace Pending

def start : Pending := ⟨none, none, none, .vacant⟩

/-- Puts an operand where one is expected. -/
def fill (p : Pending) (e : Expr) : Option Pending :=
  match p.slot with
  | .vacant => some { p with slot := .filled e }
  | _ => none

/-- The comparison that ends here. -/
def comparison? (p : Pending) : Option Expr :=
  match p.slot with
  | .filled e => some (after p.compared e)
  | _ => none

/-- The AND chain that ends here. -/
def conjunction? (p : Pending) : Option Expr :=
  p.comparison?.map (after (p.conjunct.map (·, .and)))

/-- The condition that ends here. -/
def whole? (p : Pending) : Option Expr :=
  p.conjunction?.map (after (p.disjunct.map (·, .or)))

/-- An operator, after the parts that bind at least as tight. -/
def operator (p : Pending) : BinaryOp → Option Pending
  | .and => p.conjunction?.map fun e => ⟨p.disjunct, some e, none, .vacant⟩
  | .or => p.whole?.map fun e => ⟨some e, none, none, .vacant⟩
  | op => p.comparison?.map fun e => ⟨p.disjunct, p.conjunct, some (e, op), .vacant⟩

/-- A test that follows its operand. -/
def test (p : Pending) (slot : Expr → Slot) : Option Pending :=
  p.comparison?.map fun e => { p with compared := none, slot := slot e }

/-- Reads a token that neither opens nor closes anything. -/
def read (p : Pending) : Token → Option Pending
  | .identifier name =>
    match p.slot with
    | .vacant => some { p with slot := .filled (.column ⟨none, name⟩) }
    | .qualifier table => some { p with slot := .filled (.column ⟨some table, name⟩) }
    | .label t => some { p with slot := .named { t with label := some name } }
    | _ => none
  | .dot =>
    match p.slot with
    | .filled (.column ⟨none, table⟩) => some { p with slot := .qualifier table }
    | _ => none
  | .star =>
    match p.slot with
    | .vacant => some { p with slot := .filled (.star none) }
    | .qualifier table => some { p with slot := .filled (.star (some table)) }
    | _ => none
  | .int n => p.fill (.literal (.int n))
  | .string s => p.fill (.literal (.text s))
  | .null => p.fill (.literal .null)
  | .param value type => p.fill (.param value type)
  | .function name =>
    match p.slot with
    | .vacant => some { p with slot := .function name }
    | _ => none
  | .not => p.test .negated
  | .in =>
    match p.slot with
    | .negated e => some { p with slot := .member e true }
    | _ => p.test (.member · false)
  | .isNull => p.test fun e => .filled (.isNull e false)
  | .isNotNull => p.test fun e => .filled (.isNull e true)
  | .qualified schema name =>
    match p.slot with
    | .table => some { p with slot := .named ⟨schema, name, none⟩ }
    | _ => none
  | .join =>
    match p.slot with
    | .table => some p
    | _ => none
  | .as =>
    match p.slot with
    | .named t => some { p with slot := .label t }
    | _ => none
  | t =>
    match t.operator? with
    | some op => p.operator op
    | none => none

end Pending

/-- What a list of expressions in parentheses belongs to. -/
inductive Listing where
  | arguments (name : String) (distinct : Bool)
  | values (e : Expr) (negated : Bool)

def Listing.expr : Listing → List Expr → Expr
  | arguments name distinct, es => .call name es distinct
  | values e negated, es => .inList e es negated

/-- The clause of a SELECT that is being read. -/
inductive Clause where
  | items
  | source
  | join (kind : JoinKind)
  | on (kind : JoinKind) (t : TableRef)
  | where

namespace Clause

/-- The query with the clause that ends here. -/
def close (clause : Clause) (p : Pending) (q : Query) : Option Query :=
  match clause, p.slot with
  | items, _ => p.whole?.map fun e => { q with items := [⟨e, none⟩] }
  | source, .named t => some { q with source := some (.table t) }
  | on kind t, _ => p.whole?.map fun e => { q with joins := q.joins ++ [⟨kind, t, e⟩] }
  | .where, _ => p.whole?.map fun e => { q with condition := some e }
  | _, _ => none

/-- The clause that a keyword begins, and what is expected in it. -/
def next : Clause → Token → Option (Clause × Slot)
  | items, .from => some (source, .table)
  | source, .inner | on _ _, .inner => some (join .inner, .table)
  | source, .left | on _ _, .left => some (join .left, .table)
  | source, .where | on _ _, .where => some (.where, .vacant)
  | _, _ => none

end Clause

/-- A parenthesis that is open, with the condition it stands in. -/
inductive Context where
  | group (outer : Pending)
  | list (outer : Pending) (listing : Listing) (done : List Expr)
  | rows (outer : Pending) (e : Expr) (negated : Bool) (query : Query) (clause : Clause)

end Reader

/-- What has been read of a condition and of those around it, the innermost first. -/
structure Reader where
  pending : Reader.Pending
  contexts : List Reader.Context

namespace Reader

/-- A parenthesis opens after what makes it a list, or around a condition. -/
def opened (r : Reader) : Option Reader :=
  let outer := { r.pending with slot := .vacant }
  match r.pending.slot with
  | .vacant => some ⟨.start, .group outer :: r.contexts⟩
  | .function name => some ⟨.start, .list outer (.arguments name false) [] :: r.contexts⟩
  | .member e negated => some ⟨.start, .list outer (.values e negated) [] :: r.contexts⟩
  | _ => none

/-- The innermost parenthesis closes, and what it holds is an operand outside. -/
def closed (r : Reader) : Option Reader :=
  match r.contexts with
  | [] => none
  | .group outer :: rest => do
    let e ← r.pending.whole?
    return ⟨← outer.fill e, rest⟩
  | .list outer listing done :: rest => do
    let e ← r.pending.whole?
    return ⟨← outer.fill (listing.expr (done ++ [e])), rest⟩
  | .rows outer e negated query clause :: rest => do
    let q ← clause.close r.pending query
    return ⟨← outer.fill (.inQuery e q negated), rest⟩

/-- An element of a list ends and another one follows. -/
def separated (r : Reader) : Option Reader :=
  match r.contexts with
  | .list outer listing done :: rest => do
    let e ← r.pending.whole?
    return ⟨.start, .list outer listing (done ++ [e]) :: rest⟩
  | _ => none

/-- DISTINCT in front of the first argument. -/
def distinguished (r : Reader) : Option Reader :=
  match r.pending.slot, r.contexts with
  | .vacant, .list outer (.arguments name false) [] :: rest =>
    some ⟨r.pending, .list outer (.arguments name true) [] :: rest⟩
  | _, _ => none

/-- SELECT in front of the first value: the values are the rows of a query. -/
def selected (r : Reader) : Option Reader :=
  match r.pending.slot, r.contexts with
  | .vacant, .list outer (.values e negated) [] :: rest =>
    some ⟨.start, .rows outer e negated .empty .items :: rest⟩
  | _, _ => none

/-- A keyword ends one clause of a SELECT and begins another. -/
def followed (r : Reader) (keyword : Token) : Option Reader :=
  match r.contexts with
  | .rows outer e negated query clause :: rest => do
    let q ← clause.close r.pending query
    let (clause, slot) ← clause.next keyword
    return ⟨{ Pending.start with slot }, .rows outer e negated q clause :: rest⟩
  | _ => none

/-- ON after the table of a join. -/
def joined (r : Reader) : Option Reader :=
  match r.pending.slot, r.contexts with
  | .named t, .rows outer e negated query (.join kind) :: rest =>
    some ⟨.start, .rows outer e negated query (.on kind t) :: rest⟩
  | _, _ => none

def step (r : Reader) : Token → Option Reader
  | .space | .newline | .indent _ => some r
  | .open => r.opened
  | .close => r.closed
  | .comma => r.separated
  | .distinct => r.distinguished
  | .select => r.selected
  | .from => r.followed .from
  | .inner => r.followed .inner
  | .left => r.followed .left
  | .where => r.followed .where
  | .on => r.joined
  | t => (r.pending.read t).map ({ r with pending := · })

/-- Reads the tokens from left to right. -/
def run (r : Reader) (tokens : List Token) : Option Reader := tokens.foldlM step r

end Reader

/-- The condition that the tokens are the text of. -/
def Token.condition? (tokens : List Token) : Option Expr :=
  (Reader.run ⟨.start, []⟩ tokens).bind fun r =>
    if r.contexts.isEmpty then r.pending.whole? else none

/-! ## Reading in steps -/

namespace Reader

variable {r r' : Reader} {xs ys : List Token}

theorem run_append (h : r.run xs = some r') : r.run (xs ++ ys) = r'.run ys := by
  rw [run, List.foldlM_append]
  exact congrArg (· >>= fun r => r.run ys) h

theorem run_cons {t : Token} (h : r.step t = some r') : r.run (t :: ys) = r'.run ys := by
  rw [run, List.foldlM_cons, h]
  rfl

end Reader

end EntityQuery.Sql
