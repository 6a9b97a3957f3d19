import EntityQuery.Sql.Query

/-!
# Equality of expressions

Two expressions are the same if they are built alike and their parameters are equal as values, so
a parameter that is NaN differs from itself.
-/

namespace EntityQuery.Sql

mutual

/-- Whether two expressions are the same. -/
def Expr.eqv : Expr → Expr → Bool
  | .column c, .column c' => c == c'
  | .literal l, .literal l' => l == l'
  | .param v type, .param v' type' => v.eqv v' && type == type'
  | .binary a op b, .binary a' op' b' => a.eqv a' && op == op' && b.eqv b'
  | .call name args distinct, .call name' args' distinct' =>
    name == name' && eqvExprs args args' && distinct == distinct'
  | .case branches otherwise, .case branches' otherwise' =>
    eqvBranches branches branches' && eqvOptional otherwise otherwise'
  | .subquery q, .subquery q' => q.eqv q'
  | .inList e vs negated, .inList e' vs' negated' =>
    e.eqv e' && eqvExprs vs vs' && negated == negated'
  | .inQuery e q negated, .inQuery e' q' negated' =>
    e.eqv e' && q.eqv q' && negated == negated'
  | .isNull e negated, .isNull e' negated' => e.eqv e' && negated == negated'
  | .star table, .star table' => table == table'
  | .paren e, .paren e' => e.eqv e'
  | _, _ => false

def eqvExprs : List Expr → List Expr → Bool
  | [], [] => true
  | e :: es, e' :: es' => e.eqv e' && eqvExprs es es'
  | _, _ => false

def eqvBranches : List (Expr × Expr) → List (Expr × Expr) → Bool
  | [], [] => true
  | (a, b) :: rest, (a', b') :: rest' => a.eqv a' && b.eqv b' && eqvBranches rest rest'
  | _, _ => false

def eqvOptional : Option Expr → Option Expr → Bool
  | none, none => true
  | some e, some e' => e.eqv e'
  | _, _ => false

/-- A derived table is the same only under the same name. -/
def Source.eqv : Source → Source → Bool
  | .table t, .table t' => t == t'
  | .derived q label, .derived q' label' => q.eqv q' && label == label'
  | _, _ => false

def eqvSource : Option Source → Option Source → Bool
  | none, none => true
  | some s, some s' => s.eqv s'
  | _, _ => false

def SelectItem.eqv : SelectItem → SelectItem → Bool
  | ⟨e, label⟩, ⟨e', label'⟩ => e.eqv e' && label == label'

def eqvItems : List SelectItem → List SelectItem → Bool
  | [], [] => true
  | i :: is, i' :: is' => i.eqv i' && eqvItems is is'
  | _, _ => false

def Join.eqv : Join → Join → Bool
  | ⟨kind, table, on⟩, ⟨kind', table', on'⟩ => kind == kind' && table == table' && on.eqv on'

def eqvJoins : List Join → List Join → Bool
  | [], [] => true
  | j :: js, j' :: js' => j.eqv j' && eqvJoins js js'
  | _, _ => false

def OrderItem.eqv : OrderItem → OrderItem → Bool
  | ⟨e, dir⟩, ⟨e', dir'⟩ => e.eqv e' && dir == dir'

def eqvOrder : List OrderItem → List OrderItem → Bool
  | [], [] => true
  | o :: os, o' :: os' => o.eqv o' && eqvOrder os os'
  | _, _ => false

def Cte.eqv : Cte → Cte → Bool
  | ⟨name, q⟩, ⟨name', q'⟩ => name == name' && q.eqv q'

def eqvCtes : List Cte → List Cte → Bool
  | [], [] => true
  | c :: cs, c' :: cs' => c.eqv c' && eqvCtes cs cs'
  | _, _ => false

/-- Whether two queries are the same, clause by clause. -/
def Query.eqv : Query → Query → Bool
  | ⟨ctes, items, distinct, top, source, joins, condition, groupBy, having, orderBy, window,
      forJson⟩,
    ⟨ctes', items', distinct', top', source', joins', condition', groupBy', having', orderBy',
      window', forJson'⟩ =>
    eqvCtes ctes ctes' && eqvItems items items' && distinct == distinct' && top == top' &&
      eqvSource source source' && eqvJoins joins joins' && eqvOptional condition condition' &&
      eqvExprs groupBy groupBy' && eqvOptional having having' && eqvOrder orderBy orderBy' &&
      window == window' && forJson == forJson'

end

end EntityQuery.Sql
