import EntityQuery.Sql.Query
import Mathlib.Data.List.Dedup

/-!
# The meaning of SQL queries

An evaluator for expressions and SELECT statements over any database, in the three-valued logic
of SQL.

**Data.** The domain `D` of data is arbitrary. Data that a database holds to be equal are one
datum, so `=`, DISTINCT and GROUP BY agree; what the other comparisons and the functions do with
data is up to an `Engine`. A missing value is NULL.

**Rows.** A row has a value for every column name. While a SELECT is evaluated, an environment
`Env` holds the current row of every alias; an alias that is not bound has only NULLs.

**Tables.** A reference with a label is one to a stored table. A reference without a label is one
to a common table expression. A database looks at the names only, so the meaning given here supposes
that no stored table is named like a CTE of the statement (`tableRows`).

**Queries.** FROM and the joins give environments; WHERE keeps those in which the condition is
true; GROUP BY divides them, and so does an aggregate, into a single group; every group gives a
record, in which the columns outside aggregates are those of its first row. DISTINCT drops repeated
records. The order of the rows and the window, which choose among the rows without changing them,
are not part of the meaning here.
-/

namespace EntityQuery.Sql

/-! ## Truth values -/

/-- True, false or, without a value, unknown. -/
abbrev Truth := Option Bool

namespace Truth

def not (a : Truth) : Truth := a.map (!·)

def and : Truth → Truth → Truth
  | some false, _ => some false
  | _, some false => some false
  | some true, some true => some true
  | _, _ => none

def or : Truth → Truth → Truth
  | some true, _ => some true
  | _, some true => some true
  | some false, some false => some false
  | _, _ => none

/-- Whether one of them is true; of none, false. -/
def any (as : List Truth) : Truth := as.foldr or (some false)

end Truth

/-! ## Data -/

/-- What a database makes of its data. -/
structure Engine (D : Type) where
  less : D → D → Bool
  like : D → D → Bool
  /-- A parameter that is not null, as a value of the given type. -/
  datum : Value → Option String → D
  ofInt : Int → D
  ofText : String → D
  /-- A truth value as a datum. -/
  ofBool : Bool → D
  /-- A datum as a condition. -/
  holds : D → Bool
  holds_ofBool : ∀ b, holds (ofBool b) = b
  function : String → List (Option D) → Option D
  isAggregate : String → Bool
  /-- An aggregate of the arguments in every row of a group; of different ones, with DISTINCT. -/
  aggregate : String → Bool → List (List (Option D)) → Option D

/-- The values of a row by the names of its columns. -/
abbrev Row (D : Type) := String → Option D

def Row.null {D : Type} : Row D := fun _ => none

/-- The rows of the stored tables, by schema and name. -/
abbrev Database (D : Type) := Option String → String → List (Row D)

/-- The rows of the common table expressions, by name. -/
abbrev Ctes (D : Type) := String → List (Row D)

/-- The current rows, by alias. -/
abbrev Env (D : Type) := String → Row D

namespace Env

variable {D : Type}

def empty : Env D := fun _ => Row.null

def bind (env : Env D) (label : String) (row : Row D) : Env D :=
  fun l => if l = label then row else env l

@[simp]
theorem bind_self (env : Env D) (label : String) (row : Row D) : env.bind label row label = row :=
  if_pos rfl

theorem bind_of_ne {env : Env D} {label l : String} {row : Row D} (h : l ≠ label) :
    env.bind label row l = env l :=
  if_neg h

/-- No row for the given aliases. -/
def clear (env : Env D) (labels : List String) : Env D :=
  fun l => if l ∈ labels then Row.null else env l

end Env

/-- The result of a query, item by item: the label and the value. -/
abbrev Record (D : Type) := List (Option String × Option D)

namespace Record

variable {D : Type}

/-- The value of the first item. -/
def first (r : Record D) : Option D := r.head?.bind (·.2)

/-- The record as a row, by the labels of its items. -/
def row (r : Record D) : Row D := fun column => (r.find? (·.1 == some column)).bind (·.2)

theorem row_singleton (label : String) (v : Option D) : row [(some label, v)] label = v := by
  simp [row]

end Record

/-- The name that a table has inside a query. -/
def TableRef.boundName (t : TableRef) : String := t.label.getD t.name

/-- The alias of a FROM item. -/
def sourceNames : Option Source → List String
  | none => []
  | some (.table t) => [t.boundName]
  | some (.derived _ label) => [label]

/-- The aliases of a FROM clause in order. -/
def Query.boundNames (q : Query) : List String :=
  sourceNames q.source ++ q.joins.map (·.table.boundName)

namespace Engine

variable {D : Type} [DecidableEq D] (E : Engine D)

def compare : BinaryOp → D → D → Bool
  | .eq, a, b => a = b
  | .ne, a, b => a ≠ b
  | .lt, a, b => E.less a b
  | .gt, a, b => E.less b a
  | .lte, a, b => !E.less b a
  | .gte, a, b => !E.less a b
  | .like, a, b => E.like a b
  | .notLike, a, b => !E.like a b
  | .and, a, b => E.holds a && E.holds b
  | .or, a, b => E.holds a || E.holds b

def truth (v : Option D) : Truth := v.map E.holds

def value (t : Truth) : Option D := t.map E.ofBool

/-- Comparison with NULL is unknown. -/
def binary (op : BinaryOp) (a b : Option D) : Option D :=
  match op with
  | .and => E.value (Truth.and (E.truth a) (E.truth b))
  | .or => E.value (Truth.or (E.truth a) (E.truth b))
  | op => a.bind fun a => b.map fun b => E.ofBool (E.compare op a b)

/-- Whether a value is one of those in a list. -/
def member (v : Option D) (vs : List (Option D)) (negated : Bool) : Option D :=
  let found := Truth.any (vs.map fun w => E.truth (E.binary .eq v w))
  E.value (if negated then Truth.not found else found)

def literal : Literal → Option D
  | .int n => some (E.ofInt n)
  | .text s => some (E.ofText s)
  | .null => none

def param (v : Value) (type : Option String) : Option D :=
  if v.isNull then none else some (E.datum v type)

omit [DecidableEq D] in
theorem truth_value (t : Truth) : E.truth (E.value t) = t := by
  cases t with
  | none => rfl
  | some b => exact congrArg some (E.holds_ofBool b)

theorem truth_binary_and {a b : Option D} :
    E.truth (E.binary .and a b) = some true ↔ E.truth a = some true ∧ E.truth b = some true := by
  rw [binary, truth_value]
  rcases E.truth a with _ | _ | _ <;> rcases E.truth b with _ | _ | _ <;> simp [Truth.and]

/-- Equality is true of two values that are there and equal. -/
theorem truth_binary_eq {a b : Option D} :
    E.truth (E.binary .eq a b) = some true ↔ ∃ v, a = some v ∧ b = some v := by
  cases a with
  | none => simp [binary, truth]
  | some x =>
    cases b with
    | none => simp [binary, truth]
    | some y => simp [binary, truth, compare, E.holds_ofBool, eq_comm]

end Engine

/-! ## Aggregates -/

mutual

/-- Whether an aggregate stands in the expression, outside its subqueries. -/
def Expr.aggregates (isAggregate : String → Bool) : Expr → Bool
  | .call name args _ => isAggregate name || aggregatesAll isAggregate args
  | .binary a _ b => a.aggregates isAggregate || b.aggregates isAggregate
  | .case branches otherwise =>
    aggregatesBranches isAggregate branches || aggregatesOption isAggregate otherwise
  | .inList e vs _ => e.aggregates isAggregate || aggregatesAll isAggregate vs
  | .inQuery e _ _ | .isNull e _ | .paren e => e.aggregates isAggregate
  | .column _ | .literal _ | .param _ _ | .subquery _ | .star _ => false

def aggregatesAll (isAggregate : String → Bool) : List Expr → Bool
  | [] => false
  | e :: rest => e.aggregates isAggregate || aggregatesAll isAggregate rest

def aggregatesBranches (isAggregate : String → Bool) : List (Expr × Expr) → Bool
  | [] => false
  | (e, f) :: rest =>
    e.aggregates isAggregate || f.aggregates isAggregate || aggregatesBranches isAggregate rest

def aggregatesOption (isAggregate : String → Bool) : Option Expr → Bool
  | none => false
  | some e => e.aggregates isAggregate

end

/-! ## Evaluation -/

section

variable {D : Type} [DecidableEq D] (E : Engine D) (db : Database D)

/-- The rows of a table. Statements label every stored table and no CTE, and here the label decides
between them. In a database a CTE hides a stored table of its name, labelled or not: the two
readings are the same as long as no stored table that is named without a schema has the name of a
CTE, which is `cte_` and a number. -/
def tableRows (ctes : Ctes D) (t : TableRef) : List (Row D) :=
  match t.label with
  | some _ => db t.schema t.name
  | none => ctes t.name

/-- What a join makes of one environment: those with a matching row, or, for a left join without
a match, one with a row of NULLs. -/
def joinMatches (kind : JoinKind) (found : List (Env D)) (missing : Env D) : List (Env D) :=
  match kind, found with
  | .left, [] => [missing]
  | _, found => found

/-- The environments in groups with equal keys. -/
def groupsBy (key : Env D → List (Option D)) (envs : List (Env D)) : List (List (Env D)) :=
  (envs.map key).dedup.map fun k => envs.filter fun env => key env = k

mutual

/-- The value of an expression in a row. Aggregates range over the rows of its group. -/
def Expr.eval (ctes : Ctes D) (group : List (Env D)) (env : Env D) : Expr → Option D
  | .column ⟨some table, name⟩ => env table name
  | .column ⟨none, _⟩ => none
  | .literal l => E.literal l
  | .param v type => E.param v type
  | .binary a op b => E.binary op (a.eval ctes group env) (b.eval ctes group env)
  | .call name args distinct =>
    if E.isAggregate name then
      E.aggregate name distinct (group.map fun row => evalAll ctes [row] row args)
    else E.function name (evalAll ctes group env args)
  | .case branches otherwise =>
    evalBranches ctes group env branches (evalOption ctes group env otherwise)
  | .subquery q => (q.records ctes env).head?.bind Record.first
  | .inList e vs negated => E.member (e.eval ctes group env) (evalAll ctes group env vs) negated
  | .inQuery e q negated =>
    E.member (e.eval ctes group env) ((q.records ctes env).map Record.first) negated
  | .isNull e negated => some (E.ofBool ((e.eval ctes group env).isNone != negated))
  -- Every row counts in COUNT(*).
  | .star _ => some (E.ofBool true)
  | .paren e => e.eval ctes group env

def evalAll (ctes : Ctes D) (group : List (Env D)) (env : Env D) : List Expr → List (Option D)
  | [] => []
  | e :: rest => e.eval ctes group env :: evalAll ctes group env rest

/-- The first branch whose condition is true. -/
def evalBranches (ctes : Ctes D) (group : List (Env D)) (env : Env D) :
    List (Expr × Expr) → Option D → Option D
  | [], otherwise => otherwise
  | (e, f) :: rest, otherwise =>
    if E.truth (e.eval ctes group env) = some true then f.eval ctes group env
    else evalBranches ctes group env rest otherwise

def evalOption (ctes : Ctes D) (group : List (Env D)) (env : Env D) : Option Expr → Option D
  | none => none
  | some e => e.eval ctes group env

/-- Whether a condition is true; a missing one always is. -/
def holdsOption (ctes : Ctes D) (group : List (Env D)) (env : Env D) : Option Expr → Bool
  | none => true
  | some e => E.truth (e.eval ctes group env) = some true

def evalItems (ctes : Ctes D) (group : List (Env D)) (env : Env D) : List SelectItem → Record D
  | [] => []
  | ⟨e, label⟩ :: rest => (label, e.eval ctes group env) :: evalItems ctes group env rest

/-- Binds the row of every join, one after the other. -/
def joinAll (ctes : Ctes D) : List Join → List (Env D) → List (Env D)
  | [], envs => envs
  | ⟨kind, table, on⟩ :: rest, envs =>
    joinAll ctes rest (envs.flatMap fun env =>
      joinMatches kind
        (((tableRows db ctes table).map (env.bind table.boundName)).filter fun env =>
          E.truth (on.eval ctes [env] env) = some true)
        (env.bind table.boundName Row.null))

/-- The environments of a FROM clause. -/
def sourceEnvs (ctes : Ctes D) (env : Env D) : Option Source → List (Env D)
  | none => [env]
  | some (.table t) => (tableRows db ctes t).map (env.bind t.boundName)
  | some (.derived q label) => ((q.records ctes env).map Record.row).map (env.bind label)

/-- The rows of the common table expressions of a query, each visible in those after it. -/
def bindCtes (ctes : Ctes D) : List Cte → Ctes D
  | [] => ctes
  | ⟨name, q⟩ :: rest =>
    bindCtes
      (fun n => if n = name then (q.records ctes Env.empty).map Record.row else ctes n) rest

/-- The records of a query; `env` has the rows of the enclosing queries. -/
def Query.records (ctes : Ctes D) (env : Env D) : Query → List (Record D)
  | ⟨withs, items, distinct, _, source, joins, condition, groupBy, having, _, _, _⟩ =>
    let ctes := bindCtes ctes withs
    let envs := (joinAll ctes joins (sourceEnvs ctes env source)).filter fun row =>
      holdsOption ctes [row] row condition
    let groups :=
      if !groupBy.isEmpty then groupsBy (fun row => evalAll ctes [row] row groupBy) envs
      else if having.isSome || items.any (·.expr.aggregates E.isAggregate) then [envs]
      else envs.map ([·])
    let missing := env.clear (sourceNames source ++ joins.map (·.table.boundName))
    let records := (groups.filter fun group =>
      holdsOption ctes group (group.headD missing) having).map fun group =>
        evalItems ctes group (group.headD missing) items
    if distinct then records.dedup else records

end

/-! ## Joins and queries, part by part -/

/-- The rows of a joined table in which the condition is true, each in its environment. -/
def joinFound (ctes : Ctes D) (j : Join) (env : Env D) : List (Env D) :=
  ((tableRows db ctes j.table).map (env.bind j.table.boundName)).filter fun env =>
    E.truth (j.on.eval E db ctes [env] env) = some true

/-- What one join makes of one environment. -/
def joinOne (ctes : Ctes D) (j : Join) (env : Env D) : List (Env D) :=
  joinMatches j.kind (joinFound E db ctes j env) (env.bind j.table.boundName Row.null)

variable {ctes : Ctes D}

theorem joinAll_nil (envs : List (Env D)) : joinAll E db ctes [] envs = envs := by
  rw [joinAll]

theorem joinAll_cons (j : Join) (js : List Join) (envs : List (Env D)) :
    joinAll E db ctes (j :: js) envs =
      joinAll E db ctes js (envs.flatMap (joinOne E db ctes j)) := by
  cases j
  rw [joinAll]
  rfl

theorem joinAll_append (js ks : List Join) (envs : List (Env D)) :
    joinAll E db ctes (js ++ ks) envs = joinAll E db ctes ks (joinAll E db ctes js envs) := by
  induction js generalizing envs with
  | nil => rw [List.nil_append, joinAll_nil]
  | cons j js ih => rw [List.cons_append, joinAll_cons, joinAll_cons, ih]

/-- Every environment is joined on its own. -/
theorem joinAll_flatMap (js : List Join) (envs : List (Env D)) :
    joinAll E db ctes js envs = envs.flatMap fun env => joinAll E db ctes js [env] := by
  induction js generalizing envs with
  | nil => simp [joinAll_nil]
  | cons j js ih =>
    have hone (env : Env D) : [env].flatMap (joinOne E db ctes j) = joinOne E db ctes j env := by
      simp
    simp only [joinAll_cons, hone]
    rw [ih, List.flatMap_assoc]
    congr 1
    funext env
    rw [ih (joinOne E db ctes j env)]

/-- A left join that finds at most one row leaves one environment. -/
theorem joinOne_left {j : Join} {env : Env D} (hkind : j.kind = .left)
    (hfound : (joinFound E db ctes j env).length ≤ 1) :
    ∃ env', joinOne E db ctes j env = [env'] := by
  rw [joinOne, hkind]
  match hf : joinFound E db ctes j env with
  | [] => exact ⟨_, rfl⟩
  | [env'] => exact ⟨env', rfl⟩
  | _ :: _ :: _ =>
    rw [hf] at hfound
    simp at hfound

/-- Such joins neither add nor lose rows. -/
theorem joinAll_left {js : List Join} (hkind : ∀ j ∈ js, j.kind = .left)
    (hfound : ∀ j ∈ js, ∀ env, (joinFound E db ctes j env).length ≤ 1) (env : Env D) :
    ∃ env', joinAll E db ctes js [env] = [env'] := by
  induction js generalizing env with
  | nil => exact ⟨env, joinAll_nil E db _⟩
  | cons j js ih =>
    rw [List.forall_mem_cons] at hkind hfound
    obtain ⟨env₁, h₁⟩ := joinOne_left E db hkind.1 (hfound.1 env)
    obtain ⟨env', h'⟩ := ih hkind.2 hfound.2 env₁
    exact ⟨env', by rw [joinAll_cons, List.flatMap_singleton, h₁, h']⟩

/-- The last CTE is evaluated with the rows of those before it. -/
theorem bindCtes_append (withs : List Cte) (c : Cte) (name : String) :
    bindCtes E db ctes (withs ++ [c]) name =
      if name = c.name then
        (c.query.records E db (bindCtes E db ctes withs) Env.empty).map Record.row
      else bindCtes E db ctes withs name := by
  induction withs generalizing ctes with
  | nil =>
    cases c
    simp only [List.nil_append, bindCtes]
  | cons d withs ih =>
    cases d
    simp only [List.cons_append, bindCtes]
    exact ih

/-! ## Conditions -/

variable {group : List (Env D)} {env : Env D}

theorem Expr.eval_protect (e : Expr) :
    e.protect.eval E db ctes group env = e.eval E db ctes group env := by
  rw [Expr.protect]
  split
  · rw [Expr.eval]
  · rfl

theorem truth_foldl_and {acc : Expr} {es : List Expr} :
    E.truth ((es.foldl (fun acc x => .binary acc .and x.protect) acc).eval E db ctes group env) =
        some true ↔
      E.truth (acc.eval E db ctes group env) = some true ∧
        ∀ e ∈ es, E.truth (e.eval E db ctes group env) = some true := by
  induction es generalizing acc with
  | nil => simp
  | cons e es ih =>
    rw [List.foldl_cons, ih, List.forall_mem_cons, Expr.eval, E.truth_binary_and,
      Expr.eval_protect, and_assoc]

/-- A conjunction is true if all its parts are. -/
theorem holdsOption_combine_and {es : List Expr} :
    holdsOption E db ctes group env (Expr.combine .and es) = true ↔
      ∀ e ∈ es, E.truth (e.eval E db ctes group env) = some true := by
  cases es with
  | nil => simp [Expr.combine, holdsOption]
  | cons e es =>
    rw [Expr.combine, holdsOption, decide_eq_true_iff, truth_foldl_and, Expr.eval_protect,
      List.forall_mem_cons]

namespace Query

/-- The environments of the FROM clause in which the condition is true. -/
def kept (ctes : Ctes D) (env : Env D) (q : Query) : List (Env D) :=
  (joinAll E db ctes q.joins (sourceEnvs E db ctes env q.source)).filter fun row =>
    holdsOption E db ctes [row] row q.condition

def groups (ctes : Ctes D) (env : Env D) (q : Query) : List (List (Env D)) :=
  if !q.groupBy.isEmpty then
    groupsBy (fun row => evalAll E db ctes [row] row q.groupBy) (q.kept E db ctes env)
  else if q.having.isSome || q.items.any (·.expr.aggregates E.isAggregate) then
    [q.kept E db ctes env]
  else (q.kept E db ctes env).map ([·])

/-- The records of the groups, before DISTINCT. -/
def results (ctes : Ctes D) (env : Env D) (q : Query) : List (Record D) :=
  ((q.groups E db ctes env).filter fun group =>
    holdsOption E db ctes group (group.headD (env.clear q.boundNames)) q.having).map fun group =>
      evalItems E db ctes group (group.headD (env.clear q.boundNames)) q.items

theorem records_eq (q : Query) (env : Env D) :
    q.records E db ctes env =
      let records := q.results E db (bindCtes E db ctes q.ctes) env
      if q.distinct then records.dedup else records := by
  cases q
  rw [records]
  rfl

end Query

end

end EntityQuery.Sql
