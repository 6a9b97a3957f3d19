import EntityQuery.Proofs.Sql.Parameters
import EntityQuery.Proofs.Sql.Selects

/-!
# The windows of printed queries

The dialects write a window in different places and words: TOP in front of the select list, LIMIT
and OFFSET at the end, or OFFSET and FETCH NEXT there. `Extent.read` reads the numbers off the
tokens of a SELECT, whatever the words, and looks at nothing that stands in parentheses.

**Printing.** A property of token lists that passes from parts to wholes holds of everything that is
printed (`Printed`). Two properties are of this kind: a list that the reader passes over, and a list
in which no `SELECT NULL` begins.

**Reading.** So the numbers that are read are those of the query, in every dialect
(`Query.read_tokens`), and a query is ordered by nothing only if one of its SELECTs has a window and
no order (`Query.not_anyOrder`).
-/

namespace EntityQuery.Sql

/-! ## Reading a window -/

/-- Which rows of a result are returned: the numbers of rows that it is cut to, and how many are
left out before them. -/
structure Extent where
  takes : List Int
  skip : Int
  deriving DecidableEq

/-- What a number of rows is for. -/
inductive Mark where
  | take
  | skip

namespace Extent

/-- All rows. -/
def all : Extent := ⟨[], 0⟩

def add (x : Extent) : Mark → Int → Extent
  | .take, n => { x with takes := x.takes ++ [n] }
  | .skip, n => { x with skip := x.skip + n }

end Extent

/-- What the number after a keyword is for. -/
def Token.mark? : Token → Option Mark
  | top | limit | next => some .take
  | offset => some .skip
  | _ => none

/-- What has been read of a SELECT. -/
structure Scan where
  /-- How many parentheses are open. -/
  depth : Nat
  mark : Option Mark
  extent : Extent

namespace Scan

def start : Scan := ⟨0, none, .all⟩

def step (s : Scan) : Token → Scan
  | .open => { s with depth := s.depth + 1, mark := none }
  | .close => { s with depth := s.depth - 1, mark := none }
  | .space => s
  | .int n => { s with mark := none, extent := s.mark.elim s.extent (s.extent.add · n) }
  | t => { s with mark := if s.depth = 0 then t.mark? else none }

def run (s : Scan) (tokens : List Token) : Scan := tokens.foldl step s

theorem run_append (s : Scan) (xs ys : List Token) : s.run (xs ++ ys) = (s.run xs).run ys :=
  List.foldl_append

end Scan

/-- The window that the tokens of a SELECT show. -/
def Extent.read (tokens : List Token) : Extent := (Scan.start.run tokens).extent

/-- The window of a query: numbers of rows are those that databases count with. -/
def Query.extent (q : Query) : Extent where
  takes := (q.top.toList ++ (q.window.bind (·.limit)).toList).map fun n => (rowCount n : Int)
  skip := rowCount ((q.window.bind (·.offset)).getD 0)

/-! ## Properties of printed tokens -/

/-- A token that neither begins a SELECT, nor marks a number of rows, nor is a parenthesis. -/
def Token.isPlain : Token → Bool
  | select | top | limit | offset | next | .open | close => false
  | _ => true

/-- The clauses between the head of a SELECT and its order. -/
def Query.bodyTokens (d : Dialect) (q : Query) : List Token :=
  Token.separated [.comma] (tokensOfItems d q.items) ++ tokensOfSource d q.source ++
    tokensOfJoins d q.joins ++ tokensOfClause d .where q.condition ++ groupTokens d q.groupBy ++
    tokensOfClause d .having q.having

/-- The clauses of a query have the property. -/
structure Query.ClausesPrinted (d : Dialect) (P : List Token → Prop) (q : Query) : Prop where
  ctes : P (withTokens d q.ctes)
  body : P (q.bodyTokens d)
  order : P (Token.separated [.comma, .space] (tokensOfOrder d q.orderBy))

/-- The property `P` of the tokens of expressions, and `Q` of those of SELECTs that have the
property `S`, pass from the parts to the whole. -/
structure Printed (d : Dialect) (S : Query → Prop) (P Q : List Token → Prop) : Prop where
  nil : P []
  append : ∀ {xs ys}, P xs → P ys → P (xs ++ ys)
  plain : ∀ t : Token, t.isPlain → P [t]
  paren : ∀ {xs}, P xs → P ([.open] ++ xs ++ [.close])
  enclosed : ∀ {xs}, Q xs → P ([.open] ++ xs ++ [.close])
  lines : ∀ {xs}, Q xs → Q ([.newline] ++ xs ++ [.newline])
  select : ∀ {q : Query}, S q → q.ClausesPrinted d P → Q (q.tokens d)

namespace Printed

variable {d : Dialect} {S : Query → Prop} {P Q : List Token → Prop} (h : Printed d S P Q)

include h

theorem ofPlain {ts : List Token} (hts : ts.all Token.isPlain) : P ts := by
  induction ts with
  | nil => exact h.nil
  | cons t ts ih =>
    rw [List.all_cons, Bool.and_eq_true] at hts
    exact h.append (h.plain t hts.1) (ih hts.2)

theorem separated {sep : List Token} (hsep : P sep) {tss : List (List Token)}
    (htss : ∀ ts ∈ tss, P ts) : P (Token.separated sep tss) := by
  fun_induction Token.separated sep tss with
  | case1 => exact h.nil
  | case2 ts => exact htss ts (List.mem_singleton_self ts)
  | case3 ts rest _ ih =>
    rw [List.forall_mem_cons] at htss
    exact h.append (h.append htss.1 hsep) (ih htss.2)

theorem qualifier (table : Option String) : P (qualifier table) := by
  cases table <;> exact h.ofPlain rfl

theorem aliasTokens (label : Option String) : P (aliasTokens label) := by
  cases label <;> exact h.ofPlain rfl

theorem operator (op : BinaryOp) : P [.space, op.token, .space] := by
  cases op <;> exact h.ofPlain rfl

theorem table (t : TableRef) : P t.tokens :=
  h.append (h.plain _ rfl) (h.aliasTokens t.label)

theorem negation (negated : Bool) : P (if negated then [.space, .not] else []) := by
  cases negated <;> exact h.ofPlain rfl

theorem withTokens {ctes : List Cte} (hctes : ∀ ts ∈ tokensOfCtes d ctes, P ts) :
    P (withTokens d ctes) := by
  rw [Sql.withTokens]
  split
  · exact h.nil
  · exact h.append (h.append (h.ofPlain rfl) (h.separated (h.ofPlain rfl) hctes)) (h.plain _ rfl)

theorem groupTokens {groupBy : List Expr} (hgroup : ∀ ts ∈ tokensOfExprs d groupBy, P ts) :
    P (groupTokens d groupBy) := by
  rw [Sql.groupTokens]
  split
  · exact h.nil
  · exact h.append (h.ofPlain rfl) (h.separated (h.ofPlain rfl) hgroup)

end Printed

theorem Query.self_mem_selects (q : Query) : q ∈ q.selects := by
  rw [selects_eq]
  exact List.mem_cons_self

section

variable {d : Dialect} {S : Query → Prop} {P Q : List Token → Prop}

mutual

/-- **The tokens of an expression have the property**, if the SELECTs in it are of the kind. -/
theorem Printed.expr (h : Printed d S P Q) (e : Expr) (he : ∀ q ∈ e.selects, S q) :
    P (e.tokens d) := by
  match e with
  | .column c => exact h.append (h.qualifier c.table) (h.plain _ rfl)
  | .literal l =>
    rw [Expr.tokens]
    cases l <;> exact h.plain _ rfl
  | .param value type => exact h.plain _ rfl
  | .binary a op b =>
    rw [Expr.selects, List.forall_mem_append] at he
    exact h.append (h.append (h.expr a he.1) (h.operator op)) (h.expr b he.2)
  | .call name args distinct =>
    rw [Expr.selects] at he
    have hdistinct : P (if distinct then [.distinct, .space] else []) := by
      cases distinct <;> exact h.ofPlain rfl
    have hargs := h.append hdistinct
      (h.separated (h.ofPlain rfl : P [.comma, .space]) (h.exprs args he))
    rw [Expr.tokens]
    simpa only [List.append_assoc, List.cons_append, List.nil_append] using
      h.append (h.plain (.function name) rfl) (h.paren hargs)
  | .case branches otherwise =>
    rw [Expr.selects, List.forall_mem_append] at he
    exact h.append (h.append (h.append (h.plain _ rfl) (h.branches branches he.1))
      (h.otherwise otherwise he.2)) (h.ofPlain rfl)
  | .subquery q =>
    rw [Expr.selects] at he
    exact h.enclosed (h.select (he q q.self_mem_selects) (h.clauses q he))
  | .inList _ [] negated =>
    rw [Expr.tokens]
    cases negated <;> exact h.ofPlain rfl
  | .inList e (v :: vs) negated =>
    rw [Expr.selects, List.forall_mem_append, selectsAll, List.forall_mem_append] at he
    obtain ⟨he, hv, hvs⟩ := he
    have hvalues := h.separated (h.ofPlain rfl : P [.comma, .space])
      (List.forall_mem_cons.2 ⟨h.expr v hv, h.exprs vs hvs⟩)
    rw [Expr.tokens]
    simpa only [List.append_assoc, List.cons_append, List.nil_append] using
      h.append (h.append (h.append (h.expr e he) (h.negation negated))
        (h.ofPlain rfl : P [.space, .in, .space])) (h.paren hvalues)
  | .inQuery e q negated =>
    rw [Expr.selects, List.forall_mem_append] at he
    rw [Expr.tokens]
    simpa only [List.append_assoc, List.cons_append, List.nil_append] using
      h.append (h.append (h.append (h.expr e he.1) (h.negation negated))
        (h.ofPlain rfl : P [.space, .in, .space]))
        (h.enclosed (h.select (he.2 q q.self_mem_selects) (h.clauses q he.2)))
  | .isNull e negated =>
    rw [Expr.selects] at he
    have htest : P [.space, if negated then .isNotNull else .isNull] := by
      cases negated <;> exact h.ofPlain rfl
    exact h.append (h.expr e he) htest
  | .star table => exact h.append (h.qualifier table) (h.plain _ rfl)
  | .paren e =>
    rw [Expr.selects] at he
    exact h.paren (h.expr e he)

theorem Printed.exprs (h : Printed d S P Q) (es : List Expr) (hes : ∀ q ∈ selectsAll es, S q) :
    ∀ ts ∈ tokensOfExprs d es, P ts := by
  match es with
  | [] => exact List.forall_mem_nil _
  | e :: rest =>
    rw [selectsAll, List.forall_mem_append] at hes
    exact List.forall_mem_cons.2 ⟨h.expr e hes.1, h.exprs rest hes.2⟩

theorem Printed.branches (h : Printed d S P Q) (branches : List (Expr × Expr))
    (hbranches : ∀ q ∈ selectsBranches branches, S q) : P (tokensOfBranches d branches) := by
  match branches with
  | [] => exact h.nil
  | (e, f) :: rest =>
    rw [selectsBranches, List.forall_mem_append, List.forall_mem_append] at hbranches
    obtain ⟨⟨he, hf⟩, hrest⟩ := hbranches
    exact h.append (h.append (h.append (h.append (h.ofPlain rfl) (h.expr e he)) (h.ofPlain rfl))
      (h.expr f hf)) (h.branches rest hrest)

theorem Printed.otherwise (h : Printed d S P Q) (e : Option Expr)
    (he : ∀ q ∈ selectsOption e, S q) : P (tokensOfElse d e) := by
  match e with
  | none => exact h.nil
  | some e => exact h.append (h.ofPlain rfl) (h.expr e he)

theorem Printed.clause (h : Printed d S P Q) {keyword : Token} (hkeyword : keyword.isPlain)
    (e : Option Expr) (he : ∀ q ∈ selectsOption e, S q) : P (tokensOfClause d keyword e) := by
  match e with
  | none => exact h.nil
  | some e =>
    exact h.append (h.append (h.append (h.plain _ rfl) (h.plain keyword hkeyword)) (h.plain _ rfl))
      (h.expr e he)

theorem Printed.source (h : Printed d S P Q) (source : Option Source)
    (hsource : ∀ q ∈ selectsSource source, S q) : P (tokensOfSource d source) := by
  match source with
  | none => exact h.nil
  | some (.table t) => exact h.append (h.ofPlain rfl) (h.table t)
  | some (.derived q label) =>
    have hq := h.select (hsource q q.self_mem_selects) (h.clauses q hsource)
    exact h.append (h.ofPlain rfl) (h.append (h.enclosed hq) (h.aliasTokens (some label)))

theorem Printed.items (h : Printed d S P Q) (items : List SelectItem)
    (hitems : ∀ q ∈ selectsItems items, S q) : ∀ ts ∈ tokensOfItems d items, P ts := by
  match items with
  | [] => exact List.forall_mem_nil _
  | ⟨e, label⟩ :: rest =>
    rw [selectsItems, List.forall_mem_append] at hitems
    refine List.forall_mem_cons.2 ⟨?_, h.items rest hitems.2⟩
    exact h.append (h.ofPlain rfl) (h.append (h.expr e hitems.1) (h.aliasTokens label))

theorem Printed.joins (h : Printed d S P Q) (joins : List Join)
    (hjoins : ∀ q ∈ selectsJoins joins, S q) : P (tokensOfJoins d joins) := by
  match joins with
  | [] => exact h.nil
  | ⟨kind, table, on⟩ :: rest =>
    rw [selectsJoins, List.forall_mem_append] at hjoins
    have hkind : P [kind.token, .space, .join, .space] := by
      cases kind <;> exact h.ofPlain rfl
    exact h.append (h.append (h.ofPlain rfl) (h.append (h.append (h.append hkind (h.table table))
      (h.ofPlain rfl)) (h.expr on hjoins.1))) (h.joins rest hjoins.2)

theorem Printed.order (h : Printed d S P Q) (items : List OrderItem)
    (hitems : ∀ q ∈ selectsOrder items, S q) : ∀ ts ∈ tokensOfOrder d items, P ts := by
  match items with
  | [] => exact List.forall_mem_nil _
  | ⟨e, dir⟩ :: rest =>
    rw [selectsOrder, List.forall_mem_append] at hitems
    have hdir : P [.space, dir.token] := by
      cases dir <;> exact h.ofPlain rfl
    exact List.forall_mem_cons.2 ⟨h.append (h.expr e hitems.1) hdir, h.order rest hitems.2⟩

theorem Printed.ctes (h : Printed d S P Q) (ctes : List Cte)
    (hctes : ∀ q ∈ selectsCtes ctes, S q) : ∀ ts ∈ tokensOfCtes d ctes, P ts := by
  match ctes with
  | [] => exact List.forall_mem_nil _
  | ⟨name, q⟩ :: rest =>
    rw [selectsCtes, List.forall_mem_append] at hctes
    refine List.forall_mem_cons.2 ⟨?_, h.ctes rest hctes.2⟩
    rw [Cte.tokens]
    simpa only [List.append_assoc, List.cons_append, List.nil_append] using
      h.append (h.ofPlain rfl : P [.identifier name, .space, .as, .space])
        (h.enclosed (h.lines (h.select (hctes.1 q q.self_mem_selects) (h.clauses q hctes.1))))

theorem Printed.clauses (h : Printed d S P Q) (q : Query) (hq : ∀ s ∈ q.selects, S s) :
    q.ClausesPrinted d P := by
  match q with
  | ⟨ctes, items, distinct, top, source, joins, condition, groupBy, having, orderBy, window,
      forJson⟩ =>
    rw [Query.selects] at hq
    simp only [List.forall_mem_cons, List.forall_mem_append] at hq
    obtain ⟨-, ⟨⟨⟨⟨⟨⟨hctes, hitems⟩, hsource⟩, hjoins⟩, hcondition⟩, hgroup⟩, hhaving⟩,
      horder⟩ := hq
    have hitems := h.separated (h.plain _ rfl : P [.comma]) (h.items items hitems)
    have horder := h.separated (h.ofPlain rfl : P [.comma, .space]) (h.order orderBy horder)
    exact ⟨h.withTokens (h.ctes ctes hctes),
      h.append (h.append (h.append (h.append (h.append hitems (h.source source hsource))
        (h.joins joins hjoins)) (h.clause rfl condition hcondition))
        (h.groupTokens (h.exprs groupBy hgroup))) (h.clause rfl having hhaving), horder⟩

end

end

/-! ## Passing over tokens -/

namespace Token

/-- The reader passes over the tokens. -/
def Silent (ts : List Token) : Prop := ∀ s : Scan, s.mark = none → s.run ts = s

/-- The reader passes over the tokens inside parentheses. -/
def SilentWithin (ts : List Token) : Prop :=
  ∀ s : Scan, s.mark = none → 0 < s.depth → s.run ts = s

variable {xs ys : List Token}

theorem Silent.append (hxs : Silent xs) (hys : Silent ys) : Silent (xs ++ ys) := by
  intro s hs
  rw [Scan.run_append, hxs s hs, hys s hs]

theorem Silent.within (h : Silent xs) : SilentWithin xs := fun s hs _ => h s hs

theorem SilentWithin.append (hxs : SilentWithin xs) (hys : SilentWithin ys) :
    SilentWithin (xs ++ ys) := by
  intro s hs hdepth
  rw [Scan.run_append, hxs s hs hdepth, hys s hs hdepth]

theorem SilentWithin.enclosed (h : SilentWithin xs) : Silent ([.open] ++ xs ++ [.close]) := by
  intro s hs
  obtain ⟨depth, mark, extent⟩ := s
  cases hs
  rw [Scan.run_append, Scan.run_append]
  have hopen : (Scan.mk depth none extent).run [.open] = ⟨depth + 1, none, extent⟩ := rfl
  rw [hopen, h ⟨depth + 1, none, extent⟩ rfl (Nat.succ_pos depth)]
  rfl

theorem silent_plain {t : Token} (h : t.isPlain) : Silent [t] := by
  rintro ⟨depth, mark, extent⟩ hs
  cases hs
  cases t <;> cases h <;> simp [Scan.run, Scan.step, mark?]

/-- Inside parentheses a number of rows is passed over. -/
theorem silentWithin_flat (h : ∀ t ∈ xs, t ≠ .open ∧ t ≠ .close) : SilentWithin xs := by
  induction xs with
  | nil => exact fun _ _ _ => rfl
  | cons t xs ih =>
    rw [List.forall_mem_cons] at h
    rintro ⟨depth, mark, extent⟩ hs hdepth
    cases hs
    have hstep : (Scan.mk depth none extent).step t = ⟨depth, none, extent⟩ := by
      have hne : depth ≠ 0 := Nat.ne_of_gt hdepth
      cases t <;> simp_all [Scan.step]
    show Scan.run ((Scan.mk depth none extent).step t) xs = _
    rw [hstep, ih h.2 _ rfl hdepth]

end Token

/-- What follows the head of a SELECT. -/
def Query.restTokens (d : Dialect) (q : Query) : List Token :=
  q.bodyTokens d ++ orderTokens d (d.windowOf q.top q.window).isSome q.orderBy ++
    tailTokens d (d.windowOf q.top q.window) q.forJson

theorem Query.tokens_eq_rest (d : Dialect) (q : Query) :
    q.tokens d = withTokens d q.ctes ++ headTokens d q.distinct q.top ++ q.restTokens d := by
  simp only [tokens_eq, restTokens, bodyTokens, List.append_assoc]

theorem flat_headTokens (d : Dialect) (distinct : Bool) (top : Option Nat) :
    ∀ t ∈ headTokens d distinct top, t ≠ .open ∧ t ≠ .close := by
  rw [headTokens]
  cases distinct <;> cases d.cap top <;> simp [countToken]

theorem flat_tailTokens (d : Dialect) (window : Option Window) (forJson : Option ForJson) :
    ∀ t ∈ tailTokens d window forJson, t ≠ .open ∧ t ≠ .close := by
  refine List.forall_mem_append.2 ⟨?_, ?_⟩
  · rcases window with _ | ⟨_ | limit, _ | offset⟩ <;> cases d <;>
      simp [Window.tokens, Window.clauses, Window.offsetFetch, countToken]
  · rcases forJson with _ | ⟨_ | _, _ | _⟩ <;> simp [ForJson.tokens]

open Token (Silent SilentWithin)

theorem silent_orderTokens {d : Dialect} {orderBy : List OrderItem} (windowed : Bool)
    (h : Silent (Token.separated [.comma, .space] (tokensOfOrder d orderBy))) :
    Silent (orderTokens d windowed orderBy) := by
  rw [orderTokens]
  split
  · exact (((Token.silent_plain rfl : Silent [.newline]).append
      (Token.silent_plain rfl : Silent [.orderBy])).append
      (Token.silent_plain rfl : Silent [.space])).append h
  · split
    · rintro ⟨depth, mark, extent⟩ hs
      cases hs
      simp [anyOrder, Scan.run, Scan.step, Token.mark?]
    · exact fun _ _ => rfl

/-- **The reader passes over every expression**, and over every SELECT in parentheses. -/
theorem printed_silent (d : Dialect) : Printed d (fun _ => True) Silent SilentWithin where
  nil _ _ := rfl
  append := Silent.append
  plain _ := Token.silent_plain
  paren h := h.within.enclosed
  enclosed := SilentWithin.enclosed
  lines h := (Token.silent_plain rfl).within.append h |>.append (Token.silent_plain rfl).within
  select {q} _ h := by
    have hhead := Token.silentWithin_flat (flat_headTokens d q.distinct q.top)
    have htail := Token.silentWithin_flat (flat_tailTokens d (d.windowOf q.top q.window) q.forJson)
    rw [Query.tokens_eq_rest]
    exact (h.ctes.within.append hhead).append
      ((h.body.within.append (silent_orderTokens _ h.order).within).append htail)

/-! ## Reading the window of a query -/

theorem run_headTokens (d : Dialect) (distinct : Bool) (top : Option Nat) (x : Extent) :
    Scan.run ⟨0, none, x⟩ (headTokens d distinct top) =
      ⟨0, none, (d.cap top).elim x fun n => x.add .take (rowCount n)⟩ := by
  rw [headTokens]
  cases distinct <;> cases d.cap top <;> rfl

/-- However a dialect writes a window, the same numbers are read. -/
theorem run_window (d : Dialect) (window : Option Window) (x : Extent) :
    Scan.run ⟨0, none, x⟩ (window.elim [] fun w => .newline :: w.tokens d) =
      ⟨0, none, x.takes ++ (window.bind (·.limit)).toList.map fun n => (rowCount n : Int),
        x.skip + rowCount ((window.bind (·.offset)).getD 0)⟩ := by
  rcases window with _ | ⟨_ | limit, _ | offset⟩ <;> cases d <;>
    simp [Window.tokens, Window.clauses, Window.offsetFetch, countToken, Scan.run, Scan.step,
      Token.mark?, Extent.add, rowCount]

theorem silent_forJson (forJson : Option ForJson) :
    Silent (forJson.elim [] fun f => .newline :: f.tokens) := by
  rintro ⟨depth, mark, extent⟩ hs
  cases hs
  rcases forJson with _ | ⟨_ | _, _ | _⟩ <;>
    simp [ForJson.tokens, Scan.run, Scan.step, Token.mark?]

/-- **The window that is printed is the window of the query**, in every dialect. -/
theorem Query.read_tokens (d : Dialect) {q : Query} (h : q.top = none ∨ q.window = none) :
    Extent.read (q.tokens d) = q.extent := by
  have hclauses := (printed_silent d).clauses q fun _ _ => ⟨⟩
  rw [Extent.read, Query.tokens_eq_rest, Query.restTokens, Scan.run_append, Scan.run_append,
    Scan.run_append, Scan.run_append, hclauses.ctes _ rfl, Scan.start, run_headTokens,
    hclauses.body _ rfl, silent_orderTokens _ hclauses.order _ rfl, tailTokens, Scan.run_append,
    run_window, silent_forJson _ _ rfl]
  -- A cap is written in front, or as a window where there is no other.
  rcases h with htop | hwindow
  · have hcap : d.cap q.top = none := by rw [htop, Dialect.cap, ite_self]
    have hwindow : d.windowOf q.top q.window = q.window := by
      cases hw : q.window with
      | some w => rfl
      | none => cases d <;> simp [Dialect.windowOf, htop]
    rw [hcap, hwindow]
    simp [Query.extent, Extent.all, htop]
  · cases htop : q.top <;> cases d <;>
      simp [Query.extent, Extent.all, htop, hwindow, Dialect.cap, Dialect.windowOf, Dialect.hasTop,
        Extent.add, rowCount]

/-! ## Orders by nothing -/

/-- A SELECT of nothing but NULL begins somewhere. -/
def Token.selectsNull : List Token → Bool
  | [] => false
  | .select :: .space :: .null :: _ => true
  | _ :: rest => selectsNull rest

namespace Token

theorem selectsNull_of_ne {t : Token} (h : t ≠ .select) (rest : List Token) :
    selectsNull (t :: rest) = selectsNull rest := by
  cases t <;> first | rfl | exact absurd rfl h

theorem selectsNull_select {rest : List Token} (h : ¬ [.space, .null] <+: rest) :
    selectsNull (.select :: rest) = selectsNull rest := by
  rw [selectsNull]
  rintro rest' - rfl
  exact h (by simp)

theorem selectsNull_cons {rest : List Token} (h : selectsNull rest) (t : Token) :
    selectsNull (t :: rest) := by
  by_cases ht : t = .select
  · subst ht
    by_cases hrest : [.space, .null] <+: rest
    · obtain ⟨rest', rfl⟩ := hrest
      rfl
    · rwa [selectsNull_select hrest]
  · rwa [selectsNull_of_ne ht]

theorem selectsNull_append {ys : List Token} (h : selectsNull ys) (xs : List Token) :
    selectsNull (xs ++ ys) := by
  induction xs with
  | nil => exact h
  | cons x xs ih => exact selectsNull_cons ih x

/-- The tokens begin no SELECT of NULL, whatever follows. -/
def Clear (ts : List Token) : Prop := ∀ rest, selectsNull (ts ++ rest) = selectsNull rest

/-- The tokens begin no SELECT of NULL if no blank follows. -/
def ClearWithin (ts : List Token) : Prop :=
  ∀ rest, rest.head? ≠ some .space → selectsNull (ts ++ rest) = selectsNull rest

variable {xs ys : List Token}

theorem Clear.append (hxs : Clear xs) (hys : Clear ys) : Clear (xs ++ ys) := by
  intro rest
  rw [List.append_assoc, hxs, hys]

theorem clear_of_ne (h : ∀ t ∈ xs, t ≠ .select) : Clear xs := by
  intro rest
  induction xs with
  | nil => rfl
  | cons t xs ih =>
    rw [List.forall_mem_cons] at h
    rw [List.cons_append, selectsNull_of_ne h.1, ih h.2]

theorem clear_plain {t : Token} (h : t.isPlain) : Clear [t] := by
  refine clear_of_ne (List.forall_mem_singleton.2 ?_)
  rintro rfl
  cases h

theorem ClearWithin.enclosed (h : ClearWithin xs) : Clear ([.open] ++ xs ++ [.close]) := by
  intro rest
  rw [List.append_assoc, List.append_assoc]
  show selectsNull (xs ++ .close :: rest) = _
  rw [h _ (by simp)]
  rfl

/-- Nothing, or a new line. -/
def StartsLine (ts : List Token) : Prop := ∀ t ∈ ts.head?, t = .newline

theorem StartsLine.append (hxs : StartsLine xs) (hys : StartsLine ys) : StartsLine (xs ++ ys) := by
  cases xs with
  | nil => exact hys
  | cons x xs => exact hxs

end Token

open Token (Clear ClearWithin StartsLine)

theorem startsLine_bodyTokens (d : Dialect) (q : Query) : StartsLine (q.bodyTokens d) := by
  have hitems : StartsLine (Token.separated [.comma] (tokensOfItems d q.items)) := by
    rcases q.items with _ | ⟨i, _ | ⟨i', items⟩⟩ <;>
      simp [StartsLine, tokensOfItems, Token.separated]
  have hsource : StartsLine (tokensOfSource d q.source) := by
    cases q.source <;> simp [StartsLine, tokensOfSource]
  have hjoins : StartsLine (tokensOfJoins d q.joins) := by
    cases q.joins <;> simp [StartsLine, tokensOfJoins]
  have hclause : ∀ keyword e, StartsLine (tokensOfClause d keyword e) := by
    intro keyword e
    cases e <;> simp [StartsLine, tokensOfClause]
  have hgroup : StartsLine (groupTokens d q.groupBy) := by
    cases q.groupBy <;> simp [StartsLine, groupTokens]
  exact ((((hitems.append hsource).append hjoins).append (hclause _ _)).append hgroup).append
    (hclause _ _)

/-- A window has an order. -/
def Query.Ordered (q : Query) : Prop := q.window ≠ none → q.orderBy ≠ []

/-- A window that has an order is ordered by it. -/
theorem Query.Ordered.orderTokens_eq {q : Query} (h : q.Ordered) (d : Dialect) :
    orderTokens d (d.windowOf q.top q.window).isSome q.orderBy =
      if q.orderBy.isEmpty then [] else [.newline, .orderBy, .space] ++
        Token.separated [.comma, .space] (tokensOfOrder d q.orderBy) := by
  rw [orderTokens]
  cases horder : q.orderBy with
  | cons o rest => rfl
  | nil =>
    have hwindow : q.window = none := Decidable.not_not.1 fun hne => h hne horder
    rw [hwindow]
    cases d <;> rfl

theorem clearWithin_headTokens (d : Dialect) (distinct : Bool) (top : Option Nat) :
    ClearWithin (headTokens d distinct top) := by
  intro rest hrest
  have hblank : ¬ [.space, .null] <+: rest := by
    rintro ⟨rest', rfl⟩
    exact hrest rfl
  rw [headTokens]
  cases distinct <;> cases d.cap top <;>
    simp [Token.selectsNull_select, hblank, Token.selectsNull, countToken]

theorem clear_tailTokens (d : Dialect) (window : Option Window) (forJson : Option ForJson) :
    Clear (tailTokens d window forJson) := by
  refine Clear.append (Token.clear_of_ne ?_) (Token.clear_of_ne ?_)
  · rcases window with _ | ⟨_ | limit, _ | offset⟩ <;> cases d <;>
      simp [Window.tokens, Window.clauses, Window.offsetFetch, countToken]
  · rcases forJson with _ | ⟨_ | _, _ | _⟩ <;> simp [ForJson.tokens]

theorem Query.Ordered.clear_restTokens {q : Query} {d : Dialect} (h : q.Ordered)
    (hclauses : q.ClausesPrinted d Clear) : Clear (q.restTokens d) := by
  refine (hclauses.body.append ?_).append (clear_tailTokens d _ _)
  rw [h.orderTokens_eq]
  split
  · exact fun _ => rfl
  · exact (Token.clear_of_ne (by simp)).append hclauses.order

theorem Query.Ordered.startsLine_restTokens {q : Query} (h : q.Ordered) (d : Dialect) :
    StartsLine (q.restTokens d) := by
  have horder : StartsLine (orderTokens d (d.windowOf q.top q.window).isSome q.orderBy) := by
    rw [h.orderTokens_eq]
    split <;> simp [StartsLine]
  have htail : StartsLine (tailTokens d (d.windowOf q.top q.window) q.forJson) := by
    rw [tailTokens]
    cases d.windowOf q.top q.window <;> cases q.forJson <;> simp [StartsLine]
  exact ((startsLine_bodyTokens d q).append horder).append htail

/-- **Where windows have orders, nothing selects NULL.** -/
theorem printed_clear (d : Dialect) : Printed d Query.Ordered Clear ClearWithin where
  nil _ := rfl
  append := Clear.append
  plain _ := Token.clear_plain
  paren h := ClearWithin.enclosed fun rest _ => h rest
  enclosed := ClearWithin.enclosed
  lines {xs} h rest _ := by
    rw [List.append_assoc, List.append_assoc]
    show Token.selectsNull (xs ++ .newline :: rest) = _
    rw [h _ (by simp)]
    rfl
  select {q} hq h rest hrest := by
    have hhead : (q.restTokens d ++ rest).head? ≠ some .space := by
      cases hts : q.restTokens d with
      | nil => exact hrest
      | cons t ts =>
        have hline := hq.startsLine_restTokens d t (by rw [hts]; rfl)
        simp [hline]
    calc Token.selectsNull (q.tokens d ++ rest)
        = Token.selectsNull (withTokens d q.ctes ++
            (headTokens d q.distinct q.top ++ (q.restTokens d ++ rest))) := by
          rw [Query.tokens_eq_rest, List.append_assoc, List.append_assoc]
      _ = Token.selectsNull (q.restTokens d ++ rest) := by
          rw [h.ctes, clearWithin_headTokens d q.distinct q.top _ hhead]
      _ = Token.selectsNull rest := hq.clear_restTokens h rest

/-- **A query is never ordered by nothing** if each of its windows has an order. -/
theorem Query.not_anyOrder (d : Dialect) {q : Query} (h : ∀ s ∈ q.selects, s.Ordered) :
    ¬ anyOrder <:+: q.tokens d := by
  have hclear : Token.selectsNull (q.tokens d) = false := by
    have hprinted := printed_clear d
    have hrest := hprinted.select (h q q.self_mem_selects) (hprinted.clauses q h) [] (by simp)
    rwa [List.append_nil] at hrest
  rintro ⟨xs, ys, heq⟩
  have hnull : Token.selectsNull (anyOrder ++ ys) := rfl
  rw [← heq, List.append_assoc, Token.selectsNull_append hnull] at hclear
  cases hclear

end EntityQuery.Sql
