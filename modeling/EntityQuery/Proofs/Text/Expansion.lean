import EntityQuery.Environment
import EntityQuery.Proofs.Failure
import Mathlib.Data.List.TakeWhile

/-!
# The grammar of texts with variables

`Environment.expand` takes a text apart and puts in the values. This module says which texts it
accepts, against a grammar that does not mention it.

**Pieces** (`Piece`). A text begins with a literal character, a sign that stands for itself, a name
after a sign, which is as long as possible, or a name in braces. A text begins with one piece at
most (`Piece.unique`), and `segments` splits off that piece (`Piece.segments_eq`).

**Runs** (`Reads`). Piece by piece a text comes to its end (`Closed`), or to a brace that is opened
and never closed, which no piece begins with (`Unclosed`). Both cannot happen to one text
(`Closed.not_unclosed`), but `segments` does not tell them apart: the name in the open brace is
taken for a variable as if it were closed.

**Values.** A text is expanded just if all its variables are set, and otherwise the error names the
first one that is not.
-/

namespace EntityQuery.Environment

variable {env : Environment} {cs rest rest' : List Char} {seg seg' : Segment}
  {ss ss' : List Segment}

/-! ## The grammar -/

/-- The text begins with a piece that stands for the segment; `rest` is what follows. -/
inductive Piece : List Char → Segment → List Char → Prop
  | literal {c : Char} {rest : List Char} (hc : c ≠ '$') : Piece (c :: rest) (.char c) rest
  | sign {rest : List Char} (hrest : ∀ c ∈ rest.head?, c ≠ '{' ∧ isNameChar c = false) :
      Piece ('$' :: rest) (.char '$') rest
  | name {cs rest : List Char} (hne : cs ≠ []) (hname : ∀ c ∈ cs, isNameChar c = true)
      (hrest : ∀ c ∈ rest.head?, isNameChar c = false) :
      Piece ('$' :: (cs ++ rest)) (.variable (String.ofList cs)) rest
  | braces {cs rest : List Char} (hname : '}' ∉ cs) :
      Piece ('$' :: '{' :: (cs ++ '}' :: rest)) (.variable (String.ofList cs)) rest

/-- The text begins with pieces for the segments; `rest` is what follows. -/
inductive Reads : List Char → List Segment → List Char → Prop
  | done (rest : List Char) : Reads rest [] rest
  | piece {cs mid rest : List Char} {seg : Segment} {ss : List Segment} :
      Piece cs seg mid → Reads mid ss rest → Reads cs (seg :: ss) rest

/-- The text consists of pieces for the segments. -/
def Closed (cs : List Char) (ss : List Segment) : Prop := Reads cs ss []

/-- The text consists of pieces and of a brace at its end that is not closed. -/
def Unclosed (cs : List Char) (ss : List Segment) : Prop :=
  ∃ before name, Reads cs before ('$' :: '{' :: name) ∧ '}' ∉ name ∧
    ss = before ++ [.variable (String.ofList name)]

/-! ## One piece -/

theorem isNameChar_brace : isNameChar '{' = false := by
  decide

/-- A run of characters that ends as soon as possible is found again. -/
theorem takeWhile_append_rest {p : Char → Bool} (hcs : ∀ c ∈ cs, p c = true)
    (hrest : ∀ c ∈ rest.head?, p c = false) :
    (cs ++ rest).takeWhile p = cs ∧ (cs ++ rest).dropWhile p = rest := by
  rw [List.takeWhile_append_of_pos hcs, List.dropWhile_append_of_pos hcs]
  cases rest with
  | nil => simp
  | cons c rest =>
    have hc := hrest c rfl
    simp [hc]

theorem ne_brace_of_not_mem {name : List Char} (h : '}' ∉ name) :
    ∀ c ∈ name, decide (c ≠ '}') = true := by
  intro c hc
  simpa using fun heq : c = '}' => h (heq ▸ hc)

/-- What is left of a text after its first piece. -/
def after : List Char → List Char
  | [] => []
  | '$' :: '{' :: cs => (cs.dropWhile (· ≠ '}')).drop 1
  | '$' :: cs => cs.dropWhile isNameChar
  | _ :: cs => cs

/-- After a sign without a brace, what counts is the longest name. -/
theorem segments_sign (hbrace : ∀ tail, cs ≠ '{' :: tail) :
    segments ('$' :: cs) = (if (cs.takeWhile isNameChar).isEmpty then .char '$' :: segments cs
      else .variable (String.ofList (cs.takeWhile isNameChar)) ::
        segments (cs.dropWhile isNameChar)) ∧
    after ('$' :: cs) = cs.dropWhile isNameChar := by
  rw [segments, after]
  · exact ⟨rfl, rfl⟩
  all_goals exact hbrace

/-- The segments of a text are that of its first piece and those of the rest, and the text alone
says what the rest is. -/
theorem Piece.segments_eq (h : Piece cs seg rest) :
    segments cs = seg :: segments rest ∧ after cs = rest := by
  cases h with
  | literal hc => simp [segments, after, hc]
  | sign hrest =>
    have hbrace : ∀ tail, rest ≠ '{' :: tail := by
      rintro _ rfl
      exact (hrest '{' rfl).1 rfl
    obtain ⟨htake, hdrop⟩ := takeWhile_append_rest (List.forall_mem_nil _)
      fun c hc => (hrest c hc).2
    rw [List.nil_append] at htake hdrop
    rw [(segments_sign hbrace).1, (segments_sign hbrace).2, htake, hdrop]
    exact ⟨rfl, rfl⟩
  | @name cs _ hne hname hrest =>
    have hbrace : ∀ tail, cs ++ rest ≠ '{' :: tail := by
      intro tail heq
      obtain ⟨c, cs, rfl⟩ := List.exists_cons_of_ne_nil hne
      have hc := hname c List.mem_cons_self
      rw [(List.cons.inj heq).1, isNameChar_brace] at hc
      cases hc
    obtain ⟨htake, hdrop⟩ := takeWhile_append_rest hname hrest
    rw [(segments_sign hbrace).1, (segments_sign hbrace).2, htake, hdrop,
      if_neg (by simpa using hne)]
    exact ⟨rfl, rfl⟩
  | @braces cs _ hname =>
    have hstop : ∀ c ∈ ('}' :: rest).head?, decide (c ≠ '}') = false := by simp
    obtain ⟨htake, hdrop⟩ := takeWhile_append_rest (ne_brace_of_not_mem hname) hstop
    rw [segments, after, htake, hdrop]
    exact ⟨rfl, rfl⟩

theorem Piece.unique (h : Piece cs seg rest) (h' : Piece cs seg' rest') : rest = rest' :=
  h.segments_eq.2.symm.trans h'.segments_eq.2

theorem Piece.length_lt (h : Piece cs seg rest) : rest.length < cs.length := by
  cases h with
  | literal _ => simp
  | sign _ => simp
  | name _ _ _ =>
    simp only [List.length_cons, List.length_append]
    omega
  | braces _ =>
    simp only [List.length_cons, List.length_append]
    omega

theorem not_piece_nil : ¬ Piece [] seg rest := by
  intro h
  cases h

/-- A brace that is not closed begins no piece. -/
theorem not_piece_brace {name : List Char} (hname : '}' ∉ name) :
    ¬ Piece ('$' :: '{' :: name) seg rest := by
  intro h
  generalize htext : '$' :: '{' :: name = text at h
  cases h with
  | literal hc => exact hc (List.cons.inj htext).1.symm
  | sign hrest =>
    rw [← (List.cons.inj htext).2] at hrest
    exact (hrest '{' rfl).1 rfl
  | @name cs _ hne hcs _ =>
    obtain ⟨c, cs, rfl⟩ := List.exists_cons_of_ne_nil hne
    have hc := hcs c List.mem_cons_self
    rw [← (List.cons.inj (List.cons.inj htext).2).1, isNameChar_brace] at hc
    cases hc
  | @braces cs rest _ =>
    rw [(List.cons.inj (List.cons.inj htext).2).2] at hname
    exact hname (List.mem_append_right cs List.mem_cons_self)

/-- Every other text begins with a piece. -/
theorem exists_piece (hne : cs ≠ []) (hclosed : ∀ name, cs = '$' :: '{' :: name → '}' ∈ name) :
    ∃ seg rest, Piece cs seg rest := by
  obtain ⟨c, cs, rfl⟩ := List.exists_cons_of_ne_nil hne
  by_cases hsign : c = '$'
  · subst hsign
    by_cases hbrace : cs.head? = some '{'
    · obtain ⟨name, rfl⟩ := List.head?_eq_some_iff.1 hbrace
      obtain ⟨name, rest, rfl, hname⟩ := List.eq_append_cons_of_mem (hclosed name rfl)
      exact ⟨_, rest, .braces hname⟩
    · have hrest : ∀ c ∈ (cs.dropWhile isNameChar).head?, isNameChar c = false := by
        intro c hc
        have hstop := List.head?_dropWhile_not isNameChar cs
        rwa [hc] at hstop
      by_cases hname : cs.takeWhile isNameChar = []
      · have hdrop : cs.dropWhile isNameChar = cs := by
          rw [← List.nil_append (cs.dropWhile _), ← hname, List.takeWhile_append_dropWhile]
        rw [hdrop] at hrest
        exact ⟨_, cs, .sign fun c hc => ⟨fun heq => hbrace (heq ▸ hc), hrest c hc⟩⟩
      · have hpiece := Piece.name hname (fun _ hc => List.mem_takeWhile_imp hc) hrest
        rw [List.takeWhile_append_dropWhile] at hpiece
        exact ⟨_, _, hpiece⟩
  · exact ⟨_, cs, .literal hsign⟩

/-! ## Whole texts -/

theorem Reads.segments_eq (h : Reads cs ss rest) : segments cs = ss ++ segments rest := by
  induction h with
  | done => rfl
  | piece hpiece _ ih => rw [hpiece.segments_eq.1, ih, List.cons_append]

/-- Pieces are read up to one place only. -/
theorem Reads.unique (h : Reads cs ss rest) (h' : Reads cs ss' rest')
    (hstop : ∀ seg mid, ¬ Piece rest seg mid) (hstop' : ∀ seg mid, ¬ Piece rest' seg mid) :
    rest = rest' := by
  induction h generalizing ss' with
  | done =>
    cases h' with
    | done => rfl
    | piece hpiece => exact absurd hpiece (hstop _ _)
  | piece hpiece _ ih =>
    cases h' with
    | done => exact absurd hpiece (hstop' _ _)
    | piece hpiece' hrest' =>
      cases hpiece.unique hpiece'
      exact ih hrest' hstop

theorem segments_brace {name : List Char} (hname : '}' ∉ name) :
    segments ('$' :: '{' :: name) = [.variable (String.ofList name)] := by
  have htake : name.takeWhile (· ≠ '}') = name :=
    List.takeWhile_eq_self_iff.2 (ne_brace_of_not_mem hname)
  have hdrop : name.dropWhile (· ≠ '}') = [] :=
    List.dropWhile_eq_nil_iff.2 (ne_brace_of_not_mem hname)
  rw [segments, htake, hdrop, List.drop_nil, segments]

theorem Closed.segments_eq (h : Closed cs ss) : segments cs = ss := by
  rw [Reads.segments_eq h, segments, List.append_nil]

/-- An open brace is taken for a closed one. -/
theorem Unclosed.segments_eq (h : Unclosed cs ss) : segments cs = ss := by
  obtain ⟨before, name, hreads, hname, rfl⟩ := h
  rw [hreads.segments_eq, segments_brace hname]

theorem Closed.not_unclosed (h : Closed cs ss) : ¬ Unclosed cs ss' := by
  rintro ⟨before, name, hreads, hname, -⟩
  have hend := Reads.unique h hreads (fun _ _ => not_piece_nil) fun _ _ => not_piece_brace hname
  cases hend

theorem closed_or_unclosed (cs : List Char) :
    Closed cs (segments cs) ∨ Unclosed cs (segments cs) := by
  -- By induction on the length; the step is the first piece.
  induction hlength : cs.length using Nat.strongRecOn generalizing cs with
  | _ n ih =>
    subst hlength
    rcases eq_or_ne cs [] with rfl | hne
    · rw [segments]
      exact .inl (.done [])
    by_cases hopen : ∃ name, cs = '$' :: '{' :: name ∧ '}' ∉ name
    · obtain ⟨name, rfl, hname⟩ := hopen
      exact .inr ⟨[], name, .done _, hname, segments_brace hname⟩
    · obtain ⟨seg, rest, hpiece⟩ := exists_piece hne fun name hcs => by
        simpa using fun hname => hopen ⟨name, hcs, hname⟩
      rw [hpiece.segments_eq.1]
      rcases ih rest.length hpiece.length_lt rest rfl with hrest | ⟨before, name, hrest, hname, heq⟩
      · exact .inl (.piece hpiece hrest)
      · exact .inr ⟨seg :: before, name, .piece hpiece hrest, hname, by rw [heq, List.cons_append]⟩

/-! ## Values -/

def IsSet (env : Environment) : Segment → Prop
  | .char _ => True
  | .variable name => (env.lookup name).isSome = true

/-- All variables are set. -/
def AllSet (env : Environment) (ss : List Segment) : Prop := ∀ seg ∈ ss, env.IsSet seg

/-- What a segment stands for. -/
def valueOf (env : Environment) : Segment → List Char
  | .char c => [c]
  | .variable name => ((env.lookup name).getD "").toList

/-- The characters and the values of the variables one after the other. -/
def filled (env : Environment) (ss : List Segment) : String :=
  String.ofList (ss.flatMap env.valueOf)

/-- The variable is not set, and all before it are. -/
def FirstUnset (env : Environment) (ss : List Segment) (name : String) : Prop :=
  ∃ before after, ss = before ++ .variable name :: after ∧ env.AllSet before ∧
    env.lookup name = none

theorem allSet_cons : env.AllSet (seg :: ss) ↔ env.IsSet seg ∧ env.AllSet ss := List.forall_mem_cons

theorem firstUnset_cons {name : String} : env.FirstUnset (seg :: ss) name ↔
    seg = .variable name ∧ env.lookup name = none ∨ env.IsSet seg ∧ env.FirstUnset ss name := by
  constructor
  · rintro ⟨before, after, heq, hset, hnone⟩
    cases before with
    | nil => exact .inl ⟨(List.cons.inj heq).1, hnone⟩
    | cons first before =>
      obtain ⟨rfl, rfl⟩ := List.cons.inj heq
      obtain ⟨hfirst, hbefore⟩ := allSet_cons.1 hset
      exact .inr ⟨hfirst, before, after, rfl, hbefore, hnone⟩
  · rintro (⟨rfl, hnone⟩ | ⟨hseg, before, after, rfl, hset, hnone⟩)
    · exact ⟨[], ss, rfl, by simp [AllSet], hnone⟩
    · exact ⟨seg :: before, after, rfl, allSet_cons.2 ⟨hseg, hset⟩, hnone⟩

theorem value_eq_ok {part : List Char} :
    env.value seg = .ok part ↔ env.IsSet seg ∧ part = env.valueOf seg := by
  cases seg with
  | char c => simp [value, IsSet, valueOf, eq_comm]
  | «variable» name => cases h : env.lookup name <;> simp [value, IsSet, valueOf, h, eq_comm]

theorem value_eq_error {name : String} :
    env.value seg = .error name ↔ seg = .variable name ∧ env.lookup name = none := by
  cases seg with
  | char c => simp [value]
  | «variable» other =>
    cases h : env.lookup other with
    | none =>
      simp only [value, h, Except.error.injEq, Segment.variable.injEq]
      exact ⟨fun heq => ⟨heq, heq ▸ h⟩, And.left⟩
    | some v =>
      simp only [value, h, reduceCtorEq, Segment.variable.injEq, false_iff]
      rintro ⟨rfl, hnone⟩
      rw [h] at hnone
      cases hnone

theorem mapM_value_eq_ok {parts : List (List Char)} :
    ss.mapM env.value = .ok parts ↔ env.AllSet ss ∧ parts = ss.map env.valueOf := by
  induction ss generalizing parts with
  | nil => simp [AllSet, pure_eq_ok]
  | cons seg ss ih =>
    simp only [List.mapM_cons, bind_eq_ok, pure_eq_ok, value_eq_ok, ih, allSet_cons,
      List.map_cons]
    constructor
    · rintro ⟨part, ⟨hseg, rfl⟩, parts, ⟨hss, rfl⟩, rfl⟩
      exact ⟨⟨hseg, hss⟩, rfl⟩
    · rintro ⟨⟨hseg, hss⟩, rfl⟩
      exact ⟨_, ⟨hseg, rfl⟩, _, ⟨hss, rfl⟩, rfl⟩

theorem mapM_value_eq_error {name : String} :
    ss.mapM env.value = .error name ↔ env.FirstUnset ss name := by
  induction ss with
  | nil => simp [FirstUnset, pure_ne_error]
  | cons seg ss ih =>
    simp only [List.mapM_cons, bind_eq_error, pure_ne_error, value_eq_ok, value_eq_error, ih,
      firstUnset_cons]
    constructor
    · rintro (hseg | ⟨part, ⟨hseg, rfl⟩, hss | ⟨_, _, hfalse⟩⟩)
      · exact .inl hseg
      · exact .inr ⟨hseg, hss⟩
      · exact hfalse.elim
    · rintro (hseg | ⟨hseg, hss⟩)
      · exact .inl hseg
      · exact .inr ⟨_, ⟨hseg, rfl⟩, .inl hss⟩

theorem expand_eq_ok {s t : String} : env.expand s = .ok t ↔
    env.AllSet (segments s.toList) ∧ t = env.filled (segments s.toList) := by
  simp only [expand, bind_eq_ok, pure_eq_ok, mapM_value_eq_ok]
  constructor
  · rintro ⟨parts, ⟨hset, rfl⟩, rfl⟩
    exact ⟨hset, rfl⟩
  · rintro ⟨hset, rfl⟩
    exact ⟨_, ⟨hset, rfl⟩, rfl⟩

theorem expand_eq_error {s name : String} :
    env.expand s = .error name ↔ env.FirstUnset (segments s.toList) name := by
  simp only [expand, bind_eq_error, mapM_value_eq_error, pure_ne_error, and_false, exists_false,
    or_false]

/-! ## Accepted texts -/

/-- The grammar has one reading of a text. -/
theorem closed_or_unclosed_iff :
    Closed cs ss ∨ Unclosed cs ss ↔ ss = segments cs := by
  constructor
  · rintro (h | h)
    · exact h.segments_eq.symm
    · exact h.segments_eq.symm
  · rintro rfl
    exact closed_or_unclosed cs

/-- **Which texts are expanded, and to what.** A text is accepted exactly if it consists of literal
characters, lone signs, names after a sign and names in braces, the last of which need not be
closed, and all its variables are set; the result puts their values one after the other with the
characters. Otherwise the error names the first variable that is not set. Closed texts alone are
accepted as long as no text with an open brace at its end has values for all its variables. -/
theorem expand_grammar (env : Environment) (s : String) :
    (∀ t, env.expand s = .ok t ↔
      ∃ ss, (Closed s.toList ss ∨ Unclosed s.toList ss) ∧ env.AllSet ss ∧ t = env.filled ss) ∧
    (∀ ss, Closed s.toList ss ∨ Unclosed s.toList ss →
      ∀ name, env.expand s = .error name ↔ env.FirstUnset ss name) ∧
    ((∀ t, env.expand s = .ok t ↔
        ∃ ss, Closed s.toList ss ∧ env.AllSet ss ∧ t = env.filled ss) ↔
      ∀ ss, Unclosed s.toList ss → ¬ env.AllSet ss) := by
  have hok (t : String) : env.expand s = .ok t ↔ ∃ ss,
      (Closed s.toList ss ∨ Unclosed s.toList ss) ∧ env.AllSet ss ∧ t = env.filled ss := by
    simp only [closed_or_unclosed_iff, expand_eq_ok, exists_eq_left]
  refine ⟨hok, fun ss hss name => ?_, fun h ss hopen hset => ?_, fun h t => ?_⟩
  · rw [closed_or_unclosed_iff.1 hss, expand_eq_error]
  · -- An open brace with a value is accepted, but no closed text is this one.
    obtain ⟨ss', hclosed, -⟩ := (h _).1 ((hok _).2 ⟨ss, .inr hopen, hset, rfl⟩)
    exact hclosed.not_unclosed hopen
  · rw [hok]
    constructor
    · rintro ⟨ss, hclosed | hopen, hset, rfl⟩
      · exact ⟨ss, hclosed, hset, rfl⟩
      · exact absurd hset (h ss hopen)
    · rintro ⟨ss, hclosed, hset, rfl⟩
      exact ⟨ss, .inl hclosed, hset, rfl⟩

/-- A name in a brace that is never closed is replaced all the same. -/
theorem expand_unclosed_brace :
    Environment.expand [("SCHEMA", "sales")] "$\x7bSCHEMA" = .ok "sales" ∧
      ¬ ∃ ss, Closed "$\x7bSCHEMA".toList ss := by
  have hopen : Unclosed "$\x7bSCHEMA".toList [.variable "SCHEMA"] :=
    ⟨[], "SCHEMA".toList, .done _, by decide, by decide⟩
  refine ⟨?_, fun ⟨ss, hclosed⟩ => hclosed.not_unclosed hopen⟩
  rw [expand_eq_ok, hopen.segments_eq]
  exact ⟨by simp [AllSet, IsSet], by decide⟩

end EntityQuery.Environment
