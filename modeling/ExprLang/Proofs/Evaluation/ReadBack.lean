import ExprLang.Proofs.Evaluation.Arithmetic
import ExprLang.Proofs.Evaluation.Repeat
import ExprLang.Proofs.Grammar.Printed
import ExprLang.Proofs.Parsing.Depth

/-!
# Values are read back from their texts

The text of an integer, a boolean, a function or an array of such values is an expression of the
language: a negative integer is one behind a minus sign, and a function is written as its literal.
Whatever a session made the value from, its text is read without diagnostics, and the expression
that is read gives a value with the same text again.

The least integer is left out: the numeral behind its minus sign is too large for a literal.
-/

namespace ExprLang

open Token (Readable Scans)
open Lexeme (separates)

/-! ### Spellings -/

/-- An expression as it can be written: a text that is scanned to tokens from which the expression
is derived, whatever follows. -/
structure Spelling where
  text : String
  tokens : List Token
  node : Node
  scans : Scans separates text tokens
  readable : Readable tokens
  derives : ∀ us, Grammar.Derives .expression (tokens ++ us) us node

namespace Spelling

/-- A well-formed expression is written as its text. -/
def ofNode (n : Node) (h : n.WellFormed .expression) : Spelling where
  text := n.print
  tokens := n.tokens
  node := n.unplaced
  scans := Node.scans_print h
  readable := (Node.readable_tokens n).mpr (Node.readable_bareTokens h)
  derives := (Grammar.writtenAt h : Grammar.Written n).expression

/-- A well-formed expression behind a minus sign. -/
def negated (n : Node) (h : n.WellFormed .expression) : Spelling where
  text := "-" ++ n.print
  tokens := Kind.minus.token :: n.tokens
  node := .unary Kind.minus.token n.unplaced Span.nowhere
  scans := (Node.scans_unary (k := .minus) rfl).append (Node.scans_print h) fun rest _ =>
    Node.opens_append (Node.opens_print h) rest
  readable := by simp [Node.readable_bareTokens h]
  derives us := Grammar.expression_of_operand
    (.unary rfl ((Grammar.writtenAt h : Grammar.Written n).operand us))

/-- Expressions in brackets. -/
def array (items : List Spelling) : Spelling where
  text := "[" ++ ", ".intercalate (items.map text) ++ "]"
  tokens := Kind.leftBracket.token :: Node.commaSeparated (items.map tokens) ++
    [Kind.rightBracket.token]
  node := .array (items.map node) Span.nowhere
  scans := Node.scans_leftBracket.between (Node.scans_join fun s _ => s.scans)
    Node.scans_rightBracket fun _ => rfl
  readable := by
    have hitems : Readable (Node.commaSeparated (items.map tokens)) :=
      Node.readable_commaSeparated (List.forall_mem_map.mpr fun s _ => s.readable)
    simp [hitems]
  derives us := by
    rw [List.append_assoc]
    exact Grammar.expression_of_operand (.suffixed (.primary (.array rfl
      (Grammar.derives_items (fun s _ => s.derives) us))))

/-- A text that spells an expression is read as the program of that expression. -/
theorem reads (s : Spelling) (levels : Nat) :
    ∃ read, parseWithin levels s.text = .ok read ∧
      (2 * (Token.ofProgram s.text).length + 1 < levels → read.WithinLimit) ∧
      (read.WithinLimit → read.diagnostics = [] ∧
        read.tree.unplaced = .program [.evaluated s.node Span.nowhere] Span.nowhere) := by
  have hstatement : Grammar.Derives .statement s.tokens [] (.evaluated s.node Span.nowhere) := by
    have he := s.derives []
    rw [List.append_nil] at he
    exact .unended (.evaluated he) (by decide)
  obtain ⟨read, hread, hlimit⟩ :=
    reads_of_scans s.scans s.readable (.statements hstatement .noStatement) levels
  exact ⟨read, hread, TokenStream.withinLimit_of_lt hread, hlimit⟩

end Spelling

/-! ### Literals -/

namespace Node

/-- A tree that is a program of one expression apart from places. -/
theorem eq_program_of_unplaced {tree e : Node} {span span' : Span}
    (h : tree.unplaced = .program [.evaluated e span] span') :
    ∃ n s s', tree = .program [.evaluated n s] s' ∧ n.unplaced = e := by
  cases tree with
  | program ns s' =>
      simp only [unplaced, unplacedAll_eq_map, program.injEq, List.map_eq_singleton_iff] at h
      obtain ⟨⟨statement, rfl, hs⟩, -⟩ := h
      cases statement with
      | evaluated n s =>
          simp only [unplaced, evaluated.injEq] at hs
          exact ⟨n, s, s', rfl, hs.1⟩
      | _ => simp [unplaced] at hs
  | _ => simp [unplaced] at h

/-- A tree that is a function literal apart from places. -/
theorem eq_function_of_unplaced {n b : Node} {ps : List Name} {span : Span}
    (h : n.unplaced = .function ps b span) :
    ∃ ps' b' s, n = .function ps' b' s ∧ ps'.map Name.unplaced = ps ∧ b'.unplaced = b := by
  cases n with
  | function ps' b' s =>
      simp only [unplaced, function.injEq] at h
      exact ⟨ps', b', s, rfl, h.1, h.2.1⟩
  | _ => simp [unplaced] at h

end Node

namespace Value

mutual

/-- Whether a value is made of integers other than the least one, booleans, functions and arrays. -/
def isLiteral : Value → Bool
  | .integer _ n => n != Int64.minValue
  | .boolean _ | .function .. => true
  | .array _ es => isLiteralAll es
  | .nothing | .null | .returned _ | .error _ | .unspecified _ => false

/-- Whether all values of a list are such. -/
def isLiteralAll : List Value → Bool
  | [] => true
  | v :: rest => isLiteral v && isLiteralAll rest

end

theorem isLiteralAll_iff {vs : List Value} :
    isLiteralAll vs = true ↔ ∀ v ∈ vs, v.isLiteral = true := by
  induction vs with
  | nil => simp [isLiteralAll]
  | cons v rest ih => rw [isLiteralAll, Bool.and_eq_true, ih, List.forall_mem_cons]

/-- The expression that an integer is written as. -/
def integerLiteral (n : Int) : Node :=
  if n < 0 then .unary Kind.minus.token (.integer (-n) Span.nowhere) Span.nowhere
  else .integer n Span.nowhere

mutual

/-- The expression that a value is written as, at no place. -/
def literal : Value → Node
  | .integer _ n => integerLiteral n.toInt
  | .boolean b => .boolean b Span.nowhere
  | .array _ es => .array (literalAll es) Span.nowhere
  | .function _ ps b _ => .function (ps.map Name.unplaced) b.unplaced Span.nowhere
  | .nothing | .null | .returned _ | .error _ | .unspecified _ => .placeholder Span.nowhere

/-- The expressions that a list of values is written as. -/
def literalAll : List Value → List Node
  | [] => []
  | v :: rest => literal v :: literalAll rest

end

theorem toString_of_neg {n : Int} (h : n < 0) : toString n = "-" ++ toString (-n) := by
  cases n with
  | ofNat k => exact absurd h (Int.not_lt.mpr (Int.natCast_nonneg k))
  | negSucc k => rfl

/-- The text of an integer spells its literal. -/
theorem exists_spelling_integer {n : Int64} (h : n ≠ Int64.minValue) :
    ∃ s : Spelling, s.text = toString n.toInt ∧ s.node = integerLiteral n.toInt := by
  have hlow := n.le_toInt
  have hhigh := n.toInt_lt
  have hleast : n.toInt ≠ -2 ^ 63 := fun he => h (Int64.toInt_inj.mp he)
  by_cases hn : n.toInt < 0
  · have hw : (Node.integer (-n.toInt) Span.nowhere).WellFormed .expression :=
      .integer (by omega) (by omega)
    refine ⟨.negated _ hw, ?_, ?_⟩
    · exact (toString_of_neg hn).symm
    · rw [integerLiteral, if_pos hn]
      rfl
  · have hw : (Node.integer n.toInt Span.nowhere).WellFormed .expression :=
      .integer (by omega) (by omega)
    refine ⟨.ofNode _ hw, rfl, ?_⟩
    rw [integerLiteral, if_neg hn]
    rfl

mutual

/-- The text of a value spells its literal. -/
theorem exists_spelling (v : Value) (hp : v.Proper) (hl : v.isLiteral = true) :
    ∃ s : Spelling, v.inspect = .ok s.text ∧ s.node = v.literal := by
  cases v with
  | integer identity n =>
      obtain ⟨s, ht, hn⟩ := exists_spelling_integer (bne_iff_ne.mp hl)
      exact ⟨s, by rw [inspect, ht], hn⟩
  | boolean b => exact ⟨.ofNode (.boolean b Span.nowhere) .boolean, rfl, rfl⟩
  | array identity es =>
      obtain ⟨items, ht, hn⟩ := exists_spellings es (proper_array.mp hp) (isLiteralAll_iff.mp hl)
      refine ⟨.array items, by rw [inspect, ht]; rfl, ?_⟩
      rw [literal, ← hn]
      rfl
  | function identity ps b scope =>
      obtain ⟨hps, hb⟩ := hp.self
      exact ⟨.ofNode (.function ps b Span.nowhere) (.function hps hb), rfl, rfl⟩
  | nothing => cases hl
  | null => cases hl
  | returned u => cases hl
  | error failure => cases hl
  | unspecified identity => cases hl

theorem exists_spellings (vs : List Value) (hp : ∀ v ∈ vs, v.Proper)
    (hl : ∀ v ∈ vs, v.isLiteral = true) :
    ∃ items : List Spelling, inspectAll vs = .ok (items.map Spelling.text) ∧
      items.map Spelling.node = literalAll vs := by
  cases vs with
  | nil => exact ⟨[], rfl, rfl⟩
  | cons v rest =>
      rw [List.forall_mem_cons] at hp hl
      obtain ⟨s, ht, hn⟩ := exists_spelling v hp.1 hl.1
      obtain ⟨items, hts, hns⟩ := exists_spellings rest hp.2 hl.2
      exact ⟨s :: items, by simp [inspectAll, ht, hts], by simp [literalAll, hn, hns]⟩

end

/-! ### Values that look alike -/

/-- Two values that are not told apart by their kinds, their texts and their depths. -/
structure LooksLike (v w : Value) : Prop where
  kind : v.kind = w.kind
  inspect : v.inspect = w.inspect
  depth : ∀ perArray, v.depth perArray = w.depth perArray

theorem LooksLike.inspectWithin {v w : Value} (h : v.LooksLike w) (limit : Nat) :
    v.inspectWithin limit = w.inspectWithin limit := by
  rw [Value.inspectWithin, Value.inspectWithin, h.depth, h.inspect]

theorem isMarker_eq_kind (v : Value) :
    v.isMarker = (v.kind == .returned || v.kind == .error) := by
  cases v <;> rfl

/-- What looks like a literal ends no enclosing step. -/
theorem LooksLike.isMarker {v w : Value} (h : v.LooksLike w) (hl : w.isLiteral = true) :
    v.isMarker = false := by
  have hw : w.isMarker = false := by
    cases w with
    | returned u => cases hl
    | error failure => cases hl
    | _ => rfl
  rw [isMarker_eq_kind, h.kind, ← isMarker_eq_kind, hw]

/-- Two lists of values that look alike. -/
structure LookLike (vs ws : List Value) : Prop where
  inspect : inspectAll vs = inspectAll ws
  depth : ∀ perArray, depthAll perArray vs = depthAll perArray ws

theorem LookLike.cons {v w : Value} {vs ws : List Value} (h : v.LooksLike w)
    (hs : LookLike vs ws) : LookLike (v :: vs) (w :: ws) where
  inspect := by rw [inspectAll, inspectAll, h.inspect, hs.inspect]
  depth perArray := by rw [depthAll, depthAll, h.depth, hs.depth]

theorem LookLike.array {vs ws : List Value} (h : LookLike vs ws) (identity identity' : Nat) :
    (Value.array identity vs).LooksLike (.array identity' ws) where
  kind := rfl
  inspect := by rw [Value.inspect, Value.inspect, h.inspect]
  depth perArray := by rw [Value.depth, Value.depth, h.depth]

/-- Functions look alike if they are written alike. -/
theorem looksLike_function {ps ps' : List Name} {b b' : Node}
    (hp : ps.map Name.unplaced = ps'.map Name.unplaced) (hb : b.unplaced = b'.unplaced)
    (identity identity' : Nat) (scope scope' : ScopeId) :
    (Value.function identity ps b scope).LooksLike (.function identity' ps' b' scope') := by
  have hnames : ∀ names : List Name,
      names.map Name.text = (names.map Name.unplaced).map Name.text := by
    intro names
    rw [List.map_map]
    rfl
  constructor
  · rfl
  · rw [Value.inspect, Value.inspect, functionText, functionText, hnames ps, hp, ← hnames ps',
      ← Node.print_unplaced b, hb, Node.print_unplaced]
  · intro perArray
    rw [Value.depth, Value.depth, ← Node.height_unplaced b, hb, Node.height_unplaced]

end Value

/-! ### Runs of literals -/

namespace Eval

open Value (LookLike integerLiteral literalAll)

variable {scope : ScopeId} {depth : Nat} {v : Value} {n : Node}

/-- A run gives a value that looks like a given one, unless there are fewer levels than the tree
has. -/
def Restores (depth : Nat) (n : Node) (scope : ScopeId) (v : Value) : Prop :=
  ∀ m, Ends (visit depth n scope) m (fun w _ => w.LooksLike v)
    (fun fault _ => fault = .tooDeep ∧ depth < n.height)

theorem restores_zero : Restores 0 n scope v :=
  fun _ => ⟨rfl, n.height_pos⟩

theorem exactValue?_of_unplaced {k : Int} (h : n.unplaced = integerLiteral k)
    (bound : String → Option Int) : n.exactValue? bound = some k := by
  unfold integerLiteral at h
  split at h
  · cases n with
    | unary operator e span =>
        simp only [Node.unplaced, Node.unary.injEq] at h
        obtain ⟨ho, he, -⟩ := h
        have hk : operator.kind = .minus := congrArg Token.kind ho
        cases e with
        | integer j span' =>
            simp only [Node.unplaced, Node.integer.injEq] at he
            simp [Node.exactValue?, hk, he.1]
        | _ => simp [Node.unplaced] at he
    | _ => simp [Node.unplaced] at h
  · cases n with
    | integer j span =>
        simp only [Node.unplaced, Node.integer.injEq] at h
        simp [Node.exactValue?, h.1]
    | _ => simp [Node.unplaced] at h

theorem restores_integer {identity : Nat} {k : Int64} (h : n.unplaced = integerLiteral k.toInt) :
    Restores depth n scope (.integer identity k) := by
  intro m
  apply (computes_exact (exactValue?_of_unplaced h _) depth m rfl).imp
  rintro w m' ⟨-, -, identity', rfl⟩
  rw [Int64.ofInt_toInt]
  exact ⟨rfl, rfl, fun _ => rfl⟩

theorem ends_expressions_literals {vs : List Value} {ns : List Node}
    (hl : ∀ v ∈ vs, v.isLiteral = true)
    (hv : ∀ v ∈ vs, ∀ n, n.unplaced = v.literal → Restores depth n scope v)
    (hn : Node.unplacedAll ns = literalAll vs) (m : Machine) :
    Ends (expressions (visit depth) scope ns) m (fun r _ => ∃ ws, r = .ok ws ∧ LookLike ws vs)
      (fun fault _ => fault = .tooDeep ∧ depth < Node.heightAll ns) := by
  induction vs generalizing ns m with
  | nil =>
      cases ns with
      | nil => exact ⟨[], rfl, rfl, fun _ => rfl⟩
      | cons n ns => cases hn
  | cons v vs ih =>
      cases ns with
      | nil => cases hn
      | cons n ns =>
          rw [List.forall_mem_cons] at hl hv
          obtain ⟨hfirst, hrest⟩ := List.cons.inj hn
          simp only [expressions, ends_bind, ends_ite, ends_pure]
          apply (hv.1 n hfirst m).mono
          · intro w m' hw
            simp only [hw.isMarker hl.1, Bool.false_eq_true, if_false]
            apply (ih hl.2 hv.2 hrest m').mono
            · rintro r m'' ⟨ws, rfl, hws⟩
              exact ⟨w :: ws, rfl, hws.cons hw⟩
            · rintro fault m'' ⟨hf, hd⟩
              exact ⟨hf, Nat.lt_of_lt_of_le hd (Nat.le_max_right _ _)⟩
          · rintro fault m' ⟨hf, hd⟩
            exact ⟨hf, Nat.lt_of_lt_of_le hd (Nat.le_max_left _ _)⟩

/-- A tree that is the literal of a value apart from places gives a value that looks like it. -/
theorem restores_literal (depth : Nat) {v : Value} (hl : v.isLiteral = true) {n : Node}
    (hn : n.unplaced = v.literal) : Restores depth n scope v := by
  -- The induction is on the levels: the elements of an array are run with one level less.
  induction depth generalizing v n with
  | zero => exact restores_zero
  | succ depth ih =>
      cases v with
      | integer identity k => exact restores_integer hn
      | boolean b =>
          cases n with
          | boolean b' span =>
              cases hn
              exact fun m => ⟨rfl, rfl, fun _ => rfl⟩
          | _ => simp [Node.unplaced, Value.literal] at hn
      | array identity vs =>
          cases n with
          | array ns span =>
              simp only [Node.unplaced, Value.literal, Node.array.injEq, and_true] at hn
              have hvs := Value.isLiteralAll_iff.mp hl
              intro m
              simp only [visit, step, ends_bind]
              apply (ends_expressions_literals hvs (fun v hv n => ih (hvs v hv)) hn m).mono
              · rintro r m' ⟨ws, rfl, hws⟩
                exact hws.array _ _
              · rintro fault m' ⟨hf, hd⟩
                exact ⟨hf, Nat.succ_lt_succ hd⟩
          | _ => simp [Node.unplaced, Value.literal] at hn
      | function identity ps b inside =>
          obtain ⟨ps', b', span, rfl, hps, hb⟩ := Node.eq_function_of_unplaced hn
          exact fun m => Value.looksLike_function hps hb _ _ _ _
      | nothing => cases hl
      | null => cases hl
      | returned u => cases hl
      | error failure => cases hl
      | unspecified identity => cases hl

theorem Restores.evaluated (h : Restores depth n scope v) (span : Span) :
    Restores (depth + 1) (.evaluated n span) scope v := by
  intro m
  apply (h m).mono
  · exact fun w m' hw => hw
  · rintro fault m' ⟨hf, hd⟩
    exact ⟨hf, Nat.succ_lt_succ hd⟩

theorem Restores.program (h : Restores depth n scope v) (hl : v.isLiteral = true) (span : Span) :
    Restores (depth + 1) (.program [n] span) scope v := by
  intro m
  simp only [visit, step, programStatements, ends_bind]
  apply (h m).mono
  · intro w m' hw
    have hmarker := hw.isMarker hl
    cases w with
    | returned u => cases hmarker
    | error failure => cases hmarker
    | _ => exact hw
  · rintro fault m' ⟨hf, hd⟩
    exact ⟨hf, Nat.succ_lt_succ (Nat.lt_of_lt_of_le hd (Nat.le_max_left _ _))⟩

/-- A program that is the literal of a value gives a value that looks like it. -/
theorem restores_program (depth : Nat) (hl : v.isLiteral = true) (hn : n.unplaced = v.literal)
    (span span' : Span) : Restores depth (.program [.evaluated n span] span') scope v := by
  match depth with
  | 0 => exact restores_zero
  | 1 => exact restores_zero.program hl span'
  | depth + 2 => exact ((restores_literal depth hl hn).evaluated span).program hl span'

end Eval

theorem eq_ok_of_toOption {result : Except Fault Parsed} {parsed : Parsed}
    (h : result.toOption = some parsed) : result = .ok parsed := by
  cases result with
  | error fault => cases h
  | ok parsed' => cases h; rfl

theorem Eval.exists_of_run {step : Eval Value} {v : Value} {m : Machine}
    (h : step.run' m = some v) : ∃ m', step m = .ok v m' := by
  delta EStateM.run' EStateM.run at h
  cases hs : step m with
  | error fault m' => rw [hs] at h; cases h
  | ok v' m' => rw [hs] at h; cases h; exact ⟨m', rfl⟩

/-- Values are read back from their texts. In a session let a program give a value that is made of
integers other than the least one, booleans, functions and arrays. Its text is read without
diagnostics, unless there are too few levels: two for every token and two more are enough. In every
scope of every machine the tree gives a value of the same kind with the same text, unless it has
more levels than there are. If the value is a function, the tree is a function literal with equal
parameters and an equal body. -/
theorem inspect_reads_back {m m' : Machine} {levels depth : Nat} {program : String}
    {parsed : Parsed} {scope : ScopeId} {v : Value} (hs : Session .initial m)
    (hp : parseWithin levels program = .ok parsed)
    (hv : Eval.evaluateWithin depth parsed.tree scope m = .ok v m')
    (hl : v.isLiteral = true) :
    ∃ text, v.inspect = .ok text ∧ ∀ levels', ∃ read, parseWithin levels' text = .ok read ∧
      (2 * (Token.ofProgram text).length + 1 < levels' → read.WithinLimit) ∧
      (read.WithinLimit → read.diagnostics = [] ∧
        (∀ depth' scope' machine, ∃ w machine',
          Eval.evaluateWithin depth' read.tree scope' machine = .ok w machine' ∧
            (w.kind = v.kind ∧ w.inspect = .ok text ∧
                (∀ limit, w.inspectWithin limit = v.inspectWithin limit) ∨
              w = .error .nestedTooDeep ∧ depth' < read.tree.height)) ∧
        ∀ identity ps b inside, v = .function identity ps b inside →
          ∃ ps' b' s s' s'', read.tree = .program [.evaluated (.function ps' b' s) s'] s'' ∧
            Node.sameNames ps' ps = true ∧ b'.sameAs b = true) := by
  obtain ⟨v₁, m₁, hv₁, -, ho⟩ := Eval.exists_evaluateWithin depth (wellFormed_of_parseWithin hp)
    scope (hs.good Machine.good_initial)
  rw [hv] at hv₁
  cases hv₁
  -- The function bodies inside the value come from programs that were read, so they are well-formed.
  have hproper : v.Proper := by
    cases ho with
    | proper h => exact h
    | error failure => cases hl
    | returned _ _ => cases hl
    | nothing _ => cases hl
  obtain ⟨s, htext, hnode⟩ := v.exists_spelling hproper hl
  refine ⟨s.text, htext, fun levels' => ?_⟩
  obtain ⟨read, hread, henough, hlimit⟩ := s.reads levels'
  refine ⟨read, hread, henough, fun hw => ?_⟩
  obtain ⟨hdiagnostics, htree⟩ := hlimit hw
  rw [hnode] at htree
  obtain ⟨n, sn, sp, htree, hn⟩ := Node.eq_program_of_unplaced htree
  refine ⟨hdiagnostics, ?_, ?_⟩
  · intro depth' scope' machine
    rw [htree]
    obtain ⟨w, machine', hrun, hw⟩ :=
      Eval.exists_value_of_ends (Eval.restores_program depth' hl hn sn sp machine)
    refine ⟨w, machine', hrun, hw.imp_left fun hlike => ?_⟩
    exact ⟨hlike.kind, hlike.inspect.trans htext, hlike.inspectWithin⟩
  · rintro identity ps b inside rfl
    obtain ⟨ps', b', span, rfl, hps, hb⟩ := Node.eq_function_of_unplaced hn
    exact ⟨ps', b', span, sn, sp, htree, (Node.sameNames_iff _ _).mpr hps,
      (Node.sameAs_iff _ _).mpr hb⟩

/-- A negative integer, a function and an array inside an array. -/
theorem inspect_reads_back_array :
    ∃ parsed v m read w m',
      parseWithin 60 "let f = func(x) { x - 1 }; [f(-4), f, [f(2) == 1]]" = .ok parsed ∧
      Eval.evaluateWithin 60 parsed.tree 0 .initial = .ok v m ∧ v.isLiteral = true ∧
      v.inspect = .ok "[-5, func(x) { (x - 1) }, [true]]" ∧
      parseWithin 60 "[-5, func(x) { (x - 1) }, [true]]" = .ok read ∧
      read.diagnostics = [] ∧ Eval.evaluateWithin 60 read.tree 0 .initial = .ok w m' ∧
      w.kind = .array ∧ w.inspect = .ok "[-5, func(x) { (x - 1) }, [true]]" := by
  have hrun : (parseWithin 60
      "let f = func(x) { x - 1 }; [f(-4), f, [f(2) == 1]]").toOption.bind (fun parsed =>
        ((Eval.evaluateWithin 60 parsed.tree 0).run' .initial).map fun v =>
          (v.isLiteral, v.kind, v.inspect.toOption)) =
      some (true, .array, some "[-5, func(x) { (x - 1) }, [true]]") := by
    decide +kernel
  have hheight : (parseWithin 60 "[-5, func(x) { (x - 1) }, [true]]").toOption.map
      (fun read => read.tree.height) = some 8 := by
    decide +kernel
  obtain ⟨parsed, hparsed, hrun⟩ := Option.bind_eq_some_iff.mp hrun
  obtain ⟨v, hvalue, hrun⟩ := Option.map_eq_some_iff.mp hrun
  have hp := eq_ok_of_toOption hparsed
  obtain ⟨m, hv⟩ := Eval.exists_of_run hvalue
  simp only [Prod.mk.injEq] at hrun
  obtain ⟨hl, hk, ht⟩ := hrun
  obtain ⟨text, htext, hreads⟩ := inspect_reads_back .start hp hv hl
  rw [htext] at ht
  cases ht
  obtain ⟨read, hread, henough, hback⟩ := hreads 60
  obtain ⟨hdiagnostics, hruns, -⟩ := hback (henough (by decide +kernel))
  obtain ⟨w, m', hw, ⟨hkind, hinspect, -⟩ | ⟨-, hlt⟩⟩ := hruns 60 0 .initial
  · exact ⟨parsed, v, m, read, w, m', hp, hv, hl, htext, hread, hdiagnostics, hw,
      hkind.trans hk, hinspect⟩
  · rw [hread] at hheight
    have hheight : read.tree.height = 8 := Option.some.inj hheight
    exact absurd hlt (by simp [hheight])

end ExprLang
