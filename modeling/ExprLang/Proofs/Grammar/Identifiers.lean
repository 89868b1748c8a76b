import ExprLang.Proofs.Grammar.Content
import ExprLang.Proofs.Syntax.Nodes

/-!
# Walks in the order of the source

A walk over the tree of a program that is read without a diagnostic comes to its identifiers in the order
of their tokens, to each of them once and to no other, as long as it goes down no more levels than the
limit. The tree of a long chain is read in a loop, so it may have more levels than a walk can go down.

## Implementation notes

The tokens of a program say what its tree stands for, so it is enough to compare the walk over a tree with
the tokens that the tree stands for. This is an induction over well-formed trees, whose operators are no
identifiers.
-/

namespace ExprLang

namespace Token

/-- The texts of the identifiers among tokens. -/
def names (ts : List Token) : List String :=
  (ts.filter fun t => t.kind = .identifier).map text

/-- The identifiers in what tokens say. -/
def namesSaid (c : List (String × Kind)) : List String :=
  (c.filter fun x => x.2 = .identifier).map (·.1)

@[simp] theorem namesSaid_nil : namesSaid [] = [] := rfl

@[simp] theorem namesSaid_append (c d : List (String × Kind)) :
    namesSaid (c ++ d) = namesSaid c ++ namesSaid d := by
  simp [namesSaid]

@[simp] theorem namesSaid_flatMap {α : Type} (l : List α) (f : α → List (String × Kind)) :
    namesSaid (l.flatMap f) = l.flatMap fun a => namesSaid (f a) := by
  simp [namesSaid, List.filter_flatMap, List.map_flatMap]

/-- A token says its text if it is an identifier, and no name otherwise. -/
theorem namesSaid_said? (t : Token) :
    namesSaid t.said?.toList = if t.kind = .identifier then [t.text] else [] := by
  obtain ⟨text, kind, span⟩ := t
  cases kind <;> rfl

@[simp] theorem namesSaid_token {k : Kind} (h : k ≠ .identifier) :
    namesSaid k.token.said?.toList = [] :=
  (namesSaid_said? _).trans (if_neg h)

@[simp] theorem namesSaid_named (text : String) :
    namesSaid (named text).said?.toList = [text] := rfl

/-- Tokens say the identifiers among them. -/
theorem namesSaid_content (ts : List Token) : namesSaid (content ts) = names ts := by
  induction ts with
  | nil => rfl
  | cons t rest ih =>
      rw [content_cons, namesSaid_append, namesSaid_said?, ih, names, names]
      by_cases hk : t.kind = .identifier <;> simp [hk]

end Token

namespace Node

/-- Whether a node is an identifier. -/
def isIdentifier : Node → Bool
  | .identifier .. => true
  | _ => false

/-! ### Levels of a walk -/

/-- Nothing is below an identifier, so to stop there leaves nothing out. -/
theorem visit_isIdentifier (level below : Nat) (n : Node) :
    visit isIdentifier level n (walkBelow (fun _ => false) below n) =
      visit (fun _ => false) level n (walkBelow (fun _ => false) below n) := by
  cases n <;> rfl

theorem visit_isIdentifier_ofName (level : Nat) (p : Name) :
    visit isIdentifier level (ofName p) [] = visit (fun _ => false) level (ofName p) [] := rfl

mutual

theorem walkBelow_isIdentifier (level : Nat) (n : Node) :
    walkBelow isIdentifier level n = walkBelow (fun _ => false) level n := by
  cases n <;>
    simp only [walkBelow, visit_isIdentifier, visit_isIdentifier_ofName, walkBelow_isIdentifier,
      walkAll_isIdentifier]

theorem walkAll_isIdentifier (level : Nat) (ns : List Node) :
    walkAll isIdentifier level ns = walkAll (fun _ => false) level ns := by
  cases ns <;>
    simp only [walkAll, visit_isIdentifier, walkBelow_isIdentifier, walkAll_isIdentifier]

end

theorem walk_isIdentifier (n : Node) : n.walk isIdentifier = n.fullWalk := by
  rw [walk, walkBelow_isIdentifier, visit_isIdentifier]
  rfl

/-- A tree on a level is within a limit if its root and what is below it are. -/
theorem forall_mem_visit_iff (limit level : Nat) (n : Node)
    (h : level ≤ limit → ((∀ v ∈ walkBelow (fun _ => false) (level + 1) n, v.level ≤ limit) ↔
      level + n.height ≤ limit + 1)) :
    (∀ v ∈ visit (fun _ => false) level n (walkBelow (fun _ => false) (level + 1) n),
      v.level ≤ limit) ↔ level + n.height ≤ limit + 1 := by
  have hpos := n.height_pos
  simp only [visit, Bool.false_eq_true, if_false, List.forall_mem_cons]
  constructor
  · rintro ⟨hl, hb⟩
    exact (h hl).mp hb
  · intro hh
    have hl : level ≤ limit := by omega
    exact ⟨hl, (h hl).mpr hh⟩

/-- A bound name is no further down than the tree beside it. -/
theorem forall_mem_visit_ofName_iff (limit level : Nat) (p : Name) :
    (∀ v ∈ visit (fun _ => false) level (ofName p) [], v.level ≤ limit) ↔ level ≤ limit := by
  simp [visit]

mutual

/-- Below a node within the limit, a walk goes down as many levels as the tree has. -/
theorem forall_mem_walkBelow_iff {limit level : Nat} (h : level ≤ limit) (n : Node) :
    (∀ v ∈ walkBelow (fun _ => false) (level + 1) n, v.level ≤ limit) ↔
      level + n.height ≤ limit + 1 := by
  cases n with
  | program ns | block ns | array ns =>
      simp only [walkBelow, height, forall_mem_walkAll_iff (Nat.succ_le_succ h) ns]
      omega
  | identifier | integer | boolean | placeholder => simpa [walkBelow, height] using h
  | returning e | evaluated e | unary _ e =>
      simp only [walkBelow, height, forall_mem_visit_iff limit (level + 1) e fun hl =>
        forall_mem_walkBelow_iff hl e]
      omega
  | letBinding p e =>
      have hpos := e.height_pos
      simp only [walkBelow, height, List.forall_mem_append, forall_mem_visit_ofName_iff,
        forall_mem_visit_iff limit (level + 1) e fun hl => forall_mem_walkBelow_iff hl e]
      omega
  | function ps e =>
      have hpos := e.height_pos
      simp only [walkBelow, height, List.forall_mem_append, List.forall_mem_flatMap,
        forall_mem_visit_ofName_iff,
        forall_mem_visit_iff limit (level + 1) e fun hl => forall_mem_walkBelow_iff hl e]
      constructor
      · rintro ⟨-, he⟩
        omega
      · intro he
        exact ⟨fun _ _ => by omega, by omega⟩
  | binary l _ r | ifThen l r | index l r =>
      simp only [walkBelow, height, List.forall_mem_append,
        forall_mem_visit_iff limit (level + 1) l fun hl => forall_mem_walkBelow_iff hl l,
        forall_mem_visit_iff limit (level + 1) r fun hl => forall_mem_walkBelow_iff hl r]
      omega
  | ifElse c t e =>
      simp only [walkBelow, height, List.forall_mem_append,
        forall_mem_visit_iff limit (level + 1) c fun hl => forall_mem_walkBelow_iff hl c,
        forall_mem_visit_iff limit (level + 1) t fun hl => forall_mem_walkBelow_iff hl t,
        forall_mem_visit_iff limit (level + 1) e fun hl => forall_mem_walkBelow_iff hl e]
      omega
  | call f es =>
      simp only [walkBelow, height, List.forall_mem_append,
        forall_mem_visit_iff limit (level + 1) f fun hl => forall_mem_walkBelow_iff hl f,
        forall_mem_walkAll_iff (Nat.succ_le_succ h) es]
      omega

theorem forall_mem_walkAll_iff {limit level : Nat} (h : level ≤ limit + 1) (ns : List Node) :
    (∀ v ∈ walkAll (fun _ => false) level ns, v.level ≤ limit) ↔
      level + heightAll ns ≤ limit + 1 := by
  cases ns with
  | nil => simpa [walkAll, heightAll] using h
  | cons n rest =>
      simp only [walkAll, heightAll, List.forall_mem_append, forall_mem_walkAll_iff h rest,
        forall_mem_visit_iff limit level n fun hl => forall_mem_walkBelow_iff hl n]
      omega

end

/-- A walk that stops at identifiers is within a limit if the tree has no more levels, and then it finds
the identifiers among the nodes of the tree. -/
theorem stopsWithin_isIdentifier (limit : Nat) (n : Node) :
    n.stopsWithin limit isIdentifier =
      if n.height ≤ limit then some (n.nodes.filter isIdentifier) else none := by
  have hlevels : (n.fullWalk.all fun v => v.level ≤ limit) = true ↔ n.height ≤ limit := by
    simp only [List.all_eq_true, decide_eq_true_eq]
    rw [fullWalk, walk, forall_mem_visit_iff limit 1 n fun hl => forall_mem_walkBelow_iff hl n]
    omega
  rw [stopsWithin, stops, walk_isIdentifier]
  by_cases hh : n.height ≤ limit
  · rw [if_pos hh, if_pos (hlevels.mpr hh)]
    rfl
  · rw [if_neg hh, if_neg fun hall => hh (hlevels.mp hall)]

/-! ### Identifiers of a tree -/

open Token (content namesSaid)

/-- The identifiers that a walk over a tree comes to. -/
def names (n : Node) : List String :=
  (n.nodes.filter isIdentifier).map print

/-- The identifiers of a node that is none itself are those of its children. -/
theorem names_of_children {n : Node} (h : n.isIdentifier = false) :
    n.names = n.children.flatMap names := by
  rw [names, nodes_eq, List.filter_cons_of_neg (by simp [h]), List.filter_flatMap, List.map_flatMap]
  rfl

@[simp] theorem names_ofName (p : Name) : (ofName p).names = [p.text] := rfl

/-- Commas between parts say no name. -/
theorem namesSaid_commaSeparated (tss : List (List Token)) :
    namesSaid (content (commaSeparated tss)) = tss.flatMap fun ts => namesSaid (content ts) := by
  have hmore (rest : List (List Token)) :
      namesSaid (content (rest.flatMap (Kind.comma.token :: ·))) =
        rest.flatMap fun ts => namesSaid (content ts) := by
    induction rest with
    | nil => rfl
    | cons ts rest ih => simp [ih]
  cases tss with
  | nil => rfl
  | cons ts rest => simp [commaSeparated, hmore]

theorem namesSaid_tokensAll (ns : List Node) :
    namesSaid (content (commaSeparated (tokensAll ns))) =
      ns.flatMap fun n => namesSaid (content n.bareTokens) := by
  rw [namesSaid_commaSeparated, tokensAll_eq_map, List.flatMap_map]
  simp

theorem namesSaid_operator {o : Token} (h : o.IsUnary ∨ o.IsBinary) :
    namesSaid o.said?.toList = [] := by
  rw [Token.namesSaid_said?, if_neg]
  intro hk
  rcases h with ⟨h, -⟩ | ⟨h, -⟩ <;> simp [hk, Kind.isUnary, Kind.isBinary] at h

/-- What holds of single trees holds of a list of them. -/
theorem flatMap_namesSaid {ns : List Node}
    (h : ∀ n ∈ ns, namesSaid (content n.unplaced.bareTokens) = n.names) :
    ((unplacedAll ns).flatMap fun n => namesSaid (content n.bareTokens)) = ns.flatMap names := by
  rw [unplacedAll_eq_map, List.flatMap_map, List.flatMap, List.map_congr_left h]
  rfl

/-- The tokens that a well-formed tree stands for say the identifiers that a walk comes to. -/
theorem WellFormed.namesSaid_bareTokens {role : Role} {n : Node} (h : WellFormed role n) :
    namesSaid (content n.unplaced.bareTokens) = n.names := by
  induction h with
  | identifier hn => rfl
  | integer h₀ h₁ => rfl
  | @boolean value => cases value <;> rfl
  | program hs ih =>
      rw [names_of_children rfl]
      simp [unplaced, bareTokens, children, flatMap_namesSaid ih]
  | block hs ih =>
      rw [names_of_children rfl]
      simp [unplaced, bareTokens, children, flatMap_namesSaid ih]
  | letBinding hn hv ih =>
      rw [names_of_children rfl]
      simp [unplaced, bareTokens, children, Name.unplaced, ih]
  | returning hv ih | evaluated hv ih =>
      rw [names_of_children rfl]
      simp [unplaced, bareTokens, children, ih]
  | array he ih =>
      rw [names_of_children rfl]
      simp [unplaced, bareTokens, children, namesSaid_tokensAll, flatMap_namesSaid ih]
  | unary ho he ih =>
      rw [names_of_children rfl]
      simp [unplaced, bareTokens, children, namesSaid_operator (Or.inl ho), ih]
  | binary hl ho hr ihl ihr =>
      rw [names_of_children rfl]
      simp [unplaced, bareTokens, children, namesSaid_operator (Or.inr ho), ihl, ihr]
  | ifThen hc ht ihc iht =>
      rw [names_of_children rfl]
      simp [unplaced, bareTokens, children, ihc, iht]
  | ifElse hc ht hf ihc iht ihf =>
      rw [names_of_children rfl]
      simp [unplaced, bareTokens, children, ihc, iht, ihf]
  | function hp hb ih =>
      rw [names_of_children rfl]
      simp [unplaced, bareTokens, children, Name.unplaced, namesSaid_commaSeparated,
        List.flatMap_map, ih]
  | call hc ha ihc iha =>
      rw [names_of_children rfl]
      simp [unplaced, bareTokens, children, namesSaid_tokensAll, flatMap_namesSaid iha, ihc]
  | index hc hp ihc ihp =>
      rw [names_of_children rfl]
      simp [unplaced, bareTokens, children, ihc, ihp]

end Node

/-- A walk over the tree of a program without a diagnostic, which stops at identifiers and goes below all
other nodes, comes to exactly the identifiers among the tokens of the program, in their order and to each
of them once. It has that answer if the tree has no more levels than the limit, and none otherwise. -/
theorem stopsWithin_of_parseWithin {depth : Nat} {program : String} {parsed : Parsed}
    (h : parseWithin depth program = .ok parsed) (hd : parsed.diagnostics = []) (limit : Nat) :
    (parsed.tree.stopsWithin limit Node.isIdentifier).map (List.map Node.print) =
      if parsed.tree.height ≤ limit then
        some (((Token.scan program).filter fun t => t.kind = .identifier).map Token.text)
      else none := by
  obtain ⟨ns, hns, hcontent⟩ := content_scan h hd
  have hnames : parsed.tree.names = Token.names (Token.scan program) := by
    rw [← (wellFormed_of_parseWithin h).namesSaid_bareTokens, hns, ← Token.namesSaid_content,
      hcontent]
    rfl
  rw [Node.stopsWithin_isIdentifier]
  split
  · exact congrArg some hnames
  · rfl

/-- Names that are bound, parameters, a callee, an array and an index, operands and arguments. -/
theorem stopsWithin_of_function :
    ∃ parsed, parseWithin 60 "let f = func(a, b) { a + g(b)[c] }; f(x, -y)" = .ok parsed ∧
      parsed.diagnostics = [] ∧
      (parsed.tree.stopsWithin 20 Node.isIdentifier).map (List.map Node.print) =
        some ["f", "a", "b", "a", "g", "b", "c", "f", "x", "y"] := by
  obtain ⟨parsed, hp, hd, hh⟩ :
      ∃ parsed, parseWithin 60 "let f = func(a, b) { a + g(b)[c] }; f(x, -y)" = .ok parsed ∧
        parsed.diagnostics = [] ∧ parsed.tree.height ≤ 20 :=
    ⟨_, rfl, rfl, by decide⟩
  refine ⟨parsed, hp, hd, ?_⟩
  rw [stopsWithin_of_parseWithin hp hd 20, if_pos hh]
  decide +kernel

/-! ### Trees with too many levels -/

namespace Token

/-- The tokens of so many calls without arguments. -/
def calls (count : Nat) : List Token :=
  (List.replicate count [Kind.leftParen.token, Kind.rightParen.token]).flatten

theorem scans_calls (count : Nat) :
    Scans Lexeme.separates (String.join (List.replicate count "()")) (calls count) := by
  induction count with
  | zero => exact ⟨by decide, fun _ _ => rfl⟩
  | succ count ih =>
      rw [List.replicate_succ, String.join_cons]
      exact (Node.scans_leftParen.append Node.scans_rightParen fun _ _ => rfl).append ih
        fun _ _ => rfl

theorem readable_calls (count : Nat) : Readable (calls count) := by
  induction count with
  | zero => exact readable_nil
  | succ count ih =>
      have hcalls : calls (count + 1) =
          Kind.leftParen.token :: Kind.rightParen.token :: calls count := rfl
      rw [hcalls, readable_token_cons (by decide), readable_token_cons (by decide)]
      exact ih

theorem unplaced_calls (count : Nat) :
    (ofProgram ("f" ++ String.join (List.replicate count "()"))).map unplaced =
      named "f" :: calls count := by
  have hf : Scans Lexeme.separates "f" [named "f"] := Node.scans_identifier (by decide)
  refine (hf.append (scans_calls count) fun rest hr => ?_).unplaced_ofProgram rfl
  cases count with
  | zero => simpa using hr
  | succ count =>
      rw [List.replicate_succ, String.join_cons]
      simp [Lexeme.separates]
      decide

end Token

namespace Parse

/-- Calls are taken up in a loop, which needs no reader of nested expressions. -/
theorem extendWhile_calls (expression : Precedence → Parse (Option Node)) {count rounds : Nat}
    {s : ParseState} {t : Token} {callee : Node} (hs : s.upcoming = t :: Token.calls count)
    (hr : count ≤ rounds) :
    Ends (extendWhile expression .lowest rounds (some callee)) s
      (fun e s' => (∃ n, e = some n ∧ n.height = callee.height + count) ∧
        s'.diagnostics = s.diagnostics ∧ s'.next.upcoming = []) (fun _ _ => False) := by
  induction count generalizing rounds s t callee with
  | zero =>
      have hnext : s.next.upcoming = [] := by rw [ParseState.next_upcoming, hs]; rfl
      have hk : s.next.token.kind.precedence.rank ≤ Precedence.lowest.rank := by
        rw [ParseState.kind_of_upcoming_nil hnext]
        decide
      rw [ends_extendWhile_stop hk]
      exact ⟨⟨callee, rfl, rfl⟩, rfl, hnext⟩
  | succ count ih =>
      obtain ⟨rounds, rfl⟩ : ∃ r, rounds = r + 1 := ⟨rounds - 1, by omega⟩
      have hopen : s.next.upcoming =
          Kind.leftParen.token :: Kind.rightParen.token :: Token.calls count := by
        rw [ParseState.next_upcoming, hs]
        rfl
      have hclose : s.next.next.upcoming = Kind.rightParen.token :: Token.calls count := by
        rw [ParseState.next_upcoming, hopen]
        rfl
      have hk : s.next.token.kind = .leftParen := ParseState.kind_of_upcoming hopen
      have hk' : s.next.next.token.kind = .rightParen := ParseState.kind_of_upcoming hclose
      have hlt : Precedence.lowest.rank < s.next.token.kind.precedence.rank := by
        rw [hk]
        decide
      simp only [extendWhile, ends_bind, ends_peek, ends_ite, if_pos hlt, ends_advance]
      rw [ends_extend_call hk]
      simp only [call, expressionList, ends_bind, ends_peek, ends_ite, if_pos hk', ends_advance,
        ends_pure, ends_current]
      apply (ih hclose (by omega)).imp
      rintro e s' ⟨⟨n, he, hn⟩, hrest⟩
      refine ⟨⟨n, he, ?_⟩, hrest⟩
      simp [hn, Node.height, Node.heightAll]
      omega

/-- A program of one name with calls behind it needs two levels, and its tree has as many as there are
calls. -/
theorem programStatements_calls {depth count rounds : Nat} {s : ParseState}
    (hs : s.upcoming = Token.named "f" :: Token.calls count) (hr : 0 < rounds) :
    Ends (programStatements (statement (depth + 2)) rounds) s
      (fun ns s' => count < Node.heightAll ns ∧ s'.diagnostics = s.diagnostics) anyFault := by
  have hk : s.token.kind = .identifier := ParseState.kind_of_upcoming hs
  have hrounds : count ≤ s.stream.pending.length := by
    rw [← s.length_upcoming, hs]
    simp [Token.calls]
    omega
  obtain ⟨rounds, rfl⟩ : ∃ r, rounds = r + 1 := ⟨rounds - 1, by omega⟩
  rw [ends_programStatements_succ _ _ (by simp [hk])]
  simp only [statement, statementBy, expressionStatement, expression, expressionBy, ends_bind,
    ends_current, hk, operandRule?, identifier, ends_pure, ends_remaining, ends_skipSemicolon,
    ends_spanFrom]
  apply (extendWhile_calls _ hs hrounds).mono
  · rintro e s' ⟨⟨n, rfl, hn⟩, hd, hend⟩
    have hkind := ParseState.kind_of_upcoming_nil hend
    have hheight : count < Node.heightAll [.evaluated n (s.token.span.cover s'.token.span)] := by
      simp only [Node.heightAll, Node.height]
      omega
    rw [if_neg (by simp [hkind]), ends_programStatements_of_end _ _ hkind]
    exact ⟨hheight, hd⟩
  · intro fault s' hf
    exact hf.elim

end Parse

/-- Calls one behind the other are read whatever the nesting limit is, and each of them is a level. -/
theorem parseWithin_calls (depth count : Nat) :
    ∃ parsed, parseWithin (depth + 2) ("f" ++ String.join (List.replicate count "()")) = .ok parsed ∧
      parsed.diagnostics = [] ∧ count < parsed.tree.height := by
  have hts := Token.unplaced_calls count
  generalize "f" ++ String.join (List.replicate count "()") = program at hts ⊢
  have hpending : (TokenStream.ofProgram program).pending.map Token.unplaced =
      Token.named "f" :: Token.calls count := hts
  have hread : Token.Readable (TokenStream.ofProgram program).pending := by
    rw [← Token.readable_map_unplaced, hpending, Token.readable_named_cons]
    exact Token.readable_calls count
  have hpos : 0 < (TokenStream.ofProgram program).pending.length := by
    rw [← List.length_map Token.unplaced, hpending]
    exact Nat.succ_pos _
  obtain ⟨parsed, hp⟩ := TokenStream.exists_parseWithin (depth + 2) hread
  obtain ⟨statements, span, s, ht, hd, hheight, hs⟩ :=
    TokenStream.parseWithin_ends (Parse.programStatements_calls hpending hpos) hp
  refine ⟨parsed, hp, hd.trans hs, ?_⟩
  rw [ht, Node.height]
  omega

/-- A walk over the tree of a name with many calls behind it does not come to the name, although the
program is read without a diagnostic. -/
theorem stopsWithin_of_many_calls :
    ∃ parsed, parse ("f" ++ String.join (List.replicate 5000 "()")) = .ok parsed ∧
      parsed.diagnostics = [] ∧ parsed.tree.stopsWithin nestingLimit Node.isIdentifier = none := by
  obtain ⟨depth, hdepth⟩ : ∃ depth, Limits.standard.parsing = depth + 2 := ⟨_, rfl⟩
  obtain ⟨parsed, hp, hd, hh⟩ := parseWithin_calls depth 5000
  rw [← hdepth] at hp
  refine ⟨parsed, hp, hd, ?_⟩
  rw [Node.stopsWithin_isIdentifier, if_neg]
  have : nestingLimit < 5000 := by decide
  omega

end ExprLang
