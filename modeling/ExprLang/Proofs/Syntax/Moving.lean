import ExprLang.Diagnostic.Basic
import ExprLang.Proofs.Syntax.Unplaced

/-!
# Moving programs

A move gives new places to the tokens of a program and to all that is read from them. What two
spans cover together moves with them, so a tree keeps its form under a move and differs only by its
places.
-/

namespace ExprLang

/-- New places for old ones. -/
structure Moving where
  span : Span → Span
  span_cover : ∀ a b, span (a.cover b) = (span a).cover (span b)

namespace Moving

/-- Every place stays. -/
def stay : Moving :=
  ⟨id, fun _ _ => rfl⟩

/-- Every place goes down by so many lines. -/
def down (count : Int) : Moving where
  span s := { s with startLine := s.startLine + count, endLine := s.endLine + count }
  span_cover a b := by
    simp only [Span.cover, Span.mk.injEq, Int.add_lt_add_iff_right, and_true]
    omega

variable (μ : Moving)

/-- A token at its new place. -/
def token (t : Token) : Token :=
  { t with span := μ.span t.span }

/-- A name at its new place. -/
def name (n : Name) : Name :=
  { n with span := μ.span n.span }

mutual

/-- A tree at its new place. -/
def node : Node → Node
  | .program ss s => .program (nodes ss) (μ.span s)
  | .block ss s => .block (nodes ss) (μ.span s)
  | .letBinding n v s => .letBinding (μ.name n) (node v) (μ.span s)
  | .returning v s => .returning (node v) (μ.span s)
  | .evaluated e s => .evaluated (node e) (μ.span s)
  | .identifier n s => .identifier n (μ.span s)
  | .integer v s => .integer v (μ.span s)
  | .boolean v s => .boolean v (μ.span s)
  | .array es s => .array (nodes es) (μ.span s)
  | .unary o e s => .unary (μ.token o) (node e) (μ.span s)
  | .binary l o r s => .binary (node l) (μ.token o) (node r) (μ.span s)
  | .ifThen c t s => .ifThen (node c) (node t) (μ.span s)
  | .ifElse c t e s => .ifElse (node c) (node t) (node e) (μ.span s)
  | .function ps b s => .function (ps.map μ.name) (node b) (μ.span s)
  | .call f es s => .call (node f) (nodes es) (μ.span s)
  | .index l i s => .index (node l) (node i) (μ.span s)
  | .placeholder s => .placeholder (μ.span s)

/-- The trees of a list at their new places. -/
def nodes : List Node → List Node
  | [] => []
  | n :: rest => node n :: nodes rest

end

/-- A complaint about tokens at their new places. -/
def complaint : Complaint → Complaint
  | .unexpectedToken expected got => .unexpectedToken expected (μ.token got)
  | .noOperand t => .noOperand (μ.token t)
  | .integerTooLarge t => .integerTooLarge (μ.token t)
  | .nestedTooDeep => .nestedTooDeep

/-- A diagnostic at its new place. -/
def diagnostic (d : Diagnostic) : Diagnostic :=
  ⟨μ.complaint d.complaint, μ.span d.span⟩

theorem nodes_eq_map (ns : List Node) : μ.nodes ns = ns.map μ.node := by
  induction ns with
  | nil => rfl
  | cons n rest ih => rw [nodes, ih, List.map_cons]

/-! ### What does not move -/

@[simp] theorem kind_token (t : Token) : (μ.token t).kind = t.kind := rfl

@[simp] theorem text_token (t : Token) : (μ.token t).text = t.text := rfl

@[simp] theorem unplaced_token (t : Token) : (μ.token t).unplaced = t.unplaced := rfl

@[simp] theorem span_node (n : Node) : (μ.node n).span = μ.span n.span := by
  cases n <;> rfl

@[simp] theorem message_diagnostic (d : Diagnostic) : (μ.diagnostic d).message = d.message := by
  obtain ⟨complaint, span⟩ := d
  cases complaint <;> rfl

mutual

@[simp] theorem unplaced_node (n : Node) : (μ.node n).unplaced = n.unplaced := by
  cases n <;>
    simp [node, Node.unplaced, name, Name.unplaced, unplaced_node, unplacedAll_nodes,
      Function.comp_def]

theorem unplacedAll_nodes (ns : List Node) :
    Node.unplacedAll (μ.nodes ns) = Node.unplacedAll ns := by
  cases ns <;> simp [nodes, Node.unplacedAll, unplaced_node, unplacedAll_nodes]

end

/-! ### Staying -/

@[simp] theorem stay_span (s : Span) : stay.span s = s := rfl

@[simp] theorem stay_token (t : Token) : stay.token t = t := rfl

@[simp] theorem stay_name : stay.name = id := rfl

@[simp] theorem stay_complaint (c : Complaint) : stay.complaint c = c := by
  cases c <;> rfl

mutual

@[simp] theorem stay_node (n : Node) : stay.node n = n := by
  cases n <;> simp [node, stay_node, stay_nodes]

theorem stay_nodes (ns : List Node) : stay.nodes ns = ns := by
  cases ns <;> simp [nodes, stay_node, stay_nodes]

end

end Moving

end ExprLang
