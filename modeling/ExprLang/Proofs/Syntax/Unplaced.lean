import ExprLang.Syntax.Printer

/-!
# Trees apart from places

Two trees are equal apart from places if they are the same without them. The text of a tree and its
height do not depend on places.
-/

namespace ExprLang

theorem Name.sameAs_iff (a b : Name) : a.sameAs b = true ↔ a.unplaced = b.unplaced := by
  simp [Name.sameAs, Name.unplaced]

namespace Node

theorem unplacedAll_eq_map (ns : List Node) : unplacedAll ns = ns.map unplaced := by
  induction ns with
  | nil => rfl
  | cons n rest ih => simp [unplacedAll, ih]

theorem printAll_eq_map (ns : List Node) : printAll ns = ns.map print := by
  induction ns with
  | nil => rfl
  | cons n rest ih => simp [printAll, ih]

theorem sameNames_iff (as bs : List Name) :
    sameNames as bs = true ↔ as.map Name.unplaced = bs.map Name.unplaced := by
  induction as generalizing bs with
  | nil => cases bs <;> simp [sameNames]
  | cons a as ih => cases bs <;> simp [sameNames, Name.sameAs_iff, ih]

mutual

/-- Trees are equal apart from places if they are the same without them. -/
theorem sameAs_iff (a b : Node) : a.sameAs b = true ↔ a.unplaced = b.unplaced := by
  cases a <;> cases b <;>
    simp [sameAs, unplaced, Name.sameAs_iff, Token.sameAs_iff, sameNames_iff, sameAs_iff,
      sameAll_iff, and_assoc]

theorem sameAll_iff (as bs : List Node) :
    sameAll as bs = true ↔ unplacedAll as = unplacedAll bs := by
  cases as <;> cases bs <;> simp [sameAll, unplacedAll, sameAs_iff, sameAll_iff]

end

@[simp] theorem isEvaluated_unplaced (n : Node) : n.unplaced.isEvaluated = n.isEvaluated := by
  cases n <;> rfl

@[simp] theorem isOperation_unplaced (n : Node) : n.unplaced.isOperation = n.isOperation := by
  cases n <;> rfl

mutual

@[simp] theorem height_unplaced (n : Node) : n.unplaced.height = n.height := by
  cases n <;> simp [unplaced, height, height_unplaced, heightAll_unplacedAll]

@[simp] theorem heightAll_unplacedAll (ns : List Node) :
    heightAll (unplacedAll ns) = heightAll ns := by
  cases ns <;> simp [unplacedAll, heightAll, height_unplaced, heightAll_unplacedAll]

end

mutual

@[simp] theorem print_unplaced (n : Node) : n.unplaced.print = n.print := by
  cases n <;>
    simp [unplaced, print, print_unplaced, printAll_unplacedAll, printStatements_unplacedAll,
      conditionText, Name.unplaced, Token.unplaced, Function.comp_def]
  case block ss _ => cases ss <;> rfl

@[simp] theorem printAll_unplacedAll (ns : List Node) :
    printAll (unplacedAll ns) = printAll ns := by
  cases ns <;> simp [unplacedAll, printAll, print_unplaced, printAll_unplacedAll]

@[simp] theorem printStatements_unplacedAll (ns : List Node) :
    printStatements (unplacedAll ns) = printStatements ns := by
  match ns with
  | [] => rfl
  | [n] => simp [unplacedAll, printStatements, print_unplaced]
  | n :: next :: rest =>
      have ih := printStatements_unplacedAll (next :: rest)
      simp only [unplacedAll] at ih
      simp [unplacedAll, printStatements, print_unplaced, ih, terminator]

end

/-- Trees that are equal apart from places have the same text. -/
theorem printWithin_congr {a b : Node} (h : a.unplaced = b.unplaced) (limit : Nat) :
    a.printWithin limit = b.printWithin limit := by
  have hh : a.height = b.height := by rw [← height_unplaced a, h, height_unplaced]
  have hp : a.print = b.print := by rw [← print_unplaced a, h, print_unplaced]
  rw [printWithin, printWithin, hh, hp]

end Node

end ExprLang
