import ExprLang.Syntax.Node

/-!
# Walks over trees

A walk visits the nodes of a tree from left to right, a node before what is below it. It can be
told to stop at some nodes: these are visited, and it does not go below them.

## Implementation notes

A walk is the list of its visits, each with the level that it goes down to. What a walk finds, and
whether it stays within a number of levels, is read off that list.
-/

namespace ExprLang

namespace Node

/-- A bound name as a node of its own. -/
def ofName (n : Name) : Node :=
  .identifier n.text n.span

/-- A node that a walk comes to, and the level that it stands on; the root is on level one. -/
structure Visit where
  level : Nat
  node : Node

/-- The visit of a node, and the visits below it unless the walk stops there. -/
def visit (stop : Node → Bool) (level : Nat) (n : Node) (below : List Visit) : List Visit :=
  ⟨level, n⟩ :: if stop n then [] else below

mutual

/-- The visits of a walk below a node, given the level of the nodes right below it. -/
def walkBelow (stop : Node → Bool) (level : Nat) : Node → List Visit
  | .program ss _ | .block ss _ => walkAll stop level ss
  | .letBinding n v _ =>
      visit stop level (ofName n) [] ++ visit stop level v (walkBelow stop (level + 1) v)
  | .returning v _ => visit stop level v (walkBelow stop (level + 1) v)
  | .evaluated e _ => visit stop level e (walkBelow stop (level + 1) e)
  | .identifier .. | .integer .. | .boolean .. | .placeholder .. => []
  | .array es _ => walkAll stop level es
  | .unary _ e _ => visit stop level e (walkBelow stop (level + 1) e)
  | .binary l _ r _ =>
      visit stop level l (walkBelow stop (level + 1) l) ++
        visit stop level r (walkBelow stop (level + 1) r)
  | .ifThen c t _ =>
      visit stop level c (walkBelow stop (level + 1) c) ++
        visit stop level t (walkBelow stop (level + 1) t)
  | .ifElse c t e _ =>
      visit stop level c (walkBelow stop (level + 1) c) ++
        visit stop level t (walkBelow stop (level + 1) t) ++
        visit stop level e (walkBelow stop (level + 1) e)
  | .function ps b _ =>
      (ps.flatMap fun p => visit stop level (ofName p) []) ++
        visit stop level b (walkBelow stop (level + 1) b)
  | .call f es _ =>
      visit stop level f (walkBelow stop (level + 1) f) ++ walkAll stop level es
  | .index l i _ =>
      visit stop level l (walkBelow stop (level + 1) l) ++
        visit stop level i (walkBelow stop (level + 1) i)

/-- The visits of a walk over a list of trees that stand on a level. -/
def walkAll (stop : Node → Bool) (level : Nat) : List Node → List Visit
  | [] => []
  | n :: rest =>
      visit stop level n (walkBelow stop (level + 1) n) ++ walkAll stop level rest

end

/-- The visits of a walk over a tree. -/
def walk (stop : Node → Bool) (n : Node) : List Visit :=
  visit stop 1 n (n.walkBelow stop 2)

/-- The nodes of a tree at which a walk stops. -/
def stops (stop : Node → Bool) (n : Node) : List Node :=
  ((n.walk stop).map Visit.node).filter stop

/-- The nodes of a tree at which a walk stops, if it goes down no more levels than the limit. -/
def stopsWithin (limit : Nat) (stop : Node → Bool) (n : Node) : Option (List Node) :=
  if (n.walk stop).all fun v => v.level ≤ limit then some (n.stops stop) else none

/-! ### Search -/

/-- The visits of a walk over all nodes of a tree. -/
def fullWalk (n : Node) : List Visit :=
  n.walk fun _ => false

/-- All nodes of a tree. -/
def nodes (n : Node) : List Node :=
  n.fullWalk.map Visit.node

/-- Whether some node of a tree is equal to a given one apart from places. -/
def contains (tree element : Node) : Bool :=
  tree.nodes.any fun n => n.sameAs element

/-- Whether a node is found among visits before one of them is beyond the limit. -/
def foundWithin (limit : Nat) (element : Node) : List Visit → Option Bool
  | [] => some false
  | v :: rest =>
      if limit < v.level then none
      else if v.node.sameAs element then some true
      else foundWithin limit element rest

/-- Whether some node of a tree is equal to a given one apart from places, if a search that ends at
the first such node goes down no more levels than the limit. -/
def containsWithin (limit : Nat) (tree element : Node) : Option Bool :=
  foundWithin limit element tree.fullWalk

theorem foundWithin_eq {limit : Nat} {element : Node} {visits : List Visit} {found : Bool}
    (h : foundWithin limit element visits = some found) :
    found = visits.any fun v => v.node.sameAs element := by
  induction visits with
  | nil => simpa [foundWithin] using h.symm
  | cons v rest ih =>
      by_cases hl : limit < v.level
      · simp [foundWithin, hl] at h
      · by_cases hv : v.node.sameAs element = true
        · simp [foundWithin, hl, hv] at h
          simp [hv, ← h]
        · simp only [foundWithin, hl, hv, if_false] at h
          simpa [hv] using ih h

/-- A search within a limit, where it has an answer, tells whether the tree contains the node. -/
theorem containsWithin_eq {limit : Nat} {tree element : Node} {found : Bool}
    (h : tree.containsWithin limit element = some found) : found = tree.contains element := by
  rw [foundWithin_eq h, contains, nodes, List.any_map]
  rfl

end Node

end ExprLang
