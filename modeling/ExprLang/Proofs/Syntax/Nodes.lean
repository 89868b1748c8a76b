import ExprLang.Syntax.Traversal

/-!
# The nodes of a tree

The nodes of a tree are its root and the nodes of the trees right below it, from left to right. What
holds of all nodes of a tree is so proved along the construction of the tree.
-/

namespace ExprLang

namespace Node

/-- The trees right below a node, from left to right. -/
def children : Node → List Node
  | .program ss _ | .block ss _ => ss
  | .letBinding n v _ => [ofName n, v]
  | .returning v _ => [v]
  | .evaluated e _ => [e]
  | .identifier .. | .integer .. | .boolean .. | .placeholder .. => []
  | .array es _ => es
  | .unary _ e _ => [e]
  | .binary l _ r _ => [l, r]
  | .ifThen c t _ => [c, t]
  | .ifElse c t e _ => [c, t, e]
  | .function ps b _ => ps.map ofName ++ [b]
  | .call f es _ => f :: es
  | .index l i _ => [l, i]

mutual

/-- A walk below a node comes to the nodes of its children, whatever the levels are. -/
theorem map_walkBelow (level : Nat) (n : Node) :
    (walkBelow (fun _ => false) level n).map Visit.node = n.children.flatMap nodes := by
  cases n <;>
    simp [walkBelow, visit, children, nodes, fullWalk, walk, ofName, map_walkBelow, map_walkAll,
      List.flatMap_map, List.map_flatMap]

theorem map_walkAll (level : Nat) (ns : List Node) :
    (walkAll (fun _ => false) level ns).map Visit.node = ns.flatMap nodes := by
  cases ns <;> simp [walkAll, visit, nodes, fullWalk, walk, map_walkBelow, map_walkAll]

end

theorem nodes_eq (n : Node) : n.nodes = n :: n.children.flatMap nodes := by
  rw [← map_walkBelow 2 n]
  rfl

/-- A property of all nodes of a tree is one of its root and of all nodes of its children. -/
theorem forall_mem_nodes {P : Node → Prop} {n : Node} :
    (∀ m ∈ n.nodes, P m) ↔ P n ∧ ∀ c ∈ n.children, ∀ m ∈ c.nodes, P m := by
  rw [nodes_eq, List.forall_mem_cons]
  simp only [List.mem_flatMap, forall_exists_index, and_imp]
  exact and_congr_right fun _ => ⟨fun h c hc m hm => h m c hc hm, fun h m c hc hm => h c hc m hm⟩

theorem height_pos (n : Node) : 0 < n.height := by
  cases n <;> exact Nat.succ_pos _

end Node

end ExprLang
