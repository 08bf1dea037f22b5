/-!
# Depth-first search of a finite graph

A graph is the array of the successor lists of its nodes. The search keeps a stack
of nodes still to be entered and the marks of the nodes already entered. Each step
enters one node, so a graph of `n` nodes needs at most `n` steps.
-/

namespace ProtocolInference

/-- The successors of every node, in the order in which they are to be visited. -/
abbrev Graph := Array (List Nat)

namespace Graph

/-- The successors of a node. -/
def successors (g : Graph) (node : Nat) : List Nat :=
  g[node]?.getD []

/-- Whether a node has been entered. What is no node of the graph is never entered. -/
def entered (marks : Array Bool) (node : Nat) : Bool :=
  marks[node]?.getD true

/-- Enters up to `steps` nodes, taking them off the stack and putting the successors
of an entered node on top. The result lists the nodes in the order of entry. -/
def search (g : Graph) : Nat → List Nat → Array Bool → List Nat
  | 0, _, _ => []
  | steps + 1, stack, marks =>
    match stack.dropWhile (entered marks) with
    | [] => []
    | node :: rest =>
      node :: search g steps (g.successors node ++ rest) (marks.setIfInBounds node true)

/-- The nodes that the roots reach, in depth-first preorder from the roots in turn. -/
def preorder (g : Graph) (roots : List Nat) : List Nat :=
  g.search g.size roots (Array.replicate g.size false)

/-- The marks of the given nodes among `n` nodes. -/
def marksOf (n : Nat) (nodes : List Nat) : Array Bool :=
  nodes.foldl (fun marks node => marks.setIfInBounds node true) (Array.replicate n false)

/-- The marks of the nodes that the roots reach. -/
def reached (g : Graph) (roots : List Nat) : Array Bool :=
  marksOf g.size (g.preorder roots)

/-- The nodes that the roots reach, in ascending order. -/
def closure (g : Graph) (roots : List Nat) : List Nat :=
  let marks := g.reached roots
  (List.range g.size).filter fun node => marks[node]?.getD false

/-- Whether the node lies on a cycle: one of its successors reaches it. -/
def onCycle (g : Graph) (node : Nat) : Bool :=
  (g.preorder (g.successors node)).contains node

/-- Whether some node lies on a cycle. -/
def hasCycle (g : Graph) : Bool :=
  (List.range g.size).any g.onCycle

end Graph

end ProtocolInference
