import ProtocolInference.Automaton.Basic
import ProtocolInference.Graph.DepthFirst

/-!
# Reduction of automata

Pruning removes the states that no initial state reaches. Minimisation merges states
that agree on being initial, on being accepting and on their transitions; a merge may
make further states agree, so it goes on until no two states do.
-/

namespace ProtocolInference.Automaton

/-! ### Pruning -/

/-- The targets of every state as a graph, whose nodes are the numbers below the next
one. -/
def graph (a : Automaton) : Graph :=
  a.states.foldl (fun g s => g.setIfInBounds s.id (s.transitions.map (·.2)))
    (Array.replicate a.nextId [])

/-- The automaton without the states that no initial state reaches, and how many those
are. -/
def prune (a : Automaton) : Automaton × Nat :=
  let marks := a.graph.reached a.initialStates
  let kept := a.states.filter fun s => marks[s.id]?.getD false
  ({ a with states := kept }, a.states.length - kept.length)

/-! ### Minimisation -/

/-- Whether two states agree in all but their number. -/
def agree (s t : State) : Bool :=
  s.initial == t.initial && s.accept == t.accept && s.transitions == t.transitions

/-- The number of the first state that agrees with `s`. -/
def representative (states : List State) (s : State) : Nat :=
  ((states.find? (agree s)).map (·.id)).getD s.id

/-- The states that are not the first of those that agree with them, each with the
number of that first state. -/
def merges (states : List State) : List (Nat × Nat) :=
  (states.map fun s => (s.id, representative states s)).filter fun (id, first) => id ≠ first

/-- Replaces the targets that have been merged away. -/
def redirect (merged : List (Nat × Nat)) (ts : Transitions) : Transitions :=
  Ascending.ofList (ts.map fun (e, target) => (e, (merged.lookup target).getD target))

/-- Merges every state into the first that agrees with it. -/
def collapse (states : List State) : List State :=
  let merged := merges states
  (states.filter fun s => (merged.lookup s.id).isNone).map fun s =>
    { s with transitions := redirect merged s.transitions }

/-- Merges until no two states agree. Every round but the last removes a state. -/
def collapseAll : Nat → List State → List State
  | 0, states => states
  | rounds + 1, states =>
    if (merges states).isEmpty then states else collapseAll rounds (collapse states)

/-- The automaton in which no two states agree, and the number of states merged away. -/
def minimize (a : Automaton) : Automaton × Nat :=
  let kept := collapseAll a.states.length a.states
  ({ a with states := kept }, a.states.length - kept.length)

end ProtocolInference.Automaton
