import ProtocolInference.Abstraction.Basic
import ProtocolInference.Network.Basic

/-!
# Pictures of networks and abstractions

Descriptions of graphs for a drawing program: one cluster of circles for every
automaton, or one box for every block.
-/

namespace ProtocolInference.Graphviz

/-- A label with its quotation marks escaped. -/
def escape (label : String) : String :=
  String.join (label.toList.map fun c => if c = '"' then "\\\"" else String.singleton c)

/-- The node of a state. Accepting states have a double line, initial ones a colour. -/
def state (pid : Nat) (s : State) : String :=
  let shape := if s.accept then "doublecircle" else "circle"
  let fill := if s.initial then ", style=filled, fillcolor=\"lightblue\"" else ""
  s!"    \"p{pid}_{s.id}\" [label=\"{s.id}\", shape={shape}{fill}];\n"

/-- The arrows out of a state. -/
def arrows (pid : Nat) (s : State) : String :=
  String.join (s.transitions.map fun (e, target) =>
    let label := escape e.display
    s!"    \"p{pid}_{s.id}\" -> \"p{pid}_{target}\" [label=\"{label}\"];\n")

/-- The cluster of an automaton. -/
def automaton (a : Automaton) : String :=
  s!"  subgraph cluster_p{a.pid} \x7b\n    label=\"p{a.pid}\";\n" ++
    String.join (a.states.map (state a.pid)) ++
    String.join (a.states.map (arrows a.pid)) ++ "  \x7d\n"

/-- The picture of a network. -/
def network (n : Network) : String :=
  "digraph CFSM \x7b\n  rankdir=LR;\n  node [shape=circle];\n\n" ++
    String.join (n.automata.map automaton) ++ "\x7d\n"

/-- The colour of a block. -/
def colour (b : Block) : String :=
  match b.initial, b.accept with
  | true, true => "gold"
  | true, false => "lightblue"
  | false, true => "lightgreen"
  | false, false => "white"

/-- The picture of an abstraction. -/
def abstraction (g : Abstraction) : String :=
  "digraph GFSM \x7b\n  rankdir=LR;\n  node [shape=box, style=filled];\n\n" ++
    String.join (g.live.map fun b =>
      let fill := colour b
      s!"  \"P{b.id}\" [label=\"P{b.id} ({b.size} obs)\", fillcolor=\"{fill}\"];\n") ++
    "\n" ++
    String.join (g.live.map fun b =>
      String.join ((g.transitionsOf b).map fun (e, target) =>
        let label := escape e.display
        s!"  \"P{b.id}\" -> \"P{target}\" [label=\"{label}\"];\n")) ++
    "\x7d\n"

end ProtocolInference.Graphviz
