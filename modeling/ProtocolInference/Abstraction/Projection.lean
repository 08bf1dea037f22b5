import ProtocolInference.Abstraction.Basic
import ProtocolInference.Network.Basic

/-!
# Projecting an abstraction onto its processes

In the automaton of a process every block is a state, and the events of the other
processes are silent: a state accepts what some block that it reaches silently
accepts, and has the transitions on own events of all of those. What the initial
states do not reach is pruned, and states that agree are merged.
-/

namespace ProtocolInference.Abstraction

/-- Where the blocks go silently, as a graph of block numbers. -/
def silentGraph (g : Abstraction) (pid : Nat) : Graph :=
  g.blocks.map fun
    | some b => ((g.transitionsOf b).filter (·.1.pid ≠ pid)).map (·.2)
    | none => []

/-- The numbers of the states that stand for the blocks. -/
def stateNumbers (g : Abstraction) : Array Nat :=
  g.ids.zipIdx.foldl (fun table (id, i) => table.setIfInBounds id (i + 1))
    (Array.replicate g.blocks.size 0)

/-- The state that stands for a block. -/
def projectBlock (g : Abstraction) (pid : Nat) (silent : Graph) (numbers : Array Nat)
    (b : Block) : State :=
  let reached := (silent.closure [b.id]).filterMap g.block?
  { id := numbers[b.id]?.getD 0
    initial := b.isInitialFor pid
    accept := reached.any (·.accept)
    transitions := Ascending.ofList (reached.flatMap fun c =>
      ((g.transitionsOf c).filter (·.1.pid == pid)).map fun (e, t) =>
        (e, numbers[t]?.getD 0)) }

/-- The automaton of a process with one state for every block. -/
def unfold (g : Abstraction) (pid : Nat) : Automaton :=
  let silent := g.silentGraph pid
  let numbers := g.stateNumbers
  { pid
    states := g.live.map (g.projectBlock pid silent numbers)
    nextId := g.size + 1 }

/-- The automaton of a process. It needs an initial and an accepting state. -/
def project (g : Abstraction) (pid : Nat) : Except Fault Automaton :=
  let a := ((g.unfold pid).prune.1).minimize.1
  let initial := a.initialStates.length
  let accept := a.acceptStates.length
  if initial = 0 ∨ accept = 0 then
    .error (.noEnds pid initial accept a.display g.display)
  else .ok a

/-- The network of the automata of all processes. -/
def network (g : Abstraction) : Except Fault Network := do
  let automata ← (List.range g.processes).mapM g.project
  pure ⟨g.channels, automata⟩

end ProtocolInference.Abstraction
