import ProtocolInference.Automaton.Reduction
import ProtocolInference.Fault

/-!
# Networks of automata

A network is one automaton for every process together with the channels between
them.
-/

namespace ProtocolInference

/-- Automata connected by FIFO channels. -/
structure Network where
  channels : List Channel
  automata : List Automaton
  deriving DecidableEq, Repr, Inhabited

/-- The numbers of parts of a network. -/
structure NetworkSize where
  processes : Nat
  channels : Nat
  states : Nat
  transitions : Nat
  deriving DecidableEq, Repr

namespace Network

/-- The network of the given automata, if there is one for each process. -/
def ofAutomata (processes : Nat) (channels : List Channel) (automata : List Automaton) :
    Except Fault Network :=
  if automata.length = processes then .ok ⟨channels, automata⟩ else .error .automataCount

/-- Number of processes; there is one automaton for each. -/
def processes (n : Network) : Nat := n.automata.length

/-- The index that stands for internal steps where they are written as sends: the
first that no channel has. -/
def internalIndex (n : Network) : Nat := n.channels.length

/-- The first synthetic channel. -/
def syntheticChannel? (n : Network) : Option Channel :=
  n.channels.find? (·.synthetic)

/-- The events of all automata. -/
def alphabet (n : Network) : List Event :=
  Ascending.ofList (n.automata.flatMap (·.alphabet))

def size (n : Network) : NetworkSize :=
  ⟨n.processes, n.channels.length, (n.automata.flatMap (·.states)).length,
    (n.automata.map (·.transitionCount)).foldl (· + ·) 0⟩

/-- The text of a network. -/
def display (n : Network) : String :=
  let channels := String.intercalate ", " (n.channels.map (·.display))
  s!"CFSM[processes={n.processes}, channels=[{channels}]]\n" ++
    String.join (n.automata.map (·.display))

end Network

end ProtocolInference
