import ProtocolInference.Invariant
import ProtocolInference.Network.Basic

/-!
# Recording the events of an invariant

A checker that can only look at channels sees the events of an invariant when they
are recorded on a channel of their own. Each transition on such an event gets a fresh
state in its middle, from which the recording is sent on.
-/

namespace ProtocolInference

/-- The transitions of an automaton on events of the invariant, with their states. -/
def Automaton.involved (a : Automaton) (invariant : Invariant) : List (Nat × Event × Nat) :=
  a.states.flatMap fun s =>
    (s.transitions.filter fun (e, _) => invariant.involves e).map fun (e, target) =>
      (s.id, e, target)

/-- Replaces the transition by two, through a fresh state that is neither initial nor
accepting. The second one sends the token of the event on the given channel. -/
def Automaton.recordTransition (channel : Channel) (a : Automaton) :
    Nat × Event × Nat → Except AutomatonFault Automaton
  | (source, event, target) => do
    let (a, middle) := a.addState false false
    let a ← a.removeTransition source event target
    let a ← a.addTransition source event middle
    a.addSyntheticTransition middle (.sendFrom event.token channel a.pid) target

/-- The network that records the events of the invariant on a new channel, from the
process of its first event to itself. -/
def Network.instrument (n : Network) (invariant : Invariant) : Except AutomatonFault Network := do
  let owner := invariant.first.pid
  let channel : Channel := ⟨owner, owner, n.channels.length, true⟩
  let automata ← n.automata.mapM fun a =>
    (a.involved invariant).foldlM (Automaton.recordTransition channel) a
  pure ⟨n.channels ++ [channel], automata⟩

end ProtocolInference
