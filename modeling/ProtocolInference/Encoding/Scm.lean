import ProtocolInference.Invariant
import ProtocolInference.Network.Basic
import ProtocolInference.Text.Blank

/-!
# Networks in the language SCM

SCM describes automata that send and receive on numbered channels. It has no
acceptance and no internal steps: acceptance is left out, and an internal step is a
send of its token on a channel of its own.
-/

namespace ProtocolInference.Scm

/-- What a transition does. Internal steps use the channel `internalIndex`. -/
def action (internalIndex : Nat) (e : Event) : String :=
  match e.kind, e.channel with
  | .send, some c => s!"{c.index} ! {e.label}"
  | .receive, some c => s!"{c.index} ? {e.label}"
  | _, _ => s!"{internalIndex} ! {e.token}"

/-- The line of a transition. -/
def transition (internalIndex : Nat) : Event × Nat → String
  | (e, target) =>
    let does := action internalIndex e
    s!"to {target} : when true , {does} ;\n"

/-- The section of a state. -/
def state (internalIndex : Nat) (s : State) : String :=
  s!"state {s.id} :\n" ++ String.join (s.transitions.map (transition internalIndex))

/-- The section of an automaton. -/
def automaton (internalIndex : Nat) (a : Automaton) : String :=
  let initial := String.intercalate " " (a.initialStates.map fun id => toString id)
  s!"automaton p{a.pid} :\n\ninitial : {initial}\n\n" ++
    String.join (a.states.map fun s => state internalIndex s ++ "\n")

/-- The comment line of a channel. -/
def channel (c : Channel) : String :=
  let mark := if c.synthetic then " (invariant)" else ""
  s!"channel {c.index} : p{c.src} -> p{c.dst}{mark}\n"

/-- The text of a network, with the encoding of the invariant, if it has one, at the
end. -/
def network (n : Network) (invariant : Option Invariant) : String :=
  let internal := n.alphabet.any (·.isInternal)
  let count := n.channels.length + if internal then 1 else 0
  s!"scm cfsm :\n\nnb_channels = {count} ;\n/*\n" ++
    String.join (n.channels.map channel) ++
    (if internal then s!"channel {n.internalIndex} : local events\n" else "") ++
    "*/\n\nparameters :\n\n" ++
    String.join (n.automata.map fun a => automaton n.internalIndex a ++ "\n") ++
    match invariant.bind (·.encoding) with
    | some encoding => Text.trimEnd encoding ++ "\n"
    | none => ""

end ProtocolInference.Scm
