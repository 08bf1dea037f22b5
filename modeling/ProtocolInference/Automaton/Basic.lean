import ProtocolInference.Event.Basic
import ProtocolInference.Order.Ascending

/-!
# Automata of single processes

The automaton of a process has states numbered from one. Its transitions are labelled
with events and kept, state by state, as an ascending set of pairs of an event and a
target. Numbers of removed states are not used again.
-/

namespace ProtocolInference

/-- The pairs of an event and a target, in ascending order. -/
abbrev Transitions := List (Event × Nat)

instance : Ord (Event × Nat) where
  compare := compareLex (compareOn Prod.fst) (compareOn Prod.snd)

namespace Transitions

/-- The targets of the transitions on an event, in ascending order. -/
def targets (ts : Transitions) (e : Event) : List Nat :=
  (ts.filter (·.1 == e)).map (·.2)

/-- The events that some transition is labelled with, each once, in ascending order. -/
def events (ts : Transitions) : List Event :=
  Ascending.ofList (ts.map (·.1))

end Transitions

/-- A state of an automaton. -/
structure State where
  id : Nat
  initial : Bool
  accept : Bool
  transitions : Transitions := []
  deriving DecidableEq, Repr, Inhabited

/-- The automaton of process `pid`: its states in ascending order of their numbers,
and the number that the next new state will have. -/
structure Automaton where
  pid : Nat
  states : List State := []
  nextId : Nat := 1
  deriving DecidableEq, Repr, Inhabited

/-- A request that an automaton cannot meet. -/
inductive AutomatonFault where
  | noState (pid id : Nat)
  | foreignEvent (event : Event) (pid : Nat)
  | notSynthetic (event : Event)
  | noTransition (id : Nat) (event : Event)
  | noTransitionTo (id : Nat) (event : Event) (target : Nat)
  deriving DecidableEq, Repr

/-- The words for a request that cannot be met. -/
def AutomatonFault.message : AutomatonFault → String
  | .noState pid id => s!"process {pid} has no state {id}"
  | .foreignEvent e pid => s!"event {e.display} does not belong to process {pid}"
  | .notSynthetic e => s!"{e.display} is not a synthetic send"
  | .noTransition id e => s!"state {id} has no transition on {e.display}"
  | .noTransitionTo id e target => s!"state {id} has no transition on {e.display} to {target}"

namespace State

/-- A state without transitions. -/
def isSink (s : State) : Bool := s.transitions.isEmpty

/-- The text of a state. -/
def display (s : State) : String :=
  s!"FSM_state: init[{s.initial}], accept[{s.accept}] id[{s.id}]"

end State

namespace Automaton

/-- The automaton of a process, without any state. -/
def empty (pid : Nat) : Automaton := { pid }

def state? (a : Automaton) (id : Nat) : Option State :=
  a.states.find? (·.id == id)

/-- Changes the state with the given number. -/
def updateState (a : Automaton) (id : Nat) (change : State → State) : Automaton :=
  { a with states := a.states.map fun s => if s.id = id then change s else s }

/-- Adds a state and returns its number. -/
def addState (a : Automaton) (initial accept : Bool) : Automaton × Nat :=
  ({ a with states := a.states ++ [⟨a.nextId, initial, accept, []⟩], nextId := a.nextId + 1 },
    a.nextId)

/-- Adds a transition between two states. -/
def insertTransition (a : Automaton) (source : Nat) (event : Event) (target : Nat) : Automaton :=
  a.updateState source fun s =>
    { s with transitions := Ascending.insert (event, target) s.transitions }

/-- Checks that both ends of a transition exist, the target first. -/
def checkEnds (a : Automaton) (source target : Nat) : Except AutomatonFault Unit :=
  if (a.state? target).isNone then .error (.noState a.pid target)
  else if (a.state? source).isNone then .error (.noState a.pid source)
  else .ok ()

/-- Adds a transition on an event of the process itself. -/
def addTransition (a : Automaton) (source : Nat) (event : Event) (target : Nat) :
    Except AutomatonFault Automaton := do
  a.checkEnds source target
  if event.pid ≠ a.pid then throw (.foreignEvent event a.pid)
  pure (a.insertTransition source event target)

/-- Adds a transition on a synthetic send, of whatever process. -/
def addSyntheticTransition (a : Automaton) (source : Nat) (event : Event) (target : Nat) :
    Except AutomatonFault Automaton := do
  a.checkEnds source target
  unless event.isSyntheticSend do throw (.notSynthetic event)
  pure (a.insertTransition source event target)

/-- Removes a transition that exists. -/
def removeTransition (a : Automaton) (source : Nat) (event : Event) (target : Nat) :
    Except AutomatonFault Automaton :=
  match a.state? source with
  | none => .error (.noState a.pid source)
  | some s =>
    if (s.transitions.targets event).isEmpty then .error (.noTransition source event)
    else if (event, target) ∉ s.transitions then .error (.noTransitionTo source event target)
    else .ok (a.updateState source fun s =>
      { s with transitions := s.transitions.filter (· ≠ (event, target)) })

/-- The numbers of the initial states. -/
def initialStates (a : Automaton) : List Nat :=
  (a.states.filter (·.initial)).map (·.id)

/-- The numbers of the accepting states. -/
def acceptStates (a : Automaton) : List Nat :=
  (a.states.filter (·.accept)).map (·.id)

/-- Number of transitions. -/
def transitionCount (a : Automaton) : Nat :=
  (a.states.flatMap (·.transitions)).length

/-- The events that some transition is labelled with. -/
def alphabet (a : Automaton) : List Event :=
  Ascending.ofList (a.states.flatMap fun s => s.transitions.map (·.1))

/-- Whether two automata have the same process, the same next number and the same
states, whatever the transitions. -/
def sameOutline (a b : Automaton) : Bool :=
  a.pid == b.pid && a.nextId == b.nextId &&
    a.states.map (fun s => (s.id, s.initial, s.accept)) ==
      b.states.map (fun s => (s.id, s.initial, s.accept))

/-- The text of an automaton: every state, and under it its transitions. -/
def display (a : Automaton) : String :=
  s!"FSM[pid={a.pid}, states={a.states.length}]\n" ++
    String.join (a.states.map fun s =>
      s!"  {s.display}\n" ++ String.join (s.transitions.map fun (e, target) =>
        s!"    --{e.display}--> {target}\n"))

end Automaton

end ProtocolInference
