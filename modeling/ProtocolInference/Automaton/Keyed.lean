import Mathlib.Tactic.Common
import ProtocolInference.Automaton.Reduction
import ProtocolInference.Proofs.Order.Ascending

/-!
# Automata as keyed tables

A state lies in a table under its number, and its transitions lie in a table of its own:
under each event the set of the targets. An entry is made for the first target of an event
and goes with the last. Numbers have 32 bits, and the next one is a counter which may come to
its end. `flatten` gives the automaton that lists the same states and transitions.
-/

namespace ProtocolInference

open Std

/-- A state with the targets of its transitions, event by event. -/
structure KeyedState where
  id : UInt32
  pid : Nat
  initial : Bool
  accept : Bool
  transitions : ExtTreeMap Event (ExtTreeSet UInt32) := ∅
  deriving DecidableEq

/-- The automaton of process `pid`: its states under their numbers, and the number that the
next new state will have. -/
structure KeyedAutomaton where
  pid : Nat
  states : ExtTreeMap UInt32 KeyedState := ∅
  nextId : UInt32 := 1
  deriving DecidableEq

/-- How the counter counts where it has come to its end: it does not, or it wraps around. -/
inductive Counting where
  | checked
  | wrapping
  deriving DecidableEq, Repr

/-- The number after the given one. -/
def Counting.next : Counting → UInt32 → Option UInt32
  | .checked, n => if n.toNat + 1 < UInt32.size then some (n + 1) else none
  | .wrapping, n => some (n + 1)

/-- Why an operation cannot be met. -/
inductive OperationFault where
  | automaton (cause : AutomatonFault)
  | overflow
  deriving DecidableEq, Repr

/-- One call of an operation on an automaton. -/
inductive Operation where
  | state (initial accept : Bool)
  | transition (source : UInt32) (event : Event) (target : UInt32)
  | synthetic (source : UInt32) (event : Event) (target : UInt32)
  | removal (source : UInt32) (event : Event) (target : UInt32)
  | prune
  | minimize
  deriving DecidableEq, Repr

namespace Operation

/-- Whether the operation adds a state. -/
def addsState : Operation → Bool
  | .state .. => true
  | _ => false

/-- The number of the operations that add a state. -/
def additions (ops : List Operation) : Nat := ops.countP addsState

end Operation

namespace KeyedState

/-- A state without transitions. -/
def new (id : UInt32) (pid : Nat) (initial accept : Bool) : KeyedState :=
  { id, pid, initial, accept }

/-- A state without entries. -/
def isSink (s : KeyedState) : Bool := s.transitions.isEmpty

/-- The targets of the transitions, event by event. -/
def targets (s : KeyedState) : List UInt32 := s.transitions.toList.flatMap (·.2.toList)

/-- What states have in common that are to be one. -/
def signature (s : KeyedState) : Bool × Bool × ExtTreeMap Event (ExtTreeSet UInt32) :=
  (s.initial, s.accept, s.transitions)

/-- Adds a target to the entry of an event. -/
def insertTarget (s : KeyedState) (e : Event) (target : UInt32) : KeyedState :=
  { s with transitions := s.transitions.alter e fun ts => some ((ts.getD ∅).insert target) }

/-- Adds a transition on an event of the process itself. -/
def addTransition (s : KeyedState) (e : Event) (target : UInt32) :
    Except AutomatonFault KeyedState :=
  if e.pid ≠ s.pid then .error (.foreignEvent e s.pid) else .ok (s.insertTarget e target)

/-- Adds a transition on a synthetic send, of whatever process. -/
def addSyntheticTransition (s : KeyedState) (e : Event) (target : UInt32) :
    Except AutomatonFault KeyedState :=
  if e.isSyntheticSend then .ok (s.insertTarget e target) else .error (.notSynthetic e)

/-- Takes a target out of the entry of an event, and the entry away if it is left empty. -/
def eraseTarget (s : KeyedState) (e : Event) (ts : ExtTreeSet UInt32) (target : UInt32) :
    KeyedState :=
  let rest := ts.erase target
  { s with transitions :=
      if rest.isEmpty then s.transitions.erase e else s.transitions.insert e rest }

/-- Removes a transition that exists. -/
def removeTransition (s : KeyedState) (e : Event) (target : UInt32) :
    Except AutomatonFault KeyedState :=
  match s.transitions[e]? with
  | none => .error (.noTransition s.id.toNat e)
  | some ts =>
    if target ∉ ts then .error (.noTransitionTo s.id.toNat e target.toNat)
    else .ok (s.eraseTarget e ts target)

/-- Points every transition into one state at another. -/
def redirect (s : KeyedState) (gone keep : UInt32) : KeyedState :=
  { s with transitions := s.transitions.map fun _ ts =>
      if gone ∈ ts then (ts.erase gone).insert keep else ts }

/-- The transitions as pairs of an event and a target. -/
def flatten (s : KeyedState) : State where
  id := s.id.toNat
  initial := s.initial
  accept := s.accept
  transitions := s.transitions.toList.flatMap fun (e, ts) => ts.toList.map fun t => (e, t.toNat)

end KeyedState

namespace KeyedAutomaton

/-- The automaton of a process, without any state. -/
def empty (pid : Nat) : KeyedAutomaton := { pid }

/-- The states in ascending order of their keys. -/
def entries (t : KeyedAutomaton) : List KeyedState := t.states.toList.map (·.2)

/-! ### Adding and removing -/

/-- Adds a state and returns its number. What lies under that number is replaced. -/
def addState (counting : Counting) (t : KeyedAutomaton) (initial accept : Bool) :
    Except OperationFault (KeyedAutomaton × UInt32) :=
  match counting.next t.nextId with
  | none => .error .overflow
  | some next =>
    let s := KeyedState.new t.nextId t.pid initial accept
    .ok ({ t with states := t.states.insert t.nextId s, nextId := next }, t.nextId)

/-- Changes the state with the given number, which has to be there. -/
def changeState (t : KeyedAutomaton) (id : UInt32)
    (change : KeyedState → Except AutomatonFault KeyedState) :
    Except AutomatonFault KeyedAutomaton :=
  match t.states[id]? with
  | none => .error (.noState t.pid id.toNat)
  | some s => (change s).map fun s => { t with states := t.states.insert id s }

/-- Changes a state that is to have a transition to another one, which has to be there
too. -/
def extendState (t : KeyedAutomaton) (source target : UInt32)
    (change : KeyedState → Except AutomatonFault KeyedState) :
    Except AutomatonFault KeyedAutomaton :=
  if target ∉ t.states then .error (.noState t.pid target.toNat)
  else t.changeState source change

def addTransition (t : KeyedAutomaton) (source : UInt32) (e : Event) (target : UInt32) :
    Except AutomatonFault KeyedAutomaton :=
  t.extendState source target (·.addTransition e target)

def addSyntheticTransition (t : KeyedAutomaton) (source : UInt32) (e : Event)
    (target : UInt32) : Except AutomatonFault KeyedAutomaton :=
  t.extendState source target (·.addSyntheticTransition e target)

def removeTransition (t : KeyedAutomaton) (source : UInt32) (e : Event) (target : UInt32) :
    Except AutomatonFault KeyedAutomaton :=
  t.changeState source (·.removeTransition e target)

/-! ### Pruning -/

/-- The numbers of the initial states. -/
def initialStates (t : KeyedAutomaton) : List UInt32 :=
  (t.entries.filter (·.initial)).map (·.id)

/-- The targets of every state as a graph, whose nodes are the numbers up to the greatest. -/
def graph (t : KeyedAutomaton) : Graph :=
  t.states.toList.foldl
    (fun g (id, s) => g.setIfInBounds id.toNat (s.targets.map (·.toNat)))
    (Array.replicate ((t.states.keys.getLastD 0).toNat + 1) [])

/-- The automaton without the states that no initial state reaches, and how many those
are. -/
def prune (t : KeyedAutomaton) : KeyedAutomaton × Nat :=
  let marks := t.graph.reached (t.initialStates.map (·.toNat))
  let kept := t.states.filter fun id _ => marks[id.toNat]?.getD false
  ({ t with states := kept }, t.states.size - kept.size)

/-! ### Minimisation -/

/-- The first state that has the signature of an earlier one, after the number of the
earlier one. -/
def firstPair (seen : List KeyedState) : List KeyedState → Option (UInt32 × UInt32)
  | [] => none
  | s :: rest =>
    match seen.find? (·.signature = s.signature) with
    | some first => some (first.id, s.id)
    | none => firstPair (seen ++ [s]) rest

/-- Makes one state of two. -/
def merge (t : KeyedAutomaton) (keep gone : UInt32) : KeyedAutomaton :=
  { t with states := (t.states.erase gone).map fun _ s => s.redirect gone keep }

/-- Merges pair after pair while there is one, and counts the merges. Each of them takes a
state away. -/
def mergeAll : Nat → KeyedAutomaton → KeyedAutomaton × Nat
  | 0, t => (t, 0)
  | rounds + 1, t =>
    match firstPair [] t.entries with
    | none => (t, 0)
    | some (keep, gone) =>
      let (t, merges) := mergeAll rounds (t.merge keep gone)
      (t, merges + 1)

/-- The automaton in which no two states have the same signature, and the number of
merges. -/
def minimize (t : KeyedAutomaton) : KeyedAutomaton × Nat := mergeAll t.states.size t

/-! ### Calls in turn -/

def perform (counting : Counting) (t : KeyedAutomaton) :
    Operation → Except OperationFault KeyedAutomaton
  | .state initial accept => (t.addState counting initial accept).map (·.1)
  | .transition source e target => (t.addTransition source e target).mapError .automaton
  | .synthetic source e target => (t.addSyntheticTransition source e target).mapError .automaton
  | .removal source e target => (t.removeTransition source e target).mapError .automaton
  | .prune => .ok t.prune.1
  | .minimize => .ok t.minimize.1

def run (counting : Counting) (t : KeyedAutomaton) (ops : List Operation) :
    Except OperationFault KeyedAutomaton :=
  ops.foldlM (perform counting) t

/-- The automaton with the same states and transitions in lists. -/
def flatten (t : KeyedAutomaton) : Automaton where
  pid := t.pid
  states := t.entries.map (·.flatten)
  nextId := t.nextId.toNat

end KeyedAutomaton

namespace Automaton

/-- The operation on the automaton that lists its states and transitions. -/
def perform (a : Automaton) : Operation → Except AutomatonFault Automaton
  | .state initial accept => .ok (a.addState initial accept).1
  | .transition source e target => a.addTransition source.toNat e target.toNat
  | .synthetic source e target => a.addSyntheticTransition source.toNat e target.toNat
  | .removal source e target => a.removeTransition source.toNat e target.toNat
  | .prune => .ok a.prune.1
  | .minimize => .ok a.minimize.1

def run (a : Automaton) (ops : List Operation) : Except AutomatonFault Automaton :=
  ops.foldlM perform a

end Automaton

end ProtocolInference
