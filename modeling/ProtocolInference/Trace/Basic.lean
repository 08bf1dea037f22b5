import ProtocolInference.Event.Validity
import ProtocolInference.Graph.DepthFirst

/-!
# Traces as graphs of observations

A trace is a graph whose nodes are observations and whose edges are the events that
lead from one observation to the next. Its root is the observation the execution
starts from. A trace that describes an execution is acyclic, which `validate`
checks together with the shape of its observations.
-/

namespace ProtocolInference

/-- An event that leads from the observation `source` to the observation `target`. -/
structure Edge where
  source : Nat
  event : Event
  target : Nat
  deriving DecidableEq, Repr, Inhabited

/-- A graph of observations, numbered from the root, which is observation zero. -/
structure Trace where
  channels : List Channel
  root : Observation
  later : List Observation := []
  edges : List Edge := []
  deriving Repr, Inhabited

namespace Trace

/-- All observations in the order of their numbers. -/
def observations (t : Trace) : List Observation := t.root :: t.later

/-- Number of observations. -/
def size (t : Trace) : Nat := t.observations.length

/-- The processes are those that the root knows. -/
def processes (t : Trace) : Nat := t.root.locals.length

def observation? (t : Trace) (node : Nat) : Option Observation :=
  t.observations[node]?

/-- Adds an observation; its number is the former size. -/
def addObservation (t : Trace) (o : Observation) : Trace :=
  { t with later := t.later ++ [o] }

/-- Adds an edge, if its event fits the system and its ends exist. -/
def addEdge (t : Trace) (source : Nat) (event : Event) (target : Nat) :
    Except TraceError Trace :=
  match event.validate t.processes t.channels with
  | .error cause => .error cause
  | .ok () =>
    if source < t.size ∧ target < t.size then
      .ok { t with edges := t.edges ++ [⟨source, event, target⟩] }
    else .error (.unknownObservation event)

/-- The edges out of an observation, in the order in which they were added. -/
def next (t : Trace) (node : Nat) : List (Event × Nat) :=
  (t.edges.filter (·.source == node)).map fun e => (e.event, e.target)

/-- The observations and edges as a graph. -/
def graph (t : Trace) : Graph :=
  ((List.range t.size).map fun node => (t.next node).map (·.2)).toArray

/-! ### Well-formed traces -/

/-- Checks one observation against the root and the channels. -/
def checkObservation (t : Trace) (o : Observation) : Except TraceError Unit :=
  if o.locals.length ≠ t.processes then .error (.localCount o t.processes)
  else if o.queues.size ≠ t.channels.length then .error (.queueCount o t.channels.length)
  else .ok ()

/-- Checks that the graph has no cycle, that its observations know as many processes
as the root and as many channels as the system, that the root reaches them all,
that the root is initial and that some observation is accepting. -/
def validate (t : Trace) : Except TraceError Unit := do
  if t.graph.hasCycle then throw .cycle
  t.observations.forM t.checkObservation
  let reached := (t.graph.preorder [0]).length
  if reached ≠ t.size then throw (.unreachable (t.size - reached))
  unless t.root.isInitial do throw .rootNotInitial
  unless t.observations.any (·.isAccept) do throw .neverAccepting

end Trace

end ProtocolInference
