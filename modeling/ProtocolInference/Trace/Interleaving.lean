import ProtocolInference.Trace.Basic

/-!
# All interleavings of what the processes did

An execution is recorded as one sequence of events for each process. A schedule
runs these sequences side by side, event by event, and a receive waits until its
label is at the head of its channel. The configurations that schedules reach form
a graph: a configuration is known by its progress, the number of events that each
process has executed. All configurations after the same total number of events
make up one layer, and every edge leads from a layer to the next.
-/

namespace ProtocolInference

namespace Interleaving

/-- How far each process has come, and what is in flight then. -/
structure Configuration where
  progress : List Nat
  queues : Queues
  deriving DecidableEq, Repr, Inhabited

/-- One process executes its next event, if it has one and the event is enabled. -/
def step? (events : List (List Event)) (c : Configuration) (pid : Nat) :
    Option (Event × Configuration) :=
  match (events[pid]?.bind fun sequence => c.progress[pid]?.bind (sequence[·]?)) with
  | none => none
  | some event =>
    if c.queues.enables event then
      match c.queues.apply event with
      | .ok queues => some (event, ⟨c.progress.modify pid (· + 1), queues⟩)
      | .error _ => none
    else none

/-- The steps from a configuration, in the order of the processes. -/
def steps (events : List (List Event)) (c : Configuration) : List (Event × Configuration) :=
  (List.range events.length).filterMap (step? events c)

/-- The configurations one step after a layer, each once, in the order in which they
are first met. The first schedule to a progress gives the contents of its channels. -/
def successors (events : List (List Event)) (layer : List Configuration) : List Configuration :=
  (layer.flatMap (steps events)).foldl
    (fun found (_, c) => if found.any (·.progress == c.progress) then found else found ++ [c]) []

/-- The edges from a layer whose first configuration has number `first` into the
layer `following`. -/
def edgesBetween (events : List (List Event)) (first : Nat)
    (layer following : List Configuration) : List Edge :=
  (layer.zipIdx first).flatMap fun (c, source) =>
    (steps events c).map fun (event, d) =>
      ⟨source, event, first + layer.length + following.findIdx (·.progress == d.progress)⟩

/-- The layers from the given one on, at most `n` more, and the edges between them. -/
def layers (events : List (List Event)) : Nat → Nat → List Configuration →
    List Configuration × List Edge
  | 0, _, layer => (layer, [])
  | n + 1, first, layer =>
    match successors events layer with
    | [] => (layer, [])
    | following =>
      let (configurations, edges) := layers events n (first + layer.length) following
      (layer ++ configurations, edgesBetween events first layer following ++ edges)

/-- The configuration that every schedule starts from. -/
def start (channels : List Channel) (events : List (List Event)) : Configuration :=
  ⟨events.map fun _ => 0, Queues.empty channels.length⟩

/-- The progress of a finished schedule. -/
def finish (events : List (List Event)) : List Nat :=
  events.map List.length

/-- A configuration as an observation: the local state of a process is named by its
progress, it is initial before the first event and accepting after the last. -/
def observe (events : List (List Event)) (c : Configuration) : Observation :=
  ⟨(c.progress.zip (finish events)).map fun (done, all) =>
    ⟨toString done, done == 0, done == all⟩, c.queues⟩

/-- Checks that every event fits the system and is listed under its own process. -/
def checkEvents (processes : Nat) (channels : List Channel) (events : List (List Event)) :
    Except TraceError Unit :=
  events.zipIdx.forM fun (sequence, pid) =>
    sequence.forM fun event => do
      event.validate processes channels
      if event.pid ≠ pid then throw (.misplaced event pid)

end Interleaving

open Interleaving in
/-- The graph of all schedules of the recorded sequences. It exists if the sequences
fit the system and some schedule runs all of them and leaves no message in flight. -/
def Trace.ofSequences (processes : Nat) (channels : List Channel) (events : List (List Event)) :
    Except TraceError Trace := do
  if events.length ≠ processes then throw (.sequenceCount processes events.length)
  checkEvents processes channels events
  let total := events.flatten.length
  let (configurations, edges) := layers events total 0 [start channels events]
  match configurations.find? (·.progress == finish events) with
  | none => throw .stuck
  | some last =>
    unless last.queues.isEmpty do throw (.inFlight last.queues)
    pure ⟨channels, observe events (start channels events),
      configurations.tail.map (observe events), edges⟩

end ProtocolInference
