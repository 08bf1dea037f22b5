import ProtocolInference.Observation
import ProtocolInference.Text.Quoted

/-!
# What can be wrong with a trace

Every way in which observed data fails to describe an execution of a system of
processes and channels, and the words for each.
-/

namespace ProtocolInference

/-- Why a trace is refused. -/
inductive TraceError where
  /-- A send or receive is executed that names no channel. -/
  | noChannelToUse (event : Event)
  /-- An event is executed on a channel that does not exist. -/
  | noSuchChannel (channel : Channel)
  /-- A receive is executed whose label is not the next message. -/
  | notAtHead (event : Event) (channel : Channel)
  | foreignProcess (event : Event) (processes : Nat)
  | internalWithChannel (event : Event)
  | missingChannel (event : Event)
  | undeclaredChannel (event : Event) (channel : Channel)
  | wrongProcess (event : Event) (channel : Channel) (owner : Nat)
  | unknownObservation (event : Event)
  | cycle
  | localCount (observation : Observation) (expected : Nat)
  | queueCount (observation : Observation) (expected : Nat)
  | unreachable (count : Nat)
  | rootNotInitial
  | neverAccepting
  | sequenceCount (expected got : Nat)
  | misplaced (event : Event) (pid : Nat)
  | stuck
  | inFlight (queues : Queues)
  | misnumberedChannel (channel : Channel) (index : Nat)
  | unknownProcess (channel : Channel)
  | labelNotIdentifier (label : String)
  /-- The trace of the given number is refused for the given reason. -/
  | inTrace (number : Nat) (cause : TraceError)
  | noTrace
  | otherTopology (number : Nat)
  deriving DecidableEq, Repr

/-- The words for the reason. -/
def TraceError.message : TraceError → String
  | .noChannelToUse e => s!"communication event {e.display} has no channel"
  | .noSuchChannel c => s!"unknown channel {c.display}"
  | .notAtHead e c => s!"receive {e.display} does not match the head of channel {c.display}"
  | .foreignProcess e n =>
    s!"event {e.display} belongs to process {e.pid} but the system has {n} processes"
  | .internalWithChannel e => s!"local event {e.display} must not name a channel"
  | .missingChannel e => s!"communication event {e.display} is missing its channel"
  | .undeclaredChannel e c => s!"event {e.display} uses unknown channel {c.display}"
  | .wrongProcess e c owner =>
    s!"event {e.display} is executed by process {e.pid} but channel {c.display} requires process {owner}"
  | .unknownObservation e => s!"transition {e.display} references an unknown observation"
  | .cycle => "trace graph contains a cycle"
  | .localCount o n =>
    let got := o.locals.length
    s!"observation {o.display} has {got} local states, expected {n}"
  | .queueCount o n =>
    s!"observation {o.display} tracks {o.queues.size} channels, expected {n}"
  | .unreachable n => s!"{n} observations are unreachable from the initial observation"
  | .rootNotInitial => "the root observation is not initial"
  | .neverAccepting => "trace has no accepting observation"
  | .sequenceCount n got => s!"expected event sequences for {n} processes, got {got}"
  | .misplaced e pid =>
    s!"event {e.display} listed under process {pid} belongs to process {e.pid}"
  | .stuck => "trace cannot run to completion under FIFO semantics"
  | .inFlight q => s!"trace finishes with messages in flight: {q.display}"
  | .misnumberedChannel c i =>
    s!"channel {c.display} must have index {i} and must not be synthetic"
  | .unknownProcess c => s!"channel {c.display} names an unknown process"
  | .labelNotIdentifier l =>
    let label := Text.quoted l
    s!"event label {label} is not an identifier"
  | .inTrace i cause => s!"trace {i}: Trace error: {cause.message}"
  | .noTrace => "at least one trace is required"
  | .otherTopology i => s!"trace {i} does not share the process/channel topology of trace 0"

end ProtocolInference
