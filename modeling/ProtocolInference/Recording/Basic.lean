import ProtocolInference.Text.Identifier
import ProtocolInference.Trace.Interleaving

/-!
# Recordings

A recording holds what was observed of one system: its processes and channels, and
for each observed execution the sequence of events of every process.
-/

namespace ProtocolInference

/-- The executions observed of one system. -/
structure Recording where
  processes : Nat
  channels : List Channel
  traces : List (List (List Event))
  deriving DecidableEq, Repr, Inhabited

/-- Why a recording is refused. -/
inductive RecordingError where
  | noProcess
  | noTrace
  | trace (cause : TraceError)
  deriving DecidableEq, Repr

namespace Recording

/-- Checks that channel number `index` is declared as such between known processes. -/
def checkChannel (r : Recording) (index : Nat) (c : Channel) : Except TraceError Unit :=
  if c.index ≠ index ∨ c.synthetic then .error (.misnumberedChannel c index)
  else if r.processes ≤ c.src ∨ r.processes ≤ c.dst then .error (.unknownProcess c)
  else .ok ()

/-- Checks the channels in turn, then every label. -/
def checkTopology (r : Recording) : Except TraceError Unit := do
  r.channels.zipIdx.forM fun (c, i) => r.checkChannel i c
  r.traces.flatten.flatten.forM fun event =>
    if Text.isIdentifier event.label then pure () else throw (.labelNotIdentifier event.label)

/-- Checks that there is a process and a trace, that the channels are declared in
order, and that every label is an identifier. -/
def validate (r : Recording) : Except RecordingError Unit :=
  if r.processes = 0 then .error .noProcess
  else if r.traces.isEmpty then .error .noTrace
  else r.checkTopology.mapError .trace

/-- The graph of all schedules of one recorded execution. -/
def buildTrace (r : Recording) (number : Nat) (events : List (List Event)) :
    Except TraceError Trace := do
  let trace ← (Trace.ofSequences r.processes r.channels events).mapError (.inTrace number)
  trace.validate
  pure trace

/-- The graphs of all recorded executions. -/
def build (r : Recording) : Except RecordingError (List Trace) := do
  r.validate
  (r.traces.zipIdx.mapM fun (events, i) => r.buildTrace i events).mapError .trace

end Recording

end ProtocolInference
