import ProtocolInference.Queues

/-!
# Observed global configurations

An observation is the local state of every process together with the contents of
every channel. The names of local states have a meaning within one trace only.
-/

namespace ProtocolInference

/-- The local state of one process. -/
structure LocalState where
  name : String
  initial : Bool := false
  accept : Bool := false
  deriving DecidableEq, Repr, Inhabited

/-- A global configuration. -/
structure Observation where
  locals : List LocalState
  queues : Queues
  deriving DecidableEq, Repr, Inhabited

namespace Observation

/-- Every process is initial and no message is in flight. -/
def isInitial (o : Observation) : Bool :=
  o.locals.all (·.initial) && o.queues.isEmpty

/-- Every process is accepting and no message is in flight. -/
def isAccept (o : Observation) : Bool :=
  o.locals.all (·.accept) && o.queues.isEmpty

def isInitialFor (o : Observation) (pid : Nat) : Bool :=
  o.locals[pid]?.any (·.initial)

def isAcceptFor (o : Observation) (pid : Nat) : Bool :=
  o.locals[pid]?.any (·.accept)

/-- The text of an observation: the local states, then the contents of the channels. -/
def display (o : Observation) : String :=
  let names := String.intercalate "," (o.locals.map (·.name))
  s!"<{names}> {o.queues.display}"

end Observation

end ProtocolInference
