/-!
# Channels and events

Processes are numbered from zero and talk over FIFO channels. An event is one
step of one process: a send on a channel, a receive from a channel, or a step of
its own that touches no channel.
-/

namespace ProtocolInference

/-- One FIFO channel from process `src` to process `dst`. The index is its place
in the channel list. A synthetic channel only records the events of an invariant
in a model that is to be checked; no observed execution uses one. -/
structure Channel where
  src : Nat
  dst : Nat
  index : Nat
  synthetic : Bool := false
  deriving DecidableEq, Repr, Inhabited

/-- What an event does. -/
inductive EventKind where
  | send
  | receive
  | internal
  deriving DecidableEq, Repr, Inhabited

/-- One kind of step of process `pid`. Two events are the same if and only if all
their parts are. -/
structure Event where
  pid : Nat
  kind : EventKind
  label : String
  channel : Option Channel := none
  deriving DecidableEq, Repr, Inhabited

namespace Channel

/-- The text of a channel: its ends and its index. -/
def display (c : Channel) : String :=
  s!"{c.src}->{c.dst}#{c.index}"

end Channel

namespace EventKind

/-- The word for a kind of event. -/
def word : EventKind → String
  | .send => "send"
  | .receive => "recv"
  | .internal => "local"

/-- Sends come before receives, and receives before internal steps. -/
def rank : EventKind → Nat
  | .send => 0
  | .receive => 1
  | .internal => 2

end EventKind

/-! ### The order of events -/

instance : Ord Channel where
  compare := compareLex (compareOn Channel.src) (compareLex (compareOn Channel.dst)
    (compareLex (compareOn Channel.index) (compareOn Channel.synthetic)))

instance : Ord EventKind where
  compare := compareOn EventKind.rank

/-- Events are ordered by process, kind, label and channel, and no channel comes
before any channel. Labels are compared by their code points. -/
instance : Ord Event where
  compare := compareLex (compareOn Event.pid) (compareLex (compareOn Event.kind)
    (compareLex (compareOn Event.label) (compareOn Event.channel)))

namespace Event

/-! ### Building events -/

/-- The send of `label`, executed by the source of the channel. -/
def send (label : String) (channel : Channel) : Event :=
  ⟨channel.src, .send, label, some channel⟩

/-- The receive of `label`, executed by the destination of the channel. -/
def receive (label : String) (channel : Channel) : Event :=
  ⟨channel.dst, .receive, label, some channel⟩

/-- A step of process `pid` alone. -/
def internal (label : String) (pid : Nat) : Event :=
  ⟨pid, .internal, label, none⟩

/-- A send of process `pid` on a channel that need not start at it. -/
def sendFrom (label : String) (channel : Channel) (pid : Nat) : Event :=
  ⟨pid, .send, label, some channel⟩

/-! ### Reading events -/

def isSend (e : Event) : Bool := e.kind == .send

def isReceive (e : Event) : Bool := e.kind == .receive

def isInternal (e : Event) : Bool := e.kind == .internal

/-- Whether the event names a channel. -/
def isCommunication (e : Event) : Bool := e.channel.isSome

/-- Whether the event is a send on a synthetic channel. -/
def isSyntheticSend (e : Event) : Bool :=
  e.isSend && e.channel.any (·.synthetic)

/-- The text of an event: channel, direction and label, or label and process when
there is no channel to name. -/
def display (e : Event) : String :=
  match e.kind, e.channel with
  | .send, some c => s!"{c.index}!{e.label}"
  | .receive, some c => s!"{c.index}?{e.label}"
  | _, _ => s!"{e.label}@{e.pid}"

/-- A name for the event that is an identifier if its label is one, and that tells
it from every other event of its system. -/
def token (e : Event) : String :=
  match e.channel with
  | some c => s!"p{e.pid}_{e.kind.word}_c{c.index}_{e.label}"
  | none => s!"p{e.pid}_{e.kind.word}_{e.label}"

end Event

end ProtocolInference
