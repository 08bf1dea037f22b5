import ProtocolInference.Event.Basic

/-!
# Contents of the channels

The messages in flight on every channel, oldest first, one queue for each channel
of the system in the order of their indices.
-/

namespace ProtocolInference

/-- The contents of every channel. -/
structure Queues where
  contents : List (List String)
  deriving DecidableEq, Repr, Inhabited

namespace Queues

/-- `n` channels without a message. -/
def empty (n : Nat) : Queues :=
  ⟨List.replicate n []⟩

def size (q : Queues) : Nat := q.contents.length

def isEmpty (q : Queues) : Bool := q.contents.all List.isEmpty

/-- The messages on one channel. -/
def queue? (q : Queues) (index : Nat) : Option (List String) :=
  q.contents[index]?

/-- The next message of every channel. -/
def tops (q : Queues) : List (Option String) :=
  q.contents.map List.head?

/-- Adds a message at the end of a queue. -/
def push (q : Queues) (index : Nat) (label : String) : Queues :=
  ⟨q.contents.modify index (· ++ [label])⟩

/-- Takes the oldest message off a queue. -/
def pop (q : Queues) (index : Nat) : Queues :=
  ⟨q.contents.modify index List.tail⟩

/-- Whether the event may happen now: a receive needs its label at the head of its
channel, and every other event may always happen. -/
def enables (q : Queues) (e : Event) : Bool :=
  match e.kind, e.channel with
  | .receive, some c => (q.queue? c.index).bind List.head? == some e.label
  | _, _ => true

/-- The text of the contents, one pair of brackets for each channel. -/
def display (q : Queues) : String :=
  String.intercalate " " (q.contents.map fun messages =>
    "[" ++ String.intercalate "," messages ++ "]")

end Queues

end ProtocolInference
