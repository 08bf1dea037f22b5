import ProtocolInference.Invariant
import ProtocolInference.Json.Decode
import ProtocolInference.Json.Printer
import ProtocolInference.Json.Reader
import ProtocolInference.Recording.Basic

/-!
# The JSON formats of recordings and invariants

What is left out when a value is written is what its absence means when it is read:
a channel that is not synthetic, an event without a channel, an invariant without an
encoding.
-/

namespace ProtocolInference

namespace Channel

def toJson (c : Channel) : Json :=
  .obj ([("dst", .nat c.dst), ("index", .nat c.index), ("src", .nat c.src)] ++
    if c.synthetic then [("synthetic", .bool true)] else [])

def ofJson : Json.Decoder Channel := fun j =>
  match Json.record ["src", "dst", "index", "synthetic"] j with
  | some [src, dst, index, synthetic] => do
    pure ⟨← Json.required Json.natural src, ← Json.required Json.natural dst,
      ← Json.required Json.natural index, ← Json.defaulting Json.boolean false synthetic⟩
  | _ => none

end Channel

namespace EventKind

/-- The kinds with their words. -/
def words : List (String × EventKind) :=
  [EventKind.send, .receive, .internal].map fun k => (k.word, k)

end EventKind

namespace Event

def toJson (e : Event) : Json :=
  .obj ((match e.channel with | some c => [("channel", c.toJson)] | none => []) ++
    [("kind", .str e.kind.word), ("label", .str e.label), ("pid", .nat e.pid)])

def ofJson : Json.Decoder Event := fun j =>
  match Json.record ["pid", "kind", "label", "channel"] j with
  | some [pid, kind, label, channel] => do
    pure ⟨← Json.required Json.natural pid, ← Json.required (Json.word EventKind.words) kind,
      ← Json.required Json.text label,
      ← Json.defaulting (Json.optional Channel.ofJson) none channel⟩
  | _ => none

end Event

namespace InvariantKind

/-- The kinds with their words. -/
def words : List (String × InvariantKind) :=
  [InvariantKind.alwaysFollowedBy, .alwaysPrecedes, .neverFollowedBy, .eventually].map
    fun k => (k.word, k)

end InvariantKind

namespace Invariant

def toJson (i : Invariant) : Json :=
  .obj ((match i.encoding with | some text => [("encoding", .str text)] | none => []) ++
    [("first", i.first.toJson), ("kind", .str i.kind.word), ("second", i.second.toJson)])

def ofJson : Json.Decoder Invariant := fun j =>
  match Json.record ["kind", "first", "second", "encoding"] j with
  | some [kind, first, second, encoding] => do
    pure ⟨← Json.required (Json.word InvariantKind.words) kind,
      ← Json.required Event.ofJson first, ← Json.required Event.ofJson second,
      ← Json.defaulting (Json.optional Json.text) none encoding⟩
  | _ => none

/-- The text of a list of invariants. -/
def printAll (invariants : List Invariant) : String :=
  (Json.arr (invariants.map toJson)).compact

/-- The invariants that a text lists. -/
def parseAll (s : String) : Option (List Invariant) :=
  (Json.parse s).bind (Json.list ofJson)

end Invariant

namespace Recording

def toJson (r : Recording) : Json :=
  .obj [("channels", .arr (r.channels.map Channel.toJson)), ("processes", .nat r.processes),
    ("traces", .arr (r.traces.map fun trace =>
      .arr (trace.map fun sequence => .arr (sequence.map Event.toJson))))]

def ofJson : Json.Decoder Recording := fun j =>
  match Json.record ["processes", "channels", "traces"] j with
  | some [processes, channels, traces] => do
    pure ⟨← Json.required Json.natural processes,
      ← Json.required (Json.list Channel.ofJson) channels,
      ← Json.required (Json.list (Json.list (Json.list Event.ofJson))) traces⟩
  | _ => none

/-- The text of a recording. -/
def print (r : Recording) : String :=
  r.toJson.compact

/-- The recording that a text describes. -/
def parse (s : String) : Option Recording :=
  (Json.parse s).bind ofJson

end Recording

end ProtocolInference
