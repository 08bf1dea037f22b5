import ProtocolInference.Event.Basic

/-!
# Temporal invariants over two events

An invariant relates two events of a system. It may carry a ready-made encoding
for the checker that it will be given to.
-/

namespace ProtocolInference

/-- How the two events of an invariant are related. -/
inductive InvariantKind where
  | alwaysFollowedBy
  | alwaysPrecedes
  | neverFollowedBy
  | eventually
  deriving DecidableEq, Repr, Inhabited

namespace InvariantKind

/-- The short name of a kind of invariant. -/
def short : InvariantKind → String
  | .alwaysFollowedBy => "AFby"
  | .alwaysPrecedes => "AP"
  | .neverFollowedBy => "NFby"
  | .eventually => "EVENTUALLY"

/-- The word for a kind of invariant in files. -/
def word : InvariantKind → String
  | .alwaysFollowedBy => "always-followed-by"
  | .alwaysPrecedes => "always-precedes"
  | .neverFollowedBy => "never-followed-by"
  | .eventually => "eventually"

end InvariantKind

/-- A relation between the event `first` and the event `second`. An invariant of
the kind `eventually` speaks of the second event alone. -/
structure Invariant where
  kind : InvariantKind
  first : Event
  second : Event
  encoding : Option String := none
  deriving DecidableEq, Repr, Inhabited

namespace Invariant

/-- The event happens at some time. -/
def eventually (e : Event) : Invariant :=
  ⟨.eventually, e, e, none⟩

/-- Whether the event is one of the two that the invariant relates. -/
def involves (i : Invariant) (e : Event) : Bool :=
  i.first == e || i.second == e

/-- The text of an invariant. -/
def display (i : Invariant) : String :=
  match i.kind with
  | .eventually => s!"{i.kind.short} {i.second.display}"
  | _ => s!"{i.first.display} {i.kind.short} {i.second.display}"

end Invariant

end ProtocolInference
