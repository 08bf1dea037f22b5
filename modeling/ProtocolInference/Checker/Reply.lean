import ProtocolInference.Decimal.Magnitude
import ProtocolInference.Encoding.Trail
import ProtocolInference.Recording.Format
import ProtocolInference.Refinement.Checker

/-!
# Replies of an external checker

A reply is a JSON object whose member `result` tells what it is, or an array that
starts with that word. The other members are read only once the word is known, so the
whole reply is held first; that limits how deep it may be nested and how large its
numbers may be.
-/

namespace ProtocolInference

/-- What an external checker replies. -/
inductive Reply where
  | verified
  | counterexample (events : Option (List Event)) (trail : Option String)
  | refused (message : String)
  | timeout
  deriving DecidableEq, Repr

/-- Why a reply is of no use. -/
inductive ReplyError where
  /-- The checker did not accept the model. -/
  | modelRefused (message : String)
  | unknownEvent (name : String)
  | emptyCounterexample
  deriving DecidableEq, Repr

namespace Reply

/-! ### Values that can be held -/

mutual
/-- Whether a value is nested at most `depth` deep, holds finite numbers only and no
half of a surrogate pair. -/
def holdable (depth : Nat) : Json → Bool
  | .nat n => Decimal.isFiniteInSteps n 0
  | .real m e => Decimal.isFiniteInSteps m e
  | .arr items => depth ≠ 0 && holdableItems (depth - 1) items
  | .obj members => depth ≠ 0 && holdableMembers (depth - 1) members
  | .unreadable => false
  | _ => true
def holdableItems (depth : Nat) : List Json → Bool
  | [] => true
  | j :: js => holdable depth j && holdableItems depth js
def holdableMembers (depth : Nat) : List (String × Json) → Bool
  | [] => true
  | (_, j) :: js => holdable depth j && holdableMembers depth js
end

/-! ### Words with empty values -/

mutual
/-- Replaces empty objects by null where they are the only member of an object, so that
a word may also be written as the name of an empty object. -/
def withNulls : Json → Json
  | .arr items => .arr (withNullsItems items)
  | .obj [(name, .obj [])] => .obj [(name, .null)]
  | .obj members => .obj (withNullsMembers members)
  | j => j
def withNullsItems : List Json → List Json
  | [] => []
  | j :: js => withNulls j :: withNullsItems js
def withNullsMembers : List (String × Json) → List (String × Json)
  | [] => []
  | (name, j) :: js => (name, withNulls j) :: withNullsMembers js
end

/-- The greatest depth of nesting. -/
def maxDepth : Nat := 127

/-! ### Reading replies -/

/-- The counterexample with the given fields. -/
def ofFields (events trail : Option Json) : Option Reply := do
  pure (.counterexample
    (← Json.defaulting (Json.optional (Json.list Event.ofJson)) none events)
    (← Json.defaulting (Json.optional Json.text) none trail))

/-- The reply with the given word, whose other fields are in `body`. -/
def ofTagged (word : String) (body : Json) : Option Reply :=
  match word with
  | "verified" => match body with
    | .arr (_ :: _) => none
    | _ => some .verified
  | "timeout" => match body with
    | .arr (_ :: _) => none
    | _ => some .timeout
  | "counterexample" =>
    match Json.record ["events", "trail"] body with
    | some [events, trail] => ofFields events trail
    | _ => none
  | "syntax-error" =>
    match Json.record ["message"] body with
    | some [message] => (Json.required Json.text message).map .refused
    | _ => none
  | _ => none

/-- The reply that a JSON value stands for. -/
def ofJson (j : Json) : Option Reply :=
  if !holdable maxDepth j then none
  else match withNulls j with
    | .obj members =>
      match Json.named members "result" with
      | [.str word] => ofTagged word (.obj (members.filter (·.1 ≠ "result")))
      | _ => none
    | .arr (.str word :: rest) => ofTagged word (.arr rest)
    | _ => none

/-- The reply that a text stands for. -/
def parse (s : String) : Option Reply :=
  (Json.parse s).bind ofJson

/-- What a reply says about the network that was checked. -/
def outcome (r : Reply) (n : Network) : Except ReplyError Outcome :=
  match r with
  | .verified => .ok .verified
  | .timeout => .ok .inconclusive
  | .refused message => .error (.modelRefused message)
  | .counterexample (some events) _ => .ok (.counterexample events)
  | .counterexample none (some trail) =>
    match Trail.events trail n.alphabet with
    | .ok events => .ok (.counterexample events)
    | .error name => .error (.unknownEvent name)
  | .counterexample none none => .error .emptyCounterexample

end Reply

end ProtocolInference
