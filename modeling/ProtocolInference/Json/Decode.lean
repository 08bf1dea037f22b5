import ProtocolInference.Json.Basic

/-!
# Taking JSON values apart

A decoder turns a JSON value into a value of another type or refuses it. A record is
an object with the record's fields as members, others being skipped, or an array
with the fields in their order. A word of a fixed list is a string, or an object
with the word as its only member and nothing as the value of that.
-/

namespace ProtocolInference.Json

/-- A partial function on JSON values. -/
abbrev Decoder (α : Type) := Json → Option α

/-- The numbers of 64 bits. -/
def natural : Decoder Nat
  | .nat n => if n < 0x10000000000000000 then some n else none
  | _ => none

def boolean : Decoder Bool
  | .bool b => some b
  | _ => none

def text : Decoder String
  | .str s => some s
  | _ => none

/-- Nothing, or a value. -/
def optional {α : Type} (decode : Decoder α) : Decoder (Option α)
  | .null => some none
  | j => (decode j).map some

def list {α : Type} (decode : Decoder α) : Decoder (List α)
  | .arr items => items.mapM decode
  | _ => none

/-- The meaning of a word in the given list. -/
def word {α : Type} (meanings : List (String × α)) : Decoder α
  | .str s => (meanings.find? (·.1 == s)).map (·.2)
  | .obj [(s, .null)] => (meanings.find? (·.1 == s)).map (·.2)
  | _ => none

/-- The value of a member that occurs at most once. -/
def member (members : List (String × Json)) (name : String) : Option (Option Json) :=
  match named members name with
  | [] => some none
  | [value] => some (some value)
  | _ => none

/-- The values of the fields of a record, in order. A field that is left out has none;
in an array only the last fields can be left out. -/
def record (fields : List String) : Decoder (List (Option Json))
  | .obj members => fields.mapM (member members)
  | .arr items =>
    if items.length ≤ fields.length then
      some (items.map some ++ List.replicate (fields.length - items.length) none)
    else none
  | _ => none

/-- The value of a field that must not be left out. -/
def required {α : Type} (decode : Decoder α) : Option Json → Option α
  | some j => decode j
  | none => none

/-- The value of a field, or the given one where it is left out. -/
def defaulting {α : Type} (decode : Decoder α) (value : α) : Option Json → Option α
  | some j => decode j
  | none => some value

end ProtocolInference.Json
