import ProtocolInference.Encoding.Promela

/-!
# Reading the events of a simulated run

A simulation of a Promela model prints a tag for every event. The events are found by
the names in the tags, whatever else is printed around them.
-/

namespace ProtocolInference.Trail

/-- What stands before the name in a tag. -/
def opening : List Char :=
  ['C', 'S', 'i', 'g', 'h', 't', 'T', 'r', 'a', 'c', 'e', '[']

/-- The name of the tag that the text starts with, if it starts with one. The name is
not empty and ends at the first closing bracket. -/
def nameAtStart (cs : List Char) : Option (List Char) :=
  if opening.isPrefixOf cs then
    let rest := cs.drop opening.length
    let name := rest.takeWhile (· ≠ ']')
    if name.isEmpty ∨ (rest.dropWhile (· ≠ ']')).isEmpty then none else some name
  else none

/-- The names of the tags in a text, from left to right. The first number counts the
characters that belong to the tag before. -/
def namesFrom : Nat → List Char → List String
  | _, [] => []
  | skip + 1, _ :: cs => namesFrom skip cs
  | 0, c :: cs =>
    match nameAtStart (c :: cs) with
    | some name => String.ofList name :: namesFrom (opening.length + name.length) cs
    | none => namesFrom 0 cs

/-- The names of the tags in a text. -/
def names (text : String) : List String :=
  namesFrom 0 text.toList

/-- The last event of the alphabet with the given name. -/
def eventNamed (alphabet : List Event) (name : String) : Option Event :=
  alphabet.reverse.find? (·.display == name)

/-- The events that the tags of a text name, or the first name that no event has. -/
def events (text : String) (alphabet : List Event) : Except String (List Event) :=
  (names text).mapM fun name =>
    match eventNamed alphabet name with
    | some e => .ok e
    | none => .error name

end ProtocolInference.Trail
