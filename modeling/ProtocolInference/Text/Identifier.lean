/-!
# Identifiers

Labels end up verbatim in the encoded models, so they have to be words that both
model languages accept as a name: a letter or underscore, then letters, digits
and underscores, all of them ASCII.
-/

namespace ProtocolInference.Text

/-- A character that may start an identifier. -/
def startsIdentifier (c : Char) : Bool :=
  c.isAlpha || c == '_'

/-- A character that may follow the first one. -/
def continuesIdentifier (c : Char) : Bool :=
  c.isAlphanum || c == '_'

/-- Whether the text is an identifier. -/
def isIdentifier (s : String) : Bool :=
  match s.toList with
  | [] => false
  | c :: rest => startsIdentifier c && rest.all continuesIdentifier

end ProtocolInference.Text
