import ProtocolInference.Text.Visibility

/-!
# Quoted texts

A text is quoted between two quotation marks. The marks, the backslash and the
usual control characters have two-character escapes, every other character
without a visible form of its own is written as its hexadecimal number in braces,
and the rest stands for itself.
-/

namespace ProtocolInference.Text

/-- The hexadecimal digits of `n`, in lower case and without padding. -/
def hexadecimal (n : Nat) : String :=
  String.ofList (Nat.toDigits 16 n)

/-- One character of a quoted text. An apostrophe needs no escape between quotation marks. -/
def quotedChar (c : Char) : String :=
  match c with
  | '\x00' => "\\0"
  | '\t' => "\\t"
  | '\r' => "\\r"
  | '\n' => "\\n"
  | '"' => "\\\""
  | '\\' => "\\\\"
  | _ => if isVisible c then String.singleton c else "\\u\x7b" ++ hexadecimal c.toNat ++ "\x7d"

/-- A label or a path as it is quoted in messages. -/
def quoted (s : String) : String :=
  "\"" ++ String.join (s.toList.map quotedChar) ++ "\""

end ProtocolInference.Text
