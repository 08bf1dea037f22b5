import ProtocolInference.Json.Basic

/-!
# Writing JSON

The compact form has no blanks at all. The indented form puts every item and every
member on a line of its own, two blanks deeper than the brackets around it.
-/

namespace ProtocolInference.Json

/-- One hexadecimal digit in lower case. -/
def hexDigit (n : Nat) : Char :=
  Nat.digitChar n

/-- The escape of one character of a string. Only the quotation mark, the backslash
and the control characters have one. -/
def escapeChar (c : Char) : List Char :=
  match c with
  | '"' => ['\\', '"']
  | '\\' => ['\\', '\\']
  | '\x08' => ['\\', 'b']
  | '\x0c' => ['\\', 'f']
  | '\n' => ['\\', 'n']
  | '\r' => ['\\', 'r']
  | '\t' => ['\\', 't']
  | _ =>
    if c.toNat < 0x20 then
      ['\\', 'u', '0', '0', hexDigit (c.toNat / 16), hexDigit (c.toNat % 16)]
    else [c]

/-- A string between quotation marks. -/
def printString (s : String) : List Char :=
  '"' :: s.toList.flatMap escapeChar ++ ['"']

/-- A number other than a natural one, in scientific form. -/
def printReal (mantissa : Nat) (exponent : Int) : List Char :=
  (toString mantissa ++ "e" ++ toString exponent).toList

mutual
/-- The compact form of a value. -/
def print : Json → List Char
  | .null => ['n', 'u', 'l', 'l']
  | .bool true => ['t', 'r', 'u', 'e']
  | .bool false => ['f', 'a', 'l', 's', 'e']
  | .nat n => (toString n).toList
  | .real m e => printReal m e
  | .str s => printString s
  | .arr [] => ['[', ']']
  | .arr (item :: items) => '[' :: print item ++ printItems items
  | .obj [] => ['{', '}']
  | .obj ((name, value) :: members) =>
    '{' :: printString name ++ ':' :: print value ++ printMembers members
  | .unreadable => ['n', 'u', 'l', 'l']
/-- The rest of an array after its first item. -/
def printItems : List Json → List Char
  | [] => [']']
  | item :: items => ',' :: print item ++ printItems items
/-- The rest of an object after its first member. -/
def printMembers : List (String × Json) → List Char
  | [] => ['}']
  | (name, value) :: members =>
    ',' :: printString name ++ ':' :: print value ++ printMembers members
end

/-- The compact text of a value. -/
def compact (j : Json) : String :=
  String.ofList j.print

/-- A line break and the blanks of the given depth. -/
def newline (depth : Nat) : List Char :=
  '\n' :: List.replicate (2 * depth) ' '

mutual
/-- The indented form of a value inside `depth` brackets. -/
def indent (depth : Nat) : Json → List Char
  | .arr (item :: items) =>
    '[' :: newline (depth + 1) ++ indent (depth + 1) item ++ indentItems depth items
  | .obj ((name, value) :: members) =>
    '{' :: newline (depth + 1) ++ printString name ++ [':', ' '] ++
      indent (depth + 1) value ++ indentMembers depth members
  | j => j.print
/-- The rest of an indented array after its first item. -/
def indentItems (depth : Nat) : List Json → List Char
  | [] => newline depth ++ [']']
  | item :: items =>
    ',' :: newline (depth + 1) ++ indent (depth + 1) item ++ indentItems depth items
/-- The rest of an indented object after its first member. -/
def indentMembers (depth : Nat) : List (String × Json) → List Char
  | [] => newline depth ++ ['}']
  | (name, value) :: members =>
    ',' :: newline (depth + 1) ++ printString name ++ [':', ' '] ++
      indent (depth + 1) value ++ indentMembers depth members
end

/-- The indented text of a value. -/
def indented (j : Json) : String :=
  String.ofList (j.indent 0)

end ProtocolInference.Json
