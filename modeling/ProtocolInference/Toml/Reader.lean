import ProtocolInference.Toml.Document
import ProtocolInference.Toml.Scalar

/-!
# Reading TOML

A document is read line by line: headers, key-value pairs, comments and empty lines.
A reader of some part takes the characters before it off the text and returns the rest.
-/

namespace ProtocolInference.Toml

/-- Reads something at the start of a text and returns it with the rest of the text. -/
abbrev Scan (α : Type) := List Char → Option (α × List Char)

/-! ### Blanks, comments and line ends -/

def isBlank (c : Char) : Bool := c == ' ' || c == '\t'

def skipBlanks (cs : List Char) : List Char := cs.dropWhile isBlank

/-- A character that may stand in a comment or a string as it is. -/
def isPlain (c : Char) : Bool :=
  c == '\t' || (0x20 ≤ c.toNat && c.toNat != 0x7F)

/-- The rest after a line break. -/
def lineBreak : List Char → Option (List Char)
  | '\n' :: cs => some cs
  | '\r' :: '\n' :: cs => some cs
  | _ => none

/-- The rest after the blanks and the comment at the end of a line. -/
def skipComment (cs : List Char) : List Char :=
  match skipBlanks cs with
  | '#' :: rest => rest.dropWhile isPlain
  | rest => rest

/-- The rest after the end of the line, before which only blanks and a comment may
stand. -/
def endOfLine (cs : List Char) : Option (List Char) :=
  match skipComment cs with
  | [] => some []
  | rest => lineBreak rest

/-- The rest after blanks, comments and line breaks. -/
def skipVoid : Nat → List Char → List Char
  | 0, cs => cs
  | fuel + 1, cs =>
    let rest := skipComment cs
    match lineBreak rest with
    | some rest => skipVoid fuel rest
    | none => rest

/-! ### Strings -/

/-- The character with the given hexadecimal digits, if there is one. -/
def charOfHex (cs : List Char) : Option Char := do
  let ds ← cs.mapM (digitOf 16)
  let n := valueOf 16 ds
  if n < 0xD800 ∨ (0xDFFF < n ∧ n < 0x110000) then some (Char.ofNat n) else none

/-- An escape, after its backslash. -/
def escape : Scan Char
  | 'b' :: cs => some ('\x08', cs)
  | 't' :: cs => some ('\t', cs)
  | 'n' :: cs => some ('\n', cs)
  | 'f' :: cs => some ('\x0c', cs)
  | 'r' :: cs => some ('\r', cs)
  | 'e' :: cs => some ('\x1b', cs)
  | '"' :: cs => some ('"', cs)
  | '\\' :: cs => some ('\\', cs)
  | 'x' :: cs =>
    if cs.length < 2 then none else (charOfHex (cs.take 2)).map (·, cs.drop 2)
  | 'u' :: cs =>
    if cs.length < 4 then none else (charOfHex (cs.take 4)).map (·, cs.drop 4)
  | 'U' :: cs =>
    if cs.length < 8 then none else (charOfHex (cs.take 8)).map (·, cs.drop 8)
  | _ => none

/-- A string after its opening quotation mark. -/
def basicString : Nat → List Char → Scan String
  | 0, _, _ => none
  | _, _, [] => none
  | _, done, '"' :: cs => some (String.ofList done.reverse, cs)
  | fuel + 1, done, '\\' :: cs =>
    match escape cs with
    | some (c, cs) => basicString fuel (c :: done) cs
    | none => none
  | fuel + 1, done, c :: cs => if isPlain c then basicString fuel (c :: done) cs else none

/-- A string after its opening apostrophe. It has no escapes. -/
def literalString (cs : List Char) : Option (String × List Char) :=
  let content := cs.takeWhile fun c => c != '\'' && isPlain c
  match cs.drop content.length with
  | '\'' :: rest => some (String.ofList content, rest)
  | _ => none

/-- The end of a string with three marks at either end. Up to two further marks before
the last three belong to the string. -/
def closing (mark : Char) (cs : List Char) : Option (List Char × List Char) :=
  let marks := (cs.takeWhile (· == mark)).length
  if marks < 3 then none
  else
    let inner := min (marks - 3) 2
    some (List.replicate inner mark, cs.drop (inner + 3))

/-- The rest after blanks and line breaks. -/
def skipBreaks : List Char → List Char
  | '\r' :: '\n' :: cs => skipBreaks cs
  | c :: cs => if isBlank c || c == '\n' then skipBreaks cs else c :: cs
  | [] => []

/-- The rest after a backslash at the end of a line and the blanks and line breaks after
it. -/
def continuation (cs : List Char) : Option (List Char) :=
  (lineBreak (skipBlanks cs)).map skipBreaks

/-- A string over several lines, after its opening marks. -/
def multilineString (mark : Char) : Nat → List Char → Scan String
  | 0, _, _ => none
  | _, _, [] => none
  | fuel + 1, done, c :: cs =>
    if c = mark then
      match closing mark (c :: cs) with
      | some (inner, rest) => some (String.ofList (done.reverse ++ inner), rest)
      | none => multilineString mark fuel (c :: done) cs
    else if c = '\\' ∧ mark = '"' then
      match continuation cs with
      | some rest => multilineString mark fuel done rest
      | none =>
        match escape cs with
        | some (d, rest) => multilineString mark fuel (d :: done) rest
        | none => none
    else if isPlain c || c == '\n' then multilineString mark fuel (c :: done) cs
    else if c = '\r' ∧ cs.head? = some '\n' then multilineString mark fuel (c :: done) cs
    else none

/-- The rest after a line break right behind the opening marks. -/
def dropFirstBreak (cs : List Char) : List Char := (lineBreak cs).getD cs

/-! ### Keys -/

/-- A character of a key without quotation marks. -/
def isKeyChar (c : Char) : Bool := c.isAlphanum || c == '_' || c == '-'

/-- One key. -/
def key : Scan String
  | '"' :: cs => basicString (cs.length + 1) [] cs
  | '\'' :: cs => literalString cs
  | cs =>
    let name := cs.takeWhile isKeyChar
    if name.isEmpty then none else some (String.ofList name, cs.drop name.length)

/-- The greatest number of keys in a path, and the greatest depth of nested values. -/
def maxDepth : Nat := 80

/-- At most the given number of keys with points between them. -/
def keysUpTo : Nat → Scan (List String)
  | 0, _ => none
  | count + 1, cs => do
    let (first, cs) ← key cs
    match skipBlanks cs with
    | '.' :: cs => do
      let (others, cs) ← keysUpTo count (skipBlanks cs)
      some (first :: others, cs)
    | cs => some ([first], cs)

/-- Keys with points between them. -/
def keys : Scan (List String) := keysUpTo maxDepth

/-! ### Values -/

/-- A word, which for a date may go on with a time after one blank. -/
def word (cs : List Char) : List Char × List Char :=
  let first := cs.takeWhile isWordChar
  let rest := cs.drop first.length
  match rest with
  | ' ' :: d :: more =>
    if dateRest first = some [] ∧ (digitOf 10 d).isSome then
      let second := (d :: more).takeWhile isWordChar
      (first ++ ' ' :: second, (d :: more).drop second.length)
    else (first, rest)
  | _ => (first, rest)

mutual
/-- A value that is nested at most `depth` deep. -/
def value (fuel depth : Nat) (cs : List Char) : Option (Toml × List Char) :=
  match fuel with
  | 0 => none
  | fuel + 1 =>
    match cs with
    | '"' :: '"' :: '"' :: cs => do
      let (s, cs) ← multilineString '"' (cs.length + 1) [] (dropFirstBreak cs)
      some (.str s, cs)
    | '\'' :: '\'' :: '\'' :: cs => do
      let (s, cs) ← multilineString '\'' (cs.length + 1) [] (dropFirstBreak cs)
      some (.str s, cs)
    | '"' :: cs => do
      let (s, cs) ← basicString (cs.length + 1) [] cs
      some (.str s, cs)
    | '\'' :: cs => do
      let (s, cs) ← literalString cs
      some (.str s, cs)
    | '[' :: cs => if depth = 0 then none else arrayItems fuel (depth - 1) [] cs
    | '{' :: cs => if depth = 0 then none else tableMembers fuel (depth - 1) [] cs
    | cs => do
      let (w, cs) := word cs
      some (← scalarOf w, cs)
/-- The items of an array, after its bracket or a comma, up to its end. -/
def arrayItems (fuel depth : Nat) (done : List Toml) (cs : List Char) :
    Option (Toml × List Char) :=
  match fuel with
  | 0 => none
  | fuel + 1 =>
    match skipVoid (cs.length + 1) cs with
    | ']' :: cs => some (.arr done.reverse, cs)
    | cs =>
      match value fuel depth cs with
      | none => none
      | some (v, cs) =>
        match skipVoid (cs.length + 1) cs with
        | ',' :: cs => arrayItems fuel depth (v :: done) cs
        | ']' :: cs => some (.arr (v :: done).reverse, cs)
        | _ => none
/-- The members of an inline table, after its brace or a comma, up to its end. The last
one may have a comma too, and lines may end between any two tokens. -/
def tableMembers (fuel depth : Nat) (done : Members) (cs : List Char) :
    Option (Toml × List Char) :=
  match fuel with
  | 0 => none
  | fuel + 1 =>
    match skipVoid (cs.length + 1) cs with
    | '}' :: cs => some (.table (membersToToml done), cs)
    | cs =>
      match keys cs with
      | none => none
      | some (path, cs) =>
        match skipVoid (cs.length + 1) cs with
        | '=' :: cs =>
          match value fuel depth (skipVoid (cs.length + 1) cs) with
          | none => none
          | some (v, cs) =>
            match assign done v true path with
            | none => none
            | some done =>
              match skipVoid (cs.length + 1) cs with
              | ',' :: cs => tableMembers fuel depth done cs
              | '}' :: cs => some (.table (membersToToml done), cs)
              | _ => none
        | _ => none
end

/-! ### Documents -/

/-- What has been read of a document: its parts, and the keys of the last header. -/
structure Progress where
  members : Members := []
  path : List String := []

/-- Reads one header, after its blanks. -/
def header (p : Progress) (cs : List Char) : Option (Progress × List Char) :=
  match cs with
  | '[' :: '[' :: cs =>
    match keys (skipBlanks cs) with
    | some (path, ']' :: ']' :: cs) => do
      some ({ members := ← declareElement p.members path, path }, cs)
    | _ => none
  | '[' :: cs =>
    match keys (skipBlanks cs) with
    | some (path, ']' :: cs) => do
      some ({ members := ← declareTable p.members path, path }, cs)
    | _ => none
  | _ => none

/-- Reads one key-value pair, after its blanks. -/
def pair (p : Progress) (cs : List Char) : Option (Progress × List Char) :=
  match keys cs with
  | some (path, '=' :: cs) => do
    let (v, cs) ← value (cs.length + 1) maxDepth (skipBlanks cs)
    some ({ p with members := ← assignUnder p.members path v p.path }, cs)
  | _ => none

/-- Reads lines to the end of the document. -/
def lines : Nat → Progress → List Char → Option Progress
  | 0, _, _ => none
  | fuel + 1, p, cs =>
    match skipBlanks cs with
    | [] => some p
    | c :: rest =>
      let line : Option (Progress × List Char) :=
        if c = '[' then header p (c :: rest)
        else if c = '#' ∨ c = '\n' ∨ c = '\r' then some (p, c :: rest)
        else pair p (c :: rest)
      match line with
      | none => none
      | some (p, cs) =>
        match endOfLine cs with
        | some cs => lines fuel p cs
        | none => none

/-- The top table of a document, or nothing if the text is none. A byte order mark may
stand at its start. -/
def parse (s : String) : Option (List (String × Toml)) :=
  let cs := match s.toList with
    | '\ufeff' :: cs => cs
    | cs => cs
  (lines (cs.length + 1) {} cs).map fun p => membersToToml p.members

end ProtocolInference.Toml
