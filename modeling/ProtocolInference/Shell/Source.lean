import ProtocolInference.Shell.Script

/-!
# The text of a shell script

A script is read from its text one command at a time, because it may already be running
when the reader finds a mistake in it. The place in the text is the state of the reader:
what is left to read, the number of the line, and the texts in the script that commands
of this line read from.
-/

namespace ProtocolInference.Shell

/-- What a redirection operator says about its target. -/
inductive Arrow where
  | input
  | output (always : Bool)
  | append
  | duplicate
  | document (dropTabs : Bool)
  deriving DecidableEq

/-- A token of a script. -/
inductive Token where
  | finish
  | lineBreak
  | operator (text : String)
  | reserved (text : String)
  | arrow (descriptor : Nat) (kind : Arrow)
  | word (parts : Word)

/-- A text in the script that starts after the next line break. -/
structure Awaited where
  number : Nat
  /-- The line that ends the text. -/
  ending : String
  dropTabs : Bool
  expands : Bool

/-- A place in the text of a script. -/
structure Source where
  rest : List Char
  line : Nat := 1
  /-- A token that has been read and not used. -/
  unused : Option Token := none
  awaited : List Awaited := []
  documents : Array Word := #[]

/-- A mistake in a script. -/
structure Mistake where
  line : Nat
  message : String

/-- Reads something from a script. -/
abbrev Reading := StateT Source (Except Mistake)

/-! ### Characters -/

def isNameStart (c : Char) : Bool := c.isAlpha || c == '_'

def isNameChar (c : Char) : Bool := c.isAlphanum || c == '_'

/-- Whether the text is a name that variables and functions can have. -/
def isName (s : String) : Bool :=
  s.toList.head?.any isNameStart && s.toList.all isNameChar

/-- A parameter whose name is no word. -/
def isSpecialName (c : Char) : Bool :=
  c.isDigit || c == '@' || c == '*' || c == '#' || c == '?' || c == '-' || c == '$' || c == '!'

/-- A character that ends a word. -/
def endsWord (c : Char) : Bool :=
  c == ' ' || c == '\t' || c == '\n' || c == ';' || c == '&' || c == '|' || c == '<' ||
    c == '>' || c == '(' || c == ')'

/-- The mark that encloses a script whose output is wanted, in its old form. -/
def backquote : Char := Char.ofNat 96

/-- The text after line breaks that a backslash takes back, and the number of the line. -/
def joined (line : Nat) : List Char → List Char × Nat
  | '\\' :: '\n' :: cs => joined (line + 1) cs
  | cs => (cs, line)

/-- The text after blanks and a comment, and the number of the line. -/
def withoutBlanks (line : Nat) : List Char → List Char × Nat
  | '\\' :: '\n' :: cs => withoutBlanks (line + 1) cs
  | ' ' :: cs | '\t' :: cs => withoutBlanks line cs
  | '#' :: cs => (cs.dropWhile (· ≠ '\n'), line)
  | cs => (cs, line)

/-- The characters of a kind at the start of a text, what is left, and the number of the
line. -/
def spanned (p : Char → Bool) (line : Nat) : List Char → List Char × List Char × Nat
  | '\\' :: '\n' :: cs => spanned p (line + 1) cs
  | c :: cs =>
    if p c then
      let (taken, rest, line) := spanned p line cs
      (c :: taken, rest, line)
    else ([], c :: cs, line)
  | [] => ([], [], line)

/-- The number of line breaks. -/
def countBreaks (cs : List Char) : Nat := cs.count '\n'

namespace Reading

/-- Stops at a mistake. -/
def fail {α : Type} (message : String) : Reading α := do
  throw { line := (← get).line, message }

/-- The next character, which stays. -/
def peek? : Reading (Option Char) := do
  let s ← get
  let (rest, line) := joined s.line s.rest
  set { s with rest, line }
  pure rest.head?

/-- Takes one character. -/
def next? : Reading (Option Char) := do
  let s ← get
  match s.rest with
  | [] => pure none
  | c :: rest =>
    set { s with rest, line := if c = '\n' then s.line + 1 else s.line }
    pure (some c)

/-- Takes the next character if it is the given one. -/
def accept (c : Char) : Reading Bool := do
  if (← peek?) = some c then
    let _ ← next?
    pure true
  else pure false

/-- Takes the characters of a kind. -/
def span (p : Char → Bool) : Reading String := do
  let s ← get
  let (taken, rest, line) := spanned p s.line s.rest
  set { s with rest, line }
  pure (String.ofList taken)

def skipBlanks : Reading Unit := do
  let s ← get
  let (rest, line) := withoutBlanks s.line s.rest
  set { s with rest, line }

/-- Takes the text up to an apostrophe, and the apostrophe. -/
def literal : Reading String := do
  let s ← get
  let content := s.rest.takeWhile (· ≠ '\'')
  let line := s.line + countBreaks content
  set { s with rest := s.rest.drop (content.length + 1), line }
  if content.length = s.rest.length then fail "Syntax error: Unterminated quoted string"
  else pure (String.ofList content)

/-- Puts a token back. -/
def putBack (t : Token) : Reading Unit :=
  modify fun s => { s with unused := some t }

/-- Reads something from another text. -/
def within {α : Type} (text : List Char) (line : Nat) (body : Reading α) : Reading α := do
  let outer ← get
  set { outer with rest := text, line, unused := none, awaited := [] }
  let a ← body
  modify fun inner => { inner with
    rest := outer.rest, line := outer.line, unused := outer.unused, awaited := outer.awaited }
  pure a

end Reading

/-! ### Words and tokens -/

/-- Adds a part to a word whose parts are kept in reverse. Texts next to each other become
one. -/
def addPart (done : List Part) (p : Part) : List Part :=
  match done, p with
  | .text s q :: rest, .text t r => if q = r then .text (s ++ t) q :: rest else p :: done
  | _, _ => p :: done

/-- The text of a word without quotes and expansions. -/
def plainText : Word → Option String
  | [.text s false] => some s
  | _ => none

/-- The text of a word whose expansions are not made, and whether a part was quoted. -/
def rawText (w : Word) : String × Bool :=
  w.foldl (fun (s, quoted) p =>
    match p with
    | .text t q => (s ++ t, quoted || q)
    | .parameter name _ _ => (s ++ "$" ++ name, quoted)
    | _ => (s, quoted)) ("", false)

/-- An assignment at the start of a simple command: a name, an equals sign and a value. -/
def assignmentOf : Word → Option (String × Word)
  | .text s false :: rest =>
    let name := s.toList.takeWhile isNameChar
    match s.toList.drop name.length with
    | '=' :: value =>
      if !isName (String.ofList name) then none
      else if value.isEmpty then some (String.ofList name, rest)
      else some (String.ofList name, .text (String.ofList value) false :: rest)
    | _ => none
  | _ => none

/-- The words that are reserved where a command may start. -/
def reservedWords : List String :=
  ["!", "case", "do", "done", "elif", "else", "esac", "fi", "for", "if", "in", "then", "until",
    "while", "\x7b", "\x7d"]

/-- The words that end the list of commands before them. -/
def endingWords : List String :=
  ["do", "done", "elif", "else", "esac", "fi", "then", "\x7d"]

/-- The builtin commands that can have no function of their name, and whose errors end the
script. -/
def specialBuiltins : List String :=
  [".", ":", "break", "continue", "eval", "exec", "exit", "export", "local", "readonly",
    "return", "set", "shift", "times", "trap", "unset"]

namespace Token

/-- Whether the token ends the list of commands before it. -/
def endsList : Token → Bool
  | .finish => true
  | .operator text => text == ")" || text == ";;"
  | .reserved text => endingWords.contains text
  | _ => false

/-- Whether the token is the given operator. -/
def isOperator (text : String) : Token → Bool
  | .operator t => t == text
  | _ => false

/-- Whether the token is the given reserved word. -/
def isReserved (text : String) : Token → Bool
  | .reserved t => t == text
  | _ => false

/-- The token in messages. -/
def display : Token → String
  | .finish => "end of file"
  | .lineBreak => "newline"
  | .operator text | .reserved text => s!"\"{text}\""
  | .arrow _ _ => "redirection"
  | .word _ => "word"

end Token

namespace Reading

/-- Stops at a token that may not stand at its place. -/
def unexpected {α : Type} (t : Token) (expected : Option Token := none) : Reading α :=
  match expected with
  | none => fail s!"Syntax error: {t.display} unexpected"
  | some e => fail s!"Syntax error: {t.display} unexpected (expecting {e.display})"

/-- What the operator at the present place says about its target. -/
def arrow : Reading Arrow := do
  if ← accept '>' then
    if ← accept '>' then pure .append
    else if ← accept '|' then pure (.output true)
    else if ← accept '&' then pure .duplicate
    else pure (.output false)
  else
    let _ ← accept '<'
    if ← accept '<' then pure (.document (← accept '-'))
    else if ← accept '&' then pure .duplicate
    else if ← accept '>' then pure .input
    else pure .input

/-- The operator at the present place, if there is one. -/
def operator? : Reading (Option Token) := do
  match ← peek? with
  | none => pure (some .finish)
  | some '\n' =>
    let _ ← next?
    pure (some .lineBreak)
  | some c =>
    if c = '&' ∨ c = '|' ∨ c = ';' then
      let _ ← next?
      let twice ← accept c
      let single := String.singleton c
      pure (some (.operator (if twice then single ++ single else single)))
    else if c = '(' ∨ c = ')' then
      let _ ← next?
      pure (some (.operator (String.singleton c)))
    else pure none

/-- Registers a text that starts after the next line break, and gives its number. -/
def await (ending : String) (dropTabs expands : Bool) : Reading Nat := do
  let s ← get
  let a : Awaited := { number := s.documents.size, ending, dropTabs, expands }
  set { s with documents := s.documents.push [], awaited := s.awaited ++ [a] }
  pure a.number

/-- The lines up to the ending one, and what is left of the text. -/
def documentLines (a : Awaited) : Nat → List Char → List Char × List Char
  | 0, cs => ([], cs)
  | _, [] => ([], [])
  | fuel + 1, cs =>
    let line := cs.takeWhile (· ≠ '\n')
    let rest := cs.drop line.length
    let shown := if a.dropTabs then line.dropWhile (· == '\t') else line
    if String.ofList shown = a.ending then ([], rest.drop 1)
    else
      let (lines, left) := documentLines a fuel (rest.drop 1)
      (shown ++ rest.take 1 ++ lines, left)

end Reading

end ProtocolInference.Shell
