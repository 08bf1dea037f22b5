import ProtocolInference.Shell.Pattern
import ProtocolInference.Workspace

/-!
# Words after expansion

What a word expands to is a sequence of characters, some of which may split it into
several words. The words that come out are patterns, which stand for the names of the
files that match them.
-/

namespace ProtocolInference.Shell

/-- A part of what a word expands to. -/
inductive Atom where
  /-- A character. One that `splits` ends the word before it if it is a separator. -/
  | char (c : Char) (quoted splits : Bool)
  /-- A quoted text without characters, which makes a word by itself. -/
  | blank
  /-- The end of one parameter of several. -/
  | boundary
  deriving DecidableEq, Repr

namespace Atom

/-- A text as atoms. -/
def ofText (s : String) (quoted splits : Bool) : List Atom :=
  s.toList.map fun c => .char c quoted splits

/-- The character of an atom, and whether it was quoted. -/
def mark? : Atom → Option Mark
  | .char c quoted _ => some (c, quoted)
  | .blank => none
  | .boundary => some (' ', true)

/-- The pattern that atoms make if they are one word. -/
def pattern (atoms : List Atom) : List Mark := atoms.filterMap mark?

/-- The text that atoms make if they are one word. -/
def text (atoms : List Atom) : String := String.ofList ((pattern atoms).map (·.1))

end Atom

/-- What stands before the next character while atoms are split. -/
inductive Gap where
  /-- The start of a word. -/
  | start
  /-- Characters of the present word. -/
  | inside
  /-- White space after a word. -/
  | white
  deriving DecidableEq

/-- Words under construction, each in reverse. -/
structure Fields where
  complete : List (List Mark) := []
  current : List Mark := []
  gap : Gap := .start

namespace Fields

/-- Ends the present word. -/
def close (f : Fields) (gap : Gap) : Fields :=
  { complete := f.current.reverse :: f.complete, current := [], gap }

/-- Adds an atom, given the separators. White space around words is dropped; any other
separator ends a word, which may be empty. -/
def add (separators : List Char) (f : Fields) (a : Atom) : Fields :=
  match a with
  | .blank => { f with gap := .inside }
  | .boundary => if f.gap = .inside then f.close .start else { f with gap := .start }
  | .char c quoted splits =>
    if splits ∧ separators.contains c then
      let isWhite := c = ' ' ∨ c = '\t' ∨ c = '\n'
      match f.gap with
      | .inside => f.close (if isWhite then .white else .start)
      | .white => if isWhite then f else { f with gap := .start }
      | .start => if isWhite then f else f.close .start
    else { f with current := (c, quoted) :: f.current, gap := .inside }

/-- The words that atoms make. -/
def ofAtoms (separators : List Char) (atoms : List Atom) : List (List Mark) :=
  let f : Fields := atoms.foldl (add separators) {}
  (if f.gap = .inside then f.close .start else f).complete.reverse

end Fields

/-! ### Names of files -/

/-- The text of an expanded word. -/
def markText (w : List Mark) : String := String.ofList (w.map (·.1))

/-- The parts of a pattern between slashes. -/
def segments (w : List Mark) : List (List Mark) :=
  w.foldr (fun m parts =>
    if m.1 = '/' then [] :: parts
    else match parts with
      | p :: rest => (m :: p) :: rest
      | [] => [[m]]) [[]]

/-- Whether a name matches a part of a pattern. Names that start with a dot have to be
asked for. -/
def nameMatches (segment : List Mark) (name : String) : Bool :=
  matchesPattern segment name.toList &&
    (!name.startsWith "." || (segment.head?.map (·.1)) == some '.')

/-- The names that continue the given one and match the parts of a pattern. -/
def continuations (w : Workspace) : List (List Mark) → String → List String
  | [], name => if w.exists? name then [name] else []
  | segment :: rest, name =>
    let separator := if rest.isEmpty then "" else "/"
    if isPattern segment then
      let directory := if name = "" then "." else name
      let names := match w.find directory with
        | .ok path => if w.isDirectory path then w.entries path else []
        | .error _ => []
      let dots := if (segment.head?.map (·.1)) == some '.' && !names.isEmpty then [".", ".."] else []
      ((names ++ dots).filter (nameMatches segment)).flatMap fun n =>
        continuations w rest (name ++ n ++ separator)
    else continuations w rest (name ++ markText segment ++ separator)

/-- The files that a pattern names, or the pattern itself if there are none. -/
def fileNames (w : Workspace) (word : List Mark) : List String :=
  if isPattern word then
    match continuations w (segments word) "" with
    | [] => [markText word]
    | names => names.mergeSort fun a b => decide (a ≤ b)
  else [markText word]

end ProtocolInference.Shell
