import ProtocolInference.Shell.Pattern

/-!
# Regular expressions of lines

Lines are searched for regular expressions, in the basic or the extended notation. A match
is found by following every way through the expression in turn.
-/

namespace ProtocolInference.Shell

/-- A regular expression. -/
inductive Regex where
  | empty
  | char (c : Char)
  | any
  | oneOf (negated : Bool) (ranges : List CharRange)
  | lineStart
  | lineEnd
  /-- The edge of a word: its start, its end, or any. -/
  | edge (atStart atEnd : Bool)
  | noEdge
  | append (first second : Regex)
  | either (first second : Regex)
  /-- At least `low` times the body, and at most `high` times. -/
  | repeats (low : Nat) (high : Option Nat) (body : Regex)
  | group (number : Nat) (body : Regex)
  /-- What the group of that number has matched. -/
  | back (number : Nat)
  deriving Repr, Inhabited

/-- A place in a line: the character before it, what follows, and what groups have
matched. -/
structure Cursor where
  before : Option Char := none
  rest : List Char
  groups : List (Nat × List Char) := []

namespace Regex

/-- A character that may stand in a word. -/
def isWordChar (c : Char) : Bool := c.isAlphanum || c == '_'

/-- Whether two characters are the same, or differ by case only. -/
def sameChar (fold : Bool) (a b : Char) : Bool :=
  a == b || (fold && a.toLower == b.toLower)

/-- The cursor after one more character. -/
def step (p : Cursor) (allowed : Char → Bool) : List Cursor :=
  match p.rest with
  | c :: rest => if allowed c then [{ p with before := some c, rest }] else []
  | [] => []

/-- The places after all matches at a place. -/
def places : Nat → Bool → Regex → Cursor → List Cursor
  | 0, _, _, _ => []
  | fuel + 1, fold, r, p =>
    let inWord := p.before.any isWordChar
    let goesOn := p.rest.head?.any isWordChar
    match r with
    | .empty => [p]
    | .char c => step p (sameChar fold c)
    | .any => step p fun _ => true
    | .oneOf negated ranges => step p fun c =>
      inSet false ranges c != negated ||
        (fold && (inSet false ranges c.toLower || inSet false ranges c.toUpper) != negated)
    | .lineStart => if p.before.isNone then [p] else []
    | .lineEnd => if p.rest.isEmpty then [p] else []
    | .edge atStart atEnd =>
      if (atStart && !inWord && goesOn) || (atEnd && inWord && !goesOn) then [p] else []
    | .noEdge => if inWord == goesOn then [p] else []
    | .append a b => (places fuel fold a p).flatMap (places fuel fold b)
    | .either a b => places fuel fold a p ++ places fuel fold b p
    | .repeats 0 high a =>
      p :: if high = some 0 then [] else
        (places fuel fold a p).flatMap fun q =>
          if q.rest.length < p.rest.length then
            places fuel fold (.repeats 0 (high.map (· - 1)) a) q
          else []
    | .repeats (low + 1) high a =>
      (places fuel fold a p).flatMap (places fuel fold (.repeats low (high.map (· - 1)) a))
    | .group n a => (places fuel fold a p).map fun q =>
      { q with groups := (n, p.rest.take (p.rest.length - q.rest.length)) :: q.groups }
    | .back n =>
      match p.groups.lookup n with
      | some matched =>
        let next := p.rest.take matched.length
        if next.length = matched.length ∧ (next.zip matched).all fun (a, b) => sameChar fold a b
        then [{ p with before := matched.getLast? <|> p.before, rest := p.rest.drop matched.length }]
        else []
      | none => []

/-- The number of parts of an expression. -/
def size : Regex → Nat
  | .append a b | .either a b => a.size + b.size + 1
  | .repeats low _ a => a.size + low + 1
  | .group _ a => a.size + 1
  | _ => 1

/-- How a line has to match: without regard to case, as a whole, or as whole words. -/
structure Matching where
  fold : Bool := false
  whole : Bool := false
  word : Bool := false

/-- The lengths of the matches at a place. -/
def lengthsAt (r : Regex) (how : Matching) (p : Cursor) : List Nat :=
  let ends := places (r.size + 2 * p.rest.length + 2) how.fold r p
  let ends := ends.filter fun q =>
    (!how.whole || (p.before.isNone && q.rest.isEmpty)) &&
      (!how.word || !(p.before.any isWordChar || q.rest.head?.any isWordChar))
  ends.map fun q => p.rest.length - q.rest.length

/-- The length of the longest match of one of the expressions at a place. -/
def longestAt (rs : List Regex) (how : Matching) (p : Cursor) : Option Nat :=
  (rs.flatMap fun r => r.lengthsAt how p).max?

/-- Whether some part of a line matches one of the expressions. -/
def search (rs : List Regex) (how : Matching) (before : Option Char) : List Char → Bool
  | [] => (longestAt rs how { before, rest := [] }).isSome
  | c :: cs =>
    (longestAt rs how { before, rest := c :: cs }).isSome || search rs how (some c) cs

/-- The parts of a line that match, from left to right, without those that are empty. -/
def found (rs : List Regex) (how : Matching) : Nat → Option Char → List Char → List (List Char)
  | 0, _, _ => []
  | _, _, [] => []
  | fuel + 1, before, c :: cs =>
    match longestAt rs how { before, rest := c :: cs } with
    | some (n + 1) =>
      let part := (c :: cs).take (n + 1)
      part :: found rs how fuel part.getLast? ((c :: cs).drop (n + 1))
    | _ => found rs how fuel (some c) cs

/-! ### Notations -/

/-- The state of a reader: what is left, and the number of groups so far. -/
structure Reader where
  rest : List Char
  groups : Nat := 0
  /-- The number of groups that are open. -/
  depth : Nat := 0
  /-- What is odd about the expression without being wrong. -/
  remarks : List String := []

/-- Reads a part of an expression, or says what is wrong with it. -/
abbrev Parsing := StateT Reader (Except String)

/-- Takes the given characters if they come next. -/
def accept (cs : List Char) : Parsing Bool := do
  let s ← get
  if cs.isPrefixOf s.rest then
    set { s with rest := s.rest.drop cs.length }
    pure true
  else pure false

/-- Whether the alternative ends here. -/
def atEnd (extended : Bool) : Parsing Bool := do
  let s ← get
  pure (match s.rest with
    | [] => true
    | '|' :: _ => extended
    | ')' :: _ => extended && s.depth != 0
    | '\\' :: '|' :: _ | '\\' :: ')' :: _ => !extended
    | _ => false)

/-- A number of repetitions, if there is one. -/
def number? : Parsing (Option Nat) := do
  let s ← get
  let ds := s.rest.takeWhile Char.isDigit
  set { s with rest := s.rest.drop ds.length }
  pure (if ds.isEmpty then none else (String.ofList ds).toNat?)

/-- The bounds of a repetition after their opening brace. -/
def bounds? (extended : Bool) : Parsing (Option (Nat × Option Nat)) := do
  let low ← number?
  let comma ← accept [',']
  let high ← if comma then number? else pure low
  let closed ← accept (if extended then ['\x7d'] else ['\\', '\x7d'])
  let valid := closed && (comma || low.isSome) && high.all (low.getD 0 ≤ ·)
  pure (if valid then some (low.getD 0, high) else none)

/-- What is wrong with a set in brackets, of which the text up to the closing one is given. -/
def bracketFault? (text : List Char) (ranges : List CharRange) : Option String :=
  let names := (List.range text.length).filterMap fun i =>
    match text.drop i with
    | '[' :: ':' :: rest => (className (rest.map (·, false))).map (·.1)
    | _ => none
  if names.any fun name => (classRanges name).isNone then some "Invalid character class name"
  else if ranges.any fun (a, b) => b < a then some "Invalid range end"
  else match text, text.reverse with
    | ':' :: _ :: _, ':' :: _ => some "character class syntax is [[:space:]], not [:space:]"
    | _, _ => none

/-- The set in brackets after the opening one. -/
def bracket : Parsing Regex := do
  let s ← get
  let (negated, inner) := match s.rest with
    | '^' :: rest => (true, rest)
    | rest => (false, rest)
  let marks := inner.map (·, false)
  match bracketRanges (marks.length + 1) true marks with
  | some (ranges, rest) => do
    set { s with rest := rest.map Prod.fst }
    match bracketFault? (inner.take (inner.length - rest.length - 1)) ranges with
    | some message => throw message
    | none => pure (.oneOf negated ranges)
  | none =>
    if s.rest.isEmpty then throw "Invalid regular expression"
    else throw "Unmatched [, [^, [:, [., or [="

/-- What a backslash before a character means, other than the character itself. -/
def escape? (c : Char) : Option Regex :=
  match c with
  | 'w' => some (.oneOf false [('A', 'Z'), ('a', 'z'), ('0', '9'), ('_', '_')])
  | 'W' => some (.oneOf true [('A', 'Z'), ('a', 'z'), ('0', '9'), ('_', '_')])
  | 's' => some (.oneOf false [('\t', '\x0d'), (' ', ' ')])
  | 'S' => some (.oneOf true [('\t', '\x0d'), (' ', ' ')])
  | '<' => some (.edge true false)
  | '>' => some (.edge false true)
  | 'b' => some (.edge true true)
  | 'B' => some .noEdge
  | _ => none

mutual
/-- Alternatives. In the basic notation the special characters have a backslash. -/
def alternatives (extended : Bool) (fuel : Nat) : Parsing Regex :=
  match fuel with
  | 0 => pure .empty
  | fuel + 1 => do
    let first ← items extended fuel true
    if ← accept (if extended then ['|'] else ['\\', '|']) then
      pure (.either first (← alternatives extended fuel))
    else pure first
/-- Items one after the other. -/
def items (extended : Bool) (fuel : Nat) (first : Bool) : Parsing Regex :=
  match fuel with
  | 0 => pure .empty
  | fuel + 1 => do
    if ← atEnd extended then pure .empty
    else
      let item ← atom extended fuel first
      let anchor := item matches .lineStart
      let item ← if anchor then pure item else repeated extended fuel item
      pure (.append item (← items extended fuel anchor))
/-- One item without its repetition. -/
def atom (extended : Bool) (fuel : Nat) (first : Bool) : Parsing Regex :=
  match fuel with
  | 0 => pure .empty
  | fuel + 1 => do
    let s ← get
    match s.rest with
    | [] => pure .empty
    | c :: rest => do
      set { s with rest }
      let group : Parsing Regex := do
        let number := s.groups + 1
        modify fun inner => { inner with groups := number, depth := s.depth + 1 }
        let body ← alternatives extended fuel
        unless ← accept (if extended then [')'] else ['\\', ')']) do
          throw "Unmatched ( or \\("
        modify fun inner => { inner with depth := s.depth }
        pure (.group number body)
      match c with
      | '.' => pure .any
      | '^' => pure (if extended || first then .lineStart else .char '^')
      | '$' => do
        let last ← atEnd extended
        pure (if extended || last then .lineEnd else .char '$')
      | '[' => bracket
      | '*' | '+' | '?' | '\x7b' =>
        let bounds := match (bounds? extended).run { rest } with
          | .ok (some _, _) => true
          | _ => false
        if extended && first && (c != '\x7b' || bounds) then do
          let mark := if c = '\x7b' then "\x7b...\x7d" else String.singleton c
          set { s with remarks := s.remarks ++ [s!"{mark} at start of expression"] }
          repeated extended fuel .empty
        else pure (.char c)
      | '(' => if extended then group else pure (.char '(')
      | '\\' =>
        match rest with
        | [] => throw "Trailing backslash"
        | d :: rest => do
          set { s with rest }
          if d = '(' ∧ !extended then group
          else if d.isDigit ∧ d ≠ '0' then
            let n := d.toNat - 48
            if n ≤ s.groups then pure (.back n) else throw "Invalid back reference"
          else pure ((escape? d).getD (.char d))
      | c => pure (.char c)
/-- An item with the repetitions after it. -/
def repeated (extended : Bool) (fuel : Nat) (item : Regex) : Parsing Regex :=
  match fuel with
  | 0 => pure item
  | fuel + 1 => do
    let before ← get
    let mark (c : Char) : List Char := if extended then [c] else ['\\', c]
    if ← accept ['*'] then repeated extended fuel (.repeats 0 none item)
    else if ← accept (mark '+') then repeated extended fuel (.repeats 1 none item)
    else if ← accept (mark '?') then repeated extended fuel (.repeats 0 (some 1) item)
    else if ← accept (mark '\x7b') then
      match ← bounds? extended with
      | some (low, high) => repeated extended fuel (.repeats low high item)
      | none =>
        if extended then do
          -- A brace that starts no bounds stands for itself.
          set { before with rest := before.rest.drop 1 }
          pure (.append item (← repeated extended fuel (.char '\x7b')))
        else if (← get).rest.isEmpty then throw "Unmatched \\\x7b"
        else throw "Invalid content of \\\x7b\\\x7d"
    else pure item
end

/-- The expression that a text describes, with what is odd about it, or what is wrong with
it. -/
def ofString (extended : Bool) (s : String) : Except String (Regex × List String) := do
  let (r, state) ← (alternatives extended (8 * s.length + 8)).run { rest := s.toList }
  if state.rest.isEmpty then pure (r, state.remarks) else throw "Unmatched ) or \\)"

/-- The expression for the text itself. -/
def literal (s : String) : Regex :=
  s.toList.foldr (fun c r => .append (.char c) r) .empty

end Regex

end ProtocolInference.Shell
