import ProtocolInference.Shell.Commands
import ProtocolInference.Shell.Regex

/-!
# Searching lines

The program that searches texts for lines that match patterns. What it writes is decided
line by line: the lines that are selected, those around them that are asked for, and
marks between groups of lines that do not follow each other.
-/

namespace ProtocolInference.Shell

open Run

/-- What is written about a text besides its lines, or instead of them. -/
inductive Listing where
  | lines
  | counts
  /-- The names of the texts with selected lines, or of those without. -/
  | names (selected : Bool)
  | nothing
  deriving DecidableEq

/-- What is searched for, and what is written about it. -/
structure Search where
  /-- Patterns, and names of files with patterns. -/
  patterns : List (String ⊕ String) := []
  extended : Bool := false
  fixed : Bool := false
  how : Regex.Matching := {}
  inverted : Bool := false
  listing : Listing := .lines
  counts : Bool := false
  onlyParts : Bool := false
  numbers : Bool := false
  offsets : Bool := false
  named : Option Bool := none
  silent : Bool := false
  /-- Texts with zeros are searched like others. -/
  anyText : Bool := false
  ignoresBinary : Bool := false
  recursive : Bool := false
  skipsDirectories : Bool := false
  lineEnd : Char := '\n'
  afterName : Option Char := none
  limit : Option Nat := none
  before : Option Nat := none
  after : Option Nat := none
  around : Option Nat := none
  separator : Option String := some "--"
  inputName : String := "(standard input)"

namespace Search

/-! ### Options -/

/-- How the program is used. -/
def usage : String :=
  "Usage: grep [OPTION]... PATTERNS [FILE]...\nTry 'grep --help' for more information.\n"

/-- A message of the program. -/
def complaint (message : String) : String := s!"grep: {message}\n"

/-- A number in digits. One without digits is none. -/
def numberOf (s : String) (message : String) : Except String Nat :=
  match if !s.isEmpty && s.all Char.isDigit then s.toNat? else none with
  | some n => .ok n
  | none => .error (complaint message)

/-- The options that have a value. -/
def valued : List Char := ['A', 'B', 'C', 'D', 'X', 'd', 'e', 'f', 'm']

/-- Adds an option of one letter. -/
def option (s : Search) (c value : String) : Except String Search :=
  let lengthMessage := s!"{value}: invalid context length argument"
  match c with
  | "E" | "P" => .ok { s with extended := true, fixed := false }
  | "F" => .ok { s with fixed := true }
  | "G" => .ok { s with extended := false, fixed := false }
  | "i" | "y" => .ok { s with how := { s.how with fold := true } }
  | "no-ignore-case" => .ok { s with how := { s.how with fold := false } }
  | "v" => .ok { s with inverted := true }
  | "w" => .ok { s with how := { s.how with word := true } }
  | "x" => .ok { s with how := { s.how with whole := true } }
  | "c" => .ok { s with counts := true }
  | "l" => .ok { s with listing := .names true }
  | "L" => .ok { s with listing := .names false }
  | "q" => .ok { s with listing := .nothing }
  | "s" => .ok { s with silent := true }
  | "n" => .ok { s with numbers := true }
  | "b" => .ok { s with offsets := true }
  | "H" => .ok { s with named := some true }
  | "h" => .ok { s with named := some false }
  | "o" => .ok { s with onlyParts := true }
  | "a" => .ok { s with anyText := true }
  | "I" => .ok { s with ignoresBinary := true }
  | "r" | "R" => .ok { s with recursive := true }
  | "z" => .ok { s with lineEnd := '\x00' }
  | "Z" => .ok { s with afterName := some '\x00' }
  | "U" | "u" | "T" | "D" | "line-buffered" | "color" | "colour" => .ok s
  | "m" => do pure { s with limit := some (← numberOf value "invalid max count") }
  | "A" => do pure { s with after := some (← numberOf value lengthMessage) }
  | "B" => do pure { s with before := some (← numberOf value lengthMessage) }
  | "C" => do pure { s with around := some (← numberOf value lengthMessage) }
  | "e" => .ok { s with patterns := s.patterns ++ [.inl value] }
  | "f" => .ok { s with patterns := s.patterns ++ [.inr value] }
  | "label" => .ok { s with inputName := value }
  | "group-separator" => .ok { s with separator := some value }
  | "no-group-separator" => .ok { s with separator := none }
  | "binary-files" =>
    if value = "text" then .ok { s with anyText := true }
    else if value = "without-match" then .ok { s with ignoresBinary := true }
    else if value = "binary" then .ok s
    else .error (complaint "unknown binary-files type")
  | "d" =>
    if value = "skip" then .ok { s with skipsDirectories := true }
    else if value = "recurse" then .ok { s with recursive := true }
    else if value = "read" then .ok s
    else .error (complaint s!"invalid argument '{value}' for '--directories'\n" ++
      "Valid arguments are:\n  - 'read'\n  - 'recurse'\n  - 'skip'\n" ++ usage)
  | _ => .error (complaint s!"invalid option -- '{c}'" ++ usage)

/-- The options with long names: the option that each is, and whether a value has to or may
follow it. -/
def longNames : List (String × String × Option Bool) :=
  [("after-context", "A", some true), ("basic-regexp", "G", none),
    ("before-context", "B", some true), ("binary", "U", none),
    ("binary-files", "binary-files", some true), ("byte-offset", "b", none),
    ("color", "color", some false), ("colour", "colour", some false),
    ("context", "C", some true), ("count", "c", none), ("dereference-recursive", "R", none),
    ("devices", "D", some true), ("directories", "d", some true),
    ("extended-regexp", "E", none), ("file", "f", some true),
    ("files-with-matches", "l", none), ("files-without-match", "L", none),
    ("fixed-strings", "F", none), ("group-separator", "group-separator", some true),
    ("ignore-case", "i", none), ("initial-tab", "T", none), ("invert-match", "v", none),
    ("label", "label", some true), ("line-buffered", "line-buffered", none),
    ("line-number", "n", none), ("line-regexp", "x", none), ("max-count", "m", some true),
    ("no-filename", "h", none), ("no-group-separator", "no-group-separator", none),
    ("no-ignore-case", "no-ignore-case", none), ("no-messages", "s", none),
    ("null", "Z", none), ("null-data", "z", none), ("only-matching", "o", none),
    ("perl-regexp", "P", none), ("quiet", "q", none), ("recursive", "r", none),
    ("regexp", "e", some true), ("silent", "q", none), ("text", "a", none),
    ("with-filename", "H", none), ("word-regexp", "w", none)]

/-- The long option of that name, or the only one that starts like it. -/
def longOption (argument name : String) : Except String (String × String × Option Bool) :=
  match longNames.find? (·.1 == name), longNames.filter fun entry => entry.1.startsWith name with
  | some entry, _ | none, [entry] => .ok entry
  | none, [] => .error (complaint s!"unrecognized option '{argument}'" ++ usage)
  | none, entries =>
    let names := String.join (entries.map fun entry => s!" '--{entry.1}'")
    .error (complaint s!"option '{argument}' is ambiguous; possibilities:{names}" ++ usage)

/-- Adds the options of one argument, each a letter. The last one may have its value in the
same argument; otherwise it is left over. Digits together are the number of lines around
those that are selected. -/
def letters (s : Search) : Nat → List Char → Except String (Search × Option Char)
  | 0, _ => .ok (s, none)
  | _, [] => .ok (s, none)
  | fuel + 1, c :: cs =>
    if valued.contains c then
      if cs.isEmpty then .ok (s, some c)
      else do pure (← s.option (String.singleton c) (String.ofList cs), none)
    else if c.isDigit then do
      let ds := (c :: cs).takeWhile Char.isDigit
      (← s.option "C" (String.ofList ds)).letters fuel ((c :: cs).drop ds.length)
    else do (← s.option (String.singleton c) "").letters fuel cs

/-- What the arguments ask for, and the arguments that are no options. -/
def arguments : Nat → Search → List String → Except String (Search × List String)
  | 0, s, rest => .ok (s, rest)
  | _, s, [] => .ok (s, [])
  | _, s, "--" :: rest => .ok (s, rest)
  | fuel + 1, s, argument :: rest =>
    match argument.toList with
    | '-' :: '-' :: cs => do
      let name := cs.takeWhile (· ≠ '=')
      let value? := (cs.drop name.length).tail?.map String.ofList
      let shown := "--" ++ String.ofList name
      let (full, letter, value) ← longOption shown (String.ofList name)
      match value, value? with
      | some true, none =>
        match rest with
        | value :: rest => arguments fuel (← s.option letter value) rest
        | [] => throw (complaint s!"option '--{full}' requires an argument" ++ usage)
      | none, some _ => throw (complaint s!"option '--{full}' doesn't allow an argument" ++ usage)
      | _, _ => arguments fuel (← s.option letter (value?.getD "")) rest
    | '-' :: c :: cs => do
      match ← s.letters (cs.length + 2) (c :: cs) with
      | (s, none) => arguments fuel s rest
      | (s, some d) =>
        match rest with
        | value :: rest => arguments fuel (← s.option (String.singleton d) value) rest
        | [] => throw (complaint s!"option requires an argument -- '{d}'" ++ usage)
    | _ => (arguments fuel s rest).map fun (s, others) => (s, argument :: others)

/-! ### One text -/

/-- The lines of a text without what ends them. -/
def linesOf (lineEnd : Char) (text : String) : List (List Char) :=
  let lines := text.toList.splitOn lineEnd
  if lines.getLast? = some [] then lines.dropLast else lines

/-- What has been written about a text so far. The output is kept in reverse. -/
structure Report where
  output : List String := []
  count : Nat := 0
  /-- The number of lines that may still follow the last selected one. -/
  pending : Nat := 0
  /-- The number of the line after the last one that was written. -/
  next : Option Nat := none
  /-- Whether a line has been written, about this text or one before it. -/
  used : Bool := false

/-- Adds one line, which is the line of that number. -/
def writeLine (s : Search) (rs : List Regex) (name : Option String) (lines : Array (List Char × Nat))
    (selected : Bool) (r : Report) (i : Nat) : Report :=
  let mark := if selected then ":" else "-"
  let (line, offset) := lines[i]?.getD ([], 0)
  let head := (match name with
      | some name => name ++ (s.afterName.map String.singleton).getD mark
      | none => "") ++
    (if s.numbers then s!"{i + 1}{mark}" else "") ++ if s.offsets then s!"{offset}{mark}" else ""
  let shown :=
    if !s.onlyParts then [line]
    else if selected && !s.inverted then Regex.found rs s.how (line.length + 1) none line
    else []
  { r with
    output := (shown.map fun cs => head ++ String.ofList cs ++ String.singleton s.lineEnd).reverse
      ++ r.output
    next := some (i + 1) }

/-- Adds the lines of a text from the given number on. -/
def reportFrom (s : Search) (rs : List Regex) (name : Option String)
    (lines : Array (List Char × Nat)) : List Nat → Report → Report
  | [], r => r
  | i :: rest, r =>
    let (line, _) := lines[i]?.getD ([], 0)
    let more := s.limit.all (r.count < ·)
    let selected := more && Regex.search rs s.how none line != s.inverted
    let r :=
      if selected && s.listing != .lines then { r with count := r.count + 1 }
      else if selected then
        let start := max (r.next.getD 0) (i - (s.before.getD 0))
        let separates := (s.before.isSome || s.after.isSome) && r.used && r.next != some start
        let r := match s.separator with
          | some text => if separates then { r with output := (text ++ "\n") :: r.output } else r
          | none => r
        let r := (List.range' start (i - start)).foldl (s.writeLine rs name lines false) r
        { s.writeLine rs name lines true r i with
          count := r.count + 1, pending := s.after.getD 0, used := true }
      else if 0 < r.pending then
        { s.writeLine rs name lines false r i with pending := r.pending - 1 }
      else r
    if !more && r.pending = 0 then r else s.reportFrom rs name lines rest r

/-- What is written about a text, whether a line of it is selected, and what is said about
it on the side. -/
def report (s : Search) (rs : List Regex) (name : String) (isNamed used : Bool) (text : String) :
    Report × String :=
  let isBinary := s.lineEnd = '\n' && !s.anyText && text.contains '\x00'
  let text := if isBinary then text.map fun c => if c = '\x00' then '\n' else c else text
  let lines := (linesOf s.lineEnd text).foldl (fun (ls, offset) line =>
    (ls.push (line, offset), offset + line.length + 1)) ((#[] : Array (List Char × Nat)), 0)
  let heading := if isNamed then some name else none
  let r := if isBinary && s.ignoresBinary then { used }
    else s.reportFrom rs heading lines.1 (List.range lines.1.size) { used }
  let nameLine := name ++ (s.afterName.map String.singleton).getD "\n"
  match s.listing with
  | .lines =>
    if isBinary && 0 < r.count then
      ({ r with output := [] }, complaint s!"{name}: binary file matches")
    else (r, "")
  | .counts =>
    let head := if isNamed then name ++ (s.afterName.map String.singleton).getD ":" else ""
    ({ r with output := [s!"{head}{r.count}\n"] }, "")
  | .names selected =>
    ({ r with output := if (0 < r.count) = selected then [nameLine] else [] }, "")
  | .nothing => (r, "")

/-! ### Files -/

/-- The files below a directory. -/
def filesBelow : Nat → Workspace → String → List String
  | 0, _, _ => []
  | fuel + 1, w, name =>
    match w.find name with
    | .error _ => [name]
    | .ok path =>
      if w.isDirectory path then
        (w.entries path).flatMap fun entry =>
          filesBelow fuel w (if name.endsWith "/" then name ++ entry else name ++ "/" ++ entry)
      else [name]

/-- Searches the named texts, and tells whether a line was selected and whether a text could
not be read. -/
def files (s : Search) (rs : List Regex) (isNamed : Bool) :
    List String → Bool → Bool → Bool → Run (Bool × Bool)
  | [], _, found, failed => pure (found, failed)
  | name :: rest, used, found, failed => do
    let content ← if name = "-" then readAll 0 else contents name
    let shown := if name = "-" then s.inputName else name
    match content with
    | .error message => do
      if message = FileError.isDirectory.message && s.skipsDirectories then
        files s rs isNamed rest used found failed
      else
        unless s.silent do writeError (complaint s!"{shown}: {message}")
        files s rs isNamed rest used found true
    | .ok text => do
      let (r, remark) := s.report rs shown isNamed used text
      let _ ← write 1 (String.join r.output.reverse)
      writeError remark
      let found := found || 0 < r.count
      if found && s.listing == .nothing then pure (true, failed)
      else files s rs isNamed rest r.used found failed

/-- The lines of patterns. -/
def patternLines (text : String) : List String := text.splitOn "\n"

/-- All patterns, or the first file of patterns that cannot be read. -/
def allPatterns : List (String ⊕ String) → Run (Except String (List String))
  | [] => pure (.ok [])
  | .inl text :: rest => do
    pure ((← allPatterns rest).map fun others => patternLines text ++ others)
  | .inr name :: rest => do
    let content ← if name = "-" then readAll 0 else contents name
    match content with
    | .error reason => pure (.error (complaint s!"{name}: {reason}"))
    | .ok text =>
      let lines := patternLines text
      let lines := if lines.getLast? = some "" then lines.dropLast else lines
      pure ((← allPatterns rest).map fun others => lines ++ others)

/-- The expressions of patterns, and what is odd about them. -/
def expressions (s : Search) (patterns : List String) :
    Except String (List Regex × List String) := do
  if s.fixed then pure (patterns.map Regex.literal, [])
  else
    let rs ← patterns.mapM (Regex.ofString s.extended)
    pure (rs.map (·.1), rs.flatMap (·.2))

/-- The settings that follow from others. -/
def settled (s : Search) : Search :=
  let listing := match s.listing with
    | .lines => if s.counts then .counts else .lines
    | listing => listing
  { s with
    listing
    limit := match listing with
      | .names _ | .nothing => some (min 1 (s.limit.getD 1))
      | _ => s.limit
    before := s.before <|> s.around
    after := s.after <|> s.around }

end Search

/-- Searches texts for lines. -/
def grep : Tool := fun words => do
  let refuse (text : String) : Run Unit := do
    writeError text
    setStatus 2
  match Search.arguments (words.length + 1) {} words with
  | .error text => refuse text
  | .ok (s, operands) => do
    let s := s.settled
    let (patterns, operands) : List (String ⊕ String) × List String :=
      match s.patterns, operands with
      | [], pattern :: rest => ([.inl pattern], rest)
      | patterns, operands => (patterns, operands)
    if patterns.isEmpty then return ← refuse Search.usage
    match ← Search.allPatterns patterns with
    | .error text => refuse text
    | .ok patterns =>
      match s.expressions patterns with
      | .error message => refuse (Search.complaint message)
      | .ok (rs, remarks) => do
        writeError (String.join (remarks.map fun r => Search.complaint s!"warning: {r}"))
        -- Nothing can be selected.
        let futile := s.limit = some 0 ||
          (patterns.all (· = "") && s.inverted && !s.how.whole && !s.how.word &&
            !patterns.isEmpty)
        if futile && s.listing != .names false then return ← setStatus 1
        let w := (← get).workspace
        let names := if !operands.isEmpty then
            if s.recursive then operands.flatMap (Search.filesBelow 64 w) else operands
          else if s.recursive then
            (Search.filesBelow 64 w ".").map fun name => (name.drop 2).toString
          else ["-"]
        let isNamed := s.named.getD (s.recursive || 1 < operands.length)
        let (found, failed) ← s.files rs isNamed names false false false
        let quiet := found && s.listing == .nothing
        setStatus (if failed && !quiet then 2 else if found then 0 else 1)

end ProtocolInference.Shell
