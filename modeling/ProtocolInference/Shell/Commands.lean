import ProtocolInference.Shell.Machine

/-!
# Commands that need no other command

Each takes its arguments, works on the state of the script and leaves its status there.
Those of the shell itself stop at an error with a message of the shell; the programs of
the system have messages of their own.
-/

namespace ProtocolInference.Shell

/-- A command with its arguments. -/
abbrev Tool := List String → Run Unit

open Run

/-! ### Escapes -/

/-- The number that up to the given count of octal digits stand for, and the rest. -/
def octal : Nat → Nat → List Char → Nat × List Char
  | 0, n, cs => (n, cs)
  | _, n, [] => (n, [])
  | count + 1, n, c :: cs =>
    if 48 ≤ c.toNat ∧ c.toNat ≤ 55 then octal count (n * 8 + (c.toNat - 48)) cs else (n, c :: cs)

/-- The octet with the last eight bits of a number. -/
def octet (n : Nat) : Char := Char.ofNat (n % 256)

/-- The character that a letter after a backslash stands for. -/
def escapeOf (c : Char) : Option Char :=
  match c with
  | 'a' => some '\x07'
  | 'b' => some '\x08'
  | 'e' => some '\x1b'
  | 'f' => some '\x0c'
  | 'n' => some '\n'
  | 'r' => some '\r'
  | 't' => some '\t'
  | 'v' => some '\x0b'
  | '\\' => some '\\'
  | _ => none

/-- The text with its escapes replaced, and whether output goes on after it. A number in
octal digits may have one more zero in front. -/
def unescape : Nat → List Char → List Char → List Char × Bool
  | 0, done, _ => (done.reverse, true)
  | _, done, [] => (done.reverse, true)
  | fuel + 1, done, '\\' :: c :: cs =>
    match escapeOf c with
    | some d => unescape fuel (d :: done) cs
    | none =>
      if c = 'c' then (done.reverse, false)
      else if c = '0' then
        let (n, cs) := octal 3 0 cs
        unescape fuel (octet n :: done) cs
      else if c.isDigit ∧ c ≠ '8' ∧ c ≠ '9' then
        let (n, cs) := octal 3 0 (c :: cs)
        unescape fuel (octet n :: done) cs
      else unescape fuel ('\\' :: done) (c :: cs)
  | fuel + 1, done, c :: cs => unescape fuel (c :: done) cs

/-- The text with its escapes replaced. -/
def unescaped (s : String) : String × Bool :=
  let (cs, goesOn) := unescape (s.length + 1) [] s.toList
  (String.ofList cs, goesOn)

/-! ### Writing texts -/

/-- The shell's own command, which replaces escapes. -/
def echo : Tool := fun arguments => do
  let (newline, arguments) := match arguments with
    | "-n" :: rest => (false, rest)
    | arguments => (true, arguments)
  let (text, goesOn) := unescaped (String.intercalate " " arguments)
  print (text ++ if newline && goesOn then "\n" else "")
  setStatus 0

/-- The options of the program of that name: whether the line ends, and whether escapes
are replaced. -/
def echoOptions (newline escapes : Bool) : List String → Bool × Bool × List String
  | [] => (newline, escapes, [])
  | argument :: rest =>
    match argument.toList with
    | '-' :: c :: cs =>
      if (c :: cs).all fun d => d = 'n' ∨ d = 'e' ∨ d = 'E' then
        let escapes := (c :: cs).foldl (fun escapes d =>
          if d = 'e' then true else if d = 'E' then false else escapes) escapes
        echoOptions (newline && !(c :: cs).contains 'n') escapes rest
      else (newline, escapes, argument :: rest)
    | _ => (newline, escapes, argument :: rest)

/-- The program of that name, which replaces escapes only where it is asked to. -/
def echoProgram : Tool := fun arguments => do
  let (newline, escapes, arguments) := echoOptions true false arguments
  let text := String.intercalate " " arguments
  let (text, goesOn) := if escapes then unescaped text else (text, true)
  let _ ← write 1 (text ++ if newline && goesOn then "\n" else "")
  setStatus 0

/-! ### Formats -/

/-- How one argument is written. -/
structure Layout where
  flags : List Char := []
  width : Nat := 0
  precision : Option Nat := none

namespace Layout

/-- The text with blanks, or zeros after its sign, up to the width. -/
def pad (l : Layout) (sign digits : String) (zeros : Bool) : String :=
  let missing := l.width - (sign.length + digits.length)
  let fill (c : Char) : String := String.ofList (List.replicate missing c)
  if l.flags.contains '-' then sign ++ digits ++ fill ' '
  else if zeros && l.flags.contains '0' then sign ++ fill '0' ++ digits
  else fill ' ' ++ sign ++ digits

/-- The digits with zeros before them up to the precision. -/
def digits (l : Layout) (base n : Nat) : String :=
  let ds := if n = 0 ∧ l.precision = some 0 then [] else Nat.toDigits base n
  String.ofList (List.replicate (l.precision.getD 0 - ds.length) '0' ++ ds)

/-- A number in the way that the letter says. -/
def number (l : Layout) (letter : Char) (n : Int) : String :=
  let zeros := l.precision.isNone
  let unsigned := (if n < 0 then n + 0x10000000000000000 else n).toNat
  let alternate (mark : String) : String := if l.flags.contains '#' ∧ n ≠ 0 then mark else ""
  match letter with
  | 'u' => l.pad "" (l.digits 10 unsigned) zeros
  | 'o' => l.pad "" (alternate "0" ++ l.digits 8 unsigned) zeros
  | 'x' => l.pad (alternate "0x") (l.digits 16 unsigned) zeros
  | 'X' => l.pad (alternate "0X") (l.digits 16 unsigned).toUpper zeros
  | _ =>
    let sign := if n < 0 then "-" else if l.flags.contains '+' then "+"
      else if l.flags.contains ' ' then " " else ""
    l.pad sign (l.digits 10 n.natAbs) zeros

/-- A text, cut to the precision. -/
def text (l : Layout) (s : String) : String :=
  l.pad "" (match l.precision with
    | some n => (s.take n).toString
    | none => s) false

end Layout

/-- The digits of a number at the start of a text, in the base that they tell, and the
rest. -/
def startingNumber (s : String) : Option (Int × List Char) :=
  let digit (base : Nat) (c : Char) : Option Nat :=
    let n := c.toNat
    let d := if 48 ≤ n ∧ n ≤ 57 then n - 48
      else if 97 ≤ n ∧ n ≤ 102 then n - 87
      else if 65 ≤ n ∧ n ≤ 70 then n - 55
      else base
    if d < base then some d else none
  let cs := s.toList.dropWhile Char.isWhitespace
  let (negative, cs) := match cs with
    | '-' :: cs => (true, cs)
    | '+' :: cs => (false, cs)
    | cs => (false, cs)
  let (base, cs) := match cs with
    | '0' :: x :: c :: rest =>
      if (x = 'x' ∨ x = 'X') ∧ (digit 16 c).isSome then (16, c :: rest) else (8, cs)
    | '0' :: _ => (8, cs)
    | _ => (10, cs)
  let ds := cs.takeWhile fun c => (digit base c).isSome
  if ds.isEmpty then none
  else
    let n : Int := ds.foldl (fun n c => n * base + ((digit base c).getD 0 : Nat)) 0
    some (if negative then -n else n, cs.drop ds.length)

/-- The number that an argument stands for. What is no number is complained about. -/
def numberArgument (s : String) : Run (Int × Bool) := do
  match s.toList with
  | '\'' :: c :: _ | '"' :: c :: _ => pure (c.toNat, true)
  | _ =>
    match startingNumber s with
    | some (n, []) => pure (n, true)
    | some (n, _) => do
      complain s!"{s}: not completely converted"
      pure (n, false)
    | none => do
      if s.isEmpty then pure (0, true)
      else
        complain s!"{s}: expected numeric value"
        pure (0, false)

/-- What one pass over a format has written so far, the arguments that are left, whether
all numbers were numbers, and whether output goes on. -/
structure Formatted where
  text : List Char := []
  arguments : List String
  valid : Bool := true
  goesOn : Bool := true

/-- One pass over a format. The text is kept in reverse. -/
def formatOnce : Nat → Formatted → List Char → Run Formatted
  | 0, f, _ => pure f
  | _, f, [] => pure f
  | fuel + 1, f, '\\' :: c :: cs =>
    match escapeOf c with
    | some d => formatOnce fuel { f with text := d :: f.text } cs
    | none =>
      if c.isDigit ∧ c ≠ '8' ∧ c ≠ '9' then
        let (n, cs) := octal 3 0 (c :: cs)
        formatOnce fuel { f with text := octet n :: f.text } cs
      else formatOnce fuel { f with text := '\\' :: f.text } (c :: cs)
  | fuel + 1, f, '%' :: '%' :: cs => formatOnce fuel { f with text := '%' :: f.text } cs
  | fuel + 1, f, '%' :: cs => do
    let start := cs
    let flags := cs.takeWhile "#-+ 0".toList.contains
    let cs := cs.drop flags.length
    let size (cs : List Char) (f : Formatted) : Run (Option Nat × List Char × Formatted) := do
      match cs with
      | '*' :: cs => do
        let (n, valid) ← numberArgument (f.arguments.headD "")
        pure (some n.toNat, cs, { f with arguments := f.arguments.tail, valid := f.valid && valid })
      | cs =>
        let ds := cs.takeWhile Char.isDigit
        pure ((String.ofList ds).toNat?, cs.drop ds.length, f)
    let (width, cs, f) ← size cs f
    let (precision, cs, f) ← match cs with
      | '.' :: cs => do
        let (n, cs, f) ← size cs f
        pure (some (n.getD 0), cs, f)
      | cs => pure (none, cs, f)
    let layout : Layout := { flags, width := width.getD 0, precision }
    match cs with
    | [] => fail "missing format character"
    | c :: cs =>
      let argument := f.arguments.headD ""
      let f := { f with arguments := f.arguments.tail }
      let add (f : Formatted) (s : String) : Formatted :=
        { f with text := s.toList.reverse ++ f.text }
      if "diouxX".toList.contains c then
        let (n, valid) ← numberArgument argument
        formatOnce fuel { add f (layout.number c n) with valid := f.valid && valid } cs
      else if c = 's' then formatOnce fuel (add f (layout.text argument)) cs
      else if c = 'c' then
        formatOnce fuel (add f (layout.text (argument.take 1).toString)) cs
      else if c = 'b' then
        let (text, goesOn) := unescaped argument
        let f := add f (layout.text text)
        if goesOn then formatOnce fuel f cs else pure { f with goesOn := false }
      else
        let shown := String.ofList (start.take (start.length - cs.length))
        fail s!"%{shown}: invalid directive"
  | fuel + 1, f, c :: cs => formatOnce fuel { f with text := c :: f.text } cs

/-- Passes over a format until no argument is left. -/
def formatAll : Nat → Formatted → List Char → Run Formatted
  | 0, f, _ => pure f
  | fuel + 1, f, format => do
    let after ← formatOnce (format.length + 1) f format
    if !after.goesOn || after.arguments.isEmpty ||
        after.arguments.length = f.arguments.length then
      pure after
    else formatAll fuel after format

def printf : Tool := fun arguments => do
  let arguments ← match arguments with
    | "--" :: rest => pure rest
    | first :: rest =>
      match first.toList with
      | '-' :: c :: _ => fail s!"Illegal option -{c}"
      | _ => pure (first :: rest)
    | [] => pure []
  match arguments with
  | [] => fail "usage: printf format [arg ...]"
  | format :: rest => do
    let f ← formatAll (rest.length + 1) { arguments := rest } format.toList
    print (String.ofList f.text.reverse)
    setStatus (if f.valid then 0 else 1)

/-! ### Reading texts -/

/-- How a text is shown. -/
structure Showing where
  numbers : Bool := false
  onlyFilled : Bool := false
  squeezed : Bool := false
  ends : Bool := false
  tabs : Bool := false
  hidden : Bool := false

/-- Adds the options of one argument, or gives the first that is unknown. -/
def Showing.add (s : Showing) : List Char → Except Char Showing
  | [] => .ok s
  | c :: cs =>
    match c with
    | 'A' => add { s with ends := true, tabs := true, hidden := true } cs
    | 'b' => add { s with numbers := true, onlyFilled := true } cs
    | 'e' => add { s with ends := true, hidden := true } cs
    | 'E' => add { s with ends := true } cs
    | 'n' => add { s with numbers := true } cs
    | 's' => add { s with squeezed := true } cs
    | 't' => add { s with tabs := true, hidden := true } cs
    | 'T' => add { s with tabs := true } cs
    | 'u' => add s cs
    | 'v' => add { s with hidden := true } cs
    | c => .error c

/-- One character as it is shown. -/
def Showing.char (s : Showing) (c : Char) : List Char :=
  let n := c.toNat
  let low (n : Nat) : List Char :=
    if n < 32 then ['^', Char.ofNat (n + 64)]
    else if n = 127 then ['^', '?']
    else [Char.ofNat n]
  if c = '\t' then if s.tabs then ['^', 'I'] else [c]
  else if !s.hidden then [c]
  else if n < 128 then low n
  else 'M' :: '-' :: low (n - 128)

/-- The lines of a text, the last one without a line break if the text ends with none. -/
def linesWithBreaks (cs : List Char) : List (List Char) :=
  let lines := cs.splitOn '\n'
  let last := lines.getLastD []
  lines.dropLast.map (· ++ ['\n']) ++ if last.isEmpty then [] else [last]

/-- The text as it is shown. -/
def Showing.text (s : Showing) (text : String) : String :=
  if !(s.numbers || s.squeezed || s.ends || s.tabs || s.hidden) then text
  else
    let (out, _, _) := (linesWithBreaks text.toList).foldl (fun (out, number, blank) line =>
      let isBlank := line == ['\n']
      if s.squeezed && isBlank && blank then (out, number, true)
      else
        let counted := s.numbers && !(s.onlyFilled && isBlank)
        let digits := toString number
        let label := if counted then
            String.ofList (List.replicate (6 - digits.length) ' ') ++ digits ++ "\t"
          else ""
        let content := (line.filter (· ≠ '\n')).flatMap s.char
        let ending := if line.getLast? = some '\n' then (if s.ends then "$\n" else "\n") else ""
        (out ++ label ++ String.ofList content ++ ending,
          if counted then number + 1 else number, isBlank)) ("", 1, false)
    out

/-- The options of programs with long names, which are not many. -/
def showingNamed (name : String) : Option (List Char) :=
  [("show-all", ['A']), ("number-nonblank", ['b']), ("show-ends", ['E']), ("number", ['n']),
    ("squeeze-blank", ['s']), ("show-tabs", ['T']), ("show-nonprinting", ['v'])].lookup name

/-- The options of the arguments, and the other arguments. -/
def showingArguments (s : Showing) : List String → Except String (Showing × List String)
  | [] => .ok (s, [])
  | "--" :: rest => .ok (s, rest)
  | argument :: rest =>
    match argument.toList with
    | '-' :: '-' :: name =>
      match showingNamed (String.ofList name) with
      | some options =>
        match s.add options with
        | .ok s => showingArguments s rest
        | .error _ => showingArguments s rest
      | none => .error s!"unrecognized option '{argument}'"
    | '-' :: c :: cs =>
      match s.add (c :: cs) with
      | .ok s => showingArguments s rest
      | .error c => .error s!"invalid option -- '{c}'"
    | _ => (showingArguments s rest).map fun (s, others) => (s, argument :: others)

/-- The characters that make a name one to be quoted in messages. -/
def quotedMarks : List Char := " !\"$&'()*:;<=>?[\\^|".toList ++ [backquote]

/-- An octet that is written as an escape in messages. -/
def octetEscape (c : Char) : String :=
  let n := c.toNat
  match ([('\x07', "a"), ('\x08', "b"), ('\t', "t"), ('\n', "n"), ('\x0b', "v"), ('\x0c', "f"),
    ('\r', "r")] : List (Char × String)).lookup c with
  | some letter => "\\" ++ letter
  | none => "\\" ++ String.ofList
      [Char.ofNat (48 + n / 64), Char.ofNat (48 + n / 8 % 8), Char.ofNat (48 + n % 8)]

/-- The parts of a name that are written as they are, or as escapes. -/
def nameParts (cs : List Char) : List (Bool × List Char) :=
  cs.foldr (fun c parts =>
    let plain := decide (32 ≤ c.toNat ∧ c.toNat < 127)
    match parts with
    | (p, part) :: rest => if p = plain then (p, c :: part) :: rest else (plain, [c]) :: parts
    | [] => [(plain, [c])]) []

/-- A name in messages. It is quoted where the shell would read it in another way. -/
def shownName (name : String) : String :=
  let cs := name.toList
  let plain := cs.all fun c => decide (32 ≤ c.toNat ∧ c.toNat < 127)
  let odd := cs.isEmpty || !plain || cs.any quotedMarks.contains ||
    cs.head?.any (fun c => c = '~' || c = '#') || name = "\x7b" || name = "\x7d"
  if !odd then name
  else if plain && cs.contains '\'' && !cs.any fun c => ['"', '$', '\\', backquote].contains c then
    String.join ["\"", name, "\""]
  else
    let escaped (part : List Char) : String := String.join (part.map fun c =>
      if c = '\'' then "'\\''" else String.singleton c)
    let parts := nameParts cs
    let first := if parts.head?.any (·.1) then [] else ["''"]
    String.join (if parts.isEmpty then ["''"]
      else first ++ parts.map fun (plain, part) =>
        if plain then String.join ["'", escaped part, "'"]
        else String.join ["$'", String.join (part.map octetEscape), "'"])

/-- Whether a file is the one that the output goes to. -/
def isOutput (name : String) : Run Bool := do
  let m ← get
  match m.channels.lookup 1, m.workspace.find name with
  | some (.writer sink), .ok path => pure (m.pathOf? sink == some path)
  | _, _ => pure false

def cat : Tool := fun arguments => do
  match showingArguments {} arguments with
  | .error reason => do
    writeError s!"cat: {reason}\nTry 'cat --help' for more information.\n"
    setStatus 1
  | .ok (showing, names) => do
    let names := if names.isEmpty then ["-"] else names
    let mut text := ""
    let mut failed := false
    for name in names do
      let complain' (reason : String) : Run Unit := writeError s!"cat: {shownName name}: {reason}\n"
      if name = "-" then
        match ← readAll 0 with
        | .ok content => text := text ++ content
        | .error reason =>
          complain' reason
          failed := true
      else
        match ← contents name with
        | .ok content =>
          if !content.isEmpty && (← isOutput name) then
            complain' "input file is output file"
            failed := true
          else text := text ++ content
        | .error reason =>
          complain' reason
          failed := true
    let _ ← write 1 (showing.text text)
    setStatus (if failed then 1 else 0)

/-! ### Reading lines -/

/-- The line at the start of a text, what is left, and whether a line break ended it. A
backslash quotes the next character, and takes a line break back. -/
def lineOf (raw : Bool) : Nat → List (Char × Bool) → List Char → List (Char × Bool) × List Char × Bool
  | 0, done, cs => (done.reverse, cs, false)
  | _, done, [] => (done.reverse, [], false)
  | fuel + 1, done, c :: cs =>
    if c = '\n' then (done.reverse, cs, true)
    else if c = '\\' ∧ !raw then
      match cs with
      | '\n' :: rest => lineOf raw fuel done rest
      | d :: rest => lineOf raw fuel ((d, true) :: done) rest
      | [] => (done.reverse, [], false)
    else lineOf raw fuel ((c, false) :: done) cs

/-- Splits a line among variables. The last one takes what is left of it. -/
def shareLine (separators : List Char) : List String → List (Char × Bool) → List (String × String)
  | [], _ => []
  | name :: names, line =>
    let isWhite (m : Char × Bool) : Bool :=
      !m.2 && separators.contains m.1 && (m.1 = ' ' || m.1 = '\t' || m.1 = '\n')
    let isSeparator (m : Char × Bool) : Bool := !m.2 && separators.contains m.1
    let line := line.dropWhile isWhite
    let text (ms : List (Char × Bool)) : String := String.ofList (ms.map (·.1))
    match names with
    | [] =>
      let trimmed := (line.reverse.dropWhile isWhite).reverse
      -- A single separator after the last word is dropped too.
      let value := match trimmed.reverse with
        | last :: before =>
          if isSeparator last && !(before.any isSeparator) then before.reverse else trimmed
        | [] => []
      [(name, text value)]
    | _ =>
      let first := line.takeWhile fun m => !isSeparator m
      let rest := (line.drop first.length).dropWhile isWhite
      let rest := match rest with
        | m :: others => if isSeparator m then others else rest
        | [] => []
      (name, text first) :: shareLine separators names rest

/-- Reads a line into variables. It fails where the input ends before the line. -/
def readCommand : Tool := fun arguments => do
  let options := arguments.takeWhile fun a => a.startsWith "-" && a.length > 1 && a ≠ "--"
  let names := arguments.drop options.length
  let names := if names.head? = some "--" then names.tail else names
  let raw := options.contains "-r"
  match (options.flatMap fun o => o.toList.drop 1).find? fun c => c ≠ 'r' with
  | some c => fail s!"Illegal option -{c}"
  | none => pure ()
  if names.isEmpty then fail "arg count"
  match names.find? fun n => !isName n with
  | some n => fail s!"{n}: bad variable name"
  | none => pure ()
  let m ← get
  match m.channels.lookup 0 with
  | some (.reader n) => do
    unless (m.buffer n).contains '\n' do
      waitUntil (max m.clock ((m.pipesUntil.lookup n).getD 0))
    let m ← get
    let content := (m.buffer n).toList
    let (line, rest, ended) := lineOf raw (content.length + 1) [] content
    set { m with buffers := m.buffers.setIfInBounds n (String.ofList rest) }
    for (name, value) in shareLine m.separators names line do
      assign name value
    setStatus (if ended then 0 else 1)
  | _ => do
    for name in names do
      assign name ""
    setStatus 1

/-! ### Time -/

/-- A number of seconds, perhaps with a fraction or a unit, in milliseconds. -/
def durationOf (s : String) : Option Nat :=
  let cs := s.toList
  let whole := cs.takeWhile Char.isDigit
  let rest := cs.drop whole.length
  let (fraction, unit) := match rest with
    | '.' :: rest =>
      let fraction := rest.takeWhile Char.isDigit
      (fraction, rest.drop fraction.length)
    | rest => ([], rest)
  let number (ds : List Char) : Nat := ds.foldl (fun n c => n * 10 + (c.toNat - 48)) 0
  let thousandths := number ((fraction ++ ['0', '0', '0']).take 3)
  let duration := number whole * 1000 + thousandths
  if whole.isEmpty && fraction.isEmpty then none
  else match unit with
    | [] | ['s'] => some duration
    | ['m'] => some (duration * 60)
    | ['h'] => some (duration * 3600)
    | ['d'] => some (duration * 86400)
    | _ => none

def sleepProgram : Tool := fun arguments => do
  let complaint (text : String) : Run Unit := do
    writeError s!"{text}Try 'sleep --help' for more information.\n"
    setStatus 1
  match arguments.find? fun a => a.startsWith "-" && a.length > 1 && a ≠ "--" with
  | some a =>
    match a.toList with
    | '-' :: '-' :: _ => complaint s!"sleep: unrecognized option '{a}'\n"
    | _ => complaint s!"sleep: invalid option -- '{(a.drop 1).take 1}'\n"
  | none =>
    let arguments := arguments.filter (· ≠ "--")
    let forever (s : String) : Bool := ["inf", "infinity"].contains s.toLower
    let bad := arguments.filter fun s => (durationOf s).isNone && !forever s
    if arguments.isEmpty then complaint "sleep: missing operand\n"
    else if !bad.isEmpty then
      complaint (String.join (bad.map fun s => s!"sleep: invalid time interval '{s}'\n"))
    else if arguments.any forever then throw .timedOut
    else
      waitUntil ((← get).clock + (arguments.filterMap durationOf).foldl (· + ·) 0)
      setStatus 0

/-! ### Signals -/

/-- What a signal does to the present process. -/
def receive (signal : Nat) : Run Unit := do
  let m ← get
  match m.traps.lookup signal with
  | some action =>
    if signal ≠ 9 && signal ≠ 19 then
      unless action.isEmpty do
        set { m with arrived := m.arrived ++ [signal] }
      return
  | none => pure ()
  match signalEffect signal with
  | .nothing => pure ()
  | .stops => throw .timedOut
  | .ends => throw (.killed signal)

/-- Sends a signal, and tells whether there is a process of that number. -/
def send (signal process : Nat) : Run Bool := do
  let m ← get
  if process = m.own then
    receive signal
    return true
  if m.ancestors.contains process then
    set (m.addEffect ((m.aside.map (·.process)).getD 0) (.signal process signal))
    return true
  match m.jobs.find? fun job => job.process = process && job.ends > m.clock with
  | some job => do
    -- A process beside a script takes no notice of an interruption.
    if signalEffect signal == .ends && signal != 2 && signal != 3 then
      let ended := { job with
        ends := m.clock, status := 128 + signal, signal := some signal
        holdsUntil := if job.began = m.clock then m.clock
          else (job.pauses.find? (m.clock ≤ ·)).getD m.clock }
      set { m with
        jobs := m.jobs.map fun (j : Job) => if j.process = process then ended else j
        effects := m.effects.filter fun e => e.process ≠ process || e.moment ≤ m.clock }
    pure true
  | none => pure false

/-- The words for the wrong use of the command. -/
def killUsage : String :=
  "Usage: kill [-s sigspec | -signum | -sigspec] [pid | job]... or\nkill -l [exitstatus]"

/-- A number in digits. -/
def numberOrFail (s : String) : Run Nat := do
  match if !s.isEmpty && s.all Char.isDigit then s.toNat? else none with
  | some n => if n < 0x80000000 then pure n else fail s!"Illegal number: {s}"
  | none => fail s!"Illegal number: {s}"

/-- The process beside the script that a percent sign and its number among them name. -/
def jobNamed (s : String) : Run Job := do
  let m ← get
  let mine := m.jobs.filter fun job => job.starter = m.own
  let name := (s.drop 1).toString
  let job := if ["", "%", "+"].contains name then mine.getLast?
    else (name.toNat?).bind fun n => if n = 0 then none else mine[n - 1]?
  match job with
  | some job => pure job
  | none => fail s!"No such job: {s}"

/-- Sends a signal to processes. They are no group of their own, so that none is found by the
number that it would have as one. -/
def killAll (signal : Nat) (processes : List String) : Run Unit := do
  if processes.isEmpty then fail killUsage
  let mut status := 0
  for p in processes do
    let known ← if p.startsWith "%" then do
        let _ ← jobNamed p
        pure false
      else send signal (← numberOrFail (if p.startsWith "-" then (p.drop 1).toString else p))
    unless known do
      complain "No such process\n"
      status := 1
  setStatus status

def kill : Tool := fun arguments => do
  match arguments with
  | [] => fail killUsage
  | "-l" :: [] => do
    print (String.join ((List.range (lastSignal + 1)).map fun i =>
      (if i = 0 then "0" else conditionName i) ++ "\n"))
    setStatus 0
  | "-l" :: s :: _ => do
    let n ← numberOrFail s
    let signal := if n > 128 then n - 128 else n
    if 0 < signal && signal ≤ lastSignal then
      print (conditionName signal ++ "\n")
      setStatus 0
    else fail s!"invalid signal number or exit status: {s}"
  | ["-s"] => fail "No arg for -s option"
  | "-s" :: name :: rest =>
    match signalOf name with
    | some signal => killAll signal rest
    | none => fail s!"invalid signal number or name: {name}"
  | "--" :: rest => killAll 15 rest
  | first :: rest =>
    if first.startsWith "-" && first.length > 1 then
      let name := (first.drop 1).toString
      match signalOf name with
      | some signal => killAll signal (if rest.head? = some "--" then rest.tail else rest)
      | none =>
        if name.startsWith "s" then
          match signalOf (name.drop 1).toString with
          | some signal => killAll signal rest
          | none => fail s!"invalid signal number or name: {name.drop 1}"
        else fail s!"Illegal option -{name.take 1}"
    else killAll 15 (first :: rest)

/-! ### Tests -/

/-- What a word means in a test. -/
inductive TestWord where
  | finish
  | operand
  | unary
  | binary
  | negation
  | conjunction
  | disjunction
  | opening
  | closing
  deriving DecidableEq

/-- The meaning of a word as an operator. -/
def operatorOf (s : String) : Option TestWord :=
  if ["-r", "-w", "-x", "-e", "-f", "-d", "-c", "-b", "-p", "-u", "-g", "-k", "-s", "-t", "-z",
    "-n", "-h", "-O", "-G", "-L", "-S"].contains s then some .unary
  else if ["=", "!=", "<", ">", "-eq", "-ne", "-ge", "-gt", "-le", "-lt", "-nt", "-ot",
    "-ef"].contains s then some .binary
  else match s with
    | "!" => some .negation
    | "-a" => some .conjunction
    | "-o" => some .disjunction
    | "(" => some .opening
    | ")" => some .closing
    | _ => none

/-- Reads a test. The state is the words from the present one on. -/
abbrev Testing := StateT (List String) Run

namespace Testing

/-- The meaning of the first word of the list. An operator that nothing could follow is an
operand. -/
def meaning : List String → TestWord
  | [] => .finish
  | s :: rest =>
    match operatorOf s with
    | some .unary =>
      match rest with
      | [] => .operand
      | _ :: [] => .unary
      | next :: _ => if operatorOf next == some .binary then .operand else .unary
    | some .opening => if rest.isEmpty then .operand else .opening
    | some w => w
    | none => .operand

/-- Stops with a message about a word. -/
def complain {α : Type} (message : String) : Testing α := Run.fail message

/-- The word at the present place. -/
def word : Testing String := do pure ((← get).headD "")

/-- Goes on by some words. -/
def skip (count : Nat) : Testing Unit := modify (·.drop count)

/-- An integer. -/
def integer (s : String) : Testing Int := do
  let inner := (s.toList.dropWhile Char.isWhitespace).reverse.dropWhile Char.isWhitespace
  let (negative, ds) := match inner.reverse with
    | '-' :: ds => (true, ds)
    | '+' :: ds => (false, ds)
    | ds => (false, ds)
  let n : Int := ds.foldl (fun n c => n * 10 + (c.toNat - 48 : Nat)) 0
  let n := if negative then -n else n
  if ds.isEmpty || !ds.all Char.isDigit || n < -0x8000000000000000 || 0x8000000000000000 ≤ n then
    complain s!"Illegal number: {s}"
  else pure n

/-- The value of an operator with one operand. -/
def unaryValue (op s : String) : Testing Bool := do
  let w := (← getThe Machine).workspace
  pure (match op with
    | "-z" => s.isEmpty
    | "-n" => !s.isEmpty
    | "-t" => false
    | "-d" => w.isDirectoryName s
    | "-f" => match w.find s with
      | .ok path => !w.isDirectory path && path != Path.nullDevice
      | .error _ => false
    | "-c" => (w.find s).toOption == some Path.nullDevice
    | "-s" => w.isDirectoryName s || (match w.octets s with
      | .ok text => !text.isEmpty
      | .error _ => false)
    | "-x" => match w.find s with
      | .ok path => w.isDirectory path || Workspace.isProgram path
      | .error _ => false
    | "-e" | "-r" | "-w" | "-O" | "-G" => w.exists? s
    | _ => false)

/-- The value of an operator with two operands. -/
def binaryValue (op a b : String) : Testing Bool := do
  let compare (f : Int → Int → Bool) : Testing Bool := do
    let x ← integer a
    let y ← integer b
    pure (f x y)
  match op with
  | "=" => pure (a == b)
  | "!=" => pure (a != b)
  | "<" => pure (decide (a < b))
  | ">" => pure (decide (b < a))
  | "-eq" => compare (· == ·)
  | "-ne" => compare (· != ·)
  | "-lt" => compare fun x y => decide (x < y)
  | "-le" => compare fun x y => decide (x ≤ y)
  | "-gt" => compare fun x y => decide (y < x)
  | "-ge" => compare fun x y => decide (y ≤ x)
  | "-ef" => do
    let w := (← getThe Machine).workspace
    pure (match w.find a, w.find b with
      | .ok p, .ok q => p == q
      | _, _ => false)
  | _ => pure false

/-- An operator with two operands, of which the first one is at the present place. -/
def binary : Testing Bool := do
  match ← get with
  | a :: op :: b :: rest => do
    set (b :: rest)
    binaryValue op a b
  | _ :: op :: [] => complain s!"{op}: argument expected"
  | _ => complain "argument expected"

mutual
/-- Tests joined by disjunction, of which the first word means `w`. The place is left at the
last word. -/
def disjunction (fuel : Nat) (w : TestWord) : Testing Bool :=
  match fuel with
  | 0 => pure false
  | fuel + 1 => do
    let a ← conjunction fuel w
    if meaning ((← get).drop 1) = .disjunction then
      skip 2
      let b ← disjunction fuel (meaning (← get))
      pure (a || b)
    else pure a
/-- Tests joined by conjunction. -/
def conjunction (fuel : Nat) (w : TestWord) : Testing Bool :=
  match fuel with
  | 0 => pure false
  | fuel + 1 => do
    let a ← negation fuel w
    if meaning ((← get).drop 1) = .conjunction then
      skip 2
      let b ← conjunction fuel (meaning (← get))
      pure (a && b)
    else pure a
/-- A test, perhaps negated. -/
def negation (fuel : Nat) (w : TestWord) : Testing Bool :=
  match fuel with
  | 0 => pure false
  | fuel + 1 => do
    if w ≠ .negation then primary fuel w
    else
      let next := meaning ((← get).drop 1)
      if next ≠ .finish then skip 1
      let b ← negation fuel next
      pure (!b)
/-- A test without operators that join. -/
def primary (fuel : Nat) (w : TestWord) : Testing Bool :=
  match fuel with
  | 0 => pure false
  | fuel + 1 => do
    match w with
    | .finish => pure false
    | .opening => do
      skip 1
      let next := meaning (← get)
      if next = .closing then return false
      let b ← disjunction fuel next
      skip 1
      if meaning (← get) ≠ .closing then complain "closing paren expected"
      pure b
    | .unary => do
      let op ← word
      skip 1
      match ← get with
      | [] => complain s!"{op}: argument expected"
      | s :: _ => unaryValue op s
    | _ =>
      if meaning ((← get).drop 1) = .binary then binary
      else pure (!(← word).isEmpty)
end

/-- A test of the given words. Up to four words have a meaning by their number. -/
def whole (fuel : Nat) (negated : Bool) (words : List String) : Run Bool :=
  match fuel with
  | 0 => pure false
  | fuel + 1 => do
    let evaluate (words : List String) (w : TestWord) : Run Bool := do
      let (b, rest) ← (disjunction (8 * words.length + 8) w).run words
      match rest with
      | s :: _ :: _ => Run.fail s!"{s}: unexpected operator"
      | _ => pure (b != negated)
    let shortened : Run Bool :=
      match words with
      | "!" :: rest => whole fuel (!negated) rest
      | _ =>
        if words.head? = some "(" ∧ words.getLast? = some ")" then
          let inner := words.tail.dropLast
          evaluate inner (meaning inner)
        else evaluate words (meaning words)
    match words with
    | [] => pure negated
    | [_, op, _] => if operatorOf op = some .binary then evaluate words .operand else shortened
    | [_, _, _, _] => shortened
    | _ => evaluate words (meaning words)

end Testing

/-- The test of the given words as a command. -/
def test : Tool := fun words => do
  let b ← Testing.whole (words.length + 1) false words
  setStatus (if b then 0 else 1)

/-- The test in brackets. -/
def bracketTest : Tool := fun words => do
  if words.getLast? = some "]" then test words.dropLast else fail "missing ]"

end ProtocolInference.Shell
