import ProtocolInference.Shell.Arithmetic
import ProtocolInference.Shell.Builtin
import ProtocolInference.Shell.Field
import ProtocolInference.Shell.Reader
import ProtocolInference.Shell.Search

/-!
# Running shell scripts

A script is run on a machine. The words of a command are expanded first, then its
descriptors are changed and its variables set, and then it runs: as a function, as a command
of the shell, or as a program in a process of its own. A script that goes on for too long is
taken for one that never ends.
-/

namespace ProtocolInference.Shell

open Run

/-! ### Words -/

/-- A text that starts with a tilde, with the home directory of the user that it names.
Nothing is replaced where the name may go on after the text. -/
def tildeParts (home : Option String) (stops : Char → Bool) (isLast : Bool) (s : String) :
    List Part :=
  let user := (s.toList.drop 1).takeWhile fun c => !stops c
  let rest := s.toList.drop (user.length + 1)
  let directory := if user.isEmpty then home
    else if user = "root".toList then some "/root" else none
  match directory with
  | some directory =>
    if rest.isEmpty && !isLast then [.text s false]
    else [.text directory true, .text (String.ofList rest) false]
  | none => [.text s false]

/-- A word with home directories for the tildes that stand for them: at its start, and in the
value of a variable after each colon. -/
def withHomes (home : Option String) (inValue : Bool) (w : Word) : Word :=
  let stops (c : Char) : Bool := c == '/' || (inValue && c == ':')
  w.zipIdx.flatMap fun (p, i) =>
    let isLast := i + 1 = w.length
    match p with
    | .text s false =>
      let pieces := if inValue then s.splitOn ":" else [s]
      pieces.zipIdx.flatMap fun (piece, j) =>
        let mark := if j = 0 then [] else [.text ":" false]
        mark ++ if piece.startsWith "~" && (0 < j || i = 0) then
          tildeParts home stops (isLast || j + 1 < pieces.length) piece
        else [.text piece false]
    | p => [p]

/-- The text without the line breaks at its end. Zeros are dropped. -/
def capturedText (s : String) : String :=
  String.ofList ((s.toList.filter (· ≠ '\x00')).reverse.dropWhile (· == '\n')).reverse

/-- Whether a parameter has no value for its use. -/
def isMissing (orEmpty : Bool) : Option String → Bool
  | none => true
  | some s => orEmpty && s.isEmpty

/-- The value of a parameter as one text. -/
def parameterText (m : Machine) (name : String) : Option String :=
  if name = "@" ∨ name = "*" then
    let between := String.ofList (m.separators.take 1)
    some (String.intercalate between m.arguments.tail)
  else m.value name

/-- The value of a parameter as a part of a word. One of several words ends each of its
texts but the last. -/
def parameterValue (m : Machine) (several quoted : Bool) (name : String) : Run (List Atom) := do
  let ofText (s : String) : List Atom := Atom.ofText s quoted (!quoted)
  if several && (name = "@" || (name = "*" && !quoted)) then
    let texts := m.arguments.tail.map fun s =>
      if s.isEmpty && quoted then [Atom.blank] else ofText s
    pure (texts.intersperse [Atom.boundary]).flatten
  else match parameterText m name with
    | some s => pure (ofText s)
    | none =>
      if m.flags.contains 'u' then fail s!"{name}: parameter not set" else pure []

/-! ### Redirections -/

/-- The words for the reason why a file cannot be opened. -/
def openingReason (absent : String) : FileError → String
  | .missing | .notDirectory => absent
  | e => e.message

/-- Makes one descriptor lead to where another one does. -/
def duplicate (descriptor source : Nat) (absent : String) : Run Unit := do
  match (← get).channels.lookup source with
  | some channel => modify fun m => m.lead descriptor channel
  | none => fail absent

/-- Changes a descriptor. The target has been expanded. -/
def redirect (descriptor : Nat) (direction : Direction) (target : String) : Run Unit := do
  let m ← get
  match direction with
  | .input =>
    let complaint (reason : String) : String := s!"cannot open {target}: {reason}"
    match descriptorOf? target with
    | some n => duplicate descriptor n (complaint "No such file")
    | none =>
      match m.workspace.find target with
      | .error e => fail (complaint (openingReason "No such file" e))
      | .ok path =>
        if m.workspace.isDirectory path then set (m.lead descriptor .directory)
        else
          let (m, n) := m.addBuffer ((m.workspace.file? path).getD "")
          set (m.lead descriptor (.reader n))
  | .output _ | .append =>
    let complaint (reason : String) : String := s!"cannot create {target}: {reason}"
    match descriptorOf? target with
    | some n => duplicate descriptor n (complaint "Directory nonexistent")
    | none =>
      match m.workspace.target target with
      | .error e => fail (complaint (openingReason "Directory nonexistent" e))
      | .ok path =>
        if path = Path.nullDevice ∨ Workspace.isProgram path then
          set (m.lead descriptor (.writer .nowhere))
        else
          let isThere := (m.workspace.file? path).isSome
          if isThere && direction = .output false && m.flags.contains 'C' then
            fail (complaint FileError.present.message)
          let atEnd := decide (direction = .append)
          let (m, n) := m.addOpening { path, atEnd }
          let m := if atEnd then m.writeTo (.file n) "" else m.replace path ""
          set (m.lead descriptor (.writer (.file n)))
  | .duplicate =>
    if target = "-" then set (m.close descriptor)
    else
      let n := (target.toNat?).getD 0
      duplicate descriptor n s!"{n}: Bad file descriptor"
  | .document _ =>
    let (m, n) := m.addBuffer target
    set (m.lead descriptor (.reader n))

/-- The descriptors that a command changes for itself. -/
def changedDescriptors : Script → List Nat
  | .simple _ _ _ changes | .redirected _ _ changes => changes.map fun (.mk d _ _) => d
  | _ => []

/-- Whether a process that runs the script becomes its only command. -/
def isOneCommand : Script → Bool
  | .simple _ _ _ _ | .subshell (.simple _ _ _ _) => true
  | _ => false

/-! ### Commands -/

/-- How a command is run. -/
inductive Manner where
  | nothing
  | function (body : Script)
  | special
  | ordinary
  | program
  deriving Inhabited

/-- How many functions may be running inside of each other. -/
def maxCalls : Nat := 1000

/-- The arguments after the word that keeps functions out, if they name a command. -/
def withoutWord : Nat → List String → Bool × List String
  | 0, texts => (false, texts)
  | fuel + 1, texts =>
    match texts with
    | "command" :: rest =>
      let rest := rest.dropWhile fun a => a = "-p"
      match rest with
      | "--" :: rest => (true, (withoutWord fuel rest).2)
      | first :: _ =>
        if first.startsWith "-" && first.length > 1 then (false, texts)
        else (true, (withoutWord fuel rest).2)
      | [] => (false, texts)
    | texts => (false, texts)

/-- How the command of that name is run. -/
def Machine.mannerOf (m : Machine) (withFunctions : Bool) : List String → Manner
  | [] => .nothing
  | name :: _ =>
    match if withFunctions then m.functions.lookup name else none with
    | some body => .function body
    | none =>
      if specialBuiltins.contains name then
        if withFunctions then .special else .ordinary
      else if ordinaryBuiltins.contains name then .ordinary
      else .program

/-- Whether the arguments of the command are assignments that are not split. -/
def declares (texts : List String) : Bool :=
  match (withoutWord (texts.length + 1) texts).2 with
  | name :: _ => ["export", "readonly", "local", "alias"].contains name
  | [] => false

/-- The programs that run no others. -/
def programNamed (name : String) : Option Tool :=
  match name with
  | "cat" => some cat
  | "grep" => some grep
  | "echo" => some echoProgram
  | "sleep" => some sleepProgram
  | "printf" => some printf
  | "kill" => some kill
  | "test" => some test
  | "[" => some bracketTest
  | "true" => some fun _ => setStatus 0
  | "false" => some fun _ => setStatus 1
  | _ => none

/-- Receives the signals that others have sent. -/
def receiveSent : Run Unit := do
  match ← modifyGet fun m => (m.sent, { m with sent := [] }) with
  | [] => pure ()
  | signals => signals.forM receive

/-- Takes over how a child has ended. -/
def takeEnding : Ending → Run Unit
  | .exited status => setStatus status
  | .killed signal => do
    announce signal
    setStatus (128 + signal)
  | .timedOut => throw .timedOut

/-- The number of loops to leave. -/
def loopCount : List String → Run Nat
  | [] => do pure (min 1 (← get).loops)
  | s :: _ => do
    let n ← numberOrFail s
    if n = 0 then fail s!"Illegal number: {s}"
    pure (min n (← get).loops)

/-- Writes what is about to be run, to where errors go in the given channels. -/
def trace (channels : List (Nat × Channel)) (mark : String) (texts : List String) : Run Unit := do
  match channels.lookup 2 with
  | some (.writer sink) =>
    modify fun m => m.writeTo sink (mark ++ String.intercalate " " texts ++ "\n")
  | _ => pure ()

/-- The variables with which a shell starts, given those that it is handed over. -/
def startingVariables (parent : Nat) (given : List (String × Variable)) :
    List (String × Variable) :=
  let own := [("IFS", " \t\n"), ("OPTIND", "1"), ("PS1", "# "), ("PS2", "> "), ("PS4", "+ "),
    ("PPID", toString parent)]
  let handed := given.filter fun (name, v) => v.exported && v.value.isSome &&
    name ≠ "IFS" && name ≠ "PPID"
  handed.map (fun (name, v) => (name, { v with fixed := false })) ++
    (own.filter fun (name, _) => (handed.lookup name).isNone).map fun (name, value) =>
      (name, { value := some value })

mutual
/-- Expands the parts of a word. Texts that are not quoted may be split where `splits` says
so, and parameters may stand for several words. -/
def wordAtoms (fuel : Nat) (several splits : Bool) (w : Word) : Run (List Atom) :=
  match fuel with
  | 0 => throw .timedOut
  | fuel + 1 =>
    match w with
    | [] => pure []
    | p :: rest => do
      let first ← partAtoms fuel several splits p
      pure (first ++ (← wordAtoms fuel several splits rest))
/-- Expands one part of a word. -/
def partAtoms (fuel : Nat) (several splits : Bool) (p : Part) : Run (List Atom) :=
  match fuel with
  | 0 => throw .timedOut
  | fuel + 1 =>
    match p with
    | .text s quoted =>
      pure (if quoted && s.isEmpty then [.blank] else Atom.ofText s quoted (splits && !quoted))
    | .parameter name use quoted => parameterAtoms fuel several name use quoted
    | .output body quoted => do
      pure (Atom.ofText (← captured fuel body) quoted (!quoted))
    | .arithmetic expression quoted => do
      let n ← Arithmetic.evaluate (← wholeText fuel expression)
      pure (Atom.ofText (toString n) quoted (!quoted))
/-- Expands a use of a parameter. -/
def parameterAtoms (fuel : Nat) (several : Bool) (name : String) (use : Use) (quoted : Bool) :
    Run (List Atom) :=
  match fuel with
  | 0 => throw .timedOut
  | fuel + 1 => do
    let m ← get
    let value := parameterText m name
    let word (w : Word) : Word := withHomes (m.variableValue "HOME") false w
    let plain : Run (List Atom) := do parameterValue (← get) several quoted name
    match use with
    | .value => plain
    | .length =>
      match value with
      | none =>
        if m.flags.contains 'u' then fail s!"{name}: parameter not set"
        else pure (Atom.ofText "0" quoted (!quoted))
      | some s => pure (Atom.ofText (toString s.length) quoted (!quoted))
    | .fallback orEmpty w =>
      if isMissing orEmpty value then wordAtoms fuel several true (word w) else plain
    | .alternative orEmpty w =>
      if isMissing orEmpty value then pure [] else wordAtoms fuel several true (word w)
    | .assignment orEmpty w =>
      if isMissing orEmpty value then do
        let text ← wholeText fuel (word w)
        checkName name
        assign name text
        plain
      else plain
    | .demand orEmpty w =>
      if isMissing orEmpty value then do
        let text ← wholeText fuel w
        let reason := if !w.isEmpty then text
          else if orEmpty then "parameter not set or null" else "parameter not set"
        fail s!"{name}: {reason}"
      else plain
    | .trimmed fromEnd longest w =>
      match value with
      | none => plain
      | some s => do
        let pattern := Atom.pattern (← wordAtoms fuel false false w)
        let rest := trimMatch pattern fromEnd longest s.toList
        pure (Atom.ofText (String.ofList rest) quoted (!quoted))
    | .unknown => fail "Bad substitution"
/-- Expands a word to one text. -/
def wholeText (fuel : Nat) (w : Word) : Run String :=
  match fuel with
  | 0 => throw .timedOut
  | fuel + 1 => do pure (Atom.text (← wordAtoms fuel false false w))
/-- Expands the value of a variable. -/
def valueText (fuel : Nat) (w : Word) : Run String :=
  match fuel with
  | 0 => throw .timedOut
  | fuel + 1 => do wholeText fuel (withHomes ((← get).variableValue "HOME") true w)
/-- Expands words to the texts that they stand for, after those that are done. -/
def expandWords (fuel : Nat) (done : List String) (ws : List Word) : Run (List String) :=
  match fuel with
  | 0 => throw .timedOut
  | fuel + 1 =>
    match ws with
    | [] => pure done
    | w :: rest => do
      match if declares done then assignmentOf w else none with
      | some (name, value) => do
        let text ← valueText fuel value
        expandWords fuel (done ++ [s!"{name}={text}"]) rest
      | none => do
        let atoms ← wordAtoms fuel true false (withHomes ((← get).variableValue "HOME") false w)
        let m ← get
        let fields := Fields.ofAtoms m.separators atoms
        let texts := if m.flags.contains 'f' then fields.map markText
          else fields.flatMap (fileNames m.workspace)
        expandWords fuel (done ++ texts) rest
/-- The output of a script as text. -/
def captured (fuel : Nat) (body : Script) : Run String :=
  match fuel with
  | 0 => throw .timedOut
  | fuel + 1 => do
    let (m, n) := (← get).addBuffer ""
    set m
    let ending ← inProcess fuel (fun m => m.lead 1 (.writer (.buffer n))) (run fuel false true body)
    let status := (← get).status
    waitUntil ((← get).releaseOf [n])
    takeEnding ending
    modify fun m => { m with substituted := m.status, status }
    pure (capturedText ((← get).buffer n))
/-- Runs something in a process of its own, and tells how it ended. -/
def inProcess (fuel : Nat) (prepare : Machine → Machine) (body : Run Unit) : Run Ending :=
  match fuel with
  | 0 => throw .timedOut
  | fuel + 1 => do
    let outer ← get
    let own := outer.processes + 1
    set (prepare { outer with
      own, processes := own, ancestors := outer.own :: outer.ancestors
      traps := outer.traps.filter (·.2.isEmpty), sent := [], arrived := []
      interrupted := none })
    let r ← attempt (conclude fuel body)
    modify outer.rejoin
    receiveSent
    resume r
/-- Runs a process to its end, with what is to be done there. -/
def conclude (fuel : Nat) (body : Run Unit) : Run Ending :=
  match fuel with
  | 0 => throw .timedOut
  | fuel + 1 => do
    match ← attempt body with
    | .error .timedOut => throw .timedOut
    | .error (.killed signal) => pure (.killed signal)
    | r => do
      let m ← get
      let status := match r with
        | .error (.exit status) | .error (.leaveFunction status) => status
        | .error .error => 2
        | _ => m.status
      let ended (status : Nat) : Run Ending := pure (.exited (status % 256))
      match (← get).traps.lookup 0 with
      | none => ended status
      | some action => do
        modify fun m => { m with
          status, interrupted := some status, traps := m.traps.filter (·.1 ≠ 0) }
        match ← attempt (runText fuel false action) with
        | .error .timedOut => throw .timedOut
        | .error (.killed signal) => pure (.killed signal)
        | .error (.exit status) => ended status
        | .error .error => ended 2
        | _ => ended status
/-- Receives the signals that others have sent, and runs the traps of those that have
arrived. -/
def handleSignals (fuel : Nat) : Run Unit :=
  match fuel with
  | 0 => throw .timedOut
  | fuel + 1 => do
    receiveSent
    let m ← get
    match m.arrived with
    | [] => pure ()
    | signal :: others => do
      set { m with arrived := others, interrupted := some (m.interrupted.getD m.status) }
      match m.traps.lookup signal with
      | some action => do
        let _ ← runText fuel false action
        setStatus m.status
      | none => pure ()
      modify fun after => { after with interrupted := m.interrupted }
      handleSignals fuel
/-- Runs the commands of a text, and tells whether there were any. -/
def runText (fuel : Nat) (tested : Bool) (text : String) : Run Bool :=
  match fuel with
  | 0 => throw .timedOut
  | fuel + 1 => runSource fuel tested false { rest := text.toList }
/-- Runs the commands of a source line by line. -/
def runSource (fuel : Nat) (tested ran : Bool) (s : Source) : Run Bool :=
  match fuel with
  | 0 => throw .timedOut
  | fuel + 1 => do
    match ({ s with documents := (← get).documents } : Source).next with
    | .error mistake => do
      modify fun m => { m with line := mistake.line }
      fail mistake.message
    | .ok (none, _) => pure ran
    | .ok (some script, s) => do
      modify fun m => { m with documents := s.documents }
      run fuel tested false script
      runSource fuel tested (ran || !(script matches .nothing)) s
/-- Expands the target of a redirection. -/
def expandTarget (fuel : Nat) : Redirection → Run (Nat × Direction × String) :=
  match fuel with
  | 0 => fun _ => throw .timedOut
  | fuel + 1 => fun (.mk descriptor direction target) => do
    match direction with
    -- The texts of documents are made only where the descriptors are changed.
    | .document _ => pure (descriptor, direction, "")
    | .duplicate => do
      let text ← wholeText fuel target
      unless text = "-" || (text.length = 1 && text.all Char.isDigit) do
        fail "Syntax error: Bad fd number"
      pure (descriptor, direction, text)
    | _ => do
      let w := withHomes ((← get).variableValue "HOME") false target
      pure (descriptor, direction, ← wholeText fuel w)
/-- Changes a descriptor. The texts of documents are made only now. -/
def change (fuel : Nat) : Nat × Direction × String → Run Unit :=
  match fuel with
  | 0 => fun _ => throw .timedOut
  | fuel + 1 => fun (descriptor, direction, target) => do
    match direction with
    | .document number => do
      let w := (← get).documents[number]?.getD []
      redirect descriptor direction (← wholeText fuel w)
    | _ => redirect descriptor direction target
/-- Runs something with changed descriptors, or fails if they cannot be changed, and tells
whether they could. Unless `keeps` says so, they are what they were before after it. -/
def withChanges (fuel : Nat) (changes : List Redirection) (keeps : Bool) (body : Run Unit) :
    Run Bool :=
  match fuel with
  | 0 => throw .timedOut
  | fuel + 1 => do
    let targets ← changes.mapM (expandTarget fuel)
    let channels := (← get).channels
    let restore : Run Unit := modify fun m => targets.foldl (fun m (d, _, _) =>
      match channels.lookup d with
      | some channel => m.lead d channel
      | none => m.close d) m
    match ← attempt (targets.forM (change fuel)) with
    | .error .error => do
      restore
      setStatus 2
      pure false
    | .error e => throw e
    | .ok () => do
      if keeps then body else ensuring body restore
      pure true
/-- Runs a script in a process of its own, in which descriptors are changed first. The
present process will do where nothing comes after it. -/
def subshell (fuel : Nat) (tested final : Bool) (body : Script) (changes : List Redirection) :
    Run Unit :=
  match fuel with
  | 0 => throw .timedOut
  | fuel + 1 => do
    let targets ← changes.mapM (expandTarget fuel)
    let whole : Run Unit := do
      targets.forM (change fuel)
      run fuel tested true body
    if final && (← get).traps.isEmpty then do
      whole
      throw (.exit (← get).status)
    else takeEnding (← inProcess fuel id whole)
/-- Runs a command that is not made of others. -/
def simple (fuel : Nat) (tested final : Bool) (assignments : List (String × Word))
    (words : List Word) (changes : List Redirection) : Run Unit :=
  match fuel with
  | 0 => throw .timedOut
  | fuel + 1 => do
    let texts ← expandWords fuel [] words
    let before ← get
    let (isPlain, command) := withoutWord (texts.length + 1) texts
    let manner := before.mannerOf (!isPlain) command
    let setAll (mark : String → Run Unit) : Run (List String) :=
      assignments.mapM fun (name, w) => do
        let value ← valueText fuel w
        mark name
        assign name value
        pure s!"{name}={value}"
    let markExported (name : String) : Run Unit :=
      modify fun m => m.setVariable name ((m.known? name).map fun v => { v with exported := true })
    let traced (shown : List String) : Run Unit := do
      if (← get).flags.contains 'x' then
        trace before.channels ((← get).variableValue "PS4" |>.getD "") (shown ++ texts)
    let ok ← withChanges fuel changes (command.head? = some "exec") do
      match manner with
      | .nothing => do
        traced (← setAll fun _ => pure ())
        setStatus (← get).substituted
      | .special => do
        traced (← setAll fun _ => pure ())
        invoke fuel tested final manner command
      | _ => do
        modify fun m => { m with frames := [] :: m.frames }
        ensuring (do
          let shown ← setAll keep
          assignments.forM fun (name, _) => markExported name
          traced shown
          invoke fuel tested final manner command)
          leaveFrame
    unless ok do
      if manner matches .special then throw .error
/-- Runs a command with its arguments. -/
def invoke (fuel : Nat) (tested final : Bool) (manner : Manner) (texts : List String) :
    Run Unit :=
  match fuel with
  | 0 => throw .timedOut
  | fuel + 1 => do
    let name := texts.headD ""
    match manner with
    | .nothing => pure ()
    | .function body => do
      let m ← get
      if maxCalls ≤ m.calls then fail s!"Maximum function recursion depth ({maxCalls}) reached"
      set { m with
        arguments := m.arguments.take 1 ++ texts.tail, loops := 0, calls := m.calls + 1 }
      let r ← attempt (run fuel tested false body)
      modify fun after => { after with arguments := m.arguments, loops := m.loops, calls := m.calls }
      match r with
      | .error (.leaveFunction status) => setStatus status
      | r => resume r
    | .program => program fuel final texts
    | _ => do
      let m ← get
      set { m with builtin := some name, unwritten := false }
      let r ← attempt (builtin fuel tested texts)
      if (← get).unwritten then
        complain s!"{name}: I/O error"
        modify fun m => { m with status := m.status ||| 1 }
      modify fun after => { after with builtin := m.builtin, unwritten := m.unwritten }
      match r, manner with
      | .error .error, .ordinary => setStatus 2
      | r, _ => resume r
/-- Runs a command of the shell. -/
def builtin (fuel : Nat) (tested : Bool) (texts : List String) : Run Unit :=
  match fuel with
  | 0 => throw .timedOut
  | fuel + 1 => do
    let arguments := texts.tail
    match texts.headD "" with
    | "exit" => do
      let m ← get
      match arguments with
      | [] => throw (.exit (m.interrupted.getD m.status))
      | s :: _ => throw (.exit (← numberOrFail s))
    | "return" => do
      match arguments with
      | [] => throw (.leaveFunction (← get).status)
      | s :: _ => throw (.leaveFunction (← numberOrFail s))
    | "break" => do
      let n ← loopCount arguments
      setStatus 0
      if 0 < n then throw (.leaveLoop n)
    | "continue" => do
      let n ← loopCount arguments
      setStatus 0
      if 0 < n then throw (.nextRound n)
    | "eval" => do
      unless ← runText fuel tested (String.intercalate " " arguments) do setStatus 0
    | "." => do
      match arguments with
      | [] => setStatus 0
      | name :: _ => do
        let m ← get
        let full := if name.contains '/' then name
          else ((((m.variableValue "PATH").getD "").splitOn ":").map fun directory =>
            if directory.isEmpty then name else s!"{directory}/{name}").find? (fun full =>
              (m.workspace.octets full) matches .ok _) |>.getD ""
        if full.isEmpty then fail s!"{name}: not found"
        match m.workspace.octets full with
        | .error e =>
          let reason := openingReason "No such file" e
          fail s!"cannot open {full}: {reason}"
        | .ok text => do
          set { m with builtin := some full }
          match ← attempt (runText fuel false text) with
          | .error (.leaveFunction status) => setStatus status
          | .ok ran => unless ran do setStatus 0
          | .error e => throw e
    | "exec" => do
      match if arguments.head? = some "--" then arguments.tail else arguments with
      | [] => setStatus 0
      | name :: arguments => do
        match (← get).find name with
        | .missing => do
          complain s!"{name}: not found"
          throw (.exit 127)
        | .refused reason _ => do
          complain s!"{name}: {reason}"
          throw (.exit 126)
        | .program _ path => do
          modify fun m => { m with traps := m.traps.filter (·.2.isEmpty), builtin := none }
          process fuel name path arguments
          throw (.exit (← get).status)
    | "command" => do
      match arguments with
      | [] => setStatus 0
      | option :: names => do
        let letters := option.toList.drop 1
        match letters.find? fun c => c ≠ 'p' && c ≠ 'v' && c ≠ 'V' with
        | some c => fail s!"Illegal option -{c}"
        | none =>
          if letters.contains 'v' || letters.contains 'V' then
            (names.take 1).forM (describe (letters.contains 'V'))
          else setStatus 0
    | name =>
      match builtinNamed name with
      | some tool => tool arguments
      | none => setStatus 0
/-- Runs a program, in a process of its own unless nothing comes after it. -/
def program (fuel : Nat) (final : Bool) (texts : List String) : Run Unit :=
  match fuel with
  | 0 => throw .timedOut
  | fuel + 1 => do
    let name := texts.headD ""
    let m ← get
    match m.find name with
    | .missing => do
      complain s!"{name}: not found"
      setStatus 127
    | .refused reason status => do
      complain s!"{name}: {reason}"
      setStatus status
    | .program _ path =>
      if final && m.traps.isEmpty then do
        process fuel name path texts.tail
        throw (.exit (← get).status)
      else do
        let body : Run Unit := process fuel name path texts.tail
        takeEnding (← inProcess fuel (fun m => { m with traps := m.traps.filter (·.1 ≠ 0) }) body)
/-- Runs a program in the present process. -/
def process (fuel : Nat) (name : String) (path : Path) (arguments : List String) : Run Unit :=
  match fuel with
  | 0 => throw .timedOut
  | fuel + 1 => do
    let known := path.getLastD ""
    match programNamed known with
    | some tool => do
      modify fun m => { m with builtin := some known }
      tool arguments
    | none => shell fuel name arguments
/-- Runs a shell in the present process, to its end. -/
def shell (fuel : Nat) (name : String) (arguments : List String) : Run Unit :=
  match fuel with
  | 0 => throw .timedOut
  | fuel + 1 => do
    modify fun m => { m with
      bindings := startingVariables (m.ancestors.headD 1) m.bindings
      functions := [], documents := #[], arguments := [name], status := 0, substituted := 0
      interrupted := none, line := 0, builtin := none, flags := [], arrived := []
      process := m.own, lastJob := none, loops := 0, calls := 0, frames := [] }
    let body : Run Unit := do
      let o ← readOptions true (arguments.length + 1) { rest := arguments }
      if o.hasScript then
        match o.rest with
        | [] => fail "-c requires an argument"
        | text :: rest => do
          unless rest.isEmpty do modify fun m => { m with arguments := rest }
          let _ ← runText fuel false text
      else match if (← get).flags.contains 's' then [] else o.rest with
        | [] => do
          modify fun m => { m with arguments := name :: o.rest }
          match ← readAll 0 with
          | .ok text => let _ ← runText fuel false text
          | .error _ => pure ()
        | file :: rest => do
          match (← get).workspace.octets file with
          | .error e =>
            let reason := openingReason "No such file" e
            fail s!"cannot open {file}: {reason}"
          | .ok text => do
            modify fun m => { m with arguments := file :: rest }
            let _ ← runText fuel false text
    match ← conclude fuel body with
    | .exited status => throw (.exit status)
    | .killed signal => throw (.killed signal)
    | .timedOut => throw .timedOut
/-- Runs a script. A failure does not end it where it is `tested`, and after a `final` one
nothing is done. -/
def run (fuel : Nat) (tested final : Bool) (script : Script) : Run Unit :=
  match fuel with
  | 0 => throw .timedOut
  | fuel + 1 => do
    if (← get).flags.contains 'n' then return
    handleSignals fuel
    let check : Run Unit := do
      handleSignals fuel
      let m ← get
      if m.flags.contains 'e' && !tested && m.status ≠ 0 then throw (.exit m.status)
    let checked (body : Run Unit) : Run Unit := do
      body
      check
    match script with
    | .nothing => pure ()
    | .simple line assignments words changes => checked do
      modify fun m => { m with line, substituted := 0 }
      simple fuel tested final assignments words changes
    | .sequence a b => do
      run fuel tested false a
      run fuel tested final b
    | .conjunction a b => do
      run fuel true false a
      if (← get).status = 0 then run fuel tested final b
    | .disjunction a b => do
      run fuel true false a
      if (← get).status ≠ 0 then run fuel tested final b
    | .negation a => do
      run fuel true false a
      setStatus (if (← get).status = 0 then 1 else 0)
    | .pipe parts => checked do
      let m ← get
      stages fuel tested m (m.channels.lookup 0) parts m.clock
    | .background a => do
      runAside fuel a
      setStatus 0
    | .subshell a => checked (subshell fuel tested final a [])
    | .redirected line (.subshell a) changes => checked do
      modify fun m => { m with line }
      subshell fuel tested final a changes
    | .redirected line a changes => do
      modify fun m => { m with line }
      unless ← withChanges fuel changes false (run fuel tested false a) do check
    | .conditional c a b => do
      run fuel true false c
      if (← get).status = 0 then run fuel tested final a
      else match b with
        | .nothing => setStatus 0
        | b => run fuel tested final b
    | .repetition succeeds c a => do
      modify fun m => { m with loops := m.loops + 1 }
      let status ← repeated fuel tested succeeds c a 0
      modify fun m => { m with loops := m.loops - 1, status }
    | .each line name words body => do
      modify fun m => { m with line }
      let texts ← expandWords fuel [] words
      modify fun m => { m with loops := m.loops + 1 }
      let status ← eachOf fuel tested name texts body 0
      modify fun m => { m with loops := m.loops - 1, status }
    | .choice line w branches => do
      modify fun m => { m with line }
      let text ← wholeText fuel (withHomes ((← get).variableValue "HOME") false w)
      match ← chosen fuel text branches with
      | some .nothing | none => setStatus 0
      | some body => run fuel tested final body
    | .definition name body => do
      modify fun m => { m with functions := (name, body) :: m.functions.filter (·.1 ≠ name) }
      setStatus 0
    handleSignals fuel
/-- Runs one part of a loop. Tells whether the loop goes on with what comes after that part
or with its next round, or ends. -/
def round (fuel : Nat) (tested : Bool) (part : Script) : Run (Option Bool) :=
  match fuel with
  | 0 => throw .timedOut
  | fuel + 1 => do
    match ← attempt (run fuel tested false part) with
    | .ok () => pure (some true)
    | .error (.nextRound n) => if n ≤ 1 then pure (some false) else
      modify fun m => { m with loops := m.loops - 1 }
      throw (.nextRound (n - 1))
    | .error (.leaveLoop n) => if n ≤ 1 then pure none else
      modify fun m => { m with loops := m.loops - 1 }
      throw (.leaveLoop (n - 1))
    | .error e => throw e
/-- Repeats a script as long as a condition succeeds, or fails. -/
def repeated (fuel : Nat) (tested succeeds : Bool) (c a : Script) (status : Nat) : Run Nat :=
  match fuel with
  | 0 => throw .timedOut
  | fuel + 1 => do
    match ← round fuel true c with
    | none => pure status
    | some false => repeated fuel tested succeeds c a status
    | some true =>
      if ((← get).status = 0) ≠ succeeds then pure status
      else match ← round fuel tested a with
        | none => pure (← get).status
        | some _ => repeated fuel tested succeeds c a (← get).status
/-- Runs a script for each of some values of a variable. -/
def eachOf (fuel : Nat) (tested : Bool) (name : String) (texts : List String) (body : Script)
    (status : Nat) : Run Nat :=
  match fuel with
  | 0 => throw .timedOut
  | fuel + 1 =>
    match texts with
    | [] => pure status
    | text :: rest => do
      assign name text
      match ← round fuel tested body with
      | none => pure (← get).status
      | some _ => eachOf fuel tested name rest body (← get).status
/-- The body of the first branch with a pattern that matches a text. -/
def chosen (fuel : Nat) (text : String) (branches : List Branch) : Run (Option Script) :=
  match fuel with
  | 0 => throw .timedOut
  | fuel + 1 =>
    match branches with
    | [] => pure none
    | .mk [] _ :: rest => chosen fuel text rest
    | .mk (p :: ps) body :: rest => do
      let w := withHomes ((← get).variableValue "HOME") false p
      let pattern := Atom.pattern (← wordAtoms fuel false false w)
      if matchesPattern pattern text.toList then pure (some body)
      else chosen fuel text (.mk ps body :: rest)
/-- Runs the parts of a pipeline, all from the state of the given machine on, and lets time
pass up to the last one's end. -/
def stages (fuel : Nat) (tested : Bool) (start : Machine) (input : Option Channel)
    (parts : List Script) (ends : Nat) : Run Unit :=
  match fuel with
  | 0 => throw .timedOut
  | fuel + 1 =>
    match parts with
    | [] => pure ()
    | part :: rest => do
      let (m, n) := (← get).addBuffer ""
      set { m with clock := start.clock, status := start.status }
      let ending ← inProcess fuel (fun m =>
        let m := match input with
          | some channel => m.lead 0 channel
          | none => m.close 0
        if rest.isEmpty then m else m.lead 1 (.writer (.buffer n))) (run fuel tested true part)
      let m ← get
      set { m with pipesUntil := (n, m.releaseOf [n]) :: m.pipesUntil }
      let ends := max ends m.clock
      takeEnding ending
      if rest.isEmpty then waitUntil ends
      else stages fuel tested start (some (.reader n)) rest ends
/-- Runs a script beside the present one. -/
def runAside (fuel : Nat) (body : Script) : Run Unit :=
  match fuel with
  | 0 => throw .timedOut
  | fuel + 1 => do
    let (m, n) := (← get).addBuffer ""
    let own := m.processes + 1
    let aside := m.aside.getD { process := own, began := m.clock, shared := n }
    set { m with aside := some aside, pauses := [] }
    let r ← attempt (inProcess fuel (·.lead 0 (.reader n)) (run fuel false true body))
    let after ← get
    let ends := match r with
      | .ok _ => after.clock
      | .error _ => m.deadline + 1
    let (status, signal) := match r with
      | .ok (.exited status) => (status, none)
      | .ok (.killed signal) => (128 + signal, some signal)
      | _ => (0, none)
    let changed := changedDescriptors body
    let holds := Machine.held { m with channels := m.channels.filter fun c => !changed.contains c.1 }
    let job : Job := {
      process := own, starter := m.own, status, began := m.clock, ends, holds, holdsUntil := ends
      signal, pauses := if isOneCommand body then [] else after.pauses }
    modify fun after => { after with
      clock := m.clock, aside := m.aside, pauses := m.pauses, jobs := after.jobs ++ [job], lastJob := some own }
end

/-! ### Programs -/

/-- How long a script may go on. -/
def patience : Nat := 20000

/-- A machine that is about to run a program with the given input. -/
def Machine.start (w : Workspace) (input : String) (deadline : Nat) : Machine :=
  let home := Path.home.display
  let bindings : List (String × Variable) :=
    [("HOME", home), ("PWD", home),
      ("PATH", "/usr/local/sbin:/usr/local/bin:/usr/sbin:/usr/bin:/sbin:/bin")].map
        fun (name, value) => (name, { value := some value, exported := true })
  { workspace := w, deadline, bindings
    buffers := #[input, "", ""]
    channels := [(0, .reader 0), (1, .writer (.buffer 1)), (2, .writer (.buffer 2))] }

/-- Runs a program to its end, and waits until nobody can write to its output any more. -/
def execute (w : Workspace) (name : String) (arguments : List String) (input : String)
    (deadline : Nat) : Ending × Machine :=
  let path := (name.splitOn "/").drop ((name.splitOn "/").length - 1)
  let (r, m) := (process patience name path arguments).run (Machine.start w input deadline)
  let ending : Ending := match r with
    | .ok () => .exited m.status
    | .error (.exit status) => .exited status
    | .error (.killed signal) => .killed signal
    | .error .timedOut => .timedOut
    | .error _ => .exited 2
  let release := m.releaseOf [1, 2]
  let last := { m with clock := min release deadline }.settle
  (if deadline < release then .timedOut else ending, last)

end ProtocolInference.Shell
