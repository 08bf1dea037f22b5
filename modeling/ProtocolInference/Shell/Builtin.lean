import ProtocolInference.Shell.Commands

/-!
# Commands on the state of the shell

Options, variables, positions in the file system, traps and processes beside the script
are changed by commands of the shell itself.
-/

namespace ProtocolInference.Shell

open Run

/-! ### Options -/

/-- The options by letter and name, in the order in which they are listed. -/
def optionNames : List (Char × String) :=
  [('e', "errexit"), ('f', "noglob"), ('I', "ignoreeof"), ('i', "interactive"),
    ('m', "monitor"), ('n', "noexec"), ('s', "stdin"), ('x', "xtrace"), ('v', "verbose"),
    ('V', "vi"), ('E', "emacs"), ('C', "noclobber"), ('a', "allexport"), ('b', "notify"),
    ('u', "nounset"), ('p', "privileged"), (Char.ofNat 1, "nolog"), (Char.ofNat 2, "debug")]

/-- Sets or clears the option of a letter. -/
def setFlag (c : Char) (on : Bool) : Run Unit := do
  if (optionNames.lookup c).isNone then fail s!"Illegal option -{c}"
  else modify fun m =>
    let others := m.flags.filter (· ≠ c)
    { m with flags := if on then c :: others else others }

/-- Sets or clears the option of a name. -/
def setNamedFlag (name : String) (on : Bool) : Run Unit := do
  match optionNames.find? (·.2 == name) with
  | some (c, _) => setFlag c on
  | none => fail s!"Illegal option -o {name}"

/-- Tells how the options are set, or how they could be set so. -/
def listFlags (asCommands : Bool) : Run Unit := do
  let m ← get
  let state (c : Char) : Bool := m.flags.contains c
  if asCommands then
    print (String.join (optionNames.map fun (c, name) =>
      let sign := if state c then "-o" else "+o"
      s!"set {sign} {name}\n"))
  else
    print ("Current option settings\n" ++ String.join (optionNames.map fun (c, name) =>
      let blanks := String.ofList (List.replicate (16 - name.length) ' ')
      let word := if state c then "on" else "off"
      s!"{name}{blanks}{word}\n"))

/-- What the options of an argument list say besides flags. -/
structure Options where
  rest : List String
  /-- Whether the first argument after the options is a script. -/
  hasScript : Bool := false
  /-- Whether the end of the options was marked. -/
  isMarked : Bool := false

/-- Reads the letters of one argument. The names that some of them need come from the other
arguments. -/
def readLetters (starts on : Bool) (o : Options) : List Char → Run Options
  | [] => pure o
  | c :: cs => do
    if c = 'c' && starts then readLetters starts on { o with hasScript := true } cs
    else if c = 'l' && starts then readLetters starts on o cs
    else if c = 'o' then
      match o.rest with
      | [] => listFlags (!on)
      | name :: _ => setNamedFlag name on
      readLetters starts on { o with rest := o.rest.tail } cs
    else
      setFlag c on
      readLetters starts on o cs

/-- Reads the options at the start of an argument list: the one with which a shell starts,
or another. -/
def readOptions (starts : Bool) : Nat → Options → Run Options
  | 0, o => pure o
  | fuel + 1, o => do
    match o.rest with
    | [] => pure o
    | argument :: rest =>
      match argument.toList with
      | ['-'] => do
        unless starts do
          modify fun m => { m with flags := m.flags.filter fun c => c ≠ 'x' && c ≠ 'v' }
        pure { o with rest }
      | ['-', '-'] => pure { o with rest, isMarked := true }
      | sign :: cs =>
        if sign = '-' || sign = '+' then
          readOptions starts fuel (← readLetters starts (sign == '-') { o with rest } cs)
        else pure o
      | [] => pure o

/-! ### Variables -/

/-- A text in apostrophes, so that the shell reads it as it is. -/
def inApostrophes (s : String) : String :=
  let parts := s.splitOn "'"
  let quoted (part : String) : String := s!"'{part}'"
  match parts with
  | [part] => quoted part
  | _ => String.intercalate "\"'\"" (parts.map fun part => if part.isEmpty then "" else quoted part)

/-- Lists the variables of a kind, by name. -/
def listVariables (about : String) (p : Variable → Bool) : Run Unit := do
  let m ← get
  let shown := (m.bindings.filter fun (_, v) => p v).mergeSort fun a b => decide (a.1 ≤ b.1)
  print (String.join (shown.map fun (name, v) =>
    let value := match v.value with
      | some s => "=" ++ inApostrophes s
      | none => ""
    s!"{about}{name}{value}\n"))

/-- The name and the value of an argument that may be an assignment. -/
def splitAssignment (s : String) : String × Option String :=
  let name := s.toList.takeWhile (· ≠ '=')
  (String.ofList name, (s.toList.drop name.length).tail?.map String.ofList)

/-- Checks the name of a variable. -/
def checkName (name : String) : Run Unit := do
  unless isName name do fail s!"{name}: bad variable name"

/-- Gives variables a mark, and perhaps a value. -/
def declare (word : String) (mark : Variable → Variable) (isMarked : Variable → Bool) : Tool :=
  fun arguments => do
    match arguments with
    | [] | "-p" :: _ => do
      listVariables (word ++ " ") isMarked
      setStatus 0
    | _ => do
      for argument in if arguments.head? = some "--" then arguments.tail else arguments do
        let (name, value) := splitAssignment argument
        checkName name
        match value with
        | some value => assign name value
        | none => pure ()
        modify fun m =>
          m.setVariable name (some (mark ((m.known? name).getD { value := none })))
      setStatus 0

/-- Remembers what a variable is now until the end of the present function. -/
def keep (name : String) : Run Unit :=
  modify fun m => match m.frames with
    | [] => m
    | frame :: others => { m with frames := ((name, m.known? name) :: frame) :: others }

/-- Makes variables what they were before the innermost function. -/
def leaveFrame : Run Unit :=
  modify fun m => match m.frames with
    | [] => m
    | frame :: frames =>
      frame.foldl (fun m (name, v) => m.setVariable name v) { m with frames }

/-- Makes variables belong to the present function. -/
def localVariables : Tool := fun arguments => do
  if (← get).frames.isEmpty then fail "not in a function"
  for argument in arguments do
    unless argument = "-" do
      let (name, value) := splitAssignment argument
      checkName name
      keep name
      match value with
      | some value => assign name value
      | none => pure ()
  setStatus 0

/-- Removes variables or functions. -/
def unset : Tool := fun arguments => do
  let options := arguments.takeWhile fun a => a.startsWith "-" && a.length > 1
  match (options.flatMap fun o => o.toList.drop 1).find? fun c => c ≠ 'v' && c ≠ 'f' with
  | some c => fail s!"Illegal option -{c}"
  | none => pure ()
  let functions := options.getLast?.any (·.endsWith "f")
  for name in arguments.drop options.length do
    if functions then
      modify fun m => { m with functions := m.functions.filter (·.1 ≠ name) }
    else
      checkName name
      if ((← get).known? name).any (·.fixed) then fail s!"{name}: is read only"
      modify fun m => m.setVariable name none
  setStatus 0

/-- Changes options and arguments, or lists the variables. -/
def setCommand : Tool := fun arguments => do
  if arguments.isEmpty then listVariables "" fun v => v.value.isSome
  else
    let o ← readOptions false (arguments.length + 1) { rest := arguments }
    if o.isMarked || !o.rest.isEmpty then
      modify fun m => { m with arguments := m.arguments.take 1 ++ o.rest }
  setStatus 0

/-- Drops the first arguments. -/
def shift : Tool := fun arguments => do
  let n ← match arguments with
    | [] => pure 1
    | s :: _ => numberOrFail s
  let m ← get
  if m.arguments.length ≤ n then fail "can't shift that many"
  set { m with arguments := m.arguments.take 1 ++ m.arguments.drop (n + 1) }
  setStatus 0

/-- Sets a variable as a command of the shell does, or removes it. -/
def put (name : String) : Option String → Run Unit
  | some value => assign name value
  | none => modify fun m => m.setVariable name none

/-- Reads one option from arguments into a variable. The letters that are known may have a
colon after them, which asks for a value; a colon before all of them asks for silence. -/
def readOption : Tool := fun arguments => do
  match arguments with
  | letters :: name :: given => do
    let m ← get
    let words := if given.isEmpty then m.arguments.tail else given
    let place := ((m.variableValue "OPTIND").bind (·.toNat?)).getD 1
    let (place, offset) := if place = m.optionPlace.1 then (place, m.optionPlace.2) else (place, 0)
    let (place, offset) := if place = 0 ∨ words.length + 1 < place then (1, 0) else (place, offset)
    let silent := letters.startsWith ":"
    let finish (c : String) (argument : Option (Option String)) (place offset status : Nat) :
        Run Unit := do
      match argument with
      | some value => put "OPTARG" value
      | none => pure ()
      assign "OPTIND" (toString place)
      checkName name
      assign name c
      modify fun m => { m with optionPlace := (place, offset) }
      setStatus status
    -- The letters that are left of the present word, or else the next word.
    let left := if place ≤ 1 ∨ offset = 0 then []
      else ((words[place - 2]?.getD "").toList).drop offset
    let (cs, place, offset, ended) := match left with
      | _ :: _ => (left, place, offset, false)
      | [] => match words[place - 1]? with
        | some word =>
          match word.toList with
          | ['-', '-'] => ([], place + 1, 0, true)
          | '-' :: c :: cs => (c :: cs, place + 1, 1, false)
          | _ => ([], place, 0, true)
        | none => ([], place, 0, true)
    match cs with
    | [] => finish "?" none place 0 1
    | c :: rest =>
      if ended then finish "?" none place 0 1
      else
        let shown := String.singleton c
        let offset := if rest.isEmpty then 0 else offset + 1
        let known := letters.toList.dropWhile (· ≠ c)
        if known.isEmpty || c = ':' then
          if silent then finish "?" (some (some shown)) place offset 0
          else
            writeError s!"Illegal option -{c}\n"
            finish "?" (some none) place offset 0
        else if known.tail.head? = some ':' then
          if !rest.isEmpty then finish shown (some (some (String.ofList rest))) place 0 0
          else match words[place - 1]? with
            | some value => finish shown (some (some value)) (place + 1) 0 0
            | none =>
              if silent then finish ":" (some (some shown)) place 0 0
              else
                writeError s!"No arg for -{c} option\n"
                finish "?" (some none) place 0 0
        else finish shown (some (some "")) place offset 0
  | _ => fail "Usage: getopts optstring var [arg...]"

/-- The mask of permissions, which is kept and has no effect. -/
def umask : Tool := fun arguments => do
  match arguments with
  | [] => do
    let ds := Nat.toDigits 8 (← get).mask
    print (String.ofList (List.replicate (4 - ds.length) '0' ++ ds) ++ "\n")
  | s :: _ =>
    let (n, rest) := octal 8 0 s.toList
    if rest.isEmpty then modify fun m => { m with mask := n % 512 }
  setStatus 0

/-- Refuses names that nothing is known under. -/
def refuseNames (word : String) : Tool := fun names => do
  for name in names do writeError s!"{word}: {name} not found\n"
  setStatus (if names.isEmpty then 0 else 1)

/-! ### Places -/

/-- Goes to another directory. -/
def changeDirectory : Tool := fun arguments => do
  let m ← get
  let arguments := arguments.dropWhile fun a => ["-L", "-P", "--"].contains a
  let name := match arguments with
    | [] => (m.variableValue "HOME").getD ""
    | "-" :: _ => (m.variableValue "OLDPWD").getD m.workspace.place.display
    | name :: _ => name
  if name.isEmpty then return ← setStatus 0
  match m.workspace.find name with
  | .ok path =>
    if m.workspace.isDirectory path then
      set { m with workspace := { m.workspace with place := path } }
      for (known, value) in [("OLDPWD", m.workspace.place.display), ("PWD", path.display)] do
        assign known value
        modify fun m => m.setVariable known ((m.known? known).map fun v =>
          { v with exported := true })
      if arguments.head? = some "-" then print (path.display ++ "\n")
      setStatus 0
    else fail s!"can't cd to {name}"
  | .error _ => fail s!"can't cd to {name}"

def printDirectory : Tool := fun _ => do
  print ((← get).workspace.place.display ++ "\n")
  setStatus 0

/-! ### Names of commands -/

/-- The commands of the shell whose errors do not end the script. -/
def ordinaryBuiltins : List String :=
  ["alias", "bg", "cd", "chdir", "command", "echo", "false", "fg", "getopts", "hash", "jobs",
    "kill", "printf", "pwd", "read", "test", "[", "true", "type", "ulimit", "umask",
    "unalias", "wait"]

/-- What is found under the name of a command. -/
inductive Found where
  /-- A program with its full name. -/
  | program (name : String) (path : Path)
  /-- Something that cannot be run. The status says where that is found out. -/
  | refused (reason : String) (status : Nat)
  | missing

/-- What is found under a name that says where to look. -/
def Found.at (w : Workspace) (name : String) : Found :=
  match w.find name with
  | .ok path =>
    if Workspace.isProgram path then .program name path else .refused "Permission denied" 126
  | .error .missing | .error .notDirectory | .error .zeroOctet => .missing
  | .error e => .refused e.message 126

/-- The program of a name. One without a slash is looked for in the directories of the search
path. -/
def Machine.find (m : Machine) (name : String) : Found :=
  if name.contains '/' then Found.at m.workspace name
  else
    let candidates := ((m.variableValue "PATH").getD "").splitOn ":" |>.map fun directory =>
      let full := if directory.isEmpty then name else s!"{directory}/{name}"
      (full, Found.at m.workspace full)
    let isFile (candidate : String × Found) : Bool := !m.workspace.isDirectoryName candidate.1
    match candidates.filter fun (_, found) => !(found matches .missing) with
    | [] => .missing
    | there =>
      match there.find? (fun (_, found) => found matches .program _ _) <|> there.find? isFile with
      | some (_, found) => found
      | none => .refused "Permission denied" 127

/-- Tells what a name means as a command: shortly, or in words. -/
def describe (inWords : Bool) (name : String) : Run Unit := do
  let m ← get
  let answer (words : String) : Run Unit := do
    print (if inWords then s!"{name} is {words}\n" else s!"{name}\n")
    setStatus 0
  if reservedWords.contains name then answer "a shell keyword"
  else if (m.functions.lookup name).isSome then answer "a shell function"
  else if specialBuiltins.contains name then answer "a special shell builtin"
  else if ordinaryBuiltins.contains name then answer "a shell builtin"
  else match m.find name with
    | .program full _ => do
      print (if inWords then s!"{name} is {full}\n" else s!"{full}\n")
      setStatus 0
    | _ => do
      if inWords then print s!"{name}: not found\n"
      setStatus 127

/-! ### Signals and processes -/

/-- Says what to do at signals, or lists it. -/
def trap : Tool := fun arguments => do
  let m ← get
  match if arguments.head? = some "--" then arguments.tail else arguments with
  | [] => do
    let traps := m.traps.mergeSort fun a b => decide (a.1 ≤ b.1)
    print (String.join (traps.map fun (signal, action) =>
      s!"trap -- {inApostrophes action} {conditionName signal}\n"))
    setStatus 0
  | first :: rest => do
    let isNumber := !first.isEmpty && first.all Char.isDigit && (signalOf first).isSome
    let (action, names) := if rest.isEmpty || isNumber then (none, first :: rest)
      else (some first, rest)
    let action := if action = some "-" then none else action
    for name in names do
      match conditionOf name with
      | none => do
        writeError s!"trap: {name}: bad trap\n"
        return ← setStatus 1
      | some signal =>
        modify fun m =>
          let others := m.traps.filter (·.1 ≠ signal)
          { m with traps := match action with
            | some action => (signal, action) :: others
            | none => others }
    setStatus 0

/-- Says that a signal has ended a process, unless it is one that users send. -/
def announce (signal : Nat) : Run Unit := do
  unless signal = 2 || signal = 13 do writeError (signalDescription signal ++ "\n")

/-- Lets time pass up to a moment, or up to a signal before it. -/
def waitOrSignal (moment : Nat) : Run (Option Nat) := do
  let m ← get
  let arrivals := m.effects.filterMap fun e =>
    match e.kind with
    | .signal process signal =>
      if process = m.own && e.moment ≤ moment then some (e.moment, signal) else none
    | _ => none
  match arrivals.foldl (fun first a =>
      match first with
      | some f => if a.1 < f.1 then some a else some f
      | none => some a) (none : Option (Nat × Nat)) with
  | some (time, signal) => do
    waitUntil time
    pure (some signal)
  | none => do
    waitUntil moment
    pure none

/-- Waits for processes beside the script. -/
def wait : Tool := fun arguments => do
  let mine (m : Machine) (job : Job) : Bool := job.starter = m.own
  if arguments.isEmpty then
    let m ← get
    match ← waitOrSignal ((m.jobs.filter (mine m)).foldl (fun t job => max t job.ends) m.clock) with
    | some signal => setStatus (128 + signal)
    | none => setStatus 0
  else
    for argument in arguments do
      let n ← if argument.startsWith "%" then (·.process) <$> jobNamed argument
        else numberOrFail argument
      let m ← get
      match m.jobs.find? fun job => job.process = n && mine m job with
      | none => setStatus 127
      | some job =>
        match ← waitOrSignal (max m.clock job.ends) with
        | some signal => return ← setStatus (128 + signal)
        | none => do
          match job.signal with
          | some signal => announce signal
          | none => pure ()
          setStatus job.status

/-- The commands of the shell that run no other commands. -/
def builtinNamed (name : String) : Option Tool :=
  match name with
  | ":" | "true" | "hash" => some fun _ => setStatus 0
  | "alias" | "unalias" => some (refuseNames name)
  | "getopts" => some readOption
  | "ulimit" => some fun _ => do
    print "unlimited\n"
    setStatus 0
  | "false" => some fun _ => setStatus 1
  | "echo" => some echo
  | "printf" => some printf
  | "kill" => some kill
  | "test" => some test
  | "[" => some bracketTest
  | "read" => some readCommand
  | "cd" | "chdir" => some changeDirectory
  | "pwd" => some printDirectory
  | "export" => some (declare name (fun v => { v with exported := true }) (·.exported))
  | "readonly" => some (declare name (fun v => { v with fixed := true }) (·.fixed))
  | "local" => some localVariables
  | "unset" => some unset
  | "set" => some setCommand
  | "shift" => some shift
  | "trap" => some trap
  | "wait" => some wait
  | "umask" => some umask
  | "type" => some fun names => do
    let mut status := 0
    for name in names do
      describe true name
      status := if (← get).status = 0 then status else 127
    setStatus status
  | _ => none

end ProtocolInference.Shell
