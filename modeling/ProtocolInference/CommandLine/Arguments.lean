import ProtocolInference.Configuration.Basic

/-!
# The arguments of the command line

The arguments name a command and say what it works on. An option is written with its
name after two dashes, or with its letter after one; its value follows as the next
argument, after an equals sign, or directly after the letter. Two dashes alone end the
options. The value of an option or operand is looked at only when the next option or
operand begins or the arguments end, so that of two mistakes in different arguments the
earlier one counts.
-/

namespace ProtocolInference

/-- Why no command is run. -/
inductive Refusal where
  /-- The arguments make no sense. -/
  | usage
  /-- An explanation was asked for. -/
  | help
  /-- The version was asked for. -/
  | version
  deriving DecidableEq, Repr

/-- The text that tells the version. -/
def versionText : String := "cfsm-infer 0.1.0\n"

/-- The text that explains the arguments. -/
def usageText : String :=
  "Infers communicating finite-state machine models from concurrent traces\n\n" ++
  "Usage: cfsm-infer [OPTIONS] <COMMAND>\n\n" ++
  "Commands:\n" ++
  "  infer <TRACES> <INVARIANTS>  Infer a CFSM and refine it until the invariants hold\n" ++
  "  export <TRACES>              Synthesize a CFSM from traces without model checking\n" ++
  "  validate <TRACES>            Validate a trace file and print statistics\n" ++
  "  help [COMMAND]               Print this message\n\n" ++
  "Options:\n" ++
  "  -c, --config <CONFIG>        Path to configuration file\n" ++
  "      --log-level <LOG_LEVEL>  Log level (overrides config)\n" ++
  "  -h, --help                   Print help\n" ++
  "  -V, --version                Print version\n"

/-- Refines an inference until the invariants hold. -/
structure InferArguments where
  recordings : String
  invariants : String
  checker : Option String := none
  language : Option ModelLanguage := none
  grouping : Option Grouping := none
  strict : Bool := false
  seed : Option Nat := none
  parallelism : Option Nat := none
  maxRounds : Option Nat := none
  form : OutputForm := .scm
  deriving DecidableEq, Repr

/-- Writes the model of the first abstraction, or that abstraction itself. -/
structure ExportArguments where
  recordings : String
  grouping : Option Grouping := none
  form : OutputForm := .scm
  abstraction : Bool := false
  deriving DecidableEq, Repr

/-- Checks files without building a model. -/
structure ValidateArguments where
  recordings : String
  invariants : Option String := none
  deriving DecidableEq, Repr

/-- What to do. -/
inductive Command where
  | infer (arguments : InferArguments)
  | exportModel (arguments : ExportArguments)
  | validate (arguments : ValidateArguments)
  deriving DecidableEq, Repr

/-- A command with the options that all commands have. -/
structure Invocation where
  configuration : Option String
  logLevel : Option String
  command : Command
  deriving DecidableEq, Repr

namespace Arguments

/-! ### Grammars -/

/-- What an option does. -/
inductive OptionKind where
  /-- It takes a value, of which not every text is one. -/
  | value (accepts : String → Bool)
  | flag
  | refusal (reason : Refusal)

/-- An option with its name and perhaps a letter. -/
structure OptionForm where
  name : String
  letter : Option Char := none
  kind : OptionKind

/-- What a list of arguments may hold: options, operands in their order with the number
of those that must be there, and commands, which have grammars of their own. -/
structure Grammar where
  options : List OptionForm
  operands : List String := []
  required : Nat := 0
  commands : List String := []

/-- A text that can name a file. -/
def isPath (s : String) : Bool := s ≠ ""

/-- A number below the given bound, perhaps with a plus sign. -/
def numberBelow (bound : Nat) (s : String) : Option Nat :=
  let cs := s.toList
  let digits := if cs.head? = some '+' then cs.tail else cs
  if digits.isEmpty || !digits.all Char.isDigit then none
  else
    let n := digits.foldl (fun n c => n * 10 + (c.toNat - 48)) 0
    if n < bound then some n else none

/-- A number of 64 bits. -/
def number? (s : String) : Option Nat := numberBelow 0x10000000000000000 s

def pathOption (name : String) (letter : Option Char := none) : OptionForm :=
  ⟨name, letter, .value isPath⟩

def numberOption (name : String) : OptionForm :=
  ⟨name, none, .value fun s => (number? s).isSome⟩

/-- An option whose value is one of the given words. -/
def wordOption {α : Type} (name : String) (letter : Option Char) (words : List (String × α)) :
    OptionForm :=
  ⟨name, letter, .value fun s => (words.lookup s).isSome⟩

/-- The options that all commands have. -/
def common : List OptionForm :=
  [pathOption "config" (some 'c'), ⟨"log-level", none, .value fun _ => true⟩,
    ⟨"help", some 'h', .refusal .help⟩]

def top : Grammar where
  options := common ++ [⟨"version", some 'V', .refusal .version⟩]
  commands := ["infer", "export", "validate"]

def infer : Grammar where
  options := common ++
    [pathOption "checker", wordOption "format" none ModelLanguage.words,
      wordOption "partitioning" none Grouping.words, ⟨"strict", none, .flag⟩,
      numberOption "seed", numberOption "parallel", numberOption "max-iterations",
      wordOption "output" (some 'o') OutputForm.words]
  operands := ["traces", "invariants"]
  required := 2

def exportModel : Grammar where
  options := common ++
    [wordOption "partitioning" none Grouping.words,
      wordOption "output" (some 'o') OutputForm.words, ⟨"gfsm", none, .flag⟩]
  operands := ["traces"]
  required := 1

def validate : Grammar where
  options := common ++ [pathOption "invariants"]
  operands := ["traces"]
  required := 1

/-! ### Reading arguments -/

/-- An option or operand whose value has not been looked at. -/
structure Pending where
  name : String
  accepts : String → Bool
  value : Option String := none

/-- How far the arguments have been read: what is settled, what is pending, the number of
operands, and whether the options have ended. -/
structure Progress where
  settled : List (String × String) := []
  pending : Option Pending := none
  operands : Nat := 0
  ended : Bool := false

namespace Progress

/-- Settles a value, which may be given only once and has to be accepted. -/
def put (p : Progress) (name value : String) (accepts : String → Bool) :
    Except Refusal Progress :=
  if (p.settled.lookup name).isSome || !accepts value then .error .usage
  else .ok { p with settled := p.settled ++ [(name, value)] }

/-- Settles what is pending. -/
def settle (p : Progress) : Except Refusal Progress :=
  match p.pending with
  | none => .ok p
  | some ⟨name, accepts, some value⟩ => { p with pending := none }.put name value accepts
  | some _ => .error .usage

/-- Whether an option waits for its value. -/
def awaiting (p : Progress) : Bool :=
  match p.pending with
  | some ⟨_, _, none⟩ => true
  | _ => false

/-- Begins with an option and the value that is attached to it, if any. -/
def begin (p : Progress) (o : OptionForm) (attached : Option String) : Except Refusal Progress :=
  match o.kind, attached with
  | .value accepts, some value => do (← p.settle).put o.name value accepts
  | .value accepts, none => do pure { ← p.settle with pending := some ⟨o.name, accepts, none⟩ }
  | .flag, none => do (← p.settle).put o.name "true" fun _ => true
  | .refusal reason, none => do
    let _ ← p.settle
    throw reason
  | _, some _ => .error .usage

/-- Reads options that are given by their letters. -/
def letters (g : Grammar) (p : Progress) : List Char → Except Refusal Progress
  | [] => .ok p
  | c :: cs =>
    match g.options.find? (·.letter == some c) with
    | none => .error .usage
    | some o =>
      match o.kind, cs with
      | .value _, '=' :: value => p.begin o (some (String.ofList value))
      | .value _, _ :: _ => p.begin o (some (String.ofList cs))
      | .value _, [] => p.begin o none
      | _, _ => do letters g (← p.begin o none) cs

/-- Reads an option that is given by its name. -/
def named (g : Grammar) (p : Progress) (cs : List Char) : Except Refusal Progress :=
  let name := cs.takeWhile (· ≠ '=')
  let attached := (cs.drop name.length).tail?.map String.ofList
  match g.options.find? (·.name == String.ofList name) with
  | none => .error .usage
  | some o => p.begin o attached

/-- Reads an operand. -/
def operand (g : Grammar) (p : Progress) (value : String) : Except Refusal Progress :=
  match g.operands[p.operands]? with
  | none => .error .usage
  | some name => do
    let p ← p.settle
    pure { p with pending := some ⟨name, isPath, some value⟩, operands := p.operands + 1 }

/-- Reads one argument that names no command. -/
def argument (g : Grammar) (p : Progress) (s : String) : Except Refusal Progress :=
  if p.ended then p.operand g s
  else match s.toList with
    | ['-', '-'] => .ok { p with ended := true }
    | '-' :: '-' :: cs => p.named g cs
    | '-' :: c :: cs => p.letters g (c :: cs)
    | _ =>
      match p.pending with
      | some ⟨name, accepts, none⟩ => .ok { p with pending := some ⟨name, accepts, some s⟩ }
      | _ => p.operand g s

/-- Settles everything once the arguments have ended. -/
def finish (g : Grammar) (p : Progress) : Except Refusal (List (String × String)) := do
  let p ← p.settle
  if p.operands < g.required then throw .usage
  pure p.settled

/-- Reads arguments to their end. -/
def readAll (g : Grammar) (p : Progress) (arguments : List String) :
    Except Refusal (List (String × String)) := do
  (← arguments.foldlM (argument g) p).finish g

end Progress

/-! ### Commands -/

/-- The meaning of an option whose value is one of the given words. -/
def word? {α : Type} (settled : List (String × String)) (name : String)
    (words : List (String × α)) : Option α :=
  (settled.lookup name).bind fun s => words.lookup s

/-- The invocation of a command with the given options of its own and of the top. The
command's own come first. -/
def invocation (command : String) (own above : List (String × String)) : Option Invocation := do
  let all := own ++ above
  let recordings ← own.lookup "traces"
  let given (name : String) : Bool := (own.lookup name).isSome
  let form := (word? own "output" OutputForm.words).getD .scm
  let grouping := word? own "partitioning" Grouping.words
  let command ← match command with
    | "infer" => do
      pure (Command.infer {
        recordings
        invariants := ← own.lookup "invariants"
        checker := own.lookup "checker"
        language := word? own "format" ModelLanguage.words
        grouping
        strict := given "strict"
        seed := (own.lookup "seed").bind number?
        parallelism := (own.lookup "parallel").bind number?
        maxRounds := (own.lookup "max-iterations").bind number?
        form })
    | "export" =>
      pure (.exportModel { recordings, grouping, form, abstraction := given "gfsm" })
    | "validate" => pure (.validate { recordings, invariants := own.lookup "invariants" })
    | _ => none
  pure ⟨all.lookup "config", all.lookup "log-level", command⟩

/-- The grammar of a command. -/
def grammarOf (command : String) : Grammar :=
  match command with
  | "infer" => infer
  | "export" => exportModel
  | _ => validate

/-- What a request to explain the given commands leads to. -/
def explain : List String → Refusal
  | [] | ["help"] => .help
  | [command] => if top.commands.contains command then .help else .usage
  | _ => .usage

/-- Reads the arguments up to the name of a command, and the others by its grammar. What
is pending at the name is settled last. -/
def readTop (p : Progress) : List String → Except Refusal Invocation
  | [] => .error .usage
  | s :: rest =>
    if p.ended || p.awaiting then do readTop (← p.argument top s) rest
    else if s = "help" then .error (explain rest)
    else if top.commands.contains s then do
      let own ← Progress.readAll (grammarOf s) {} rest
      let above ← p.finish top
      match invocation s own above with
      | some i => pure i
      | none => throw .usage
    else do readTop (← p.argument top s) rest

end Arguments

namespace Invocation

/-- The invocation that the arguments ask for. -/
def ofArguments (arguments : List String) : Except Refusal Invocation :=
  Arguments.readTop {} arguments

/-- The invocation with the given checker where the arguments name none. -/
def withChecker (i : Invocation) (checker : Option String) : Invocation :=
  match i.command with
  | .infer a => { i with command := .infer { a with checker := a.checker <|> checker } }
  | _ => i

end Invocation

end ProtocolInference
