import ProtocolInference.Checker.Reply
import ProtocolInference.Configuration.Basic
import ProtocolInference.Encoding.Format
import ProtocolInference.Shell.Evaluation

/-!
# Programs as checkers

A program checks a model that it reads from its standard input and replies on its
standard output. It works in a workspace, which is the state of the checker: what the
program does to its files stays, also when the check fails. A program that is still
running at its deadline is stopped, and its check is inconclusive.
-/

namespace ProtocolInference

/-- Why a program cannot be started. -/
inductive StartFailure where
  | missing
  | notDirectory
  | forbidden
  | tooLong
  | zeroCharacter
  deriving DecidableEq, Repr

/-- Why a check failed. -/
inductive CheckFailure where
  | notStarted (command : String) (cause : StartFailure)
  /-- The program ended in another way than with status zero. -/
  | unsuccessful (command : String) (ending : Shell.Ending) (errors : String)
  /-- What the program wrote is no reply. -/
  | unreadable (output : String)
  | reply (cause : ReplyError)
  /-- The model could not be written. -/
  | model (cause : AutomatonFault)
  deriving DecidableEq, Repr

/-- The words of the operating system for the reason. -/
def StartFailure.message : StartFailure → String
  | .missing => "No such file or directory (os error 2)"
  | .notDirectory => "Not a directory (os error 20)"
  | .forbidden => "Permission denied (os error 13)"
  | .tooLong => "File name too long (os error 36)"
  | .zeroCharacter => "nul byte found in provided data"

/-- The words for the way in which a program ended. -/
def Shell.Ending.display : Shell.Ending → String
  | .exited status => s!"exit status: {status}"
  | .killed signal =>
    match Shell.signalName? signal with
    | some name => s!"signal: {signal} (SIG{name})"
    | none => s!"signal: {signal}"
  | .timedOut => "timeout"

/-- The words for the reason, with what kind of failure it is. -/
def CheckFailure.message : CheckFailure → String
  | .notStarted command cause =>
    let quoted := Text.quoted command
    s!"Model checker error: failed to start {quoted}: {cause.message}"
  | .unsuccessful command ending errors =>
    let quoted := Text.quoted command
    s!"Model checker error: {quoted} exited with {ending.display}: {errors}"
  | .unreadable output => s!"Unrecognized model checker output: no reply: {output}"
  | .reply (.modelRefused message) => s!"Model checker syntax error: {message}"
  | .reply (.unknownEvent name) =>
    s!"Unrecognized model checker output: unknown event '{name}' in trail"
  | .reply .emptyCounterexample =>
    "Unrecognized model checker output: counterexample reply carries neither events nor a trail"
  | .model cause => cause.message

namespace Program

/-! ### Starting programs -/

/-- Finds the program of a command. Names without a slash are those of known programs; files
of a workspace are no programs. -/
def find (w : Workspace) (command : String) : Except StartFailure Unit :=
  let refusal : FileError → StartFailure
    | .notDirectory => .notDirectory
    | .tooLong => .tooLong
    | .zeroOctet => .zeroCharacter
    | _ => .missing
  if command.contains '/' then
    match w.find command with
    | .ok path => if Workspace.isProgram path then .ok () else .error .forbidden
    | .error e => .error (refusal e)
  else if Path.programs.contains command then .ok ()
  else if command = "." ∨ command = ".." then .error .forbidden
  else if Workspace.maxNameLength.1 < command.length then .error .tooLong
  else .error .missing

/-- Checks that a command can be started. -/
def checkStart (w : Workspace) (command : String) (arguments : List String) :
    Except StartFailure Unit :=
  if (command :: arguments).any (·.contains '\x00') then .error .zeroCharacter
  else find w (Text.octets command)

/-! ### Running programs -/

/-- What a program leaves behind. -/
structure Result where
  workspace : Workspace
  ending : Shell.Ending
  output : String
  errors : String
  deriving Repr

/-- Runs a command on an input for at most the given number of milliseconds. -/
def run (w : Workspace) (command : String) (arguments : List String) (input : String)
    (deadline : Nat) : Result :=
  let (ending, m) := Shell.execute w (Text.octets command) (arguments.map Text.octets)
    (Text.octets input) deadline
  ⟨{ m.workspace with place := w.place }, ending, Text.ofOctets (m.buffer 1),
    Text.ofOctets (m.buffer 2)⟩

/-- The answer that a program gave about a network. -/
def answer (command : String) (n : Network) (r : Result) : Except CheckFailure Outcome :=
  match r.ending with
  | .timedOut => .ok .inconclusive
  | .exited 0 =>
    match Reply.parse (Text.trim r.output) with
    | none => .error (.unreadable (Text.trim r.output))
    | some reply => (reply.outcome n).mapError .reply
  | ending => .error (.unsuccessful command ending (Text.trim r.errors))

/-- Checks a network with a program. A program that is given no time is started, and
stopped before it does anything. -/
def check (settings : CheckerSettings) (command : String) (n : Network) (i : Invariant)
    (w : Workspace) : Except CheckFailure Outcome × Workspace :=
  match settings.language.checkText n i settings.channelBound with
  | .error cause => (.error (.model cause), w)
  | .ok text =>
    match checkStart w command settings.arguments with
    | .error cause => (.error (.notStarted command cause), w)
    | .ok () =>
      if settings.timeoutSeconds = 0 then (.ok .inconclusive, w)
      else
        let r := run w command settings.arguments text (settings.timeoutSeconds * 1000)
        (answer command n r, r.workspace)

/-- The checker that runs a command with the given settings. -/
def checker (settings : CheckerSettings) (command : String) : Checker Workspace CheckFailure where
  check := check settings command

end Program

end ProtocolInference
