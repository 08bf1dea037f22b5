import ProtocolInference.Abstraction.Construction
import ProtocolInference.Checker.Program
import ProtocolInference.Recording.Basic
import ProtocolInference.Workspace

/-!
# Failures of commands
-/

namespace ProtocolInference

/-- Why a command failed. -/
inductive Failure where
  | file (cause : FileError)
  | configuration (cause : ConfigurationError)
  /-- No program is named that checks models. -/
  | noChecker
  /-- A file that should hold recordings. -/
  | recordingFormat (name : String)
  /-- A file that should hold invariants. -/
  | invariantFormat (name : String)
  | recording (cause : RecordingError)
  | trace (cause : TraceError)
  | check (cause : CheckFailure)
  | fault (cause : Fault)
  deriving DecidableEq, Repr

/-- The words for the reason. -/
def Failure.message : Failure → String
  | .file cause => s!"IO error: {cause.message}"
  | .configuration cause => s!"Configuration error: {cause.message}"
  | .noChecker =>
    "Missing configuration: Model checker wrapper not found. Set CFSM_INFER_CHECKER, " ++
      "pass --checker, or configure checker.command"
  | .recordingFormat name =>
    let quoted := Text.quoted name
    s!"Trace format error in {quoted}: not a recording"
  | .invariantFormat name =>
    let quoted := Text.quoted name
    s!"Invariant error: {quoted}: not a list of invariants"
  | .recording .noProcess => "a system needs at least one process"
  | .recording .noTrace => "no traces given"
  | .recording (.trace cause) | .trace cause => s!"Trace error: {cause.message}"
  | .check cause => cause.message
  | .fault cause => cause.message

/-- The failure that a failed construction is. -/
def Failure.ofConstruction : ConstructionError → Failure
  | .trace cause => .trace cause
  | .fault cause => .fault cause

/-- The failure that a failed refinement is. -/
def Failure.ofRefinement : RefinementError CheckFailure → Failure
  | .fault cause => .fault cause
  | .checker cause => .check cause

end ProtocolInference
