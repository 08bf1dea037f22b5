import ProtocolInference.Abstraction.Placement
import ProtocolInference.CommandLine.Arguments
import ProtocolInference.CommandLine.Failure
import ProtocolInference.Configuration.Format
import ProtocolInference.Recording.Format
import ProtocolInference.Refinement.Loop

/-!
# Running commands

A command works in a workspace and writes text to standard output. What it has written
and changed stays, also when it fails later on.
-/

namespace ProtocolInference

/-- What commands work on. -/
structure Session where
  workspace : Workspace
  output : String := ""
  deriving Repr

/-- A step of a command, which may fail. -/
abbrev Action := ExceptT Failure (StateM Session)

namespace Action

/-- A step that fails as the given result does. -/
def ofExcept {ε α : Type} (wrap : ε → Failure) (r : Except ε α) : Action α :=
  match r with
  | .ok a => pure a
  | .error e => throw (wrap e)

/-- The text of a file. -/
def readFile (name : String) : Action String := do
  ofExcept .file ((← get).workspace.read name)

/-- Writes a text to standard output. -/
def write (text : String) : Action Unit :=
  modify fun s => { s with output := s.output ++ text }

/-- Changes the workspace. -/
def change (step : Workspace → Except FileError Workspace) : Action Unit := do
  let workspace ← ofExcept .file (step (← get).workspace)
  modify fun s => { s with workspace }

end Action

/-! ### Reading files -/

namespace Configuration

/-- Where a configuration is looked for if none is named. -/
def usualPlaces : List String :=
  ["config.toml", ".cfsm-infer/config.toml", "/etc/cfsm-infer/config.toml"]

/-- The configuration in a file. -/
def readFile (w : Workspace) (name : String) : Except ConfigurationError Configuration :=
  match w.read name with
  | .ok text => parse text
  | .error _ => .error .unreadable

/-- The configuration in the named file, or else in the first usual place where there is
something, or else the one that says nothing. -/
def find (w : Workspace) (name : Option String) : Except ConfigurationError Configuration :=
  match name <|> usualPlaces.find? w.exists? with
  | some name => readFile w name
  | none => .ok {}

end Configuration

namespace Action

/-- The traces that the recordings in a file stand for, each of them checked. -/
def loadTraces (name : String) : Action (List Trace) := do
  match Recording.parse (← readFile name) with
  | none => throw (.recordingFormat name)
  | some r => do
    let traces ← ofExcept .recording r.build
    ofExcept .trace (traces.forM Trace.validate)
    pure traces

/-- The invariants in a file. -/
def loadInvariants (name : String) : Action (List Invariant) := do
  match Invariant.parseAll (← readFile name) with
  | none => throw (.invariantFormat name)
  | some invariants => pure invariants

/-- The abstraction of traces that the settings ask for. -/
def abstractionOf (settings : RefinementSettings) (traces : List Trace) : Action Abstraction :=
  ofExcept Failure.ofConstruction
    (Abstraction.ofTraces traces settings.grouping settings.strict)

/-- The network of an abstraction. -/
def networkOf (g : Abstraction) : Action Network :=
  ofExcept .fault g.network

/-! ### Writing models -/

/-- The name of a file in a directory. -/
def fileIn (directory name : String) : String :=
  if directory = "" || directory.endsWith "/" then directory ++ name
  else s!"{directory}/{name}"

/-- Writes a text in the given form to standard output, or to a file of the configured
directory that is named for the time. -/
def emit (c : Configuration) (time : String) (form : OutputForm) (text : String) :
    Action Unit :=
  match c.output.directory with
  | none => write text
  | some directory => do
    change (·.makeDirectory directory)
    change (·.write (fileIn directory s!"{time}.cfsm.{form.ending}") text)

/-! ### Commands -/

/-- Builds the abstraction and refines it with the checker until the invariants hold. -/
def infer (c : Configuration) (time : String) (a : InferArguments) : Action Unit := do
  let checking := { c.checker with language := a.language.getD c.checker.language }
  let settings : RefinementSettings := { c.refinement with
    grouping := a.grouping.getD c.refinement.grouping
    strict := c.refinement.strict || a.strict
    seed := a.seed <|> c.refinement.seed
    parallelism := (a.parallelism.map (max 1)).getD c.refinement.parallelism
    maxRounds := a.maxRounds <|> c.refinement.maxRounds }
  let traces ← loadTraces a.recordings
  let invariants ← loadInvariants a.invariants
  match a.checker <|> checking.command with
  | none => throw .noChecker
  | some command => do
    let g ← abstractionOf settings traces
    let (result, workspace) := Refinement.run (Program.checker checking command)
      (Placement.seeded (settings.seed.getD 0)) settings.maxRounds g invariants (← get).workspace
    modify fun s => { s with workspace }
    let (report, g) ← ofExcept Failure.ofRefinement result
    let n ← networkOf g
    emit c time a.form (a.form.network n invariants (some report) checking.channelBound)

/-- Writes the model of the first abstraction, or that abstraction. -/
def exportModel (c : Configuration) (time : String) (a : ExportArguments) : Action Unit := do
  let settings := { c.refinement with grouping := a.grouping.getD c.refinement.grouping }
  let g ← abstractionOf settings (← loadTraces a.recordings)
  if a.abstraction then emit c time a.form (a.form.abstraction g)
  else do
    let n ← networkOf g
    emit c time a.form (a.form.network n [] none c.checker.channelBound)

/-- The line about one trace. -/
def traceLine (t : Trace) (number : Nat) : String :=
  s!"  Trace {number}: {t.processes} processes, {t.channels.length} channels, " ++
    s!"{t.size} observations, {t.edges.length} transitions\n"

/-- Checks the files and tells what they hold. -/
def validate (a : ValidateArguments) : Action Unit := do
  let traces ← loadTraces a.recordings
  write ("✓ Trace file is valid: " ++ Text.quoted a.recordings ++ "\n")
  write (String.join (traces.zipIdx.map fun (t, i) => traceLine t i))
  match a.invariants with
  | none => pure ()
  | some name => do
    let invariants ← loadInvariants name
    write ("✓ Invariant file is valid: " ++ Text.quoted name ++ "\n")
    write (String.join (invariants.map fun i => s!"  {i.display}\n"))

end Action

namespace Invocation

/-- The steps of an invocation at the given time. -/
def steps (i : Invocation) (time : String) : Action Unit := do
  let c ← Action.ofExcept .configuration
    (Configuration.find (← get).workspace i.configuration)
  match i.command with
  | .infer a => Action.infer c time a
  | .exportModel a => Action.exportModel c time a
  | .validate a => Action.validate a

/-- Runs an invocation in a workspace. The time goes into the names of new files. -/
def run (i : Invocation) (time : String) (w : Workspace) : Except Failure Unit × Session :=
  (i.steps time).run { workspace := w }

end Invocation

end ProtocolInference
