import ProtocolInference.Calendar
import ProtocolInference.CommandLine.Run

/-!
# The command line

The present directory is read into a workspace, the command is run in it, and the files
that it changed are written back. Programs that check models are run by the shell of this
library.
-/

namespace ProtocolInference.Main

/-- The octets of a file, if it is there. -/
def octets? (name : String) : IO (Option String) := do
  try
    let bytes ← IO.FS.readBinFile name
    pure (some (String.ofList (bytes.toList.map fun b => Char.ofNat b.toNat)))
  catch _ =>
    pure none

/-- The octets of a file as they are written. -/
def bytesOf (octets : String) : ByteArray :=
  ⟨(octets.toList.map fun c => c.toNat.toUInt8).toArray⟩

/-- The files of a directory and of those in it, with the given names on the way to it. -/
partial def collect (directory : String) (path : Path) : IO (List (Path × String)) := do
  let root ← IO.FS.realPath directory
  let mut found := []
  for entry in ← root.readDir do
    let inner := path ++ [Text.octets entry.fileName]
    if ← entry.path.isDir then
      found := found ++ (← collect s!"{directory}/{entry.fileName}" inner)
    else
      match ← octets? s!"{directory}/{entry.fileName}" with
      | some content => found := found ++ [(inner, content)]
      | none => pure ()
  pure found

/-- The files that are read wherever they are: the ones that the arguments name, and the
usual places of configurations. -/
def named (arguments : List String) : IO (List (Path × String)) := do
  let home := (← IO.getEnv "HOME").getD ""
  let places := arguments.map (fun a => (a, a)) ++
    [(s!"{home}/.cfsm-infer/config.toml", ".cfsm-infer/config.toml"),
      ("/etc/cfsm-infer/config.toml", "/etc/cfsm-infer/config.toml")]
  let mut found := []
  for (place, name) in places do
    match ← octets? place with
    | some content => found := found ++ [(Path.ofName (Text.octets name), content)]
    | none => pure ()
  pure found

/-- The present moment as digits, which is when a fresh file is made. -/
def now : IO String := do
  let (_, file) ← IO.FS.createTempFile
  let seconds := (← file.metadata).modified.sec
  IO.FS.removeFile file
  pure (Calendar.stamp seconds.toNat)

/-- Writes the files that differ from what they were. -/
def save (before after : Workspace) : IO Unit := do
  for path in after.directories do
    IO.FS.createDirAll (Text.ofOctets path.shortName)
  for (path, content) in after.files do
    unless before.file? path == some content do
      IO.FS.writeBinFile (Text.ofOctets path.shortName) (bytesOf content)

/-- Runs an invocation on the files of the present directory. -/
def execute (arguments : List String) (i : Invocation) : IO UInt32 := do
  let i := i.withChecker (← IO.getEnv "CFSM_INFER_CHECKER")
  let before : Workspace := { files := (← named arguments) ++ (← collect "." Path.home) }
  let (result, s) := i.run (← now) before
  save before s.workspace
  IO.print s.output
  match result with
  | .ok () => pure 0
  | .error e => do
    IO.eprintln s!"Error: {e.message}"
    pure 1

/-- Runs the command that the arguments ask for, or tells why not. -/
def start (arguments : List String) : IO UInt32 := do
  match Invocation.ofArguments arguments with
  | .ok i => execute arguments i
  | .error .version => do
    IO.print versionText
    pure 0
  | .error .help => do
    IO.print usageText
    pure 0
  | .error .usage => do
    IO.eprint usageText
    pure 2

end ProtocolInference.Main

/-- The command line program. -/
def main (arguments : List String) : IO UInt32 :=
  ProtocolInference.Main.start arguments
