import ProtocolInference.Configuration.Basic
import ProtocolInference.Toml.Reader

/-!
# The TOML format of configurations

Every section is a table whose keys are the settings; keys that name no setting are
skipped. A section may also be an array of its settings in their order, in which the
last ones may be left out where they have a value without it.
-/

namespace ProtocolInference

namespace Toml

/-- A partial function on TOML values. -/
abbrev Decoder (α : Type) := Toml → Option α

/-- The numbers of 64 bits. -/
def natural : Decoder Nat
  | .int n => if 0 ≤ n ∧ n < 0x10000000000000000 then some n.toNat else none
  | _ => none

def boolean : Decoder Bool
  | .bool b => some b
  | _ => none

def text : Decoder String
  | .str s => some s
  | _ => none

def list {α : Type} (decode : Decoder α) : Decoder (List α)
  | .arr items => items.mapM decode
  | _ => none

/-- The meaning of a word in the given list. The word may also be the only key of a
table that holds nothing. -/
def choice {α : Type} (meanings : List (String × α)) : Decoder α
  | .str s => meanings.lookup s
  | .table [(s, .table [])] => meanings.lookup s
  | .table [(s, .arr [])] => meanings.lookup s
  | _ => none

/-- A section as its settings in order, each with its value if it has one, and whether
it was written as an array. A point in time is a section without any setting. -/
def settings (names : List String) : Decoder (List (Option Toml) × Bool)
  | .table members => some (names.map fun name => members.lookup name, false)
  | .arr items => some ((List.range names.length).map fun i => items[i]?, true)
  | .time => some (names.map fun _ => none, false)
  | _ => none

/-- A setting with a value where it is left out. -/
def defaulting {α : Type} (decode : Decoder α) (value : α) : Option Toml → Option α
  | some v => decode v
  | none => some value

/-- A setting that may be left out, but not from an array. -/
def optional {α : Type} (decode : Decoder α) (inArray : Bool) : Option Toml → Option (Option α)
  | some v => (decode v).map some
  | none => if inArray then none else some none

end Toml

namespace Configuration

def refinementOf : Toml.Decoder RefinementSettings := fun v =>
  match Toml.settings ["strict", "seed", "partitioning", "parallelism", "max_iterations"] v with
  | some ([strict, seed, grouping, parallelism, maxRounds], inArray) => do
    pure {
      strict := ← Toml.defaulting Toml.boolean false strict
      seed := ← Toml.optional Toml.natural inArray seed
      grouping := ← Toml.defaulting (Toml.choice Grouping.words) .queueTops grouping
      parallelism := ← Toml.defaulting Toml.natural 1 parallelism
      maxRounds := ← Toml.optional Toml.natural inArray maxRounds }
  | _ => none

def checkerOf : Toml.Decoder CheckerSettings := fun v =>
  match Toml.settings ["command", "args", "format", "timeout_secs", "channel_bound"] v with
  | some ([command, arguments, language, timeout, bound], inArray) => do
    pure {
      command := ← Toml.optional Toml.text inArray command
      arguments := ← Toml.defaulting (Toml.list Toml.text) [] arguments
      language := ← Toml.defaulting (Toml.choice ModelLanguage.words) .scm language
      timeoutSeconds := ← Toml.defaulting Toml.natural 60 timeout
      channelBound := ← Toml.defaulting Toml.natural 5 bound }
  | _ => none

def outputOf : Toml.Decoder OutputSettings := fun v =>
  match Toml.settings ["directory"] v with
  | some ([directory], inArray) => do
    pure { directory := ← Toml.optional Toml.text inArray directory }
  | _ => none

def loggingOf : Toml.Decoder LoggingSettings := fun v =>
  match Toml.settings ["level", "file"] v with
  | some ([level, file], inArray) => do
    pure {
      level := ← Toml.defaulting Toml.text "info" level
      file := ← Toml.optional Toml.text inArray file }
  | _ => none

/-- The configuration that the top table of a document describes. -/
def ofToml (members : List (String × Toml)) : Option Configuration := do
  pure {
    refinement := ← Toml.defaulting refinementOf {} (members.lookup "refinement")
    checker := ← Toml.defaulting checkerOf {} (members.lookup "checker")
    output := ← Toml.defaulting outputOf {} (members.lookup "output")
    logging := ← Toml.defaulting loggingOf {} (members.lookup "logging") }

/-- The valid configuration that a text describes. -/
def parse (s : String) : Except ConfigurationError Configuration :=
  match (Toml.parse s).bind ofToml with
  | none => .error .malformed
  | some c => c.validate.map fun () => c

/-! ### Configurations as JSON values -/

/-- The word for a value in a list of words. -/
def wordFor {α : Type} [BEq α] (words : List (String × α)) (value : α) : Json :=
  match words.find? (·.2 == value) with
  | some (word, _) => .str word
  | none => .null

def optionJson {α : Type} (f : α → Json) : Option α → Json
  | some a => f a
  | none => .null

def toJson (c : Configuration) : Json :=
  let r := c.refinement
  let k := c.checker
  .obj [
    ("checker", .obj [("args", .arr (k.arguments.map .str)), ("channel_bound", .nat k.channelBound),
      ("command", optionJson .str k.command), ("format", wordFor ModelLanguage.words k.language),
      ("timeout_secs", .nat k.timeoutSeconds)]),
    ("logging", .obj [("file", optionJson .str c.logging.file), ("level", .str c.logging.level)]),
    ("output", .obj [("directory", optionJson .str c.output.directory)]),
    ("refinement", .obj [("max_iterations", optionJson .nat r.maxRounds),
      ("parallelism", .nat r.parallelism), ("partitioning", wordFor Grouping.words r.grouping),
      ("seed", optionJson .nat r.seed), ("strict", .bool r.strict)])]

end Configuration

end ProtocolInference
