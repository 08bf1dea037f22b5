import ProtocolInference.Abstraction.Basic
import ProtocolInference.Encoding.Format

/-!
# Configurations

The settings of the program, with the values that they have when nothing is said.
-/

namespace ProtocolInference

namespace Grouping

/-- The ways of grouping with their words. -/
def words : List (String × Grouping) :=
  [("top-of-queue", .queueTops), ("singleton", .single)]

end Grouping

namespace ModelLanguage

/-- The languages with their words. -/
def words : List (String × ModelLanguage) :=
  [("scm", .scm), ("promela", .promela)]

end ModelLanguage

namespace OutputForm

/-- The forms with their words. -/
def words : List (String × OutputForm) :=
  [("scm", .scm), ("promela", .promela), ("dot", .dot), ("json", .json), ("table", .table)]

end OutputForm

/-- How abstractions are formed and refined. -/
structure RefinementSettings where
  strict : Bool := false
  seed : Option Nat := none
  grouping : Grouping := .queueTops
  parallelism : Nat := 1
  maxRounds : Option Nat := none
  deriving DecidableEq, Repr, Inhabited

/-- Which program checks models, and how. -/
structure CheckerSettings where
  command : Option String := none
  arguments : List String := []
  language : ModelLanguage := .scm
  timeoutSeconds : Nat := 60
  channelBound : Nat := 5
  deriving DecidableEq, Repr, Inhabited

/-- The time that a check may take in milliseconds, as a number of 64 bits. -/
def CheckerSettings.timeoutMilliseconds (s : CheckerSettings) : Nat :=
  s.timeoutSeconds * 1000 % 0x10000000000000000

/-- Where output goes; to standard output if there is no directory. -/
structure OutputSettings where
  directory : Option String := none
  deriving DecidableEq, Repr, Inhabited

/-- What is logged, and where. -/
structure LoggingSettings where
  level : String := "info"
  file : Option String := none
  deriving DecidableEq, Repr, Inhabited

/-- All settings. -/
structure Configuration where
  refinement : RefinementSettings := {}
  checker : CheckerSettings := {}
  output : OutputSettings := {}
  logging : LoggingSettings := {}
  deriving DecidableEq, Repr, Inhabited

/-- Why a configuration is refused. -/
inductive ConfigurationError where
  | unreadable
  | malformed
  | noParallelism
  | noChannelBound
  deriving DecidableEq, Repr

/-- The words for the reason. -/
def ConfigurationError.message : ConfigurationError → String
  | .unreadable => "Failed to read config file"
  | .malformed => "Failed to parse config file"
  | .noParallelism => "refinement.parallelism must be at least 1"
  | .noChannelBound => "checker.channel_bound must be at least 1"

namespace Configuration

/-- Checks the settings that must not be zero. -/
def validate (c : Configuration) : Except ConfigurationError Unit :=
  if c.refinement.parallelism = 0 then .error .noParallelism
  else if c.checker.channelBound = 0 then .error .noChannelBound
  else .ok ()

end Configuration

end ProtocolInference
