import ProtocolInference.Automaton.Basic

/-!
# Requests that make no sense

A fault is a request that contradicts the state it is made in. Unlike bad data, which
is reported as an error, it shows a mistake of the caller.
-/

namespace ProtocolInference

/-- A request that cannot be met. The texts hold the state it was made in. -/
inductive Fault where
  | automaton (cause : AutomatonFault)
  | automataCount
  | noBlock (block : Nat)
  | emptyKeep (block : Nat)
  | emptyExtract (block : Nat)
  | overlap (block : Nat)
  | outside (block : Nat) (state : String)
  /-- Two observations of one trace agree on all local states and lie in different
  blocks, or one of them in none. -/
  | separated (first second : Nat) (firstBlock secondBlock : Option Nat) (state : String)
  | noEnds (pid initial accept : Nat) (projection state : String)
  | blockNotAdded
  deriving DecidableEq, Repr

/-- The words for a block, or for none. -/
def blockText : Option Nat → String
  | some b => s!"Some(PartitionId({b}))"
  | none => "None"

/-- The words for a request that cannot be met. -/
def Fault.message : Fault → String
  | .automaton cause => cause.message
  | .automataCount => "one automaton per process is required"
  | .noBlock b => s!"P{b} is not a partition of this GFSM"
  | .emptyKeep b => s!"refining P{b} with an empty keep set"
  | .emptyExtract b => s!"refining P{b} with an empty extract set"
  | .overlap b => s!"keep and extract sets of P{b} overlap"
  | .outside b state => s!"refinement sets are not contained in P{b}\n{state}"
  | .separated o p b c state =>
    s!"merge-compatibility violated: o{o} and o{p} share local states but lie in {blockText b} and {blockText c}\n{state}"
  | .noEnds pid initial accept projection state =>
    s!"projection onto process {pid} has {initial} initial and {accept} accepting states\n{projection}\n{state}"
  | .blockNotAdded => "refinement did not add a partition"

end ProtocolInference
