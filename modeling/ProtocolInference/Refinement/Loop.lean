import ProtocolInference.Abstraction.Counterexample
import ProtocolInference.Abstraction.Projection
import ProtocolInference.Refinement.Checker

/-!
# Refinement guided by counterexamples

Each round builds the network of the abstraction and checks every invariant that is
still pending against it. The invariants that are verified are done. For each
counterexample of the others a block is split so that the counterexample can no longer
be followed there. It ends when no invariant is pending, or when a round splits nothing.
-/

namespace ProtocolInference

/-- What a refinement did. -/
structure Report where
  refinements : Nat := 0
  rounds : Nat := 0
  checkerCalls : Nat := 0
  converged : Bool := false
  /-- The invariants that have not been verified. -/
  unresolved : List Invariant := []
  deriving DecidableEq, Repr, Inhabited

/-- Why a refinement ended without a report. -/
inductive RefinementError (ε : Type) where
  | fault (cause : Fault)
  | checker (cause : ε)
  deriving DecidableEq, Repr

namespace Refinement

/-- A counterexample with its paths in the abstraction that it was found for. -/
structure Finding where
  events : List Event
  paths : List BlockPath
  deriving DecidableEq, Repr

/-- The findings of the given answers. Recordings of events are no events of the
abstraction and are left out. -/
def findings (g : Abstraction) (outcomes : List Outcome) : List Finding :=
  outcomes.filterMap fun
    | .counterexample events =>
      let observed := events.filter fun e => !e.isSyntheticSend
      some ⟨observed, g.completePaths observed⟩
    | _ => none

/-- The split that the first path to have one asks for. -/
def firstSplit (g : Abstraction) : List BlockPath → Except Fault (Option Split)
  | [] => .ok none
  | p :: rest => do
    match ← g.resolveComplete p with
    | some s => pure (some s)
    | none => firstSplit g rest

/-- The split for a finding, if there is one: for one of its paths that is still
feasible, or, if it never had a path, for the longest path along its first events. -/
def resolve (g : Abstraction) (f : Finding) : Except Fault (Option Split) :=
  if f.paths.isEmpty then
    match g.longestPath? f.events with
    | some p => g.resolvePartial p
    | none => .ok (f.events.head?.bind g.resolveNoMatch)
  else firstSplit g (f.paths.filter g.feasible)

/-- Applies the splits for the findings in turn, each to the abstraction that the ones
before it left, and counts them. -/
def applyAll (place : Placement) : Abstraction → List Finding → Except Fault (Abstraction × Nat)
  | g, [] => .ok (g, 0)
  | g, f :: rest => do
    match ← resolve g f with
    | none => applyAll place g rest
    | some s =>
      let (h, _) ← g.split s place
      if h.size ≠ g.size + 1 then throw .blockNotAdded
      let (h, splits) ← applyAll place h rest
      pure (h, splits + 1)

/-- The invariants that were not verified. -/
def stillPending (pending : List Invariant) (outcomes : List Outcome) : List Invariant :=
  ((pending.zip outcomes).filter fun (_, outcome) => outcome ≠ .verified).map (·.1)

/-- Up to the given number of rounds. -/
def loop {σ ε : Type} (checker : Checker σ ε) (place : Placement) :
    Nat → Abstraction → List Invariant → Report → σ →
    Except (RefinementError ε) (Report × Abstraction) × σ
  | _, g, [], report, s => (.ok ({ report with converged := true, unresolved := [] }, g), s)
  | 0, g, pending, report, s => (.ok ({ report with unresolved := pending }, g), s)
  | rounds + 1, g, pending, report, s =>
    let g := g.rememberAll
    match g.network with
    | .error cause => (.error (.fault cause), s)
    | .ok network =>
      match checker.checkAll network pending s with
      | (.error cause, s) => (.error (.checker cause), s)
      | (.ok outcomes, s) =>
        let left := stillPending pending outcomes
        match applyAll place g (findings g outcomes) with
        | .error cause => (.error (.fault cause), s)
        | .ok (h, splits) =>
          let report := { report with
            rounds := report.rounds + 1
            checkerCalls := report.checkerCalls + outcomes.length
            refinements := report.refinements + splits }
          if splits = 0 ∧ left ≠ [] then (.ok ({ report with unresolved := left }, h), s)
          else loop checker place rounds h left report s

/-- Refines the abstraction until its network satisfies the invariants or no
counterexample leads to a split. Where no greatest number of rounds is given, one more
than there are observations is enough, because every round but the last splits a block.
An abstraction whose blocks all have one member is left as it is, unchecked. -/
def run {σ ε : Type} (checker : Checker σ ε) (place : Placement) (maxRounds : Option Nat)
    (g : Abstraction) (invariants : List Invariant) (s : σ) :
    Except (RefinementError ε) (Report × Abstraction) × σ :=
  if g.isSingle then (.ok ({ unresolved := invariants }, g), s)
  else loop checker place (maxRounds.getD (g.nodes.size + 1)) g invariants {} s

end Refinement

end ProtocolInference
