import ProtocolInference.Invariant
import ProtocolInference.Network.Basic

/-!
# Model checkers

A checker is asked whether a network satisfies an invariant. What it answers may
depend on all it has been asked before, which is why it has a state of its own.
-/

namespace ProtocolInference

/-- The answer of a checker. -/
inductive Outcome where
  | verified
  /-- An execution of the network that violates the invariant. -/
  | counterexample (events : List Event)
  /-- The checker gave up. -/
  | inconclusive
  deriving DecidableEq, Repr, Inhabited

/-- A checker with states of type `σ` whose failures have type `ε`. -/
structure Checker (σ ε : Type) where
  check : Network → Invariant → σ → Except ε Outcome × σ

namespace Checker

/-- The checker that gives prepared answers in turn, then verifies everything. Its
state holds the answers that are left and the number of checks so far. -/
def scripted {ε : Type} : Checker (List Outcome × Nat) ε where
  check := fun _ _ (answers, calls) =>
    (.ok (answers.headD .verified), (answers.tail, calls + 1))

/-- Checks the invariants in turn. The first failure ends it. -/
def checkAll {σ ε : Type} (c : Checker σ ε) (n : Network) :
    List Invariant → σ → Except ε (List Outcome) × σ
  | [], s => (.ok [], s)
  | i :: rest, s =>
    match c.check n i s with
    | (.error e, s) => (.error e, s)
    | (.ok outcome, s) =>
      match checkAll c n rest s with
      | (.ok outcomes, s) => (.ok (outcome :: outcomes), s)
      | (.error e, s) => (.error e, s)

end Checker

end ProtocolInference
