import ProtocolInference.Abstraction.Refinement

/-!
# Placements drawn from a seed

Nothing is known of the members that a split leaves open, so they are sent to either
side as if by chance. The same seed gives the same placement.
-/

namespace ProtocolInference.Placement

/-- Spreads the bits of a word over all of it. -/
def scatter (x : UInt64) : UInt64 :=
  let x := (x ^^^ (x >>> 30)) * 0xbf58476d1ce4e5b9
  let x := (x ^^^ (x >>> 27)) * 0x94d049bb133111eb
  x ^^^ (x >>> 31)

/-- The placement that a seed stands for. -/
def seeded (seed : Nat) : Placement := fun block observation =>
  let start := scatter (UInt64.ofNat seed + 0x9e3779b97f4a7c15)
  let word := scatter (scatter (start + UInt64.ofNat block) + UInt64.ofNat observation)
  word &&& 1 == 1

end ProtocolInference.Placement
