import ProtocolInference.Abstraction.Basic

/-!
# Splitting and removing blocks

A split takes observations out of a block and puts them into a new one. The request
names members that have to stay and members that have to go; the other members go
where the placement sends them.
-/

namespace ProtocolInference

/-- Which of the members that a split leaves open go to the new block, by the number
of that block and the member. -/
abbrev Placement := Nat → Nat → Bool

/-- A request to split a block: the members to keep and the members to extract, both
in ascending order. -/
structure Split where
  block : Nat
  keep : List Nat
  extract : List Nat
  deriving DecidableEq, Repr, Inhabited

namespace Abstraction

/-- Checks a request: both sets have members, none in common, all of the block. -/
def checkSplit (g : Abstraction) (s : Split) : Except Fault Block := do
  let b ← g.block s.block
  if s.keep.isEmpty then throw (.emptyKeep s.block)
  if s.extract.isEmpty then throw (.emptyExtract s.block)
  if s.keep.any s.extract.contains then throw (.overlap s.block)
  unless s.keep.all b.members.contains && s.extract.all b.members.contains do
    throw (.outside s.block g.display)
  pure b

/-- The members that go to the new block. -/
def moved (b : Block) (s : Split) (place : Nat → Bool) : List Nat :=
  b.members.filter fun o => s.extract.contains o || (!s.keep.contains o && place o)

/-- Moves members of a block to a new block. -/
def separate (g : Abstraction) (b : Block) (gone : List Nat) : Abstraction :=
  let fresh := g.blocks.size
  let stale := g.predecessors b
  let rest := (Block.withFlags g.nodes g.processes
    { b with members := b.members.filter fun o => !gone.contains o }).advance
  let added := Block.withFlags g.nodes g.processes { id := fresh, members := gone }
  let g := { g with
    blocks := (g.blocks.setIfInBounds b.id (some rest)).push (some added)
    parent := gone.foldl (fun parent o => parent.setIfInBounds o (some fresh)) g.parent }
  g.advance stale

/-- Splits a block as requested and returns the number of the new block. -/
def split (g : Abstraction) (s : Split) (place : Placement) : Except Fault (Abstraction × Nat) := do
  let b ← g.checkSplit s
  let fresh := g.blocks.size
  let g := g.separate b (moved b s (place fresh))
  if g.strict then g.checkTogether b.members
  pure (g, fresh)

/-- Removes a block. Its members lie in no block afterwards. -/
def remove (g : Abstraction) (id : Nat) : Abstraction :=
  match g.block? id with
  | none => g
  | some b =>
    let stale := g.predecessors b
    let g := { g with
      blocks := g.blocks.setIfInBounds id none
      parent := b.members.foldl (fun parent o => parent.setIfInBounds o none) g.parent }
    g.advance stale

end Abstraction

end ProtocolInference
