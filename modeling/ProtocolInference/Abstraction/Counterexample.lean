import ProtocolInference.Abstraction.Refinement

/-!
# Counterexamples on an abstraction

A counterexample is a sequence of events. An abstraction follows it along paths of
blocks, and the observations follow it within those blocks. Where the blocks can go
on and the observations that have been reached cannot, a split of a block keeps the
counterexample from being followed there.
-/

namespace ProtocolInference

/-- A path of blocks with the events of the counterexample. Block number `i + 1` is
reached from block number `i` on event number `i`. A path may stop before the last
event. -/
structure BlockPath where
  events : List Event
  blocks : List Nat
  deriving DecidableEq, Repr, Inhabited

namespace BlockPath

/-- Number of events that the path follows. -/
def matched (p : BlockPath) : Nat := p.blocks.length - 1

/-- The steps of the path: each event it follows and the block that this leads to. -/
def steps (p : BlockPath) : List (Event × Nat) := p.events.zip p.blocks.tail

/-- The text of a path. -/
def display (p : BlockPath) : String :=
  match p.blocks with
  | [] => ""
  | first :: _ =>
    s!"P{first}" ++ String.join (p.steps.map fun (e, b) => s!" --{e.display}--> P{b}")

/-- The text of a path that may stop early. -/
def displayPartial (p : BlockPath) : String :=
  s!"{p.display} ({p.matched}/{p.events.length} events)"

end BlockPath

namespace Abstraction

/-- The numbers of the blocks with an initial member. -/
def initialIds (g : Abstraction) : List Nat := g.idsWhere (·.initial)

/-- Whether the block with the given number is accepting. -/
def accepts (g : Abstraction) (id : Nat) : Bool := (g.block? id).any (·.accept)

/-! ### Following a counterexample along blocks -/

/-- The paths from a block along all events into an accepting block, in lexicographic
order. -/
def pathsFrom (g : Abstraction) (id : Nat) : List Event → List (List Nat)
  | [] => if g.accepts id then [[id]] else []
  | e :: es => ((g.next id e).flatMap fun b => pathsFrom g b es).map (id :: ·)

/-- The paths from an initial block along all events into an accepting block. -/
def completePaths (g : Abstraction) (events : List Event) : List BlockPath :=
  (g.initialIds.flatMap fun id => g.pathsFrom id events).map (⟨events, ·⟩)

/-- The first of the longest lists. -/
def firstLongest (paths : List (List Nat)) : List Nat :=
  paths.foldl (fun best p => if best.length < p.length then p else best) []

/-- The first of the longest paths from a block along the first events. -/
def longestFrom (g : Abstraction) (id : Nat) : List Event → List Nat
  | [] => [id]
  | e :: es => id :: firstLongest ((g.next id e).map fun b => longestFrom g b es)

/-- The first of the longest paths from an initial block along the first events, if it
follows one event at least. -/
def longestPath? (g : Abstraction) (events : List Event) : Option BlockPath :=
  let best := firstLongest (g.initialIds.map fun id => g.longestFrom id events)
  if best.length ≤ 1 then none else some ⟨events, best⟩

/-- Whether the blocks of a path still exist and are still connected by its events. -/
def feasible (g : Abstraction) (p : BlockPath) : Bool :=
  p.blocks.all (fun id => (g.block? id).isSome) &&
    ((p.blocks.zip p.steps).all fun (id, e, b) => (g.next id e).contains b)

/-! ### Following a counterexample along observations -/

/-- How far the observations follow a path. -/
inductive Walk where
  /-- The observations reached after `step` events have no edge on the next event into
  the next block. -/
  | stuck (step : Nat) (reached : List Nat)
  /-- The observations that are reached in each block of the path. -/
  | realized (reached : List (List Nat))
  deriving DecidableEq, Repr

/-- The members of a block that the given observations reach on an event. -/
def image (g : Abstraction) (reached : List Nat) (e : Event) (target : Block) : List Nat :=
  Ascending.ofList (reached.flatMap fun o =>
    ((g.edges o).filter fun (f, t) => f == e && target.members.contains t).map (·.2))

/-- Follows the steps of a path from the given observations on. -/
def walkFrom (g : Abstraction) (reached : List Nat) : List (Event × Nat) → Except Fault Walk
  | [] => .ok (.realized [reached])
  | (e, id) :: rest => do
    let target ← g.block id
    let following := g.image reached e target
    if following.isEmpty then pure (.stuck 0 reached)
    else match ← walkFrom g following rest with
      | .stuck step last => pure (.stuck (step + 1) last)
      | .realized later => pure (.realized (reached :: later))

/-- Follows a path from the initial members of its first block. -/
def walk (g : Abstraction) (p : BlockPath) : Except Fault Walk := do
  let first ← g.block (p.blocks.headD 0)
  g.walkFrom (first.members.filter fun o => (g.observation? o).any (·.isInitial)) p.steps

/-! ### Splits that exclude a path -/

/-- The split where a walk is stuck: the observations that have been reached stay, and
those with an edge on the next event into the next block go. -/
def splitAt (g : Abstraction) (p : BlockPath) (step : Nat) (reached : List Nat) :
    Except Fault (Option Split) := do
  let id := p.blocks[step]?.getD 0
  let b ← g.block id
  let target ← g.block (p.blocks[step + 1]?.getD 0)
  let extract := b.members.filter fun o =>
    (g.edges o).any fun (f, t) => p.events[step]? == some f && target.members.contains t
  pure (if reached.isEmpty || extract.isEmpty then none else some ⟨id, reached, extract⟩)

/-- The split that excludes a path along all events, if there is one. A path that
observations follow to the end is excluded by taking the accepting members out of its
last block, unless one of them has been reached. -/
def resolveComplete (g : Abstraction) (p : BlockPath) : Except Fault (Option Split) := do
  match ← g.walk p with
  | .stuck step reached => g.splitAt p step reached
  | .realized reached =>
    let last := p.blocks.getLastD 0
    let ends := reached.getLastD []
    let accepting (o : Nat) : Bool := (g.observation? o).any (·.isAccept)
    if ends.any accepting then pure none
    else
      let b ← g.block last
      pure (some ⟨last, ends, b.members.filter accepting⟩)

/-- The last of the blocks that has other members than the given ones, split into those
and the others. -/
def lastMixed (g : Abstraction) : List (Nat × List Nat) → Except Fault (Option Split)
  | [] => .ok none
  | (id, reached) :: rest => do
    match ← lastMixed g rest with
    | some s => pure (some s)
    | none =>
      let b ← g.block id
      if reached.length < b.size then
        pure (some ⟨id, reached, b.members.filter fun o => !reached.contains o⟩)
      else pure none

/-- The split that excludes a path along the first events, if there is one. -/
def resolvePartial (g : Abstraction) (p : BlockPath) : Except Fault (Option Split) := do
  match ← g.walk p with
  | .stuck step reached => g.splitAt p step reached
  | .realized reached => g.lastMixed (p.blocks.zip reached)

/-- The split for a counterexample whose first event no initial block has: the first
block with members that are initial for the process of the event and members that are
not, split into the two. -/
def resolveNoMatch (g : Abstraction) (first : Event) : Option Split :=
  let initial (o : Nat) : Bool := (g.observation? o).any (·.isInitialFor first.pid)
  (g.live.filter (·.isInitialFor first.pid)).findSome? fun b =>
    let (extract, keep) := b.members.partition initial
    if keep.isEmpty || extract.isEmpty then none else some ⟨b.id, keep, extract⟩

end Abstraction

end ProtocolInference
