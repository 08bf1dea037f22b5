import ProtocolInference.Fault
import ProtocolInference.Trace.Basic

/-!
# Abstractions of observed executions

An abstraction groups the observations of all traces into blocks. A block is one
abstract state, and has a transition on an event to another block wherever some
member has an edge on that event to some member of the other. Blocks are numbered in
the order in which they came to be, and a number is never used again. A block that
has been removed leaves its place empty and its members without a block.

The transitions of a block are kept once they have been computed, together with the
generation of the block that they were computed in. Whatever may change them puts the
block into its next generation.
-/

namespace ProtocolInference

/-- An observation with its trace and its neighbours. -/
structure Node where
  trace : Nat
  observation : Observation
  next : List (Event × Nat)
  prev : List Nat
  deriving Repr, Inhabited

/-- Transitions with the generation that they belong to. -/
structure Cached where
  generation : Nat
  transitions : Transitions
  deriving Repr, Inhabited

/-- A non-empty set of observations as one abstract state. Its flags tell whether some
member is initial or accepting, as a whole and for each process. -/
structure Block where
  id : Nat
  members : List Nat
  initial : Bool := false
  accept : Bool := false
  initialFor : List Bool := []
  acceptFor : List Bool := []
  generation : Nat := 0
  cached : Option Cached := none
  deriving Repr, Inhabited

/-- Observations grouped into blocks. -/
structure Abstraction where
  processes : Nat
  channels : List Channel
  nodes : Array Node
  /-- The block of every observation. -/
  parent : Array (Option Nat)
  blocks : Array (Option Block)
  /-- Whether observations of one trace with equal local states have to stay together. -/
  strict : Bool
  deriving Repr, Inhabited

/-- How observations are grouped at first. -/
inductive Grouping where
  /-- By the next message of every channel. -/
  | queueTops
  /-- Every observation by itself. -/
  | single
  deriving DecidableEq, Repr, Inhabited

namespace Block

def size (b : Block) : Nat := b.members.length

def isSingle (b : Block) : Bool := b.size == 1

def isInitialFor (b : Block) (pid : Nat) : Bool := b.initialFor[pid]?.getD false

def isAcceptFor (b : Block) (pid : Nat) : Bool := b.acceptFor[pid]?.getD false

/-- The text of a block. -/
def display (b : Block) : String :=
  let members := String.intercalate ", " (b.members.map fun o => s!"o{o}")
  s!"P{b.id}[init={b.initial}, accept={b.accept}, gen={b.generation}] \x7b{members}\x7d"

/-- Sets the flags to what the members say. -/
def withFlags (nodes : Array Node) (processes : Nat) (b : Block) : Block :=
  let holds (p : Observation → Bool) : Bool :=
    b.members.any fun o => nodes[o]?.any fun n => p n.observation
  { b with
    initial := holds (·.isInitial)
    accept := holds (·.isAccept)
    initialFor := (List.range processes).map fun pid => holds (·.isInitialFor pid)
    acceptFor := (List.range processes).map fun pid => holds (·.isAcceptFor pid) }

/-- Puts the block into its next generation. -/
def advance (b : Block) : Block :=
  { b with generation := b.generation + 1 }

end Block

namespace Abstraction

/-! ### Looking at an abstraction -/

def block? (g : Abstraction) (id : Nat) : Option Block :=
  g.blocks[id]?.join

/-- The block that a request is about. -/
def block (g : Abstraction) (id : Nat) : Except Fault Block :=
  match g.block? id with
  | some b => .ok b
  | none => .error (.noBlock id)

/-- The blocks in the order of their numbers. -/
def live (g : Abstraction) : List Block :=
  g.blocks.toList.filterMap id

/-- Number of blocks. -/
def size (g : Abstraction) : Nat := g.live.length

/-- The numbers of the blocks. -/
def ids (g : Abstraction) : List Nat := g.live.map (·.id)

def observation? (g : Abstraction) (o : Nat) : Option Observation :=
  g.nodes[o]?.map (·.observation)

/-- The edges out of an observation. -/
def edges (g : Abstraction) (o : Nat) : List (Event × Nat) :=
  match g.nodes[o]? with
  | some n => n.next
  | none => []

/-- The block that an observation lies in. -/
def parentOf (g : Abstraction) (o : Nat) : Option Nat :=
  g.parent[o]?.join

/-- Whether every block has one member only. -/
def isSingle (g : Abstraction) : Bool := g.live.all (·.isSingle)

/-- The numbers of the blocks with a property. -/
def idsWhere (g : Abstraction) (p : Block → Bool) : List Nat :=
  (g.live.filter p).map (·.id)

/-- The text of an abstraction. -/
def display (g : Abstraction) : String :=
  s!"GFSM[num-states={g.size}] :" ++ String.join (g.live.map fun b => s!"\n\t{b.display}")

/-! ### Transitions -/

/-- The transitions of a block: where the edges of its members lead. -/
def computeTransitions (g : Abstraction) (b : Block) : Transitions :=
  Ascending.ofList (b.members.flatMap fun o =>
    (g.edges o).filterMap fun (e, t) => (g.parentOf t).map fun c => (e, c))

/-- The transitions of a block, from the cache if it is of the present generation. -/
def transitionsOf (g : Abstraction) (b : Block) : Transitions :=
  match b.cached with
  | some c => if c.generation = b.generation then c.transitions else g.computeTransitions b
  | none => g.computeTransitions b

/-- The transitions of the block with the given number. -/
def transitions (g : Abstraction) (id : Nat) : Except Fault Transitions :=
  (g.block id).map g.transitionsOf

/-- Where the block with the given number goes on an event, in ascending order. -/
def next (g : Abstraction) (id : Nat) (e : Event) : List Nat :=
  match g.block? id with
  | some b => (g.transitionsOf b).targets e
  | none => []

/-- Keeps the transitions of a block for the present generation. -/
def remember (g : Abstraction) (id : Nat) : Abstraction :=
  match g.block? id with
  | some b =>
    let kept : Block := { b with cached := some ⟨b.generation, g.transitionsOf b⟩ }
    { g with blocks := g.blocks.setIfInBounds id (some kept) }
  | none => g

/-- Keeps the transitions of every block. -/
def rememberAll (g : Abstraction) : Abstraction :=
  g.ids.foldl remember g

/-- The blocks that some edge into the given block comes from. -/
def predecessors (g : Abstraction) (b : Block) : List Nat :=
  Ascending.ofList (b.members.flatMap fun o =>
    match g.nodes[o]? with
    | some n => n.prev.filterMap g.parentOf
    | none => [])

/-- Puts the given blocks, as far as they exist, into their next generation. -/
def advance (g : Abstraction) (ids : List Nat) : Abstraction :=
  { g with blocks := ids.foldl (fun blocks id => blocks.modify id (·.map Block.advance)) g.blocks }

/-! ### Keeping equal local states together -/

/-- The first of the earlier observations that has the same trace and the same local
states. -/
def firstAlike (g : Abstraction) (earlier : List Nat) (o : Nat) : Option Nat :=
  match g.nodes[o]? with
  | none => none
  | some n => earlier.find? fun p => g.nodes[p]?.any fun m =>
      m.trace == n.trace && m.observation.locals == n.observation.locals

/-- Checks the observations in turn against the earlier ones, of which only the first
with its trace and local states is kept. -/
def checkFrom (g : Abstraction) (earlier : List Nat) : List Nat → Except Fault Unit
  | [] => .ok ()
  | o :: rest =>
    match g.firstAlike earlier o with
    | none => checkFrom g (earlier ++ [o]) rest
    | some p =>
      if g.parentOf p = g.parentOf o then checkFrom g earlier rest
      else .error (.separated p o (g.parentOf p) (g.parentOf o) g.display)

/-- Checks that those of the given observations that have the same trace and the same
local states lie in the same block. -/
def checkTogether (g : Abstraction) (observations : List Nat) : Except Fault Unit :=
  g.checkFrom [] observations

end Abstraction

end ProtocolInference
