import ProtocolInference.Abstraction.Basic

/-!
# The first grouping of observations

The observations of all traces are numbered one trace after the other. Blocks are
formed in depth-first order from the roots, so that block zero holds the root of the
first trace; what no root reaches comes last.
-/

namespace ProtocolInference

/-- A request fails because of its data or because it makes no sense. -/
inductive ConstructionError where
  | trace (cause : TraceError)
  | fault (cause : Fault)
  deriving DecidableEq, Repr

namespace Abstraction

/-- Checks that a trace has the processes and channels of the first one. -/
def checkTopology (first : Trace) (number : Nat) (t : Trace) : Except TraceError Unit :=
  if t.processes = first.processes ∧ t.channels = first.channels then .ok ()
  else .error (.otherTopology number)

/-- The number of the first observation of every trace. -/
def offsets : Nat → List Trace → List Nat
  | _, [] => []
  | offset, t :: ts => offset :: offsets (offset + t.size) ts

/-- The nodes of one trace without the edges into them. -/
def nodesOf (number offset : Nat) (t : Trace) : List Node :=
  t.observations.zipIdx.map fun (o, i) =>
    ⟨number, o, (t.next i).map fun (e, target) => (e, offset + target), []⟩

/-- The nodes of all traces without the edges into them. -/
def outgoing (traces : List Trace) : List Node :=
  ((traces.zip (offsets 0 traces)).zipIdx.flatMap fun ((t, offset), number) =>
    nodesOf number offset t)

/-- Adds to every node the sources of the edges into it. -/
def withIncoming (nodes : List Node) : Array Node :=
  let sources := nodes.zipIdx.flatMap fun (n, i) => n.next.map fun (_, target) => (target, i)
  let table := sources.foldl (fun (t : Array (List Nat)) (target, i) => t.modify target (· ++ [i]))
    (Array.replicate nodes.length [])
  (nodes.zipIdx.map fun (n, i) => { n with prev := table[i]?.getD [] }).toArray

/-- The graph of the observations. -/
def graphOf (nodes : Array Node) : Graph :=
  nodes.map fun n => n.next.map (·.2)

/-- All observations, in depth-first order from the roots and then what they miss. -/
def traversal (g : Graph) (roots : List Nat) : List Nat :=
  let order := g.preorder roots
  let marks := Graph.marksOf g.size order
  order ++ (List.range g.size).filter fun o => !(marks[o]?.getD false)

/-- Puts an observation into the group with its key, or into a new group. -/
def addToGroup (groups : List (List (Option String) × List Nat)) (key : List (Option String))
    (o : Nat) : List (List (Option String) × List Nat) :=
  match groups with
  | [] => [(key, [o])]
  | (k, members) :: rest =>
    if k = key then (k, Ascending.insert o members) :: rest
    else (k, members) :: addToGroup rest key o

/-- The next messages of the channels at an observation. -/
def topsAt (nodes : Array Node) (o : Nat) : List (Option String) :=
  match nodes[o]? with
  | some n => n.observation.queues.tops
  | none => []

/-- The members of the first blocks, in the order of the blocks. -/
def group (nodes : Array Node) (order : List Nat) : Grouping → List (List Nat)
  | .queueTops =>
    (order.foldl (fun groups o => addToGroup groups (topsAt nodes o) o) []).map (·.2)
  | .single => order.map fun o => [o]

/-- The block of every observation, given the members of the blocks. -/
def parentsOf (n : Nat) (groups : List (List Nat)) : Array (Option Nat) :=
  groups.zipIdx.foldl (fun parent (members, id) =>
    members.foldl (fun parent o => parent.setIfInBounds o (some id)) parent)
    (Array.replicate n none)

/-- The abstraction of the traces before it is checked. -/
def assemble (first : Trace) (traces : List Trace) (grouping : Grouping) (strict : Bool) :
    Abstraction :=
  let nodes := withIncoming (outgoing traces)
  let order := traversal (graphOf nodes) (offsets 0 traces)
  let groups := group nodes order grouping
  { processes := first.processes
    channels := first.channels
    nodes
    parent := parentsOf nodes.size groups
    blocks := (groups.zipIdx.map fun (members, id) =>
      some (Block.withFlags nodes first.processes { id, members })).toArray
    strict }

/-- The abstraction of the traces with the given first grouping. The traces have to
share their processes and channels. -/
def ofTraces (traces : List Trace) (grouping : Grouping) (strict : Bool) :
    Except ConstructionError Abstraction :=
  match traces with
  | [] => .error (.trace .noTrace)
  | first :: _ =>
    match traces.zipIdx.forM fun (t, i) => checkTopology first i t with
    | .error cause => .error (.trace cause)
    | .ok () =>
      let g := assemble first traces grouping strict
      if strict then
        match g.checkTogether (List.range g.nodes.size) with
        | .ok () => .ok g
        | .error cause => .error (.fault cause)
      else .ok g

end Abstraction

end ProtocolInference
