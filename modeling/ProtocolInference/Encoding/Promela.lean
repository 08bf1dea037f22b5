import ProtocolInference.Encoding.Formula
import ProtocolInference.Invariant
import ProtocolInference.Network.Basic
import ProtocolInference.Text.Blank

/-!
# Networks in the language Promela

Every automaton becomes a process whose states are labels and whose transitions are
guarded jumps. A transition does its action, notes in `recentEvent` which event of the
invariants it was, if any, prints the event, and keeps `terminal` at one exactly in
accepting states. Invariants become formulas over `recentEvent`.
-/

namespace ProtocolInference.Promela

/-- The events of the invariants with their codes. -/
abbrev Codes := List (Event × Nat)

/-- The name of the code of every event that belongs to no invariant. -/
def otherEvent : String := "OTHEREVENT"

/-- The events of the invariants, numbered from one in ascending order. -/
def codesOf (invariants : List Invariant) : Codes :=
  (Ascending.ofList (invariants.flatMap fun i => [i.first, i.second])).zipIdx 1

/-- The name of the code of an event. -/
def codeName (e : Event) : String := "E_" ++ e.token

/-- What a transition does. -/
def action (e : Event) : String :=
  match e.kind, e.channel with
  | .send, some c => s!"c{c.index} ! {e.label}"
  | .receive, some c => s!"c{c.index} ? {e.label}"
  | _, _ => "skip"

/-- The tag that is printed when an event happens. -/
def tag (e : Event) : String := s!"CSightTrace[{e.display}]"

/-- The name that is noted when an event happens. -/
def noted (codes : Codes) (e : Event) : String :=
  if (codes.lookup e).isSome then codeName e else otherEvent

/-! ### Processes -/

/-- A transition as a guarded jump. -/
structure Branch where
  event : Event
  /-- The name that is noted. -/
  note : String
  /-- The value that `terminal` gets, if it changes. -/
  terminal : Option Bool
  /-- The state whose block the jump leads to. -/
  target : Nat
  deriving DecidableEq, Repr

/-- A state as a labelled block. -/
structure LabelledBlock where
  state : Nat
  accept : Bool
  branches : List Branch
  deriving DecidableEq, Repr

/-- The process of an automaton: the states that it may start in, each with whether
`terminal` is set first, and the blocks. -/
structure Process where
  pid : Nat
  starts : List (Nat × Bool)
  blocks : List LabelledBlock
  deriving DecidableEq, Repr

/-- Whether the state with the given number is accepting. -/
def accepts (a : Automaton) (id : Nat) : Bool := (a.state? id).any (·.accept)

/-- The branch of a transition. It sets `terminal` where the two states of the transition
differ in acceptance. -/
def branchOf (a : Automaton) (codes : Codes) (s : State) : Event × Nat → Branch
  | (e, target) =>
    { event := e
      note := noted codes e
      terminal := if accepts a target = s.accept then none else some (accepts a target)
      target }

/-- The process of an automaton. -/
def process (a : Automaton) (codes : Codes) : Process where
  pid := a.pid
  starts := a.initialStates.map fun id => (id, accepts a id)
  blocks := a.states.map fun s => ⟨s.id, s.accept, s.transitions.map (branchOf a codes s)⟩

/-! ### Texts of processes -/

/-- The text that sets `terminal`. -/
def setTerminal (pid : Nat) (value : Bool) : String :=
  let digit := if value then 1 else 0
  s!"terminal[{pid}] = {digit}"

/-- The text of a branch. -/
def Branch.display (pid : Nat) (b : Branch) : String :=
  let does := action b.event
  let shown := tag b.event
  let change := match b.terminal with
    | some value => setTerminal pid value ++ ";"
    | none => ""
  s!"      :: atomic \x7b {does}; recentEvent.type = {b.note}; printf(\"{shown}\\n\"); {change}\x7d -> goto p{pid}_{b.target};\n"

/-- The text of a block. A block without branches is the end of the process if its state
is accepting, and blocks otherwise. -/
def LabelledBlock.display (pid : Nat) (b : LabelledBlock) : String :=
  s!"p{pid}_{b.state}:\n" ++
    (if b.accept then s!"end_p{pid}_{b.state}:\n" else "") ++
    if b.branches.isEmpty then
      if b.accept then s!"    goto end_p{pid};\n" else "    false;\n"
    else
      "    do\n" ++ String.join (b.branches.map (Branch.display pid)) ++ "    od;\n"

/-- The text of the branch that starts in a state. -/
def startBranch (pid : Nat) : Nat × Bool → String
  | (id, accept) =>
    let first := if accept then setTerminal pid true else "skip"
    s!"      :: {first} -> goto p{pid}_{id};\n"

/-- The text of a process. -/
def Process.display (p : Process) : String :=
  s!"active proctype p{p.pid}() \x7b\n    if\n" ++
    String.join (p.starts.map (startBranch p.pid)) ++ "    fi;\n" ++
    String.join (p.blocks.map (LabelledBlock.display p.pid)) ++
    s!"end_p{p.pid}:\n    skip\n\x7d\n"

/-- The text of the process of an automaton. -/
def automaton (a : Automaton) (codes : Codes) : String :=
  (process a codes).display

/-! ### Invariants -/

/-- The condition that an event has just happened. -/
def happened (e : Event) : String := s!"(recentEvent.type == {codeName e})"

/-- The formula of an invariant, whose atoms are the events that have just happened. -/
def formula (i : Invariant) : Formula Event :=
  let first := Formula.atom i.first
  let second := Formula.atom i.second
  match i.kind with
  | .alwaysFollowedBy => .always (.implies first (.eventually second))
  | .neverFollowedBy => .always (.implies first (.always (.not second)))
  | .alwaysPrecedes => .or (.holdsUntil (.not second) first) (.always (.not second))
  | .eventually => .eventually second

/-- The property that an invariant is checked as: its own encoding, or a formula. -/
def property (number : Nat) (i : Invariant) : String :=
  match i.encoding with
  | some encoding => Text.trimEnd encoding ++ "\n"
  | none =>
    let text := (formula i).display happened
    s!"ltl inv{number} \x7b {text} \x7d\n"

/-! ### Networks -/

/-- The labels of all messages, in ascending order. -/
def labels (n : Network) : List String :=
  Ascending.ofList ((n.alphabet.filter (·.isCommunication)).map (·.label))

/-- The declarations of a network. -/
def declarations (n : Network) (codes : Codes) (bound : Nat) : String :=
  let names := String.intercalate ", " (labels n)
  (if (labels n).isEmpty then "" else s!"mtype = \x7b {names} \x7d;\n") ++
    s!"#define {otherEvent} 0\n" ++
    String.join (codes.map fun (e, code) => s!"#define {codeName e} {code}\n") ++
    "\ntypedef Event \x7b byte type \x7d;\nEvent recentEvent;\n" ++
    s!"bit terminal[{n.processes}];\n\n" ++
    String.join (n.channels.map fun c => s!"chan c{c.index} = [{bound}] of \x7b mtype \x7d;\n") ++
    "\n"

/-- The text of a network whose channels hold up to `bound` messages. -/
def network (n : Network) (invariants : List Invariant) (bound : Nat) : String :=
  let codes := codesOf invariants
  "/* Generated by cfsm-infer */\n\n" ++ declarations n codes bound ++
    String.join (n.automata.map fun a => automaton a codes ++ "\n") ++
    String.join (invariants.zipIdx.map fun (i, number) => property number i)

end ProtocolInference.Promela
