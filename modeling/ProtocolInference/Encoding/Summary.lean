import ProtocolInference.Network.Basic
import ProtocolInference.Recording.Format
import ProtocolInference.Refinement.Loop

/-!
# Summaries of networks

A network, and the report of the refinement that led to it, as a JSON value or as a
table.
-/

namespace ProtocolInference

def Report.toJson (r : Report) : Json :=
  .obj [("checker_calls", .nat r.checkerCalls), ("converged", .bool r.converged),
    ("refinements", .nat r.refinements), ("rounds", .nat r.rounds),
    ("unresolved", .arr (r.unresolved.map Invariant.toJson))]

namespace Summary

def stateJson (s : State) : Json :=
  .obj [("id", .nat s.id), ("transitions", .arr (s.transitions.map fun (e, target) =>
    .obj [("event", .str e.display), ("target", .nat target)]))]

def automatonJson (a : Automaton) : Json :=
  .obj [("accept", .arr (a.acceptStates.map .nat)), ("initial", .arr (a.initialStates.map .nat)),
    ("pid", .nat a.pid), ("states", .arr (a.states.map stateJson))]

/-- The summary of a network as a JSON value. -/
def toJson (n : Network) (report : Option Report) : Json :=
  let size := n.size
  .obj [("automata", .arr (n.automata.map automatonJson)),
    ("channels", .arr (n.channels.map Channel.toJson)),
    ("refinement", match report with | some r => r.toJson | none => .null),
    ("summary", .obj [("channels", .nat size.channels), ("processes", .nat size.processes),
      ("states", .nat size.states), ("transitions", .nat size.transitions)])]

/-- The text followed by as many blanks as the width asks for. -/
def padded (width : Nat) (s : String) : String :=
  s ++ String.ofList (List.replicate (width - s.length) ' ')

/-- One line of the table. -/
def row (process state initial accept transitions : String) : String :=
  padded 8 process ++ " " ++ padded 8 state ++ " " ++ padded 8 initial ++ " " ++
    padded 8 accept ++ " " ++ padded 40 transitions ++ "\n"

def stateRow (pid : Nat) (s : State) : String :=
  let transitions := String.intercalate ", " (s.transitions.map fun (e, target) =>
    s!"{e.display}->{target}")
  row s!"p{pid}" (toString s.id) (toString s.initial) (toString s.accept) transitions

/-- The part of the table about a refinement. -/
def reportLines (r : Report) : String :=
  s!"Refinement:\n  Rounds:        {r.rounds}\n  Refinements:   {r.refinements}\n" ++
    s!"  Checker calls: {r.checkerCalls}\n  Converged:     {r.converged}\n" ++
    String.join (r.unresolved.map fun i => s!"  Unresolved:    {i.display}\n") ++ "\n"

/-- The summary of a network as a table. -/
def table (n : Network) (report : Option Report) : String :=
  let size := n.size
  "CFSM Inference - Results\n" ++ String.ofList (List.replicate 80 '=') ++ "\n\n" ++
    s!"Summary:\n  Processes:   {size.processes}\n  Channels:    {size.channels}\n" ++
    s!"  States:      {size.states}\n  Transitions: {size.transitions}\n\n" ++
    (match report with | some r => reportLines r | none => "") ++
    row "Process" "State" "Init" "Accept" "Transitions" ++
    String.ofList (List.replicate 80 '-') ++ "\n" ++
    String.join (n.automata.map fun a => String.join (a.states.map (stateRow a.pid)))

end Summary

end ProtocolInference
