import ProtocolInference.Shell.Signal
import ProtocolInference.Shell.Source
import ProtocolInference.Text.Blank
import ProtocolInference.Workspace

/-!
# The state of a running script

A script works in a workspace and reads and writes buffers. All texts are octets. Time
passes only while something sleeps, and a script that sleeps past its deadline is stopped.
A process beside the script is run at once on a clock of its own. What it does later than
at its start is an effect, which takes place when the time of the script has come so far.
-/

namespace ProtocolInference.Shell

/-- How a script ended. -/
inductive Ending where
  | exited (status : Nat)
  | killed (signal : Nat)
  | timedOut
  deriving DecidableEq, Repr

/-- Why the run of a script is broken off. -/
inductive Stop where
  | exit (status : Nat)
  /-- An error, which ends the script unless it was an ordinary command's. -/
  | error
  | leaveLoop (levels : Nat)
  | nextRound (levels : Nat)
  | leaveFunction (status : Nat)
  | killed (signal : Nat)
  | timedOut

/-- Where output goes. -/
inductive Sink where
  | buffer (number : Nat)
  /-- A file, by the number under which it was opened. -/
  | file (opening : Nat)
  | nowhere
  deriving DecidableEq, Repr

/-- A file that is open for writing: the place of the next octet, unless all octets go to the
end. -/
structure Opening where
  path : Path
  place : Nat := 0
  atEnd : Bool
  deriving DecidableEq, Repr

/-- What a descriptor leads to: a buffer that is read, a directory, of which nothing can be
read, or where output goes. -/
inductive Channel where
  | reader (buffer : Nat)
  | directory
  | writer (sink : Sink)
  deriving DecidableEq, Repr

/-- A variable. It may be known without having a value. -/
structure Variable where
  value : Option String
  exported : Bool := false
  fixed : Bool := false
  deriving DecidableEq, Repr

/-- A process beside the script, with its status and the moment at which it ends. -/
structure Job where
  process : Nat
  /-- The process that has started it. -/
  starter : Nat
  status : Nat
  began : Nat
  ends : Nat
  /-- The buffers that can be written to because of it, and the moment up to which. -/
  holds : List Nat
  holdsUntil : Nat
  /-- The moments at which commands of it end, unless it is one command only: what it waits
  for goes on after a signal has ended it. -/
  pauses : List Nat
  /-- The signal that has ended it. -/
  signal : Option Nat := none
  deriving DecidableEq, Repr

/-- What a process does to others. -/
inductive EffectKind where
  | write (sink : Sink) (text : String)
  | replace (path : Path) (content : String)
  | signal (process signal : Nat)
  deriving DecidableEq, Repr

/-- What a process beside the script does at a moment after its start. -/
structure Effect where
  process : Nat
  moment : Nat
  kind : EffectKind
  deriving DecidableEq, Repr

/-- The process beside the script that is running: its number, the moment of its start, and
the number of buffers that it shares with others. -/
structure Aside where
  process : Nat
  began : Nat
  shared : Nat

/-- The state of a script. Time is counted in milliseconds. -/
structure Machine where
  workspace : Workspace
  clock : Nat := 0
  deadline : Nat
  buffers : Array String := #[]
  openings : Array Opening := #[]
  channels : List (Nat × Channel) := []
  bindings : List (String × Variable) := []
  functions : List (String × Script) := []
  documents : Array Word := #[]
  /-- The name of the script, and its arguments. -/
  arguments : List String := ["sh"]
  status : Nat := 0
  /-- The status of the script whose output was last put into a word of this command. -/
  substituted : Nat := 0
  /-- The status before the trap that is running. -/
  interrupted : Option Nat := none
  line : Nat := 1
  /-- The builtin command that is running. -/
  builtin : Option String := none
  flags : List Char := []
  /-- What to do at a signal. Number zero is the end of the script. -/
  traps : List (Nat × String) := []
  /-- Signals from other processes that have still to be received. -/
  sent : List Nat := []
  /-- Signals whose traps have still to be run. -/
  arrived : List Nat := []
  /-- The number of the script's process. -/
  process : Nat := 4711
  /-- The number of the present process, which may be a child of the script's. -/
  own : Nat := 4711
  ancestors : List Nat := []
  /-- The number of the process that was started last. -/
  processes : Nat := 4711
  aside : Option Aside := none
  /-- The moments up to which the process beside the script has let time pass. -/
  pauses : List Nat := []
  effects : List Effect := []
  jobs : List Job := []
  lastJob : Option Nat := none
  /-- The number of functions that are running. -/
  calls : Nat := 0
  /-- The number of loops around the present command. -/
  loops : Nat := 0
  /-- What the variables were that the running functions keep to themselves. -/
  frames : List (List (String × Option Variable)) := []
  /-- Whether the output of the present command could not be written. -/
  unwritten : Bool := false
  /-- The argument and the letter in it at which options are read next. -/
  optionPlace : Nat × Nat := (1, 0)
  mask : Nat := 18
  /-- The moments up to which pipes are open. -/
  pipesUntil : List (Nat × Nat) := []

/-- A run that may be broken off. -/
abbrev Run := ExceptT Stop (StateM Machine)

namespace Machine

def buffer (m : Machine) (number : Nat) : String := m.buffers[number]?.getD ""

/-- Adds a buffer with the given contents and returns its number. -/
def addBuffer (m : Machine) (text : String) : Machine × Nat :=
  ({ m with buffers := m.buffers.push text }, m.buffers.size)

/-- Opens a file for writing and returns the number of the opening. -/
def addOpening (m : Machine) (o : Opening) : Machine × Nat :=
  ({ m with openings := m.openings.push o }, m.openings.size)

/-- The file that a sink is. -/
def pathOf? (m : Machine) : Sink → Option Path
  | .file n => m.openings[n]?.map (·.path)
  | _ => none

/-- A text with another one written over it from a place on. What is missing before that
place becomes zeros. -/
def overwritten (before : String) (place : Nat) (text : String) : String :=
  if place = before.length then before ++ text
  else
    let cs := before.toList
    String.ofList (cs.take place ++ List.replicate (place - cs.length) '\x00' ++ text.toList ++
      cs.drop (place + text.length))

/-- Writes a text at once. -/
def append (m : Machine) (sink : Sink) (text : String) : Machine :=
  match sink with
  | .buffer n => { m with buffers := m.buffers.modify n (· ++ text) }
  | .file n =>
    match m.openings[n]? with
    | some o =>
      let before := (m.workspace.file? o.path).getD ""
      let place := if o.atEnd then before.length else o.place
      { m with
        workspace := if text.isEmpty && !o.atEnd then m.workspace
          else m.workspace.put o.path (overwritten before place text)
        openings := m.openings.setIfInBounds n { o with place := place + text.length } }
    | none => m
  | .nowhere => m

/-- The process beside the script that is running, if it has gone on after its start. -/
def later? (m : Machine) : Option Aside := m.aside.filter (·.began < m.clock)

/-- Adds an effect at the present moment. -/
def addEffect (m : Machine) (process : Nat) (kind : EffectKind) : Machine :=
  { m with effects := m.effects ++ [{ process, moment := m.clock, kind }] }

/-- Writes a text, or has it written when the time has come. -/
def writeTo (m : Machine) (sink : Sink) (text : String) : Machine :=
  match m.later?, sink with
  | some aside, .buffer n =>
    if n < aside.shared then m.addEffect aside.process (.write sink text) else m.append sink text
  | some aside, .file _ => m.addEffect aside.process (.write sink text)
  | _, _ => m.append sink text

/-- Replaces the contents of a file, or has them replaced when the time has come. -/
def replace (m : Machine) (path : Path) (content : String) : Machine :=
  match m.later? with
  | some aside => m.addEffect aside.process (.replace path content)
  | none => { m with workspace := m.workspace.put path content }

/-- Lets one effect take place. A signal to another process is left for that one. -/
def takeEffect (m : Machine) (e : Effect) : Machine :=
  match e.kind with
  | .write sink text => m.append sink text
  | .replace path content => { m with workspace := m.workspace.put path content }
  | .signal process signal =>
    if process = m.own then { m with sent := m.sent ++ [signal] }
    else { m with effects := m.effects ++ [e] }

/-- Lets all effects take place whose time has come. -/
def settle (m : Machine) : Machine :=
  if m.aside.isSome then m
  else
    let (due, later) := m.effects.partition (·.moment ≤ m.clock)
    let due := due.mergeSort fun a b => decide (a.moment ≤ b.moment)
    due.foldl takeEffect { m with effects := later }

/-- Makes a descriptor lead somewhere. -/
def lead (m : Machine) (descriptor : Nat) (channel : Channel) : Machine :=
  { m with channels := (descriptor, channel) :: m.channels.filter (·.1 ≠ descriptor) }

/-- Makes a descriptor lead nowhere at all. -/
def close (m : Machine) (descriptor : Nat) : Machine :=
  { m with channels := m.channels.filter (·.1 ≠ descriptor) }

/-- The buffers that the present process can write to. -/
def held (m : Machine) : List Nat :=
  m.channels.filterMap fun (_, channel) =>
    match channel with
    | .writer (.buffer n) => some n
    | _ => none

/-- The moment at which no process beside the script can write to the buffers any more. -/
def releaseOf (m : Machine) (buffers : List Nat) : Nat :=
  m.jobs.foldl (fun time job =>
    if job.holds.any buffers.contains then max time job.holdsUntil else time) m.clock

def known? (m : Machine) (name : String) : Option Variable := m.bindings.lookup name

/-- Replaces a variable, or removes it. -/
def setVariable (m : Machine) (name : String) (v : Option Variable) : Machine :=
  let others := m.bindings.filter (·.1 ≠ name)
  { m with bindings := match v with
    | some v => (name, v) :: others
    | none => others }

/-- The value of a variable. -/
def variableValue (m : Machine) (name : String) : Option String :=
  (m.known? name).bind (·.value)

/-- The characters at which texts are split into words. -/
def separators (m : Machine) : List Char :=
  match m.variableValue "IFS" with
  | some s => s.toList
  | none => [' ', '\t', '\n']

/-- The flags of the shell in the order in which they are shown. -/
def shownFlags : List Char :=
  ['p', 'u', 'b', 'a', 'C', 'E', 'V', 'v', 'x', 's', 'n', 'm', 'i', 'I', 'f', 'e']

/-- The value of a parameter. -/
def value (m : Machine) (name : String) : Option String :=
  match name with
  | "?" => some (toString m.status)
  | "$" => some (toString m.process)
  | "!" => m.lastJob.map toString
  | "#" => some (toString (m.arguments.length - 1))
  | "-" => some (String.ofList (shownFlags.filter m.flags.contains))
  | "@" | "*" =>
    if m.arguments.length ≤ 1 then none else some (String.intercalate " " m.arguments.tail)
  | _ =>
    match if name.all Char.isDigit then name.toNat? else none with
    | some n => m.arguments[n]?
    | none => m.variableValue name

/-- The state after a process of its own: only what is common to all processes stays. -/
def rejoin (outer inner : Machine) : Machine :=
  settle { outer with
    workspace := { inner.workspace with place := outer.workspace.place }
    clock := inner.clock
    buffers := inner.buffers
    openings := inner.openings
    processes := inner.processes
    effects := inner.effects
    pauses := inner.pauses
    jobs := inner.jobs
    pipesUntil := inner.pipesUntil }

end Machine

namespace Run

def setStatus (status : Nat) : Run Unit := modify fun m => { m with status }

/-- What the run ends with, as a value. -/
def attempt {α : Type} (x : Run α) : Run (Except Stop α) :=
  ExceptT.mk do
    let r ← x.run
    pure (.ok r)

/-- Breaks off, or not, as the result says. -/
def resume {α : Type} : Except Stop α → Run α
  | .ok a => pure a
  | .error e => throw e

/-- Runs something, and something else after it also if it was broken off. -/
def ensuring {α : Type} (x : Run α) (after : Run Unit) : Run α := do
  let r ← attempt x
  after
  resume r

/-- Writes a text, and tells whether the descriptor can be written to. -/
def write (descriptor : Nat) (text : String) : Run Bool := do
  let m ← get
  match m.channels.lookup descriptor with
  | some (.writer sink) => do
    set (m.writeTo sink text)
    pure true
  | _ => pure false

/-- Writes a text to the errors. -/
def writeError (text : String) : Run Unit := do
  let _ ← write 2 text

/-- Writes a message of the shell to the errors. -/
def complain (message : String) : Run Unit := do
  let m ← get
  let about := match m.builtin with
    | some name => s!"{name}: "
    | none => ""
  let name := m.arguments.headD "sh"
  writeError s!"{name}: {m.line}: {about}{message}\n"

/-- Stops with a message of the shell. -/
def fail {α : Type} (message : String) : Run α := do
  complain message
  throw .error

/-- Writes the output of a builtin command. -/
def print (text : String) : Run Unit := do
  unless text.isEmpty || (← write 1 text) do
    modify fun m => { m with unwritten := true }

/-- Lets time pass up to a moment. -/
def waitUntil (moment : Nat) : Run Unit := do
  let m ← get
  if m.deadline < moment then
    set { m with clock := m.deadline }.settle
    throw .timedOut
  else
    let pauses := if m.aside.isSome then m.pauses ++ [moment] else []
    set { m with clock := max m.clock moment, pauses }.settle

/-- Takes everything that is left to read of a buffer, once it has been written. -/
def drain (number : Nat) : Run String := do
  let m ← get
  waitUntil (max m.clock ((m.pipesUntil.lookup number).getD 0))
  let m ← get
  set { m with buffers := m.buffers.setIfInBounds number "" }
  pure (m.buffer number)

/-- Takes everything that is left to read from a descriptor, or tells why nothing can be
read. -/
def readAll (descriptor : Nat) : Run (Except String String) := do
  match (← get).channels.lookup descriptor with
  | some (.reader n) => pure (.ok (← drain n))
  | some .directory => pure (.error FileError.isDirectory.message)
  | _ => pure (.error "Bad file descriptor")

/-- The descriptor that a file name stands for. -/
def descriptorOf? (name : String) : Option Nat :=
  match name with
  | "/dev/stdin" => some 0
  | "/dev/stdout" => some 1
  | "/dev/stderr" => some 2
  | _ =>
    if name.startsWith "/dev/fd/" then (name.drop 8).toString.toNat? else none

/-- The contents of a file, or the reason why they cannot be read. -/
def contents (name : String) : Run (Except String String) := do
  match descriptorOf? name with
  | some n =>
    match ← readAll n with
    | .ok text => pure (.ok text)
    | .error _ => pure (.error FileError.missing.message)
  | none => pure (((← get).workspace.octets name).mapError FileError.message)

/-- Sets a variable. -/
def assign (name value : String) : Run Unit := do
  let m ← get
  match m.known? name with
  | some v =>
    if v.fixed then fail s!"{name}: is read only"
    else set (m.setVariable name (some { v with value := some value }))
  | none =>
    set (m.setVariable name (some { value := some value, exported := m.flags.contains 'a' }))

end Run

end ProtocolInference.Shell
