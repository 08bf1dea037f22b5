/-!
# Signals

The signals that processes send each other, with their names, what is said about a
process that one has ended, and what they do to a process that does not handle them.
-/

namespace ProtocolInference.Shell

/-- The signals by number, with their names and descriptions. -/
def signals : List (Nat × String × String) :=
  [(1, "HUP", "Hangup"), (2, "INT", "Interrupt"), (3, "QUIT", "Quit"),
    (4, "ILL", "Illegal instruction"), (5, "TRAP", "Trace/breakpoint trap"),
    (6, "ABRT", "Aborted"), (7, "BUS", "Bus error"), (8, "FPE", "Floating point exception"),
    (9, "KILL", "Killed"), (10, "USR1", "User defined signal 1"),
    (11, "SEGV", "Segmentation fault"), (12, "USR2", "User defined signal 2"),
    (13, "PIPE", "Broken pipe"), (14, "ALRM", "Alarm clock"), (15, "TERM", "Terminated"),
    (16, "STKFLT", "Stack fault"), (17, "CHLD", "Child exited"), (18, "CONT", "Continued"),
    (19, "STOP", "Stopped (signal)"), (20, "TSTP", "Stopped"),
    (21, "TTIN", "Stopped (tty input)"), (22, "TTOU", "Stopped (tty output)"),
    (23, "URG", "Urgent I/O condition"), (24, "XCPU", "CPU time limit exceeded"),
    (25, "XFSZ", "File size limit exceeded"), (26, "VTALRM", "Virtual timer expired"),
    (27, "PROF", "Profiling timer expired"), (28, "WINCH", "Window changed"),
    (29, "IO", "I/O possible"), (30, "PWR", "Power failure"), (31, "SYS", "Bad system call")]

/-- The greatest number of a signal. -/
def lastSignal : Nat := 64

/-- The name of a signal, if it has one. -/
def signalName? (signal : Nat) : Option String :=
  (signals.lookup signal).map (·.1)

/-- The name of a signal in scripts, where the end of the script counts as one. Signals
without a use have a name by their distance from the first or the last of them. -/
def conditionName (signal : Nat) : String :=
  if signal = 0 then "EXIT"
  else if signal = 16 ∨ signal = 32 ∨ signal = 33 then toString signal
  else if signal = 34 then "RTMIN"
  else if signal = lastSignal then "RTMAX"
  else if 34 < signal ∧ signal < 50 then s!"RTMIN+{signal - 34}"
  else if 50 ≤ signal ∧ signal < lastSignal then s!"RTMAX-{lastSignal - signal}"
  else (signalName? signal).getD (toString signal)

/-- What is said about a process that the signal has ended. -/
def signalDescription (signal : Nat) : String :=
  match signals.lookup signal with
  | some (_, description) => description
  | none =>
    if 34 ≤ signal then s!"Real-time signal {signal - 34}" else s!"Unknown signal {signal}"

/-- The condition that is given by its number or its name, in letters of either case. -/
def conditionOf (s : String) : Option Nat :=
  if !s.isEmpty && s.all Char.isDigit then s.toNat?.filter (· ≤ lastSignal)
  else (List.range (lastSignal + 1)).find? fun signal => conditionName signal == s.toUpper

/-- The number of a signal that is given by its number or its name. -/
def signalOf (s : String) : Option Nat :=
  (conditionOf s).filter fun signal => signal ≠ 0 || s.all Char.isDigit

/-- What a signal does to a process that does not handle it. -/
inductive SignalEffect where
  | nothing
  | stops
  | ends
  deriving DecidableEq

/-- The effect of a signal. -/
def signalEffect (signal : Nat) : SignalEffect :=
  if [0, 17, 18, 23, 28].contains signal then .nothing
  else if [19, 20, 21, 22].contains signal then .stops
  else .ends

end ProtocolInference.Shell
