import ProtocolInference.Encoding.Promela
import ProtocolInference.Proofs.Automaton.Editing
import ProtocolInference.Proofs.Event.Tokens

/-!
# The text of a process

The text of a process is read line by line. A line that ends with a colon defines a label, a
branch of a choice starts with two colons, and a word `goto` is followed by the name that is
jumped to. What a transition does, notes and prints has none of these words in it, whatever the
label of its event, so the jumps and the assignments of a line are those that its branch has.
-/

namespace ProtocolInference.Promela

open Text

/-! ### Reading a text -/

/-- The name that a line defines as a label. -/
def labelOf (l : String) : Option String :=
  if l.toList.getLast? = some ':' then some (String.ofList l.toList.dropLast) else none

/-- The names that the words of a line jump to. The last character of each ends the line. -/
def jumps : List String → List String
  | [] => []
  | w :: ws =>
    if w = "goto" then (ws.head?.map fun t => String.ofList t.toList.dropLast).toList ++ jumps ws
    else jumps ws

/-- What the words of a line assign to a bit. -/
def assigned (name : String) : List String → Option Bool
  | [] => none
  | w :: ws =>
    if w = name then ws[1]?.map fun v => v.toList.head? == some '1' else assigned name ws

/-- Whether the line is a branch of a choice. -/
def isBranch (l : String) : Bool := (words l)[6]? == some "::"

/-- Whether the line is a branch that does what it does at once. -/
def isAtomic (l : String) : Bool := isBranch l && (words l)[7]? == some "atomic"

/-- The lines from where a label leads to. Further labels may stand there too. -/
def statement (ls : List String) (name : String) : List String :=
  (ls.dropWhile fun l => labelOf l ≠ some name).dropWhile fun l => (labelOf l).isSome

/-- The lines of which one is executed next: the branches of a choice, or a statement. -/
def options : List String → List String
  | [] => []
  | l :: ls => if l = "    do" ∨ l = "    if" then ls.takeWhile isBranch else [l]

/-- Where an execution may be, and the value of the bit then. It takes one of the branches at the
start of the process, and then any that it comes to. -/
inductive Runs (ls : List String) (name : String) : String → Bool → Prop where
  | start {l target : String} : l ∈ options (ls.drop 1) → target ∈ jumps (words l) →
      Runs ls name target ((assigned name (words l)).getD false)
  | step {here l target : String} {value : Bool} : Runs ls name here value →
      l ∈ options (statement ls here) → target ∈ jumps (words l) →
      Runs ls name target ((assigned name (words l)).getD value)

variable {pid id : Nat} {e : Event} {b : Branch} {x : Nat × Bool} {name l : String}
  {ws vs : List String} {c d : Char}

theorem labelOf_append_colon (name : String) : labelOf (name ++ ":") = some name := by
  simp [labelOf]

theorem labelOf_append {s t : String} (h : t.toList.getLast? = some c) (hc : c ≠ ':') :
    labelOf (s ++ t) = none := by
  simp [labelOf, List.getLast?_append, h, hc]

theorem jumps_append (h : "goto" ∉ ws) : jumps (ws ++ vs) = jumps vs := by
  induction ws with
  | nil => rfl
  | cons w ws ih =>
    obtain ⟨hw, hws⟩ := not_or.mp (mt List.mem_cons.mpr h)
    rw [List.cons_append, jumps, if_neg (Ne.symm hw), ih hws]

theorem assigned_append (h : name ∉ ws) : assigned name (ws ++ vs) = assigned name vs := by
  induction ws with
  | nil => rfl
  | cons w ws ih =>
    obtain ⟨hw, hws⟩ := not_or.mp (mt List.mem_cons.mpr h)
    rw [List.cons_append, assigned, if_neg (Ne.symm hw), ih hws]

/-! ### Lines of a process -/

/-- The bit that is kept. -/
def terminal (pid : Nat) : String := s!"terminal[{pid}]"

/-- The label of a state. -/
def stateLabel (pid id : Nat) : String := s!"p{pid}_{id}"

/-- The second label of an accepting state. -/
def restLabel (pid id : Nat) : String := s!"end_p{pid}_{id}"

/-- The label of the end of the process. -/
def endLabel (pid : Nat) : String := s!"end_p{pid}"

/-- The line of a branch that starts in a state. -/
def startLine (pid : Nat) : Nat × Bool → String
  | (id, accept) =>
    let first := if accept then setTerminal pid true else "skip"
    s!"      :: {first} -> goto p{pid}_{id};"

/-- What a branch does to the bit. -/
def changeText (pid : Nat) : Option Bool → String
  | some value => setTerminal pid value ++ ";"
  | none => ""

/-- The line of a branch. -/
def branchLine (pid : Nat) (b : Branch) : String :=
  let does := action b.event
  let shown := tag b.event
  let change := changeText pid b.terminal
  s!"      :: atomic \x7b {does}; recentEvent.type = {b.note}; printf(\"{shown}\\n\"); {change}\x7d -> goto p{pid}_{b.target};"

/-- What is left to do where a state has no branch. -/
def sinkLine (pid : Nat) (accept : Bool) : String :=
  if accept then s!"    goto end_p{pid};" else "    false;"

/-- The lines that the labels of a block lead to. -/
def bodyLines (pid : Nat) (b : LabelledBlock) : List String :=
  if b.branches.isEmpty then [sinkLine pid b.accept]
  else "    do" :: b.branches.map (branchLine pid) ++ ["    od;"]

def blockLabels (pid : Nat) (b : LabelledBlock) : List String :=
  stateLabel pid b.state :: if b.accept then [restLabel pid b.state] else []

def blockLines (pid : Nat) (b : LabelledBlock) : List String :=
  (blockLabels pid b).map (· ++ ":") ++ bodyLines pid b

/-- The lines ahead of the blocks. -/
def opening (p : Process) : List String :=
  [s!"active proctype p{p.pid}() \x7b", "    if"] ++ p.starts.map (startLine p.pid) ++ ["    fi;"]

/-- The lines after the blocks. -/
def closing (p : Process) : List String := [endLabel p.pid ++ ":", "    skip", "\x7d"]

def processLines (p : Process) : List String :=
  opening p ++ p.blocks.flatMap (blockLines p.pid) ++ closing p

theorem append_semicolon_newline (s : String) : s ++ ";\n" = s ++ ";" ++ "\n" := by
  rw [String.append_assoc]
  rfl

theorem display_branch (pid : Nat) (b : Branch) : b.display pid = branchLine pid b ++ "\n" :=
  append_semicolon_newline _

theorem display_startBranch (pid : Nat) (x : Nat × Bool) :
    startBranch pid x = startLine pid x ++ "\n" :=
  append_semicolon_newline _

theorem display_block (pid : Nat) (b : LabelledBlock) :
    b.display pid = unlines (blockLines pid b) := by
  have hlabels : unlines ((blockLabels pid b).map (· ++ ":")) = s!"p{pid}_{b.state}:\n" ++
      if b.accept then s!"end_p{pid}_{b.state}:\n" else "" := by
    apply String.toList_injective
    cases h : b.accept <;> simp [blockLabels, h, unlines, stateLabel, restLabel]
  have hsink : unlines [sinkLine pid b.accept] =
      if b.accept then s!"    goto end_p{pid};\n" else "    false;\n" := by
    apply String.toList_injective
    cases h : b.accept <;> simp [sinkLine, unlines]
  have hbranches : unlines (b.branches.map (branchLine pid)) =
      String.join (b.branches.map (Branch.display pid)) := by
    rw [unlines, List.map_map]
    exact congrArg String.join (List.map_congr_left fun b _ => (display_branch pid b).symm)
  have hbody : unlines ("    do" :: b.branches.map (branchLine pid) ++ ["    od;"]) =
      "    do\n" ++ String.join (b.branches.map (Branch.display pid)) ++ "    od;\n" := by
    rw [List.cons_append, unlines_cons, unlines_append, hbranches, ← String.append_assoc]
    rfl
  unfold LabelledBlock.display blockLines bodyLines
  rw [unlines_append, hlabels]
  by_cases h : b.branches.isEmpty = true
  · rw [if_pos h, if_pos h, hsink]
  · rw [if_neg h, if_neg h, hbody]

theorem display_process (p : Process) : p.display = unlines (processLines p) := by
  have hfirst : unlines [s!"active proctype p{p.pid}() \x7b", "    if"] =
      s!"active proctype p{p.pid}() \x7b\n    if\n" := by
    apply String.toList_injective
    simp [unlines]
  have hlast : unlines (closing p) = s!"end_p{p.pid}:\n    skip\n\x7d\n" := by
    apply String.toList_injective
    simp [unlines, closing, endLabel]
  have hstarts : unlines (p.starts.map (startLine p.pid)) =
      String.join (p.starts.map (startBranch p.pid)) := by
    rw [unlines, List.map_map]
    exact congrArg String.join (List.map_congr_left fun x _ => (display_startBranch p.pid x).symm)
  have hblocks : unlines (p.blocks.flatMap (blockLines p.pid)) =
      String.join (p.blocks.map (LabelledBlock.display p.pid)) := by
    rw [unlines_flatMap]
    exact congrArg String.join (List.map_congr_left fun b _ => (display_block p.pid b).symm)
  have hend : unlines ["    fi;"] = "    fi;\n" := rfl
  unfold Process.display processLines opening
  rw [unlines_append, unlines_append, unlines_append, unlines_append, hfirst, hlast, hstarts,
    hblocks, hend]

/-! ### Words of the lines -/

/-- The words of what a transition does. -/
def actionWords (e : Event) : List String :=
  match e.kind, e.channel with
  | .send, some c => [s!"c{c.index}", "!", e.label ++ ";"]
  | .receive, some c => [s!"c{c.index}", "?", e.label ++ ";"]
  | _, _ => ["skip;"]

theorem words_action (h : IsName e.label) : words (action e ++ ";") = actionWords e := by
  have hlabel := h.not_mem (show continuesIdentifier ' ' = false by decide)
  have hchannel : ∀ (c : Channel) (sign : String), ' ' ∉ sign.toList →
      words (String.intercalate " " [s!"c{c.index}", sign, e.label ++ ";"]) =
        [s!"c{c.index}", sign, e.label ++ ";"] := by
    intro c sign hsign
    apply words_intercalate (List.cons_ne_nil _ _)
    simp (disch := decide) [not_mem_digits, hsign, hlabel]
  have hskip : words ("skip" ++ ";") = ["skip;"] := by decide
  cases hc : e.channel with
  | none => cases hk : e.kind <;> simpa only [action, actionWords, hk, hc] using hskip
  | some c =>
    cases hk : e.kind with
    | send =>
      have hline : action e ++ ";" =
          String.intercalate " " [s!"c{c.index}", "!", e.label ++ ";"] := by
        apply String.toList_injective
        simp [action, hk, hc]
      rw [hline, hchannel c "!" (by decide), actionWords, hk, hc]
    | receive =>
      have hline : action e ++ ";" =
          String.intercalate " " [s!"c{c.index}", "?", e.label ++ ";"] := by
        apply String.toList_injective
        simp [action, hk, hc]
      rw [hline, hchannel c "?" (by decide), actionWords, hk, hc]
    | internal => simpa only [action, actionWords, hk, hc] using hskip

/-- The words of what a branch does, notes and prints. -/
def doing (b : Branch) : List String :=
  actionWords b.event ++
    ["recentEvent.type", "=", b.note ++ ";", "printf(\"" ++ tag b.event ++ "\\n\");"]

/-- The words of the assignment of a branch. -/
def changeWords (pid : Nat) : Option Bool → List String
  | some value => [terminal pid, "=", if value then "1;\x7d" else "0;\x7d"]
  | none => ["\x7d"]

theorem words_changeText (pid : Nat) (value : Option Bool) :
    words (changeText pid value ++ "\x7d") = changeWords pid value := by
  have hset : ∀ value, changeText pid (some value) ++ "\x7d" =
      String.intercalate " " [terminal pid, "=", if value then "1;\x7d" else "0;\x7d"] := by
    intro value
    have hone : Nat.toDigits 10 1 = ['1'] := rfl
    apply String.toList_injective
    cases value <;> simp [changeText, setTerminal, terminal, hone]
  cases value with
  | none => exact parts_of_not_mem (by decide : ' ' ∉ ("" ++ "\x7d").toList)
  | some value =>
    rw [hset]
    apply words_intercalate (List.cons_ne_nil _ _)
    cases value <;> simp (disch := decide) [terminal, not_mem_digits]

theorem not_mem_tag (h : IsName e.label) : ' ' ∉ (tag e).toList := by
  have hlabel := h.not_mem (show continuesIdentifier ' ' = false by decide)
  unfold tag Event.display
  split <;> simp (disch := decide) [not_mem_digits, hlabel]

theorem words_branchLine (h : IsName b.event.label) (hnote : IsName b.note) :
    words (branchLine pid b) = ["", "", "", "", "", "", "::", "atomic", "\x7b"] ++ doing b ++
      changeWords pid b.terminal ++ ["->", "goto", stateLabel pid b.target ++ ";"] := by
  have hfirst : "      :: atomic \x7b " = "      :: atomic \x7b" ++ " " := rfl
  have htype : "; recentEvent.type = " = ";" ++ (" " ++ ("recentEvent.type =" ++ " ")) := rfl
  have hprint : "; printf(\"" = ";" ++ (" " ++ "printf(\"") := rfl
  have hclose : "\\n\"); " = "\\n\");" ++ " " := rfl
  have hgoto : "\x7d -> goto p" = "\x7d" ++ (" " ++ ("-> goto" ++ (" " ++ "p"))) := rfl
  have hline : branchLine pid b = "      :: atomic \x7b" ++ (" " ++ ((action b.event ++ ";") ++
      (" " ++ ("recentEvent.type =" ++ (" " ++ ((b.note ++ ";") ++
      (" " ++ (("printf(\"" ++ (tag b.event ++ "\\n\");")) ++ (" " ++ ((changeText pid b.terminal ++
        "\x7d") ++ (" " ++ ("-> goto" ++ (" " ++ (stateLabel pid b.target ++ ";")))))))))))))) := by
    unfold branchLine stateLabel
    rw [hfirst, htype, hprint, hclose, hgoto]
    simp only [toString_string, String.append_assoc]
  have hwords : words "      :: atomic \x7b" =
      ["", "", "", "", "", "", "::", "atomic", "\x7b"] := by
    decide
  have hnoted : words (b.note ++ ";") = [b.note ++ ";"] := by
    apply parts_of_not_mem
    have hblank := hnote.not_mem (show continuesIdentifier ' ' = false by decide)
    simp [hblank]
  have hprinted : words ("printf(\"" ++ (tag b.event ++ "\\n\");")) =
      ["printf(\"" ++ tag b.event ++ "\\n\");"] := by
    rw [← String.append_assoc]
    apply parts_of_not_mem
    simp [not_mem_tag h]
  have htarget : words (stateLabel pid b.target ++ ";") = [stateLabel pid b.target ++ ";"] := by
    apply parts_of_not_mem
    simp (disch := decide) [stateLabel, not_mem_digits]
  have hrecent : words "recentEvent.type =" = ["recentEvent.type", "="] := by decide
  have harrow : words "-> goto" = ["->", "goto"] := by decide
  rw [hline, words_append, words_append, words_append, words_append, words_append, words_append,
    words_append, hwords, words_action h, hrecent, hnoted, hprinted, words_changeText, harrow,
    htarget]
  simp [doing]

/-! ### Jumps and assignments of the lines -/

/-- A word of what a branch does has a character in it that no other word of the line has. -/
theorem exists_mem_of_doing {w : String} (hw : w ∈ doing b) :
    ∃ c ∈ [';', '.', '=', '!', '?', 'c'], c ∈ w.toList := by
  have haction : ∀ w ∈ actionWords b.event,
      ∃ c ∈ [';', '.', '=', '!', '?', 'c'], c ∈ w.toList := by
    unfold actionWords
    split <;> simp
  rcases List.mem_append.mp hw with hw | hw
  · exact haction w hw
  · simp only [List.mem_cons, List.not_mem_nil, or_false] at hw
    rcases hw with rfl | rfl | rfl | rfl
    · exact ⟨'.', by simp, by decide⟩
    · exact ⟨'=', by simp, by decide⟩
    · exact ⟨';', by simp, by simp⟩
    · exact ⟨';', by simp, by simp⟩

theorem not_mem_doing (h : ∀ c ∈ [';', '.', '=', '!', '?', 'c'], c ∉ name.toList) :
    name ∉ doing b := by
  intro hmem
  obtain ⟨c, hc, hname⟩ := exists_mem_of_doing hmem
  exact h c hc hname

theorem goto_not_mem_doing : "goto" ∉ doing b := not_mem_doing (by simp)

theorem terminal_not_mem_doing : terminal pid ∉ doing b := by
  refine not_mem_doing ?_
  simp (disch := decide) [terminal, not_mem_digits]

theorem jumps_goto (name : String) : jumps ["goto", name ++ ";"] = [name] := by
  simp [jumps]

theorem terminal_not_mem (h : ∀ w ∈ ws, '[' ∉ w.toList) : terminal pid ∉ ws := by
  intro hmem
  exact h _ hmem (by simp [terminal])

theorem terminal_not_mem_goto : terminal pid ∉ ["->", "goto", stateLabel pid id ++ ";"] := by
  apply terminal_not_mem
  simp (disch := decide) [stateLabel, not_mem_digits]

theorem assigned_eq_none (h : name ∉ ws) : assigned name ws = none := by
  rw [← List.append_nil ws, assigned_append h]
  rfl

theorem goto_ne_terminal : "goto" ≠ terminal pid := by
  intro h
  have hmem : 'g' ∉ (terminal pid).toList := by
    simp (disch := decide) [terminal, not_mem_digits]
  rw [← h] at hmem
  exact hmem (by decide)

theorem jumps_branchLine (h : IsName b.event.label) (hnote : IsName b.note) :
    jumps (words (branchLine pid b)) = [stateLabel pid b.target] := by
  have hchange : "goto" ∉ changeWords pid b.terminal := by
    cases b.terminal with
    | none => exact (by decide : "goto" ∉ ["\x7d"])
    | some value =>
      simp only [changeWords, List.mem_cons, List.not_mem_nil, or_false, not_or]
      refine ⟨goto_ne_terminal, by decide, ?_⟩
      cases value <;> decide
  rw [words_branchLine h hnote, List.append_assoc, List.append_assoc, jumps_append (by decide),
    jumps_append goto_not_mem_doing, jumps_append hchange]
  exact jumps_goto _

theorem assigned_branchLine (h : IsName b.event.label) (hnote : IsName b.note) :
    assigned (terminal pid) (words (branchLine pid b)) = b.terminal := by
  have hstart : terminal pid ∉ ["", "", "", "", "", "", "::", "atomic", "\x7b"] :=
    terminal_not_mem (by decide)
  rw [words_branchLine h hnote, List.append_assoc, List.append_assoc, assigned_append hstart,
    assigned_append terminal_not_mem_doing]
  cases b.terminal with
  | none =>
    have hclose : terminal pid ∉ ["\x7d"] := terminal_not_mem (by decide)
    rw [changeWords, assigned_append hclose, assigned_eq_none terminal_not_mem_goto]
  | some value =>
    rw [changeWords, List.cons_append, assigned, if_pos rfl]
    cases value <;> rfl

theorem isAtomic_branchLine (h : IsName b.event.label) (hnote : IsName b.note) :
    isBranch (branchLine pid b) = true ∧ isAtomic (branchLine pid b) = true := by
  unfold isAtomic isBranch
  rw [words_branchLine h hnote]
  exact ⟨rfl, rfl⟩

theorem words_startLine (pid : Nat) (x : Nat × Bool) : words (startLine pid x) =
    ["", "", "", "", "", "", "::"] ++ (if x.2 then [terminal pid, "=", "1"] else ["skip"]) ++
      ["->", "goto", stateLabel pid x.1 ++ ";"] := by
  have hone : Nat.toDigits 10 1 = ['1'] := rfl
  have hline : startLine pid x = String.intercalate " " (["", "", "", "", "", "", "::"] ++
      (if x.2 then [terminal pid, "=", "1"] else ["skip"]) ++
      ["->", "goto", stateLabel pid x.1 ++ ";"]) := by
    apply String.toList_injective
    unfold startLine
    cases h : x.2 <;> simp [h, setTerminal, terminal, stateLabel, hone]
  rw [hline]
  apply words_intercalate (List.cons_ne_nil _ _)
  cases h : x.2 <;> simp (disch := decide) [terminal, stateLabel, not_mem_digits]

theorem jumps_startLine (pid : Nat) (x : Nat × Bool) :
    jumps (words (startLine pid x)) = [stateLabel pid x.1] := by
  have hfirst : "goto" ∉ if x.2 then [terminal pid, "=", "1"] else ["skip"] := by
    split
    · simp only [List.mem_cons, List.not_mem_nil, or_false, not_or]
      exact ⟨goto_ne_terminal, by decide, by decide⟩
    · decide
  rw [words_startLine, List.append_assoc, jumps_append (by decide), jumps_append hfirst]
  exact jumps_goto _

theorem assigned_startLine (pid : Nat) (x : Nat × Bool) :
    assigned (terminal pid) (words (startLine pid x)) = if x.2 then some true else none := by
  have hstart : terminal pid ∉ ["", "", "", "", "", "", "::"] := terminal_not_mem (by decide)
  rw [words_startLine, List.append_assoc, assigned_append hstart]
  split
  · rw [List.cons_append, assigned, if_pos rfl]
    rfl
  · have hskip : terminal pid ∉ ["skip"] := terminal_not_mem (by decide)
    rw [assigned_append hskip, assigned_eq_none terminal_not_mem_goto]

end ProtocolInference.Promela
