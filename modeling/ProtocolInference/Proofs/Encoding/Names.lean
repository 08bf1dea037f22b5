import ProtocolInference.Proofs.Encoding.Channels
import ProtocolInference.Proofs.Encoding.Codes
import ProtocolInference.Proofs.Encoding.Terminal

/-!
# Names that the text of a network declares

The names are read from the lines of the text. Those that are made up for a network differ from
each other: they begin differently, or with numbers or tokens of their own. The labels of its
messages stand beside them as they are, so it depends on the labels alone whether a name is
declared twice. Main statement: `names_nodup_iff`.
-/

namespace ProtocolInference.Promela

open Text

variable {n : Network} {invariants : List Invariant} {processes : Nat} {channels : List Channel}
  {p : Process} {c : Char} {s t l : String} {ls : List String}

/-! ### Reading names -/

/-- The part of a word ahead of a character. -/
def ahead (c : Char) (w : String) : String := String.ofList (w.toList.takeWhile (· ≠ c))

/-- The names that the words of a line declare. -/
def declaredBy : List String → List String
  | "mtype" :: "=" :: "\x7b" :: ws => ws.dropLast.map (ahead ',')
  | "#define" :: name :: _ => [name]
  | "typedef" :: name :: _ => [name]
  | "Event" :: name :: _ => [ahead ';' name]
  | "bit" :: name :: _ => [ahead '[' name]
  | "chan" :: name :: _ => [name]
  | "active" :: "proctype" :: name :: _ => [ahead '(' name]
  | _ => []

/-- The names that the lines of a text declare. -/
def declaredIn (s : String) : List String := (lines s).flatMap fun l => declaredBy (words l)

theorem ahead_append (h : c ∉ s.toList) : ahead c (s ++ (String.singleton c ++ t)) = s := by
  have hall : ∀ d ∈ s.toList, decide (d ≠ c) = true := by
    intro d hd
    apply decide_eq_true
    rintro rfl
    exact h hd
  rw [ahead, String.toList_append, List.takeWhile_append_of_pos hall]
  simp

theorem ahead_of_not_mem (h : c ∉ s.toList) : ahead c s = s := by
  rw [ahead, List.takeWhile_eq_self_iff.mpr, String.ofList_toList]
  intro d hd
  apply decide_eq_true
  rintro rfl
  exact h hd

/-- The names of a list are read back from it. -/
theorem map_ahead_words (hne : ls ≠ []) (h : ∀ l ∈ ls, IsName l) :
    (words (String.intercalate ", " ls)).map (ahead ',') = ls := by
  induction ls with
  | nil => exact absurd rfl hne
  | cons l ls ih =>
    obtain ⟨hl, hls⟩ := List.forall_mem_cons.mp h
    have hblank := hl.not_mem (show continuesIdentifier ' ' = false by decide)
    have hcomma := hl.not_mem (show continuesIdentifier ',' = false by decide)
    cases ls with
    | nil =>
      rw [String.intercalate_singleton, words_of_not_mem hblank, List.map_singleton,
        ahead_of_not_mem hcomma]
    | cons m ls =>
      have hsplit : ", " = String.singleton ',' ++ " " := rfl
      have hword : ' ' ∉ (l ++ (String.singleton ',' ++ "")).toList := by
        simp [hblank]
      rw [String.intercalate_cons_cons]
      have hline : l ++ ", " ++ String.intercalate ", " (m :: ls) =
          (l ++ (String.singleton ',' ++ "")) ++ (" " ++ String.intercalate ", " (m :: ls)) := by
        rw [hsplit]
        simp only [String.append_assoc, String.append_empty]
      rw [hline, words_cons hword, List.map_cons, ahead_append hcomma,
        ih (List.cons_ne_nil _ _) hls]

/-! ### Lines of a network -/

def mtypeLine (n : Network) : String :=
  let names := String.intercalate ", " (labels n)
  s!"mtype = \x7b {names} \x7d;"

def defineLine (name : String) (code : Nat) : String := s!"#define {name} {code}"

def terminalLine (n : Network) : String := s!"bit terminal[{n.processes}];"

def chanLine (bound : Nat) (c : Channel) : String :=
  s!"chan c{c.index} = [{bound}] of \x7b mtype \x7d;"

/-- The lines ahead of the processes. -/
def declarationLines (n : Network) (codes : Codes) (bound : Nat) : List String :=
  ["/* Generated by cfsm-infer */", ""] ++
    (if (labels n).isEmpty then [] else [mtypeLine n]) ++
    (constants codes).map (fun x => defineLine x.1 x.2) ++
    ["", "typedef Event \x7b byte type \x7d;", "Event recentEvent;", terminalLine n, ""] ++
    n.channels.map (chanLine bound) ++ [""]

/-- The lines ahead of the properties. -/
def networkLines (n : Network) (codes : Codes) (bound : Nat) : List String :=
  declarationLines n codes bound ++ n.automata.flatMap fun a => processLines (process a codes) ++ [""]

theorem unlines_declarationLines (n : Network) (codes : Codes) (bound : Nat) :
    unlines (declarationLines n codes bound) =
      "/* Generated by cfsm-infer */\n\n" ++ declarations n codes bound := by
  have hcomment : unlines ["/* Generated by cfsm-infer */", ""] =
      "/* Generated by cfsm-infer */\n\n" := by
    apply String.toList_injective
    simp [unlines]
  have hmtype : unlines (if (labels n).isEmpty then [] else [mtypeLine n]) =
      let names := String.intercalate ", " (labels n)
      if (labels n).isEmpty then "" else s!"mtype = \x7b {names} \x7d;\n" := by
    dsimp only
    split
    · rfl
    · apply String.toList_injective
      simp [unlines, mtypeLine]
  have hdefines : unlines ((constants codes).map fun x => defineLine x.1 x.2) =
      s!"#define {otherEvent} 0\n" ++
        String.join (codes.map fun x => s!"#define {codeName x.1} {x.2}\n") := by
    rw [constants, List.map_cons, unlines_cons, List.map_map, unlines, List.map_map]
    refine congrArg₂ (· ++ ·) ?_ (congrArg String.join (List.map_congr_left fun x _ => ?_)) <;>
      apply String.toList_injective <;> simp [defineLine]
  have htypes : unlines ["", "typedef Event \x7b byte type \x7d;", "Event recentEvent;",
      terminalLine n, ""] = "\ntypedef Event \x7b byte type \x7d;\nEvent recentEvent;\n" ++
        s!"bit terminal[{n.processes}];\n\n" := by
    apply String.toList_injective
    unfold terminalLine
    simp [unlines]
  have hchannels : unlines (n.channels.map (chanLine bound)) = String.join
      (n.channels.map fun c => s!"chan c{c.index} = [{bound}] of \x7b mtype \x7d;\n") := by
    rw [unlines, List.map_map]
    refine congrArg String.join (List.map_congr_left fun c _ => ?_)
    apply String.toList_injective
    simp [chanLine]
  have hend : unlines [""] = "\n" := rfl
  rw [declarationLines, unlines_append, unlines_append, unlines_append, unlines_append,
    unlines_append, hcomment, hmtype, hdefines, htypes, hchannels, hend]
  simp only [declarations, String.append_assoc]

theorem network_eq (n : Network) (invariants : List Invariant) (bound : Nat) :
    network n invariants bound = unlines (networkLines n (codesOf invariants) bound) ++
      String.join (invariants.zipIdx.map fun (i, number) => property number i) := by
  have hautomata : ∀ codes, n.automata.map (fun a => automaton a codes ++ "\n") =
      n.automata.map fun a => unlines (processLines (process a codes) ++ [""]) := by
    intro codes
    refine List.map_congr_left fun a _ => ?_
    rw [automaton, display_process, unlines_append]
    rfl
  unfold network networkLines
  dsimp only
  rw [unlines_append, unlines_flatMap, unlines_declarationLines, hautomata]

/-! ### Names of the lines -/

/-- The name of a channel. -/
def channelName (c : Channel) : String := s!"c{c.index}"

/-- The name of a process. -/
def processName (pid : Nat) : String := s!"p{pid}"

theorem declaredBy_mtypeLine (hne : labels n ≠ []) (h : ∀ l ∈ labels n, IsName l) :
    declaredBy (words (mtypeLine n)) = labels n := by
  have hline : mtypeLine n = "mtype" ++ (" " ++ ("=" ++ (" " ++ ("\x7b" ++ (" " ++
      (String.intercalate ", " (labels n) ++ (" " ++ "\x7d;"))))))) := by
    apply String.toList_injective
    simp [mtypeLine]
  have hclose : words "\x7d;" = ["\x7d;"] := by decide
  rw [hline, words_cons (by decide), words_cons (by decide), words_cons (by decide),
    words_append, hclose, declaredBy, List.dropLast_concat]
  exact map_ahead_words hne h

theorem declaredBy_defineLine (h : IsName s) (code : Nat) :
    declaredBy (words (defineLine s code)) = [s] := by
  have hline : defineLine s code = "#define" ++ (" " ++ (s ++ (" " ++ toString code))) := by
    apply String.toList_injective
    simp [defineLine]
  have hblank := h.not_mem (show continuesIdentifier ' ' = false by decide)
  rw [hline, words_cons (by decide), words_cons hblank]
  rfl

theorem declaredBy_terminalLine (n : Network) :
    declaredBy (words (terminalLine n)) = ["terminal"] := by
  have hline : terminalLine n = "bit" ++ (" " ++ ("terminal" ++ (String.singleton '[' ++
      s!"{n.processes}];"))) := by
    apply String.toList_injective
    unfold terminalLine
    simp
  have hword : ' ' ∉ ("terminal" ++ (String.singleton '[' ++ s!"{n.processes}];")).toList := by
    simp (disch := decide) [not_mem_digits]
  rw [hline, words_cons (by decide), words_of_not_mem hword]
  exact congrArg (fun w => [w]) (ahead_append (by decide))

theorem declaredBy_chanLine (bound : Nat) (c : Channel) :
    declaredBy (words (chanLine bound c)) = [channelName c] := by
  have hline : chanLine bound c = "chan" ++ (" " ++ (channelName c ++ (" " ++
      s!"= [{bound}] of \x7b mtype \x7d;"))) := by
    apply String.toList_injective
    simp [chanLine, channelName]
  have hblank : ' ' ∉ (channelName c).toList := by
    simp (disch := decide) [channelName, not_mem_digits]
  rw [hline, words_cons (by decide), words_cons hblank]
  rfl

theorem declaredBy_header (pid : Nat) : declaredBy (words (header pid)) = [processName pid] := by
  have hname : s!"p{pid}()" = processName pid ++ (String.singleton '(' ++ ")") := by
    apply String.toList_injective
    simp [processName]
  have hopen : '(' ∉ (processName pid).toList := by
    simp (disch := decide) [processName, not_mem_digits]
  rw [words_header, hname]
  exact congrArg (fun w => [w]) (ahead_append hopen)

/-- A line that begins with a blank declares no name. -/
theorem declaredBy_of_blank (h : l.toList.head? = some ' ') : declaredBy (words l) = [] := by
  obtain ⟨cs, hcs⟩ := List.head?_eq_some_iff.mp h
  have hline : l = "" ++ (" " ++ String.ofList cs) := by
    apply String.toList_injective
    simp [hcs]
  rw [hline, words_cons (by decide)]
  rfl

theorem declaredBy_singleton (w : String) : declaredBy [w] = [] := by
  unfold declaredBy
  split <;> simp_all

/-- A process declares its own name only. -/
theorem Process.Consistent.flatMap_processLines (hp : p.Consistent) :
    (processLines p).flatMap (fun l => declaredBy (words l)) = [processName p.pid] := by
  have hlabel : ∀ name ∈ p.labels, declaredBy (words (name ++ ":")) = [] := by
    intro name hname
    rw [words_label hname]
    exact declaredBy_singleton _
  have hbody : ∀ k ∈ p.blocks, ∀ l ∈ bodyLines p.pid k, declaredBy (words l) = [] := by
    intro k hk l hl
    unfold bodyLines at hl
    split at hl
    · rw [List.mem_singleton.mp hl]
      exact declaredBy_of_blank (by cases k.accept <;> simp [sinkLine])
    · simp only [List.cons_append, List.mem_cons, List.mem_append, List.mem_map, List.not_mem_nil,
        or_false] at hl
      rcases hl with rfl | ⟨b, hb, rfl⟩ | rfl
      · exact declaredBy_of_blank (by decide)
      · rw [words_branchLine (hp.names k hk b hb).1 (hp.names k hk b hb).2]
        rfl
      · exact declaredBy_of_blank (by decide)
  have hopening : (opening p).flatMap (fun l => declaredBy (words l)) = [processName p.pid] := by
    have hif : declaredBy (words "    if") = [] := declaredBy_of_blank (by decide)
    have hfi : declaredBy (words "    fi;") = [] := declaredBy_of_blank (by decide)
    have hstarts : (p.starts.map (startLine p.pid)).flatMap (fun l => declaredBy (words l)) = [] := by
      refine List.flatMap_eq_nil_iff.mpr fun l hl => ?_
      obtain ⟨x, -, rfl⟩ := List.mem_map.mp hl
      exact declaredBy_of_blank (by simp [startLine])
    have hheader := declaredBy_header p.pid
    unfold header at hheader
    simp only [opening, List.flatMap_append, List.flatMap_cons, List.flatMap_nil, hheader, hif, hfi,
      hstarts, List.append_nil]
  have hblocks : (p.blocks.flatMap (blockLines p.pid)).flatMap (fun l => declaredBy (words l)) =
      [] := by
    refine List.flatMap_eq_nil_iff.mpr fun l hl => ?_
    obtain ⟨k, hk, hl⟩ := List.mem_flatMap.mp hl
    rcases List.mem_append.mp hl with hl | hl
    · obtain ⟨name, hname, rfl⟩ := List.mem_map.mp hl
      exact hlabel name (List.mem_append_left _ (List.mem_flatMap.mpr ⟨k, hk, hname⟩))
    · exact hbody k hk l hl
  have hclosing : (closing p).flatMap (fun l => declaredBy (words l)) = [] := by
    have hend := hlabel _ (List.mem_append_right _ (List.mem_singleton_self (endLabel p.pid)))
    have hskip : declaredBy (words "    skip") = [] := declaredBy_of_blank (by decide)
    have hbrace : declaredBy (words "\x7d") = [] := by decide
    simp only [closing, List.flatMap_cons, List.flatMap_nil, hend, hskip, hbrace, List.append_nil]
  rw [processLines, List.flatMap_append, List.flatMap_append, hopening, hblocks, hclosing]
  rfl

/-! ### Names of a network -/

variable {codes : Codes}

/-- The names that are made up for a network and the events of its invariants. -/
def madeUp (n : Network) (codes : Codes) : List String :=
  (constants codes).map (·.1) ++ ["Event", "recentEvent", "terminal"] ++
    n.channels.map channelName ++ n.automata.map fun a => processName a.pid

theorem isName_of_mem_constants (h : ∀ x ∈ codes, IsName x.1.label) :
    ∀ x ∈ constants codes, IsName x.1 := by
  intro x hx
  rcases List.mem_cons.mp hx with rfl | hx
  · exact (by decide : IsName otherEvent)
  · obtain ⟨y, hy, rfl⟩ := List.mem_map.mp hx
    exact isName_codeName (h y hy)

theorem flatMap_declarationLines (hlabels : ∀ l ∈ labels n, IsName l)
    (hcodes : ∀ x ∈ codes, IsName x.1.label) (bound : Nat) :
    (declarationLines n codes bound).flatMap (fun l => declaredBy (words l)) =
      labels n ++ ((constants codes).map (·.1) ++ ["Event", "recentEvent", "terminal"] ++
        n.channels.map channelName) := by
  have hcomment : declaredBy (words "/* Generated by cfsm-infer */") = [] := by decide
  have hempty : declaredBy (words "") = [] := by decide
  have htype : declaredBy (words "typedef Event \x7b byte type \x7d;") = ["Event"] := by decide
  have hrecent : declaredBy (words "Event recentEvent;") = ["recentEvent"] := by decide
  have hmtype : (if (labels n).isEmpty then [] else [mtypeLine n]).flatMap
      (fun l => declaredBy (words l)) = labels n := by
    split
    · rename_i h
      rw [List.isEmpty_iff.mp h]
      rfl
    · rename_i h
      rw [List.flatMap_singleton, declaredBy_mtypeLine (mt List.isEmpty_iff.mpr h) hlabels]
  have hdefines : ((constants codes).map fun x => defineLine x.1 x.2).flatMap
      (fun l => declaredBy (words l)) = (constants codes).map (·.1) := by
    rw [List.flatMap_map, ← List.flatMap_pure_eq_map]
    exact List.flatMap_congr fun x hx =>
      declaredBy_defineLine (isName_of_mem_constants hcodes x hx) x.2
  have hchannels : (n.channels.map (chanLine bound)).flatMap (fun l => declaredBy (words l)) =
      n.channels.map channelName := by
    rw [List.flatMap_map, ← List.flatMap_pure_eq_map]
    exact List.flatMap_congr fun c _ => declaredBy_chanLine bound c
  simp only [declarationLines, List.flatMap_append, List.flatMap_cons, List.flatMap_nil, hcomment,
    hempty, hmtype, hdefines, htype, hrecent, declaredBy_terminalLine, hchannels, List.nil_append,
    List.append_nil, List.append_assoc, List.cons_append]

theorem newline_not_mem_declarationLines (hlabels : ∀ l ∈ labels n, IsName l)
    (hcodes : ∀ x ∈ codes, IsName x.1.label) (bound : Nat) :
    ∀ l ∈ declarationLines n codes bound, '\n' ∉ l.toList := by
  have hname : ∀ {s : String}, IsName s → '\n' ∉ s.toList := by
    intro s hs
    exact hs.not_mem (by decide)
  have hmtype : ∀ l ∈ if (labels n).isEmpty then [] else [mtypeLine n], '\n' ∉ l.toList := by
    have hlist : '\n' ∉ (String.intercalate ", " (labels n)).toList :=
      not_mem_intercalate (by decide) fun l hl => hname (hlabels l hl)
    split <;> simp [mtypeLine, -String.toList_intercalate, hlist]
  have hdefines : ∀ l ∈ (constants codes).map fun x => defineLine x.1 x.2, '\n' ∉ l.toList := by
    intro l hl
    obtain ⟨x, hx, rfl⟩ := List.mem_map.mp hl
    have hconstant := hname (isName_of_mem_constants hcodes x hx)
    simp (disch := decide) [defineLine, hconstant, not_mem_digits]
  have htypes : ∀ l ∈ ["", "typedef Event \x7b byte type \x7d;", "Event recentEvent;",
      terminalLine n, ""], '\n' ∉ l.toList := by
    simp only [List.forall_mem_cons]
    refine ⟨by decide, by decide, by decide, ?_, by decide, List.forall_mem_nil _⟩
    unfold terminalLine
    simp (disch := decide) [not_mem_digits]
  have hchannels : ∀ l ∈ n.channels.map (chanLine bound), '\n' ∉ l.toList := by
    intro l hl
    obtain ⟨c, -, rfl⟩ := List.mem_map.mp hl
    simp (disch := decide) [chanLine, not_mem_digits]
  simp only [declarationLines, List.forall_mem_append]
  exact ⟨⟨⟨⟨⟨by decide, hmtype⟩, hdefines⟩, htypes⟩, hchannels⟩, by decide⟩

/-- The text ahead of the properties declares the labels and the names made up. -/
theorem declaredIn_networkLines (bound : Nat) (hlabels : ∀ l ∈ labels n, IsName l)
    (hcodes : ∀ x ∈ codes, IsName x.1.label)
    (hp : ∀ a ∈ n.automata, (process a codes).Consistent) :
    declaredIn (unlines (networkLines n codes bound)) = labels n ++ madeUp n codes := by
  have hnewline : ∀ l ∈ networkLines n codes bound, '\n' ∉ l.toList := by
    refine List.forall_mem_append.mpr
      ⟨newline_not_mem_declarationLines hlabels hcodes bound, fun l hl => ?_⟩
    obtain ⟨a, ha, hl⟩ := List.mem_flatMap.mp hl
    rcases List.mem_append.mp hl with hl | hl
    · exact (hp a ha).newline_not_mem l hl
    · rw [List.mem_singleton.mp hl]
      decide
  have hprocesses : (n.automata.flatMap fun a => processLines (process a codes) ++ [""]).flatMap
      (fun l => declaredBy (words l)) = n.automata.map fun a => processName a.pid := by
    have hempty : [""].flatMap (fun l => declaredBy (words l)) = [] := by decide
    rw [List.flatMap_assoc, ← List.flatMap_pure_eq_map]
    refine List.flatMap_congr fun a ha => ?_
    rw [List.flatMap_append, (hp a ha).flatMap_processLines, hempty]
    rfl
  rw [declaredIn, lines_unlines hnewline, networkLines, List.flatMap_append, hprocesses,
    flatMap_declarationLines hlabels hcodes, madeUp]
  simp only [List.append_assoc]

theorem channelName_inj {c d : Channel} (h : channelName c = channelName d) :
    c.index = d.index :=
  eq_of_append_toString h

theorem processName_inj {i j : Nat} (h : processName i = processName j) : i = j :=
  eq_of_append_toString h

theorem take_of_mem_constants (hs : s ∈ (constants codes).map (·.1)) :
    s.toList.take 2 = ['O', 'T'] ∨ s.toList.take 2 = ['E', '_'] := by
  obtain ⟨x, hx, rfl⟩ := List.mem_map.mp hs
  rcases List.mem_cons.mp hx with rfl | hx
  · exact Or.inl (by decide)
  · obtain ⟨y, -, rfl⟩ := List.mem_map.mp hx
    exact Or.inr (by simp [codeName])

/-- The names of constants, of the type and of the variables. -/
theorem nodup_variables (hcodes : (codes.map fun x => codeName x.1).Nodup) :
    ((constants codes).map (·.1) ++ ["Event", "recentEvent", "terminal"]).Nodup := by
  have hconstants : ((constants codes).map (·.1)).Nodup := by
    rw [constants, List.map_cons, List.map_map, List.nodup_cons]
    refine ⟨fun hmem => ?_, hcodes⟩
    obtain ⟨x, -, heq⟩ := List.mem_map.mp hmem
    exact codeName_ne_otherEvent x.1 heq
  have hfixed : ∀ s ∈ ["Event", "recentEvent", "terminal"],
      s.toList.take 2 ≠ ['O', 'T'] ∧ s.toList.take 2 ≠ ['E', '_'] := by decide
  refine List.nodup_append.mpr ⟨hconstants, by decide, ?_⟩
  rintro s hs _ ht rfl
  rcases take_of_mem_constants hs with h | h
  · exact (hfixed s ht).1 h
  · exact (hfixed s ht).2 h

theorem head?_of_mem_variables
    (hs : s ∈ (constants codes).map (·.1) ++ ["Event", "recentEvent", "terminal"]) :
    s.toList.head? ≠ some 'c' ∧ s.toList.head? ≠ some 'p' := by
  rcases List.mem_append.mp hs with hs | hs
  · have hhead : s.toList.head? = (s.toList.take 2).head? := by
      rw [List.head?_take, if_neg (by decide)]
    rw [hhead]
    rcases take_of_mem_constants hs with h | h <;> rw [h] <;> decide
  · have hfixed : ∀ s ∈ ["Event", "recentEvent", "terminal"],
        s.toList.head? ≠ some 'c' ∧ s.toList.head? ≠ some 'p' := by decide
    exact hfixed s hs

/-- The names made up differ if channels, processes and events have numbers and names of their
own. -/
theorem nodup_madeUp (hchannels : (n.channels.map (·.index)).Nodup)
    (hprocesses : (n.automata.map (·.pid)).Nodup)
    (hcodes : (codes.map fun x => codeName x.1).Nodup) : (madeUp n codes).Nodup := by
  have hchannels' : (n.channels.map channelName).Nodup :=
    List.Pairwise.map _ (fun c d hne h => hne (channelName_inj h)) (List.pairwise_map.mp hchannels)
  have hprocesses' : (n.automata.map fun a => processName a.pid).Nodup :=
    List.Pairwise.map _ (fun a b hne h => hne (processName_inj h)) (List.pairwise_map.mp hprocesses)
  have hchannel : ∀ s ∈ n.channels.map channelName, s.toList.head? = some 'c' := by
    intro s hs
    obtain ⟨c, -, rfl⟩ := List.mem_map.mp hs
    simp [channelName]
  have hprocess : ∀ s ∈ n.automata.map fun a => processName a.pid, s.toList.head? = some 'p' := by
    intro s hs
    obtain ⟨a, -, rfl⟩ := List.mem_map.mp hs
    simp [processName]
  rw [madeUp, List.nodup_append, List.nodup_append]
  refine ⟨⟨nodup_variables hcodes, hchannels', ?_⟩, hprocesses', ?_⟩
  · rintro s hs _ ht rfl
    exact (head?_of_mem_variables hs).1 (hchannel s ht)
  · rintro s hs _ ht rfl
    rcases List.mem_append.mp hs with hs | hs
    · exact (head?_of_mem_variables hs).2 (hprocess s ht)
    · have h := hchannel s hs
      rw [hprocess s ht] at h
      exact absurd h (by decide)

/-! ### Networks of recordings -/

variable {r : Recording} {traces : List Trace} {grouping : Grouping} {strict : Bool}
  {removed : List Block} {g : Abstraction}

theorem nodup_map_codeName (h : ∀ e ∈ eventsOf invariants, e.validate processes channels = .ok ()) :
    ((codesOf invariants).map fun x => codeName x.1).Nodup := by
  have hcodes : (codesOf invariants).map (fun x => codeName x.1) =
      (eventsOf invariants).map codeName := by
    rw [← map_fst_codesOf, List.map_map]
    rfl
  rw [hcodes]
  exact List.Nodup.map_on (fun e he f hf heq => eq_of_codeName (h e he) (h f hf) heq)
    (nodup_eventsOf invariants)

theorem isName_of_mem_labels (h : ∀ a ∈ n.automata, ∀ s e t, a.Edge s e t → IsName e.label) :
    ∀ l ∈ labels n, IsName l := by
  intro l hl
  rw [labels, Ascending.mem_ofList] at hl
  obtain ⟨e, he, rfl⟩ := List.mem_map.mp hl
  obtain ⟨a, ha, s, t, hedge⟩ := Network.mem_alphabet.mp (List.mem_filter.mp he).1
  exact h a ha s e t hedge

/-- A network of a recording declares the labels of its messages and the names made up, and each
name once if and only if no label is one of those made up. -/
theorem names_nodup_iff (hr : r.build = .ok traces)
    (h : Abstraction.Reached traces grouping strict removed g) (hn : g.network = .ok n)
    (hinvariants : ∀ i ∈ invariants, ∀ e, i.involves e = true → r.Records e) (bound : Nat) :
    ∃ text, network n invariants bound =
        text ++ String.join (invariants.zipIdx.map fun (i, number) => property number i) ∧
      declaredIn text = labels n ++ madeUp n (codesOf invariants) ∧
      (madeUp n (codesOf invariants)).Nodup ∧
      ((declaredIn text).Nodup ↔ ∀ l ∈ labels n, l ∉ madeUp n (codesOf invariants)) := by
  obtain ⟨hchannels, hautomata⟩ := h.of_network hr hn
  obtain ⟨hsystem, -⟩ := h.coherent.network_eq_ok_iff.mp hn
  have hevents : ∀ e ∈ eventsOf invariants, e.Writable r.processes r.channels := by
    intro e he
    obtain ⟨i, hi, hinvolved⟩ := mem_eventsOf.mp he
    exact (hinvariants i hi e hinvolved).writable hr
  have hlabels : ∀ l ∈ labels n, IsName l :=
    isName_of_mem_labels fun a ha s e t he => ((hautomata a ha).2 s e t he).2.isName
  have hcodes : ∀ x ∈ codesOf invariants, IsName x.1.label := by
    intro x hx
    refine (hevents x.1 ?_).isName
    rw [← map_fst_codesOf]
    exact List.mem_map_of_mem hx
  have hconsistent : ∀ a ∈ n.automata, (process a (codesOf invariants)).Consistent :=
    fun a ha => consistent_process _ (hautomata a ha).1.wellFormed
      fun s e t he => ((hautomata a ha).2 s e t he).2.2
  have hindices : (n.channels.map (·.index)).Nodup := by
    rw [hchannels]
    exact Recording.nodup_index_of_build hr
  have hpids : (n.automata.map (·.pid)).Nodup := by
    rw [hsystem, List.map_map]
    exact List.nodup_range.map fun _ _ heq => heq
  have hmade := nodup_madeUp hindices hpids (nodup_map_codeName fun e he => (hevents e he).1)
  have hdeclared := declaredIn_networkLines bound hlabels hcodes hconsistent
  refine ⟨_, network_eq n invariants bound, hdeclared, hmade, ?_⟩
  rw [hdeclared, List.nodup_append]
  constructor
  · rintro ⟨-, -, hne⟩ l hl hmem
    exact hne l hl l hmem rfl
  · intro hne
    refine ⟨(Ascending.sorted_ofList _).nodup, hmade, ?_⟩
    rintro l hl _ hmem rfl
    exact hne l hl hmem

/-- A message with the name of its channel. -/
def namesake : Recording where
  processes := 2
  channels := [⟨0, 1, 0, false⟩]
  traces := [[[.send "c0" ⟨0, 1, 0, false⟩], [.receive "c0" ⟨0, 1, 0, false⟩]]]

def namesakeTrace : Trace where
  channels := [⟨0, 1, 0, false⟩]
  root := ⟨[⟨"0", true, false⟩, ⟨"0", true, false⟩], ⟨[[]]⟩⟩
  later := [⟨[⟨"1", false, true⟩, ⟨"0", true, false⟩], ⟨[["c0"]]⟩⟩,
    ⟨[⟨"1", false, true⟩, ⟨"1", false, true⟩], ⟨[[]]⟩⟩]
  edges := [⟨0, .send "c0" ⟨0, 1, 0, false⟩, 1⟩, ⟨1, .receive "c0" ⟨0, 1, 0, false⟩, 2⟩]

/-- The names of the errand differ, and the message and the channel of `namesake` do not. -/
theorem names_nodup_iff_namesake :
    (∃ g n text rest, Scm.errand.build = .ok [Scm.errandTrace] ∧
      Abstraction.ofTraces [Scm.errandTrace] .queueTops false = .ok g ∧ g.network = .ok n ∧
      network n [.eventually (.internal "work" 0)] 5 = text ++ rest ∧ (declaredIn text).Nodup) ∧
    ∃ g n text rest, namesake.build = .ok [namesakeTrace] ∧
      Abstraction.ofTraces [namesakeTrace] .queueTops false = .ok g ∧ g.network = .ok n ∧
      network n [] 5 = text ++ rest ∧ ¬(declaredIn text).Nodup := by
  constructor
  · have hbuild : Scm.errand.build = .ok [Scm.errandTrace] := by rfl
    have hstart : Abstraction.ofTraces [Scm.errandTrace] .queueTops false =
        .ok (Abstraction.assemble Scm.errandTrace [Scm.errandTrace] .queueTops false) := rfl
    obtain ⟨n, hn, hlabels⟩ := Checks.exists_eq_ok_of_any (p := fun n => decide (∀ l ∈ labels n,
      l ∉ madeUp n (codesOf [.eventually (.internal "work" 0)]))) (show
      (Abstraction.assemble Scm.errandTrace [Scm.errandTrace] .queueTops false).network.toOption.any
        _ = true by decide +kernel)
    have hrecords : ∀ i ∈ [Invariant.eventually (.internal "work" 0)], ∀ e,
        i.involves e = true → Scm.errand.Records e := by
      intro i hi e he
      rw [List.mem_singleton.mp hi] at he
      have hwork : Event.internal "work" 0 = e := by
        simpa [Invariant.involves, Invariant.eventually] using he
      rw [← hwork]
      exact ⟨_, List.mem_cons_self, _, List.mem_cons_self, List.mem_cons_self⟩
    obtain ⟨text, htext, -, -, hiff⟩ := names_nodup_iff hbuild (.start hstart) hn hrecords 5
    exact ⟨_, n, text, _, hbuild, hstart, hn, htext, hiff.mpr (of_decide_eq_true hlabels)⟩
  · have hbuild : namesake.build = .ok [namesakeTrace] := by rfl
    have hstart : Abstraction.ofTraces [namesakeTrace] .queueTops false =
        .ok (Abstraction.assemble namesakeTrace [namesakeTrace] .queueTops false) := rfl
    obtain ⟨n, hn, hlabel⟩ := Checks.exists_eq_ok_of_any (p := fun n => decide ("c0" ∈ labels n ∧
      "c0" ∈ madeUp n (codesOf []))) (show
      (Abstraction.assemble namesakeTrace [namesakeTrace] .queueTops false).network.toOption.any
        _ = true by decide +kernel)
    obtain ⟨hlabel, hmade⟩ := of_decide_eq_true hlabel
    obtain ⟨text, htext, -, -, hiff⟩ := names_nodup_iff hbuild (.start hstart) hn
      (List.forall_mem_nil _) 5
    exact ⟨_, n, text, _, hbuild, hstart, hn, htext, fun h => hiff.mp h "c0" hlabel hmade⟩

end ProtocolInference.Promela
