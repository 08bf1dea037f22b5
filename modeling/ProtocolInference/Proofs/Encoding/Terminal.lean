import ProtocolInference.Proofs.Encoding.Promela

/-!
# Acceptance while a process runs

Every block of a process has labels of its own, so a jump leads to the block of its target. A
branch sets the bit where the acceptance of the two states differs, and the start sets it where
it leads to an accepting state. So the bit tells of every state that a run comes to whether it
is accepting, by induction on the run. Main statement: `tracks_of_built`.
-/

namespace ProtocolInference.Promela

open Text

variable {p : Process} {k m : LabelledBlock} {b : Branch} {name here l : String} {value : Bool}
  {pid id : Nat} {ls rest : List String}

/-! ### Labels -/

theorem stateLabel_inj {i j : Nat} (h : stateLabel pid i = stateLabel pid j) : i = j :=
  eq_of_append_toString h

theorem restLabel_inj {i j : Nat} (h : restLabel pid i = restLabel pid j) : i = j :=
  eq_of_append_toString h

theorem stateLabel_ne_restLabel (i j : Nat) : stateLabel pid i ≠ restLabel pid j := by
  intro h
  have hchars := congrArg String.toList h
  simp [stateLabel, restLabel] at hchars

theorem stateLabel_ne_endLabel (i : Nat) : stateLabel pid i ≠ endLabel pid := by
  intro h
  have hchars := congrArg String.toList h
  simp [stateLabel, endLabel] at hchars

theorem restLabel_ne_endLabel (i : Nat) : restLabel pid i ≠ endLabel pid := by
  intro h
  have hchars := congrArg String.toList h
  simp [restLabel, endLabel] at hchars

/-- The blocks have numbers of their own, jumps lead to blocks, and the bit is set where a jump
changes acceptance. -/
structure Process.Consistent (p : Process) : Prop where
  nodup : (p.blocks.map (·.state)).Nodup
  names : ∀ k ∈ p.blocks, ∀ b ∈ k.branches, IsName b.event.label ∧ IsName b.note
  starts : ∀ x ∈ p.starts, ∃ k ∈ p.blocks, k.state = x.1 ∧ k.accept = x.2
  targets : ∀ k ∈ p.blocks, ∀ b ∈ k.branches, ∃ m ∈ p.blocks, m.state = b.target ∧
    b.terminal = if m.accept = k.accept then none else some m.accept

/-- The labels of a process in the order of their lines. -/
def Process.labels (p : Process) : List String :=
  p.blocks.flatMap (blockLabels p.pid) ++ [endLabel p.pid]

theorem labelOf_semicolon (s : String) : labelOf (s ++ ";") = none :=
  labelOf_append (c := ';') (by decide) (by decide)

theorem labelOf_startLine (pid : Nat) (x : Nat × Bool) : labelOf (startLine pid x) = none :=
  labelOf_semicolon _

theorem labelOf_bodyLines (hl : l ∈ bodyLines pid k) : labelOf l = none := by
  unfold bodyLines at hl
  split at hl
  · rw [List.mem_singleton.mp hl, sinkLine]
    split
    · exact labelOf_semicolon _
    · decide
  · simp only [List.cons_append, List.mem_cons, List.mem_append, List.mem_map, List.not_mem_nil,
      or_false] at hl
    rcases hl with rfl | ⟨b, -, rfl⟩ | rfl
    · decide
    · exact labelOf_semicolon _
    · decide

theorem filterMap_blockLines (pid : Nat) (k : LabelledBlock) :
    (blockLines pid k).filterMap labelOf = blockLabels pid k := by
  rw [blockLines, List.filterMap_append,
    List.filterMap_eq_nil_iff.mpr fun l => labelOf_bodyLines, List.append_nil, List.filterMap_map]
  have hlabel : (labelOf ∘ fun x => x ++ ":") = some := funext labelOf_append_colon
  rw [hlabel, List.filterMap_some]

theorem labelOf_opening (hl : l ∈ opening p) : labelOf l = none := by
  simp only [opening, List.cons_append, List.nil_append, List.mem_cons, List.mem_append,
    List.mem_map, List.not_mem_nil, or_false] at hl
  rcases hl with rfl | rfl | ⟨x, -, rfl⟩ | rfl
  · exact labelOf_append (c := '\x7b') (by decide) (by decide)
  · decide
  · exact labelOf_startLine p.pid x
  · decide

theorem filterMap_processLines (p : Process) :
    (processLines p).filterMap labelOf = p.labels := by
  have hblocks : (p.blocks.flatMap (blockLines p.pid)).filterMap labelOf =
      p.blocks.flatMap (blockLabels p.pid) := by
    rw [List.filterMap_flatMap]
    exact List.flatMap_congr fun k _ => filterMap_blockLines p.pid k
  have hlast : (closing p).filterMap labelOf = [endLabel p.pid] := by
    have hskip : ["    skip", "\x7d"].filterMap labelOf = [] := by decide
    rw [closing, List.filterMap_cons_some (labelOf_append_colon _), hskip]
  rw [processLines, List.filterMap_append, List.filterMap_append,
    List.filterMap_eq_nil_iff.mpr fun l => labelOf_opening, hblocks, hlast]
  rfl

theorem mem_blockLabels (hname : name ∈ blockLabels pid k) :
    name = stateLabel pid k.state ∨ name = restLabel pid k.state := by
  unfold blockLabels at hname
  split at hname <;> simp_all

theorem Process.Consistent.nodup_labels (hp : p.Consistent) : p.labels.Nodup := by
  have hblock : ∀ k, (blockLabels p.pid k).Nodup := by
    intro k
    unfold blockLabels
    split <;> simp [stateLabel_ne_restLabel]
  have hapart : ∀ k m, k.state ≠ m.state →
      List.Disjoint (blockLabels p.pid k) (blockLabels p.pid m) := by
    intro k m hne name hk hm
    rcases mem_blockLabels hk with rfl | rfl
    · rcases mem_blockLabels hm with h | h
      · exact hne (stateLabel_inj h)
      · exact stateLabel_ne_restLabel _ _ h
    · rcases mem_blockLabels hm with h | h
      · exact stateLabel_ne_restLabel _ _ h.symm
      · exact hne (restLabel_inj h)
  have hblocks : (p.blocks.flatMap (blockLabels p.pid)).Nodup :=
    List.nodup_flatMap.mpr ⟨fun k _ => hblock k,
      (List.pairwise_map.mp hp.nodup).imp fun {k m} hne => hapart k m hne⟩
  have hend : endLabel p.pid ∉ p.blocks.flatMap (blockLabels p.pid) := by
    intro hmem
    obtain ⟨k, -, hk⟩ := List.mem_flatMap.mp hmem
    rcases mem_blockLabels hk with h | h
    · exact stateLabel_ne_endLabel _ h.symm
    · exact restLabel_ne_endLabel _ h.symm
  rw [Process.labels]
  exact List.nodup_append.mpr ⟨hblocks, List.nodup_singleton _, by
    intro name hname other hother
    rintro rfl
    exact hend (List.mem_singleton.mp hother ▸ hname)⟩

/-! ### Where a label leads to -/

theorem statement_append {before : List String} (hbefore : ∀ l ∈ before, labelOf l ≠ some name)
    (hls : ∀ l ∈ ls, (labelOf l).isSome = true)
    (hrest : ∀ l, rest.head? = some l → labelOf l = none) :
    statement (before ++ (name ++ ":") :: (ls ++ rest)) name = rest := by
  have hlabel := labelOf_append_colon name
  unfold statement
  rw [List.dropWhile_append_of_pos (by simpa using hbefore),
    List.dropWhile_cons_of_neg (by simp [hlabel]),
    List.dropWhile_cons_of_pos (by simp [hlabel]), List.dropWhile_append_of_pos hls]
  cases rest with
  | nil => rfl
  | cons l rest => exact List.dropWhile_cons_of_neg (by simp [hrest l rfl])

theorem bodyLines_ne_nil (pid : Nat) (k : LabelledBlock) : bodyLines pid k ≠ [] := by
  unfold bodyLines
  split <;> simp

theorem mem_blockLabels_of_labelOf (hl : l ∈ blockLines pid k) (hname : labelOf l = some name) :
    name ∈ blockLabels pid k := by
  rw [← filterMap_blockLines]
  exact List.mem_filterMap.mpr ⟨l, hl, hname⟩

theorem Process.Consistent.statement_stateLabel (hp : p.Consistent) (hk : k ∈ p.blocks) :
    ∃ rest, statement (processLines p) (stateLabel p.pid k.state) = bodyLines p.pid k ++ rest := by
  obtain ⟨before, later, hblocks⟩ := List.append_of_mem hk
  have hnodup := hp.nodup
  rw [hblocks, List.map_append, List.map_cons] at hnodup
  have hapart : ∀ m ∈ before, m.state ≠ k.state := by
    intro m hm
    exact (List.nodup_append.mp hnodup).2.2 m.state (List.mem_map_of_mem hm) k.state
      (List.mem_cons_self ..)
  have hbefore : ∀ l ∈ opening p ++ before.flatMap (blockLines p.pid),
      labelOf l ≠ some (stateLabel p.pid k.state) := by
    intro l hl hname
    rcases List.mem_append.mp hl with hl | hl
    · rw [labelOf_opening hl] at hname
      cases hname
    · obtain ⟨m, hm, hl⟩ := List.mem_flatMap.mp hl
      rcases mem_blockLabels (mem_blockLabels_of_labelOf hl hname) with h | h
      · exact hapart m hm (stateLabel_inj h).symm
      · exact stateLabel_ne_restLabel _ _ h
  have hlabels : ∀ l ∈ (if k.accept then [restLabel p.pid k.state] else []).map (· ++ ":"),
      (labelOf l).isSome = true := by
    intro l hl
    obtain ⟨name, -, rfl⟩ := List.mem_map.mp hl
    rw [labelOf_append_colon]
    rfl
  have hbody : ∀ l, (bodyLines p.pid k ++ (later.flatMap (blockLines p.pid) ++ closing p)).head? =
      some l → labelOf l = none := by
    intro l hl
    rw [List.head?_append_of_ne_nil _ (bodyLines_ne_nil p.pid k)] at hl
    exact labelOf_bodyLines (List.mem_of_head? hl)
  refine ⟨later.flatMap (blockLines p.pid) ++ closing p, ?_⟩
  rw [← statement_append hbefore hlabels hbody, processLines, hblocks]
  simp [blockLines, blockLabels]

theorem statement_endLabel (p : Process) :
    statement (processLines p) (endLabel p.pid) = ["    skip", "\x7d"] := by
  have hbefore : ∀ l ∈ opening p ++ p.blocks.flatMap (blockLines p.pid),
      labelOf l ≠ some (endLabel p.pid) := by
    intro l hl hname
    rcases List.mem_append.mp hl with hl | hl
    · rw [labelOf_opening hl] at hname
      cases hname
    · obtain ⟨m, -, hl⟩ := List.mem_flatMap.mp hl
      rcases mem_blockLabels (mem_blockLabels_of_labelOf hl hname) with h | h
      · exact stateLabel_ne_endLabel _ h.symm
      · exact restLabel_ne_endLabel _ h.symm
  have hrest : ∀ l, ["    skip", "\x7d"].head? = some l → labelOf l = none := by
    intro l hl
    rw [← Option.some.inj hl]
    decide
  rw [← statement_append hbefore (List.forall_mem_nil _) hrest]
  rfl

/-! ### Branches -/

theorem isBranch_startLine (pid : Nat) (x : Nat × Bool) : isBranch (startLine pid x) = true := by
  rw [isBranch, words_startLine]
  rfl

theorem takeWhile_branches {branches : List String} (h : ∀ l ∈ branches, isBranch l = true)
    (hend : isBranch l = false) : (branches ++ l :: rest).takeWhile isBranch = branches := by
  rw [List.takeWhile_append_of_pos h, List.takeWhile_cons_of_neg (by simp [hend]), List.append_nil]

theorem options_opening (p : Process) :
    options ((processLines p).drop 1) = p.starts.map (startLine p.pid) := by
  have hlines : (processLines p).drop 1 = "    if" :: (p.starts.map (startLine p.pid) ++
      "    fi;" :: (p.blocks.flatMap (blockLines p.pid) ++ closing p)) := by
    simp [processLines, opening]
  rw [hlines, options, if_pos (Or.inr rfl)]
  refine takeWhile_branches (fun l hl => ?_) (by decide)
  obtain ⟨x, -, rfl⟩ := List.mem_map.mp hl
  exact isBranch_startLine p.pid x

theorem options_bodyLines (hnames : ∀ b ∈ k.branches, IsName b.event.label ∧ IsName b.note) :
    options (bodyLines pid k ++ rest) = if k.branches.isEmpty then [sinkLine pid k.accept]
      else k.branches.map (branchLine pid) := by
  unfold bodyLines
  split
  · have hsink : ¬(sinkLine pid k.accept = "    do" ∨ sinkLine pid k.accept = "    if") := by
      have hsemicolon : ';' ∈ (sinkLine pid k.accept).toList := by
        cases k.accept <;> simp [sinkLine]
      intro h
      rcases h with h | h <;> rw [h] at hsemicolon <;> exact absurd hsemicolon (by decide)
    rw [List.singleton_append, options, if_neg hsink]
  · rw [List.cons_append, List.cons_append, List.append_assoc, options, if_pos (Or.inl rfl)]
    refine takeWhile_branches (fun l hl => ?_) (by decide)
    obtain ⟨b, hb, rfl⟩ := List.mem_map.mp hl
    exact (isAtomic_branchLine (hnames b hb).1 (hnames b hb).2).1

theorem words_sinkLine (pid : Nat) :
    words (sinkLine pid true) = ["", "", "", "", "goto", endLabel pid ++ ";"] := by
  have hline : sinkLine pid true =
      String.intercalate " " ["", "", "", "", "goto", endLabel pid ++ ";"] := by
    apply String.toList_injective
    simp [sinkLine, endLabel]
  rw [hline]
  apply words_intercalate (List.cons_ne_nil _ _)
  simp (disch := decide) [endLabel, not_mem_digits]

theorem jumps_sinkLine (pid : Nat) (accept : Bool) :
    jumps (words (sinkLine pid accept)) = if accept then [endLabel pid] else [] := by
  cases accept with
  | true =>
    have hblanks : "goto" ∉ ["", "", "", ""] := by decide
    rw [words_sinkLine]
    exact (jumps_append hblanks).trans (jumps_goto _)
  | false => exact (by decide : jumps (words "    false;") = [])

theorem assigned_sinkLine (pid : Nat) :
    assigned (terminal pid) (words (sinkLine pid true)) = none := by
  rw [words_sinkLine]
  apply assigned_eq_none
  apply terminal_not_mem
  simp (disch := decide) [endLabel, not_mem_digits]

/-! ### Runs -/

/-- A run is at a block and the bit tells whether its state is accepting, or at the end. -/
def Process.At (p : Process) (here : String) (value : Bool) : Prop :=
  (∃ k ∈ p.blocks, here = stateLabel p.pid k.state ∧ value = k.accept) ∨
    here = endLabel p.pid ∧ value = true

theorem Process.Consistent.at_start (hp : p.Consistent) {target : String}
    (hl : l ∈ options ((processLines p).drop 1)) (htarget : target ∈ jumps (words l)) :
    p.At target ((assigned (terminal p.pid) (words l)).getD false) := by
  rw [options_opening] at hl
  obtain ⟨x, hx, rfl⟩ := List.mem_map.mp hl
  obtain ⟨k, hk, hstate, haccept⟩ := hp.starts x hx
  rw [jumps_startLine] at htarget
  rw [assigned_startLine]
  refine Or.inl ⟨k, hk, ?_, ?_⟩
  · rw [hstate]
    exact List.mem_singleton.mp htarget
  · rw [haccept]
    cases x.2 <;> rfl

/-- A branch leads to a block and brings the bit to the acceptance of its state. -/
theorem Process.Consistent.at_branch (hp : p.Consistent) (hk : k ∈ p.blocks) (hb : b ∈ k.branches)
    {target : String} (htarget : target ∈ jumps (words (branchLine p.pid b))) :
    p.At target ((assigned (terminal p.pid) (words (branchLine p.pid b))).getD k.accept) := by
  obtain ⟨hlabel, hnote⟩ := hp.names k hk b hb
  obtain ⟨m, hm, hstate, hterminal⟩ := hp.targets k hk b hb
  rw [jumps_branchLine hlabel hnote] at htarget
  rw [assigned_branchLine hlabel hnote, hterminal]
  refine Or.inl ⟨m, hm, ?_, ?_⟩
  · rw [hstate]
    exact List.mem_singleton.mp htarget
  · split
    · rename_i h
      exact h.symm
    · rfl

theorem Process.Consistent.at_step (hp : p.Consistent) (h : p.At here value) {target : String}
    (hl : l ∈ options (statement (processLines p) here)) (htarget : target ∈ jumps (words l)) :
    p.At target ((assigned (terminal p.pid) (words l)).getD value) := by
  rcases h with ⟨k, hk, rfl, rfl⟩ | ⟨rfl, rfl⟩
  · obtain ⟨rest, hrest⟩ := hp.statement_stateLabel hk
    rw [hrest, options_bodyLines (hp.names k hk)] at hl
    split at hl
    · rw [List.mem_singleton.mp hl] at htarget ⊢
      rw [jumps_sinkLine] at htarget
      cases haccept : k.accept with
      | true =>
        rw [haccept] at htarget
        rw [assigned_sinkLine]
        exact Or.inr ⟨List.mem_singleton.mp htarget, rfl⟩
      | false =>
        rw [haccept] at htarget
        cases htarget
    · obtain ⟨b, hb, rfl⟩ := List.mem_map.mp hl
      exact hp.at_branch hk hb htarget
  · have hskip : options ["    skip", "\x7d"] = ["    skip"] := by decide
    have hnone : jumps (words "    skip") = [] := by decide
    rw [statement_endLabel, hskip] at hl
    rw [List.mem_singleton.mp hl, hnone] at htarget
    cases htarget

theorem Process.Consistent.at_of_runs (hp : p.Consistent)
    (h : Runs (processLines p) (terminal p.pid) here value) : p.At here value := by
  induction h with
  | start hl htarget => exact hp.at_start hl htarget
  | step _ hl htarget ih => exact hp.at_step ih hl htarget

/-! ### The lines of the whole text -/

/-- The first line. -/
def header (pid : Nat) : String := s!"active proctype p{pid}() \x7b"

/-- What kinds of lines a process has. -/
inductive Line (p : Process) : String → Prop where
  | header : Line p (header p.pid)
  | fixed {l : String} :
      l ∈ ["    if", "    fi;", "    do", "    od;", "    skip", "\x7d"] → Line p l
  | start {x : Nat × Bool} : x ∈ p.starts → Line p (startLine p.pid x)
  | label {name : String} : name ∈ p.labels → Line p (name ++ ":")
  | branch {k : LabelledBlock} {b : Branch} : k ∈ p.blocks → b ∈ k.branches →
      Line p (branchLine p.pid b)
  | sink (accept : Bool) : Line p (sinkLine p.pid accept)

theorem line_of_opening (hl : l ∈ opening p) : Line p l := by
  simp only [opening, List.cons_append, List.nil_append, List.mem_cons, List.mem_append,
    List.mem_map, List.not_mem_nil, or_false] at hl
  rcases hl with rfl | rfl | ⟨x, hx, rfl⟩ | rfl
  · exact .header
  · exact .fixed (by simp)
  · exact .start hx
  · exact .fixed (by simp)

theorem line_of_bodyLines (hk : k ∈ p.blocks) (hl : l ∈ bodyLines p.pid k) : Line p l := by
  unfold bodyLines at hl
  split at hl
  · rw [List.mem_singleton.mp hl]
    exact .sink _
  · simp only [List.cons_append, List.mem_cons, List.mem_append, List.mem_map, List.not_mem_nil,
      or_false] at hl
    rcases hl with rfl | ⟨b, hb, rfl⟩ | rfl
    · exact .fixed (by simp)
    · exact .branch hk hb
    · exact .fixed (by simp)

theorem line_of_mem (hl : l ∈ processLines p) : Line p l := by
  rcases List.mem_append.mp hl with hl | hl
  · rcases List.mem_append.mp hl with hl | hl
    · exact line_of_opening hl
    · obtain ⟨k, hk, hl⟩ := List.mem_flatMap.mp hl
      rcases List.mem_append.mp hl with hl | hl
      · obtain ⟨name, hname, rfl⟩ := List.mem_map.mp hl
        exact .label (List.mem_append_left _ (List.mem_flatMap.mpr ⟨k, hk, hname⟩))
      · exact line_of_bodyLines hk hl
  · simp only [closing, List.mem_cons, List.not_mem_nil, or_false] at hl
    rcases hl with rfl | rfl | rfl
    · exact .label (List.mem_append_right _ (List.mem_singleton_self _))
    · exact .fixed (by simp)
    · exact .fixed (by simp)

theorem mem_labels_stateLabel (hk : k ∈ p.blocks) : stateLabel p.pid k.state ∈ p.labels :=
  List.mem_append_left _ (List.mem_flatMap.mpr ⟨k, hk, List.mem_cons_self ..⟩)

theorem cases_of_mem_labels (hname : name ∈ p.labels) :
    (∃ id, name = stateLabel p.pid id ∨ name = restLabel p.pid id) ∨ name = endLabel p.pid := by
  rcases List.mem_append.mp hname with hname | hname
  · obtain ⟨k, -, hk⟩ := List.mem_flatMap.mp hname
    exact Or.inl ⟨k.state, mem_blockLabels hk⟩
  · exact Or.inr (List.mem_singleton.mp hname)

theorem words_label (hname : name ∈ p.labels) : words (name ++ ":") = [name ++ ":"] := by
  apply parts_of_not_mem
  rcases cases_of_mem_labels hname with ⟨id, rfl | rfl⟩ | rfl <;>
    simp (disch := decide) [stateLabel, restLabel, endLabel, not_mem_digits]

theorem words_header (pid : Nat) :
    words (header pid) = ["active", "proctype", s!"p{pid}()", "\x7b"] := by
  have hline : header pid =
      String.intercalate " " ["active", "proctype", s!"p{pid}()", "\x7b"] := by
    unfold header
    apply String.toList_injective
    simp
  rw [hline]
  apply words_intercalate (List.cons_ne_nil _ _)
  simp (disch := decide) [not_mem_digits]

theorem jumps_header (pid : Nat) : jumps (words (header pid)) = [] := by
  have hname : ∀ w ∈ ["active", "proctype", s!"p{pid}()", "\x7b"], w ≠ "goto" := by
    intro w hw h
    have hchars := congrArg String.toList h
    simp only [List.mem_cons, List.not_mem_nil, or_false] at hw
    rcases hw with rfl | rfl | rfl | rfl <;> simp at hchars
  rw [words_header, ← List.append_nil ["active", _, _, _],
    jumps_append fun hmem => hname _ hmem rfl]
  rfl

/-- Every name that is jumped to is a label. -/
theorem Process.Consistent.mem_labels (hp : p.Consistent) (hl : l ∈ processLines p)
    (hname : name ∈ jumps (words l)) : name ∈ p.labels := by
  cases line_of_mem hl with
  | header =>
    rw [jumps_header] at hname
    cases hname
  | fixed hl =>
    have hnone : ∀ l ∈ ["    if", "    fi;", "    do", "    od;", "    skip", "\x7d"],
        jumps (words l) = [] := by decide
    rw [hnone l hl] at hname
    cases hname
  | start hx =>
    obtain ⟨k, hk, hstate, -⟩ := hp.starts _ hx
    rw [jumps_startLine, ← hstate] at hname
    rw [List.mem_singleton.mp hname]
    exact mem_labels_stateLabel hk
  | label hlabel =>
    rw [words_label hlabel] at hname
    simp [jumps] at hname
  | branch hk hb =>
    obtain ⟨m, hm, hstate, -⟩ := hp.targets _ hk _ hb
    rw [jumps_branchLine (hp.names _ hk _ hb).1 (hp.names _ hk _ hb).2, ← hstate] at hname
    rw [List.mem_singleton.mp hname]
    exact mem_labels_stateLabel hm
  | sink accept =>
    rw [jumps_sinkLine] at hname
    split at hname
    · rw [List.mem_singleton.mp hname]
      exact List.mem_append_right _ (List.mem_singleton_self _)
    · cases hname

theorem newline_not_mem_branchLine (h : IsName b.event.label) (hnote : IsName b.note) :
    '\n' ∉ (branchLine pid b).toList := by
  have hlabel := h.not_mem (show continuesIdentifier '\n' = false by decide)
  have hnoted := hnote.not_mem (show continuesIdentifier '\n' = false by decide)
  have haction : '\n' ∉ (action b.event).toList := by
    unfold action
    split <;> simp (disch := decide) [not_mem_digits, hlabel]
  have htag : '\n' ∉ (tag b.event).toList := by
    unfold tag Event.display
    split <;> simp (disch := decide) [not_mem_digits, hlabel]
  have hchange : '\n' ∉ (changeText pid b.terminal).toList := by
    cases b.terminal with
    | none => exact List.not_mem_nil
    | some value => cases value <;> simp (disch := decide) [changeText, setTerminal, not_mem_digits]
  unfold branchLine
  simp (disch := decide) [not_mem_digits, haction, htag, hchange, hnoted]

theorem Process.Consistent.newline_not_mem (hp : p.Consistent) :
    ∀ l ∈ processLines p, '\n' ∉ l.toList := by
  intro l hl
  cases line_of_mem hl with
  | header =>
    unfold header
    simp (disch := decide) [not_mem_digits]
  | fixed hl =>
    have hnone : ∀ l ∈ ["    if", "    fi;", "    do", "    od;", "    skip", "\x7d"],
        '\n' ∉ l.toList := by decide
    exact hnone l hl
  | @start x hx =>
    cases h : x.2 <;> simp (disch := decide) [startLine, h, setTerminal, not_mem_digits]
  | label hlabel =>
    rcases cases_of_mem_labels hlabel with ⟨id, rfl | rfl⟩ | rfl <;>
      simp (disch := decide) [stateLabel, restLabel, endLabel, not_mem_digits]
  | branch hk hb => exact newline_not_mem_branchLine (hp.names _ hk _ hb).1 (hp.names _ hk _ hb).2
  | sink accept => cases accept <;> simp (disch := decide) [sinkLine, not_mem_digits]

theorem isAtomic_startLine (pid : Nat) (x : Nat × Bool) : isAtomic (startLine pid x) = false := by
  have hterminal : terminal pid ≠ "atomic" := by
    intro h
    have hmem : terminal pid ∉ ["atomic"] := terminal_not_mem (by decide)
    exact hmem (List.mem_singleton.mpr h)
  have hbranch := isBranch_startLine pid x
  rw [isAtomic, hbranch, words_startLine, Bool.true_and]
  cases x.2 with
  | true => exact beq_false_of_ne fun h => hterminal (Option.some.inj h)
  | false => rfl

theorem isAtomic_of_opening (hl : l ∈ opening p) : isAtomic l = false := by
  simp only [opening, List.cons_append, List.nil_append, List.mem_cons, List.mem_append,
    List.mem_map, List.not_mem_nil, or_false] at hl
  rcases hl with rfl | rfl | ⟨x, -, rfl⟩ | rfl
  · show isAtomic (header p.pid) = false
    rw [isAtomic, isBranch, words_header]
    rfl
  · decide
  · exact isAtomic_startLine p.pid x
  · decide

theorem isAtomic_label (hname : name ∈ p.labels) : isAtomic (name ++ ":") = false := by
  rw [isAtomic, isBranch, words_label hname]
  rfl

theorem filter_isAtomic_bodyLines
    (hnames : ∀ b ∈ k.branches, IsName b.event.label ∧ IsName b.note) :
    (bodyLines pid k).filter isAtomic = k.branches.map (branchLine pid) := by
  unfold bodyLines
  split
  · rename_i hempty
    have hsink : isAtomic (sinkLine pid k.accept) = false := by
      cases k.accept with
      | true =>
        rw [isAtomic, isBranch, words_sinkLine]
        rfl
      | false => exact (by decide : isAtomic "    false;" = false)
    rw [List.isEmpty_iff.mp hempty, List.filter_cons_of_neg (by simp [hsink])]
    rfl
  · have hbranches : (k.branches.map (branchLine pid)).filter isAtomic =
        k.branches.map (branchLine pid) := by
      refine List.filter_eq_self.mpr fun l hl => ?_
      obtain ⟨b, hb, rfl⟩ := List.mem_map.mp hl
      exact (isAtomic_branchLine (hnames b hb).1 (hnames b hb).2).2
    have hend : ["    od;"].filter isAtomic = [] := by decide
    rw [List.cons_append, List.filter_cons_of_neg (by decide), List.filter_append, hbranches, hend,
      List.append_nil]

/-- The atomic branches are those of the blocks, in the order of the blocks. -/
theorem Process.Consistent.filter_isAtomic (hp : p.Consistent) :
    (processLines p).filter isAtomic =
      p.blocks.flatMap fun k => k.branches.map (branchLine p.pid) := by
  have hopening : (opening p).filter isAtomic = [] :=
    List.filter_eq_nil_iff.mpr fun l hl => by simp [isAtomic_of_opening hl]
  have hclosing : (closing p).filter isAtomic = [] := by
    have hend : isAtomic (endLabel p.pid ++ ":") = false :=
      isAtomic_label (List.mem_append_right _ (List.mem_singleton_self _))
    have hskip : ["    skip", "\x7d"].filter isAtomic = [] := by decide
    rw [closing, List.filter_cons_of_neg (by simp [hend]), hskip]
  rw [processLines, List.filter_append, List.filter_append, hopening, hclosing, List.nil_append,
    List.append_nil, List.filter_flatMap]
  refine List.flatMap_congr fun k hk => ?_
  have hlabels : ((blockLabels p.pid k).map (· ++ ":")).filter isAtomic = [] := by
    refine List.filter_eq_nil_iff.mpr fun l hl => ?_
    obtain ⟨name, hname, rfl⟩ := List.mem_map.mp hl
    rw [isAtomic_label (List.mem_append_left _ (List.mem_flatMap.mpr ⟨k, hk, hname⟩))]
    exact Bool.false_ne_true
  rw [blockLines, List.filter_append, hlabels, filter_isAtomic_bodyLines (hp.names k hk),
    List.nil_append]

/-! ### Automata -/

variable {a : Automaton} {codes : Codes}

theorem accepts_of_mem (h : a.WellFormed) {s : State} (hs : s ∈ a.states) :
    accepts a s.id = s.accept := by
  rw [accepts, h.state?_id hs]
  rfl

theorem isName_codeName {e : Event} (h : IsName e.label) : IsName (codeName e) := by
  have hcode : IsName "E_" := by decide
  exact hcode.append (Event.isName_token h)

theorem isName_noted (codes : Codes) {e : Event} (h : IsName e.label) : IsName (noted codes e) := by
  have hother : IsName otherEvent := by decide
  unfold noted
  split
  · exact isName_codeName h
  · exact hother

theorem consistent_process (codes : Codes) (h : a.WellFormed)
    (hlabels : ∀ s e t, a.Edge s e t → isIdentifier e.label = true) :
    (process a codes).Consistent := by
  constructor
  case nodup =>
    rw [process, List.map_map]
    exact h.nodup
  case names =>
    intro k hk b hb
    obtain ⟨s, hs, rfl⟩ := List.mem_map.mp hk
    obtain ⟨x, hx, rfl⟩ := List.mem_map.mp hb
    have hname := isName_of_isIdentifier (hlabels s.id x.1 x.2 ⟨s, hs, rfl, hx⟩)
    exact ⟨hname, isName_noted codes hname⟩
  case starts =>
    intro x hx
    obtain ⟨id, hid, rfl⟩ := List.mem_map.mp hx
    obtain ⟨s, hs, -, rfl⟩ := Automaton.mem_initialStates.mp hid
    exact ⟨_, List.mem_map_of_mem hs, rfl, (accepts_of_mem h hs).symm⟩
  case targets =>
    intro k hk b hb
    obtain ⟨s, hs, rfl⟩ := List.mem_map.mp hk
    obtain ⟨x, hx, rfl⟩ := List.mem_map.mp hb
    obtain ⟨u, hu, hid⟩ := h.targets s hs x.1 x.2 hx
    refine ⟨_, List.mem_map_of_mem hu, hid, ?_⟩
    rw [← accepts_of_mem h hu, hid]
    rfl

/-- The lines are those of a program that keeps the bit. -/
structure Tracks (a : Automaton) (codes : Codes) (ls : List String) : Prop where
  labels_eq : ls.filterMap labelOf = (a.states.flatMap fun s => stateLabel a.pid s.id ::
    if s.accept then [restLabel a.pid s.id] else []) ++ [endLabel a.pid]
  labels_nodup : (ls.filterMap labelOf).Nodup
  starts : options (ls.drop 1) = a.initialStates.map fun id => startLine a.pid (id, accepts a id)
  starts_jump : ∀ id ∈ a.initialStates,
    jumps (words (startLine a.pid (id, accepts a id))) = [stateLabel a.pid id]
  blocks : ∀ s ∈ a.states, options (statement ls (stateLabel a.pid s.id)) =
    if s.transitions.isEmpty then [sinkLine a.pid s.accept]
    else s.transitions.map fun x => branchLine a.pid (branchOf a codes s x)
  branches_jump : ∀ s ∈ a.states, ∀ x ∈ s.transitions,
    jumps (words (branchLine a.pid (branchOf a codes s x))) = [stateLabel a.pid x.2]
  branches_nodup : ∀ s ∈ a.states, s.transitions.Nodup
  atomic : ls.filter isAtomic = a.states.flatMap fun s =>
    s.transitions.map fun x => branchLine a.pid (branchOf a codes s x)
  defined : ∀ l ∈ ls, ∀ name ∈ jumps (words l), (ls.filterMap labelOf).count name = 1
  acceptance : ∀ here value, Runs ls (terminal a.pid) here value →
    (∃ s ∈ a.states, here = stateLabel a.pid s.id ∧ (value = true ↔ s.accept = true)) ∨
      here = endLabel a.pid ∧ value = true

theorem Tracks.runs_of_edge (h : Tracks a codes ls) {s t : Nat} {e : Event} (he : a.Edge s e t)
    (hrun : Runs ls (terminal a.pid) (stateLabel a.pid s) value) :
    ∃ value, Runs ls (terminal a.pid) (stateLabel a.pid t) value := by
  obtain ⟨x, hx, rfl, hm⟩ := he
  have hbranch : branchLine a.pid (branchOf a codes x (e, t)) ∈
      options (statement ls (stateLabel a.pid x.id)) := by
    rw [h.blocks x hx, if_neg (by simpa using List.ne_nil_of_mem hm)]
    exact List.mem_map_of_mem hm
  have htarget :
      stateLabel a.pid t ∈ jumps (words (branchLine a.pid (branchOf a codes x (e, t)))) := by
    rw [h.branches_jump x hx (e, t) hm]
    exact List.mem_singleton_self _
  exact ⟨_, hrun.step hbranch htarget⟩

/-- Where a path of the automaton leads to, a run of the process leads to. -/
theorem Tracks.runs_of_run (h : Tracks a codes ls) {s t : Nat} {w : List Event}
    (hs : s ∈ a.initialStates) (hw : a.Run s w t) :
    ∃ value, Runs ls (terminal a.pid) (stateLabel a.pid t) value := by
  have hstart : ∃ value, Runs ls (terminal a.pid) (stateLabel a.pid s) value := by
    have hbranch : startLine a.pid (s, accepts a s) ∈ options (ls.drop 1) := by
      rw [h.starts]
      exact List.mem_map_of_mem hs
    have htarget : stateLabel a.pid s ∈ jumps (words (startLine a.pid (s, accepts a s))) := by
      rw [h.starts_jump s hs]
      exact List.mem_singleton_self _
    exact ⟨_, .start hbranch htarget⟩
  clear hs
  induction hw with
  | nil s => exact hstart
  | cons he _ ih =>
    obtain ⟨value, hrun⟩ := hstart
    exact ih (h.runs_of_edge he hrun)

theorem tracks_of_built (codes : Codes) (h : a.Built)
    (hlabels : ∀ s e t, a.Edge s e t → isIdentifier e.label = true) :
    Tracks a codes (lines (automaton a codes)) := by
  have hwf := h.wellFormed
  have hp := consistent_process codes hwf hlabels
  have hlines : lines (automaton a codes) = processLines (process a codes) := by
    rw [automaton, display_process, lines_unlines hp.newline_not_mem]
  have hall : (processLines (process a codes)).filterMap labelOf = (process a codes).labels :=
    filterMap_processLines _
  rw [hlines]
  constructor
  case labels_eq =>
    rw [hall, Process.labels, process, List.flatMap_map]
    rfl
  case labels_nodup =>
    rw [hall]
    exact hp.nodup_labels
  case starts =>
    rw [options_opening, process, List.map_map]
    rfl
  case starts_jump => exact fun id _ => jumps_startLine a.pid _
  case blocks =>
    intro s hs
    have hk : (⟨s.id, s.accept, s.transitions.map (branchOf a codes s)⟩ : LabelledBlock) ∈
        (process a codes).blocks := List.mem_map_of_mem hs
    obtain ⟨rest, hrest⟩ := hp.statement_stateLabel hk
    rw [show stateLabel a.pid s.id = stateLabel (process a codes).pid s.id from rfl, hrest,
      options_bodyLines (hp.names _ hk), List.isEmpty_map, List.map_map]
    rfl
  case branches_jump =>
    intro s hs x hx
    have hname := isName_of_isIdentifier (hlabels s.id x.1 x.2 ⟨s, hs, rfl, hx⟩)
    exact jumps_branchLine hname (isName_noted codes hname)
  case branches_nodup => exact fun s hs => (h.ordered s hs).nodup
  case atomic =>
    rw [hp.filter_isAtomic, process, List.flatMap_map]
    exact List.flatMap_congr fun s _ => List.map_map
  case defined =>
    intro l hl name hname
    rw [hall]
    exact List.count_eq_one_of_mem hp.nodup_labels (hp.mem_labels hl hname)
  case acceptance =>
    intro here value hrun
    rcases hp.at_of_runs hrun with ⟨k, hk, hhere, hvalue⟩ | hend
    · obtain ⟨s, hs, rfl⟩ := List.mem_map.mp hk
      exact Or.inl ⟨s, hs, hhere, by rw [hvalue]⟩
    · exact Or.inr hend

/-- A run works and rests, and comes to a state that is accepting. -/
theorem tracks_of_built_fork : (lines (automaton Automaton.fork [])).filterMap labelOf =
      ["p0_1", "p0_2", "p0_3", "p0_4", "end_p0_4", "p0_5", "end_p0_5", "end_p0"] ∧
    Runs (lines (automaton Automaton.fork [])) (terminal 0) "p0_4" true := by
  have hlabels : ∀ s e t, Automaton.fork.Edge s e t → isIdentifier e.label = true := by
    intro s e t he
    have hall : ∀ x ∈ Automaton.fork.edges, isIdentifier x.2.1.label = true := by decide
    exact hall _ (Automaton.mem_edges.mpr he)
  have htracks := tracks_of_built [] Automaton.built_fork hlabels
  have hwork : Automaton.fork.Edge 1 (.internal "work" 0) 2 := Automaton.mem_edges.mp (by decide)
  have hrest : Automaton.fork.Edge 2 (.internal "rest" 0) 4 := Automaton.mem_edges.mp (by decide)
  obtain ⟨value, hrun⟩ := htracks.runs_of_run (by decide : 1 ∈ Automaton.fork.initialStates)
    (.cons hwork (.cons hrest (.nil 4)))
  have hvalue : value = true := by
    rcases htracks.acceptance _ _ hrun with ⟨s, hs, hid, hvalue⟩ | ⟨-, hvalue⟩
    · rw [hvalue]
      have hall : ∀ s ∈ Automaton.fork.states, s.id = 4 → s.accept = true := by decide
      exact hall s hs (stateLabel_inj hid).symm
    · exact hvalue
  rw [hvalue] at hrun
  refine ⟨?_, hrun⟩
  rw [htracks.labels_eq]
  rfl

end ProtocolInference.Promela
