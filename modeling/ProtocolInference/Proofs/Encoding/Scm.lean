import ProtocolInference.Encoding.Scm
import ProtocolInference.Proofs.Automaton.Editing
import ProtocolInference.Proofs.Event.Tokens

/-!
# What the text of an automaton tells

In SCM an automaton is written line by line: its process, its initial states, and for every
state a heading and a line for each transition. The words of such a line are the target, the
index of a channel, a sign and a message. For the events of a system these tell the event,
since an internal step is written on an index that no channel has, as its token. So only
acceptance is lost. Main statement: `automaton_injective`.
-/

namespace ProtocolInference.Scm

open Text

variable {k n : Nat} {e f : Event} {x y : Event × Nat} {s t : State} {a b : Automaton}
  {processes : Nat} {channels : List Channel}

/-! ### What a transition does -/

/-- The index of the channel that a transition uses. -/
def index (internalIndex : Nat) (e : Event) : Nat :=
  match e.kind, e.channel with
  | .send, some c => c.index
  | .receive, some c => c.index
  | _, _ => internalIndex

/-- Whether a transition is written as a send or as a receive. -/
def sign (e : Event) : String :=
  match e.kind, e.channel with
  | .receive, some _ => "?"
  | _, _ => "!"

/-- What a transition sends or receives. -/
def message (e : Event) : String :=
  match e.kind, e.channel with
  | .send, some _ => e.label
  | .receive, some _ => e.label
  | _, _ => e.token

theorem action_eq (k : Nat) (e : Event) :
    action k e = s!"{index k e} {sign e} {message e}" := by
  obtain ⟨pid, kind, label, channel⟩ := e
  apply String.toList_injective
  cases kind <;> cases channel <;> simp [action, index, sign, message]

theorem isName_message (h : IsName e.label) : IsName (message e) := by
  unfold message
  split
  · exact h
  · exact h
  · exact Event.isName_token h

theorem not_mem_sign {c : Char} (h : c ≠ '!' ∧ c ≠ '?') : c ∉ (sign e).toList := by
  unfold sign
  split <;> simp [h]

/-! ### Lines -/

/-- The line of a transition. -/
def transitionLine (k : Nat) (x : Event × Nat) : String :=
  s!"to {x.2} : when true , {action k x.1} ;"

/-- The heading of the section of a state. -/
def heading (s : State) : String := s!"state {s.id} :"

/-- The line that names the process. -/
def nameLine (a : Automaton) : String := s!"automaton p{a.pid} :"

/-- The initial states in one line. -/
def initialLine (a : Automaton) : String :=
  "initial : " ++ String.intercalate " " (a.initialStates.map fun id => toString id)

/-- The section of a state, with the empty line after it. -/
def stateLines (k : Nat) (s : State) : List String :=
  heading s :: s.transitions.map (transitionLine k) ++ [""]

def automatonLines (k : Nat) (a : Automaton) : List String :=
  [nameLine a, "", initialLine a, ""] ++ a.states.flatMap (stateLines k)

theorem automaton_eq (k : Nat) (a : Automaton) :
    automaton k a = unlines (automatonLines k a) := by
  have htransition : ∀ x, transition k x = transitionLine k x ++ "\n" := by
    intro x
    apply String.toList_injective
    simp [transition, transitionLine]
  have hstate : ∀ s, state k s ++ "\n" = unlines (stateLines k s) := by
    intro s
    have hlines : s.transitions.map (transition k) =
        (s.transitions.map (transitionLine k)).map (· ++ "\n") := by
      rw [List.map_map]
      exact List.map_congr_left fun x _ => htransition x
    apply String.toList_injective
    simp [state, stateLines, heading, unlines, hlines]
  have hstates : a.states.map (fun s => state k s ++ "\n") =
      a.states.map fun s => unlines (stateLines k s) :=
    List.map_congr_left fun s _ => hstate s
  unfold automaton
  rw [automatonLines, unlines_append, unlines_flatMap, hstates]
  apply String.toList_injective
  simp [unlines, nameLine, initialLine]

theorem words_transitionLine (h : IsName x.1.label) : words (transitionLine k x) =
    ["to", toString x.2, ":", "when", "true", ",", toString (index k x.1), sign x.1,
      message x.1, ";"] := by
  have hline : transitionLine k x = String.intercalate " " ["to", toString x.2, ":", "when",
      "true", ",", toString (index k x.1), sign x.1, message x.1, ";"] := by
    apply String.toList_injective
    simp [transitionLine, action_eq]
  have hmessage := (isName_message h).not_mem (show continuesIdentifier ' ' = false by decide)
  have hsign : ' ' ∉ (sign x.1).toList := not_mem_sign (by decide)
  rw [hline]
  apply words_intercalate (List.cons_ne_nil _ _)
  simp (disch := decide) [not_mem_digits, hmessage, hsign]

theorem words_heading (s : State) : words (heading s) = ["state", toString s.id, ":"] := by
  have hline : heading s = String.intercalate " " ["state", toString s.id, ":"] := by
    apply String.toList_injective
    simp [heading]
  rw [hline]
  apply words_intercalate (List.cons_ne_nil _ _)
  simp (disch := decide) [not_mem_digits]

/-- The labels of the events of the transitions are names. -/
def Named (states : List State) : Prop := ∀ s ∈ states, ∀ x ∈ s.transitions, IsName x.1.label

theorem newline_not_mem (ha : Named a.states) :
    ∀ l ∈ automatonLines k a, '\n' ∉ l.toList := by
  have hinitial : '\n' ∉ (initialLine a).toList := by
    have hids : '\n' ∉
        (String.intercalate " " (a.initialStates.map fun id => toString id)).toList :=
      not_mem_intercalate (by decide) fun w hw => by
        obtain ⟨id, -, rfl⟩ := List.mem_map.mp hw
        exact not_mem_toString (by decide)
    rw [initialLine, String.toList_append, List.mem_append, not_or]
    exact ⟨by decide, hids⟩
  have hstate : ∀ l ∈ a.states.flatMap (stateLines k), '\n' ∉ l.toList := by
    intro l hl
    obtain ⟨s, hs, hl⟩ := List.mem_flatMap.mp hl
    simp only [stateLines, List.cons_append, List.mem_cons, List.mem_append, List.mem_map,
      List.not_mem_nil, or_false] at hl
    rcases hl with rfl | ⟨x, hx, rfl⟩ | rfl
    · simp (disch := decide) [heading, not_mem_digits]
    · have hmessage := (isName_message (ha s hs x hx)).not_mem
        (show continuesIdentifier '\n' = false by decide)
      have hsign : '\n' ∉ (sign x.1).toList := not_mem_sign (by decide)
      simp (disch := decide) [transitionLine, action_eq, not_mem_digits, hmessage, hsign]
    · decide
  have hhead : ∀ l ∈ [nameLine a, "", initialLine a, ""], '\n' ∉ l.toList := by
    simp (disch := decide) [nameLine, not_mem_digits, hinitial]
  exact List.forall_mem_append.mpr ⟨hhead, hstate⟩

theorem lines_automaton (ha : Named a.states) :
    lines (automaton k a) = automatonLines k a := by
  rw [automaton_eq, lines_unlines (newline_not_mem ha)]

/-! ### Reading the lines -/

theorem of_internal (hk : e.kind = .internal) : index k e = k ∧ message e = e.token := by
  simp [index, message, hk]

theorem of_channel {c : Channel} (hc : e.channel = some c) (hk : e.kind ≠ .internal) :
    index k e = c.index ∧ message e = e.label ∧ (sign e = "?" ↔ e.kind = .receive) := by
  cases hkind : e.kind with
  | send => simp [index, message, sign, hc, hkind]
  | receive => simp [index, message, sign, hc, hkind]
  | internal => exact absurd hkind hk

/-- An event of the system uses an index that a channel has, unless it is internal. -/
theorem internal_or_index_lt (he : e.validate processes channels = .ok ()) :
    e.kind = .internal ∨ e.kind ≠ .internal ∧ ∃ c, e.channel = some c ∧
      channels[c.index]? = some c ∧ c.index < channels.length := by
  rcases Event.channel_of_validate he with ⟨hk, -⟩ | ⟨c, hc, hdeclared, hown⟩
  · exact Or.inl hk
  · refine Or.inr ⟨fun hk => ?_, c, hc, hdeclared, (List.getElem?_eq_some_iff.mp hdeclared).1⟩
    rw [hk] at hown
    rcases hown with ⟨hown, -⟩ | ⟨hown, -⟩ <;> cases hown

/-- Index, sign and message tell the event if the index of internal steps is free. -/
theorem eq_of_parts (hk : channels.length ≤ k) (he : e.validate processes channels = .ok ())
    (hf : f.validate processes channels = .ok ()) (hindex : index k e = index k f)
    (hsign : sign e = sign f) (hmessage : message e = message f) : e = f := by
  rcases internal_or_index_lt he with hkind | ⟨hkind, c, hc, -, hlt⟩
  · rcases internal_or_index_lt hf with hkind' | ⟨hkind', d, hd, -, hlt'⟩
    · rw [(of_internal (k := 0) hkind).2, (of_internal (k := 0) hkind').2] at hmessage
      exact Event.eq_of_token he hf hmessage
    · rw [(of_internal hkind).1, (of_channel hd hkind').1] at hindex
      omega
  · rcases internal_or_index_lt hf with hkind' | ⟨hkind', d, hd, -, -⟩
    · rw [(of_channel hc hkind).1, (of_internal hkind').1] at hindex
      omega
    · obtain ⟨hi, hm, hs⟩ := of_channel (k := k) hc hkind
      obtain ⟨hi', hm', hs'⟩ := of_channel (k := k) hd hkind'
      rw [hi, hi'] at hindex
      rw [hm, hm'] at hmessage
      rw [hsign, hs'] at hs
      have hsame : e.kind = f.kind := by
        cases he : e.kind <;> cases hf : f.kind <;> simp_all
      exact Event.eq_of_channel he hf hc hd hindex hsame hmessage

/-- The line of a transition tells its event and its target. -/
theorem eq_of_transitionLine (hx : x.1.Writable processes channels)
    (hy : y.1.Writable processes channels)
    (h : transitionLine channels.length x = transitionLine channels.length y) : x = y := by
  have hwords := congrArg words h
  rw [words_transitionLine hx.isName, words_transitionLine hy.isName] at hwords
  simp only [List.cons.injEq, true_and, and_true] at hwords
  obtain ⟨htarget, hindex, hsign, hmessage⟩ := hwords
  exact Prod.ext (eq_of_parts le_rfl hx.1 hy.1 (Nat.repr_inj.mp hindex) hsign hmessage)
    (Nat.repr_inj.mp htarget)

/-- The transitions are on writable events. -/
def Encodable (processes : Nat) (channels : List Channel) (states : List State) : Prop :=
  ∀ s ∈ states, ∀ x ∈ s.transitions, x.1.Writable processes channels

theorem Encodable.named {states : List State} (h : Encodable processes channels states) :
    Named states :=
  fun s hs x hx => (h s hs x hx).isName

theorem eq_of_transitionLines {xs ys : Transitions}
    (hx : ∀ x ∈ xs, x.1.Writable processes channels)
    (hy : ∀ y ∈ ys, y.1.Writable processes channels)
    (h : xs.map (transitionLine channels.length) = ys.map (transitionLine channels.length)) :
    xs = ys := by
  induction xs generalizing ys with
  | nil => exact (List.map_eq_nil_iff.mp h.symm).symm
  | cons x xs ih =>
    obtain ⟨y, ys, rfl, hline, hrest⟩ := List.map_eq_cons_iff.mp h.symm
    obtain ⟨hx, hxs⟩ := List.forall_mem_cons.mp hx
    obtain ⟨hy, hys⟩ := List.forall_mem_cons.mp hy
    rw [ih hxs hys hrest.symm, eq_of_transitionLine hx hy hline.symm]

theorem transitionLine_ne_empty (h : IsName x.1.label) : transitionLine k x ≠ "" := by
  intro hempty
  have hwords := congrArg words hempty
  rw [words_transitionLine h] at hwords
  exact absurd hwords (by simp [words, parts])

theorem eq_of_heading (h : heading s = heading t) : s.id = t.id := by
  have hwords := congrArg words h
  rw [words_heading, words_heading] at hwords
  simp only [List.cons.injEq, true_and, and_true] at hwords
  exact Nat.repr_inj.mp hwords

/-- The sections tell the states and their transitions. -/
theorem eq_of_stateLines {ss ts : List State} (hs : Encodable processes channels ss)
    (ht : Encodable processes channels ts)
    (h : ss.flatMap (stateLines channels.length) = ts.flatMap (stateLines channels.length)) :
    ss.map (fun s => (s.id, s.transitions)) = ts.map (fun s => (s.id, s.transitions)) := by
  induction ss generalizing ts with
  | nil =>
    cases ts with
    | nil => rfl
    | cons t ts => cases h
  | cons s ss ih =>
    cases ts with
    | nil => cases h
    | cons t ts =>
      obtain ⟨hs, hss⟩ := List.forall_mem_cons.mp hs
      obtain ⟨ht, hts⟩ := List.forall_mem_cons.mp ht
      -- the section of a state ends at its first empty line
      have hsection : ∀ {u : State}, (∀ x ∈ u.transitions, x.1.Writable processes channels) →
          "" ∉ u.transitions.map (transitionLine channels.length) := by
        intro u hu hmem
        obtain ⟨x, hx, hempty⟩ := List.mem_map.mp hmem
        exact transitionLine_ne_empty ((hu x hx).isName) hempty
      simp only [List.flatMap_cons, stateLines, List.cons_append, List.append_assoc,
        List.nil_append, List.cons.injEq] at h
      obtain ⟨hheading, hrest⟩ := h
      obtain ⟨hlines, hrest⟩ := eq_of_append_cons (hsection hs) (hsection ht) hrest
      have htransitions := eq_of_transitionLines hs ht hlines
      rw [List.map_cons, List.map_cons, eq_of_heading hheading, htransitions, ih hss hts hrest]

/-- The text tells the process, the initial states, and the states with their transitions. -/
theorem eq_of_automaton (ha : Encodable processes channels a.states)
    (hb : Encodable processes channels b.states)
    (h : automaton channels.length a = automaton channels.length b) :
    a.pid = b.pid ∧ a.initialStates = b.initialStates ∧
      a.states.map (fun s => (s.id, s.transitions)) =
        b.states.map fun s => (s.id, s.transitions) := by
  have hlines := congrArg lines h
  rw [lines_automaton ha.named, lines_automaton hb.named] at hlines
  simp only [automatonLines, List.cons_append, List.nil_append, List.cons.injEq, true_and]
    at hlines
  obtain ⟨hname, hinitial, hstates⟩ := hlines
  have hpid : a.pid = b.pid := by
    apply Nat.repr_inj.mp
    apply String.toList_injective
    have hchars := congrArg String.toList hname
    simpa [nameLine] using hchars
  have hids : a.initialStates = b.initialStates := by
    apply eq_of_intercalate
    apply String.toList_injective
    have hchars := congrArg String.toList hinitial
    simpa [initialLine] using hchars
  exact ⟨hpid, hids, eq_of_stateLines ha hb hstates⟩

/-! ### Headings and transitions -/

/-- Whether the first word of the line is `w`. -/
def opens (w l : String) : Bool := (words l).head? == some w

theorem opens_append {v w t : String} (h : ' ' ∉ v.toList) :
    opens w (v ++ (String.singleton ' ' ++ t)) = (v == w) := by
  rw [opens, words, parts_append h]
  exact Option.some_beq_some

/-- The lines ahead of the sections open with other words than the sections do. -/
theorem filter_opens {w : String} (hw : "automaton" ≠ w ∧ "" ≠ w ∧ "initial" ≠ w) :
    (automatonLines k a).filter (opens w) =
      a.states.flatMap fun s => (stateLines k s).filter (opens w) := by
  have hname : opens w (nameLine a) = false := by
    have hline : nameLine a = "automaton" ++ (String.singleton ' ' ++ s!"p{a.pid} :") := by
      apply String.toList_injective
      simp [nameLine]
    rw [hline, opens_append (by decide)]
    exact beq_false_of_ne hw.1
  have hinitial : opens w (initialLine a) = false := by
    have hline : initialLine a = "initial" ++ (String.singleton ' ' ++
        (": " ++ String.intercalate " " (a.initialStates.map fun id => toString id))) := by
      apply String.toList_injective
      simp [initialLine]
    rw [hline, opens_append (by decide)]
    exact beq_false_of_ne hw.2.2
  have hempty : opens w "" = false := by
    have hwords : words "" = [""] := parts_of_not_mem (by decide)
    rw [opens, hwords]
    exact beq_false_of_ne fun h => hw.2.1 (Option.some.inj h)
  rw [automatonLines, List.filter_append, List.filter_flatMap]
  simp [hname, hinitial, hempty]

theorem opens_heading (w : String) (s : State) : opens w (heading s) = ("state" == w) := by
  simp [opens, words_heading]

theorem opens_transitionLine (w : String) (h : IsName x.1.label) :
    opens w (transitionLine k x) = ("to" == w) := by
  simp [opens, words_transitionLine h]

/-- There is one heading for each state. -/
theorem filter_state (ha : Named a.states) :
    (automatonLines k a).filter (opens "state") = a.states.map heading := by
  rw [filter_opens (by decide), ← List.flatMap_pure_eq_map]
  refine List.flatMap_congr fun s hs => ?_
  have htransitions : (s.transitions.map (transitionLine k)).filter (opens "state") = [] := by
    refine List.filter_eq_nil_iff.mpr fun l hl => ?_
    obtain ⟨x, hx, rfl⟩ := List.mem_map.mp hl
    rw [opens_transitionLine _ (ha s hs x hx)]
    decide
  have hempty : opens "state" "" = false := by decide
  simp [stateLines, opens_heading, htransitions, hempty]

/-- There is one line for each transition. -/
theorem filter_to (ha : Named a.states) : (automatonLines k a).filter (opens "to") =
    a.edges.map fun x => transitionLine k x.2 := by
  rw [filter_opens (by decide), Automaton.edges, List.map_flatMap]
  refine List.flatMap_congr fun s hs => ?_
  have htransitions : (s.transitions.map (transitionLine k)).filter (opens "to") =
      s.transitions.map (transitionLine k) := by
    refine List.filter_eq_self.mpr fun l hl => ?_
    obtain ⟨x, hx, rfl⟩ := List.mem_map.mp hl
    rw [opens_transitionLine _ (ha s hs x hx)]
    decide
  have hempty : opens "to" "" = false := by decide
  simp [stateLines, opens_heading, htransitions, hempty]

/-- Of automata on writable events the text loses no more than acceptance, and it has one
heading for each state, in ascending order, and one line for each transition. -/
theorem automaton_injective (ha : Encodable processes channels a.states)
    (hb : Encodable processes channels b.states) (hwf : a.WellFormed)
    (ho : Automaton.Ordered a.states) :
    (automaton channels.length a = automaton channels.length b →
      a.pid = b.pid ∧ a.initialStates = b.initialStates ∧
        a.states.map (·.id) = b.states.map (·.id) ∧
        ∀ s e t, a.Edge s e t ↔ b.Edge s e t) ∧
      (lines (automaton channels.length a)).filter (opens "state") = a.states.map heading ∧
      (a.states.map (·.id)).Pairwise (· < ·) ∧
      (lines (automaton channels.length a)).filter (opens "to") =
        a.edges.map (fun x => transitionLine channels.length x.2) ∧
      a.edges.Nodup := by
  rw [lines_automaton ha.named]
  refine ⟨fun h => ?_, filter_state ha.named, hwf.ascending, filter_to ha.named,
    Automaton.nodup_edges hwf ho⟩
  obtain ⟨hpid, hinitial, hstates⟩ := eq_of_automaton ha hb h
  have hids : a.states.map (·.id) = b.states.map (·.id) := by
    have hfirst := congrArg (List.map Prod.fst) hstates
    simpa only [List.map_map, Function.comp_def] using hfirst
  refine ⟨hpid, hinitial, hids, fun s e t => ?_⟩
  have hedges : a.edges = b.edges := by
    have hmap := congrArg (List.flatMap fun p => p.2.map fun x => (p.1, x)) hstates
    simpa only [Automaton.edges, List.flatMap_map] using hmap
  rw [← Automaton.mem_edges, ← Automaton.mem_edges, hedges]

/-- A process that receives, works and answers. Only the state that it comes back to accepts. -/
def clerk (accept : Bool) : Automaton where
  pid := 1
  states :=
    [⟨1, true, accept,
        [(.receive "ask" ⟨0, 1, 0, false⟩, 2), (.receive "ask" ⟨0, 1, 0, false⟩, 3)]⟩,
      ⟨2, false, false, [(.internal "work" 1, 3)]⟩,
      ⟨3, false, false, [(.send "ask" ⟨1, 0, 1, false⟩, 1)]⟩]
  nextId := 4

theorem automaton_injective_clerk :
    automaton 2 (clerk true) = automaton 2 (clerk false) ∧
      (lines (automaton 2 (clerk true))).filter (opens "to") =
        (clerk true).edges.map (fun x => transitionLine 2 x.2) ∧
      ∀ s e t, (clerk true).Edge s e t ↔ (clerk false).Edge s e t := by
  have hwritable : ∀ accept, Encodable 2 [⟨0, 1, 0, false⟩, ⟨1, 0, 1, false⟩]
      (clerk accept).states := by
    intro accept
    simp only [Encodable, clerk, List.forall_mem_cons, List.not_mem_nil, IsEmpty.forall_iff,
      implies_true, and_true]
    refine ⟨⟨⟨rfl, by decide⟩, rfl, by decide⟩, ⟨rfl, by decide⟩, rfl, by decide⟩
  have htargets : ∀ s ∈ (clerk true).states, ∀ x ∈ s.transitions,
      ∃ u ∈ (clerk true).states, u.id = x.2 := by decide
  have hwf : (clerk true).WellFormed :=
    ⟨by decide, by decide, fun s hs e t hx => htargets s hs (e, t) hx⟩
  have ho : Automaton.Ordered (clerk true).states := by
    simp only [Automaton.Ordered, clerk, List.forall_mem_cons, Ascending.Sorted]
    decide
  have htext : automaton 2 (clerk true) = automaton 2 (clerk false) := rfl
  have hclerk := automaton_injective (hwritable true) (hwritable false) hwf ho
  exact ⟨htext, hclerk.2.2.2.1, (hclerk.1 htext).2.2.2⟩

end ProtocolInference.Scm
