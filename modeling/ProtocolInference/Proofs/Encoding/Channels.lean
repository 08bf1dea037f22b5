import ProtocolInference.Proofs.Abstraction.Alphabet
import ProtocolInference.Proofs.Encoding.Scm
import ProtocolInference.Proofs.Network.Instrumentation

/-!
# Channels and messages in the text of a network

The channels of a recording are numbered from zero on. The recording of an invariant takes the
next number, and internal steps take the one after all channels. So three kinds of actions are
told apart by their index, and within a kind the message tells the event. This holds of the
network of any abstraction of a recording, and of that network once it is instrumented. Main
statement: `unambiguous_of_build`.
-/

namespace ProtocolInference

theorem Network.mem_alphabet {n : Network} {e : Event} :
    e ∈ n.alphabet ↔ ∃ a ∈ n.automata, ∃ s t, a.Edge s e t := by
  unfold alphabet Automaton.alphabet
  simp only [Ascending.mem_ofList, List.mem_flatMap, List.mem_map]
  constructor
  · intro h
    obtain ⟨a, ha, x, hx, y, hy, rfl⟩ := h
    exact ⟨a, ha, x.id, y.2, x, hx, rfl, hy⟩
  · intro h
    obtain ⟨a, ha, s, t, x, hx, -, hy⟩ := h
    exact ⟨a, ha, x, hx, (e, t), hy, rfl⟩

namespace Scm

open Text

variable {k processes : Nat} {channels : List Channel} {e f : Event} {c d : Channel}
  {n m : Network}

/-! ### The lines of a network -/

/-- The number of channels that the text declares. -/
def declared (n : Network) : Nat :=
  n.channels.length + if n.alphabet.any (·.isInternal) then 1 else 0

def declaration (n : Network) : String := s!"nb_channels = {declared n} ;"

def channelLine (c : Channel) : String :=
  "channel " ++ (s!"{c.index} : p{c.src} -> p{c.dst}" ++
    if c.synthetic then " (invariant)" else "")

def internalLine (n : Network) : String := s!"channel {n.internalIndex} : local events"

/-- The lines ahead of the automata. -/
def preamble (n : Network) : List String :=
  ["scm cfsm :", "", declaration n, "/*"] ++ n.channels.map channelLine ++
    (if n.alphabet.any (·.isInternal) then [internalLine n] else []) ++
    ["*/", "", "parameters :", ""]

def networkLines (n : Network) : List String :=
  preamble n ++ n.automata.flatMap fun a => automatonLines n.internalIndex a ++ [""]

theorem exists_network_eq (n : Network) (invariant : Option Invariant) :
    ∃ rest, network n invariant = unlines (networkLines n) ++ rest := by
  have hchannels : n.channels.map channel = (n.channels.map channelLine).map (· ++ "\n") := by
    rw [List.map_map]
    refine List.map_congr_left fun c _ => ?_
    apply String.toList_injective
    unfold channel channelLine
    simp
  have hautomata : n.automata.map (fun a => automaton n.internalIndex a ++ "\n") =
      n.automata.map fun a => unlines (automatonLines n.internalIndex a ++ [""]) := by
    refine List.map_congr_left fun a _ => ?_
    rw [automaton_eq, unlines_append]
    rfl
  have htext : ∀ rest : String, s!"scm cfsm :\n\nnb_channels = {declared n} ;\n/*\n" ++
      String.join (n.channels.map channel) ++
      (if n.alphabet.any (·.isInternal) then s!"channel {n.internalIndex} : local events\n"
        else "") ++
      "*/\n\nparameters :\n\n" ++
      String.join (n.automata.map fun a => automaton n.internalIndex a ++ "\n") ++ rest =
      unlines (networkLines n) ++ rest := by
    intro rest
    rw [hchannels, hautomata, networkLines, unlines_append, unlines_flatMap]
    apply String.toList_injective
    unfold preamble declaration internalLine
    cases n.alphabet.any (·.isInternal) <;> simp [unlines]
  exact ⟨_, htext _⟩

theorem newline_not_mem_networkLines (hn : ∀ a ∈ n.automata, Named a.states) :
    ∀ l ∈ networkLines n, '\n' ∉ l.toList := by
  have hchannel : ∀ l ∈ n.channels.map channelLine, '\n' ∉ l.toList := by
    intro l hl
    obtain ⟨c, -, rfl⟩ := List.mem_map.mp hl
    cases h : c.synthetic <;> simp (disch := decide) [channelLine, h, not_mem_digits]
  have hinternal : ∀ l ∈ (if n.alphabet.any (·.isInternal) then [internalLine n] else []),
      '\n' ∉ l.toList := by
    split <;> simp (disch := decide) [internalLine, not_mem_digits]
  have hpreamble : ∀ l ∈ preamble n, '\n' ∉ l.toList := by
    simp only [preamble, List.forall_mem_append]
    refine ⟨⟨⟨?_, hchannel⟩, hinternal⟩, by decide⟩
    unfold declaration
    simp (disch := decide) [not_mem_digits]
  refine List.forall_mem_append.mpr ⟨hpreamble, fun l hl => ?_⟩
  obtain ⟨a, ha, hl⟩ := List.mem_flatMap.mp hl
  rcases List.mem_append.mp hl with hl | hl
  · exact newline_not_mem (hn a ha) l hl
  · rw [List.mem_singleton.mp hl]
    decide

theorem filter_preamble (n : Network) : (preamble n).filter (opens "to") = [] := by
  have hchannel : (n.channels.map channelLine).filter (opens "to") = [] := by
    refine List.filter_eq_nil_iff.mpr fun l hl => ?_
    obtain ⟨c, -, rfl⟩ := List.mem_map.mp hl
    have hline : channelLine c = "channel" ++ (String.singleton ' ' ++
        (s!"{c.index} : p{c.src} -> p{c.dst}" ++ if c.synthetic then " (invariant)" else "")) := by
      apply String.toList_injective
      simp [channelLine]
    rw [hline, opens_append (by decide)]
    decide
  have hinternal : opens "to" (internalLine n) = false := by
    have hline : internalLine n = "channel" ++ (String.singleton ' ' ++
        s!"{n.internalIndex} : local events") := by
      apply String.toList_injective
      simp [internalLine]
    rw [hline, opens_append (by decide)]
    decide
  have hdeclaration : opens "to" (declaration n) = false := by
    have hline : declaration n = "nb_channels" ++ (String.singleton ' ' ++
        s!"= {declared n} ;") := by
      apply String.toList_injective
      unfold declaration
      simp
    rw [hline, opens_append (by decide)]
    decide
  have hfirst : ["scm cfsm :", "", declaration n, "/*"].filter (opens "to") = [] := by
    have hname : opens "to" "scm cfsm :" = false := by decide
    have hempty : opens "to" "" = false := by decide
    have hcomment : opens "to" "/*" = false := by decide
    simp [hname, hempty, hdeclaration, hcomment]
  have hlast : ["*/", "", "parameters :", ""].filter (opens "to") = [] := by decide
  have hline : (if n.alphabet.any (·.isInternal) then [internalLine n] else []).filter
      (opens "to") = [] := by
    split <;> simp [hinternal]
  simp only [preamble, List.filter_append, hfirst, hchannel, hline, hlast, List.append_nil]

/-- The text of a network has one line for each transition of its automata. -/
theorem filter_networkLines (hn : ∀ a ∈ n.automata, Named a.states) :
    (networkLines n).filter (opens "to") = n.automata.flatMap fun a =>
      a.edges.map fun x => transitionLine n.internalIndex x.2 := by
  have hempty : [""].filter (opens "to") = [] := by decide
  rw [networkLines, List.filter_append, filter_preamble, List.nil_append, List.filter_flatMap]
  refine List.flatMap_congr fun a ha => ?_
  rw [List.filter_append, hempty, List.append_nil, filter_to (hn a ha)]

/-! ### Actions -/

theorem of_action_eq (he : IsName e.label) (hf : IsName f.label) (h : action k e = action k f) :
    index k e = index k f ∧ sign e = sign f ∧ message e = message f := by
  have hwords : ∀ {g : Event}, IsName g.label →
      words (action k g) = [toString (index k g), sign g, message g] := by
    intro g hg
    have hline : action k g =
        String.intercalate " " [toString (index k g), sign g, message g] := by
      rw [action_eq]
      apply String.toList_injective
      simp
    have hmessage := (isName_message hg).not_mem (show continuesIdentifier ' ' = false by decide)
    have hsign : ' ' ∉ (sign g).toList := not_mem_sign (by decide)
    rw [hline]
    apply words_intercalate (List.cons_ne_nil _ _)
    simp (disch := decide) [not_mem_digits, hmessage, hsign]
  have hparts := congrArg words h
  rw [hwords he, hwords hf] at hparts
  simp only [List.cons.injEq, and_true] at hparts
  exact ⟨Nat.repr_inj.mp hparts.1, hparts.2.1, hparts.2.2⟩

/-- Nothing is mixed up in the text of the network. Different events are different actions, an
internal step uses an index that no channel has and the others use the index of their channel,
and all indices of actions are below the number of channels that is declared. -/
structure Unambiguous (n : Network) : Prop where
  eq_of_action : ∀ e ∈ n.alphabet, ∀ f ∈ n.alphabet,
    action n.internalIndex e = action n.internalIndex f → e = f
  written : ∀ e ∈ n.alphabet, action n.internalIndex e =
    s!"{index n.internalIndex e} {sign e} {message e}"
  internal : ∀ e ∈ n.alphabet, e.isInternal = true →
    ∀ c : Channel, c ∈ n.channels → c.index ≠ index n.internalIndex e
  external : ∀ e ∈ n.alphabet, e.isInternal = false →
    ∃ c ∈ n.channels, e.channel = some c ∧ index n.internalIndex e = c.index
  index_lt : ∀ e ∈ n.alphabet, index n.internalIndex e < declared n
  lines : ∀ invariant, ∃ ls rest, lines (network n invariant) = ls ++ rest ∧
    declaration n ∈ ls ∧ ls.filter (opens "to") = n.automata.flatMap fun a =>
      a.edges.map fun x => transitionLine n.internalIndex x.2

/-- The event is one of the system, or records one on the first channel after those. -/
inductive Told (processes : Nat) (channels : List Channel) (n : Network) : Event → Prop where
  | system {e : Event} : e.Writable processes channels → Told processes channels n e
  | recording {e : Event} {c : Channel} : e.Writable processes channels →
      n.channels[channels.length]? = some c → c.index = channels.length →
      Told processes channels n (.sendFrom e.token c e.pid)

theorem Told.isName (h : Told processes channels n e) : IsName e.label := by
  cases h with
  | system h => exact h.isName
  | recording h => exact Event.isName_token h.isName

/-- The events of the system leave the index of the recordings free. -/
theorem index_ne_of_writable (h : e.Writable processes channels) (hlt : channels.length < k) :
    index k e ≠ channels.length := by
  rcases internal_or_index_lt h.1 with hkind | ⟨hkind, c, hc, -, hbelow⟩
  · rw [(of_internal hkind).1]
    omega
  · rw [(of_channel hc hkind).1]
    omega

theorem Told.eq_of_action (hle : channels <+: n.channels)
    (he : Told processes channels n e) (hf : Told processes channels n f)
    (h : action n.internalIndex e = action n.internalIndex f) : e = f := by
  obtain ⟨hindex, hsign, hmessage⟩ := of_action_eq he.isName hf.isName h
  cases he with
  | system he =>
    cases hf with
    | system hf => exact eq_of_parts hle.length_le he.1 hf.1 hindex hsign hmessage
    | recording hf hc hi =>
      have hlt := (List.getElem?_eq_some_iff.mp hc).1
      exact absurd (hindex.trans hi) (index_ne_of_writable he hlt)
  | recording he hc hi =>
    have hlt := (List.getElem?_eq_some_iff.mp hc).1
    cases hf with
    | system hf => exact absurd (hindex.symm.trans hi) (index_ne_of_writable hf hlt)
    | recording hf hd _ =>
      rw [hc] at hd
      rw [Option.some.inj hd, Event.eq_of_token he.1 hf.1 hmessage]

theorem unambiguous_of_told
    (hindex : ∀ (i : Nat) (c : Channel), n.channels[i]? = some c → c.index = i)
    (hle : channels <+: n.channels)
    (htold : ∀ e ∈ n.alphabet, Told processes channels n e) : Unambiguous n := by
  have hbelow : ∀ c ∈ n.channels, c.index < n.internalIndex := by
    intro c hc
    obtain ⟨i, hi⟩ := List.mem_iff_getElem?.mp hc
    rw [hindex i c hi]
    exact (List.getElem?_eq_some_iff.mp hi).1
  have hinternal : ∀ e, e.isInternal = true → index n.internalIndex e = n.internalIndex :=
    fun e he => (of_internal (beq_iff_eq.mp he)).1
  have hexternal : ∀ e ∈ n.alphabet, e.isInternal = false →
      ∃ c ∈ n.channels, e.channel = some c ∧ index n.internalIndex e = c.index := by
    intro e he hkind
    cases htold e he with
    | system h =>
      rcases internal_or_index_lt h.1 with hk | ⟨hk, c, hc, hdeclared, -⟩
      · exact absurd hk (ne_of_beq_false hkind)
      · exact ⟨c, hle.subset (List.mem_of_getElem? hdeclared), hc, (of_channel hc hk).1⟩
    | recording h hc => exact ⟨_, List.mem_of_getElem? hc, rfl, rfl⟩
  constructor
  case eq_of_action => exact fun e he f hf h => (htold e he).eq_of_action hle (htold f hf) h
  case written => exact fun e _ => action_eq _ e
  case internal =>
    intro e _ he c hc
    rw [hinternal e he]
    exact Nat.ne_of_lt (hbelow c hc)
  case external => exact hexternal
  case index_lt =>
    intro e he
    have hlength : n.internalIndex = n.channels.length := rfl
    unfold declared
    cases hkind : e.isInternal with
    | true =>
      have hany : n.alphabet.any (·.isInternal) = true := List.any_eq_true.mpr ⟨e, he, hkind⟩
      rw [hinternal e hkind, hany, if_pos rfl]
      omega
    | false =>
      obtain ⟨c, hc, -, hi⟩ := hexternal e he hkind
      have hlt := hbelow c hc
      omega
  case lines =>
    intro invariant
    have hnamed : ∀ a ∈ n.automata, Named a.states := by
      intro a ha s hs x hx
      exact (htold x.1 (Network.mem_alphabet.mpr ⟨a, ha, s.id, x.2, s, hs, rfl, hx⟩)).isName
    obtain ⟨rest, hrest⟩ := exists_network_eq n invariant
    refine ⟨networkLines n, lines rest, ?_, ?_, filter_networkLines hnamed⟩
    · rw [hrest, lines_append (newline_not_mem_networkLines hnamed)]
    · simp [networkLines, preamble]

/-! ### Networks of recordings -/

variable {r : Recording} {traces : List Trace} {grouping : Grouping} {strict : Bool}
  {removed : List Block} {g : Abstraction} {invariant : Invariant}

/-- An instrumented automaton does what the automaton did, and records some of it. -/
theorem edge_of_recorded {a b : Automaton} {s t : Nat}
    (h : Automaton.Recorded c a (a.involved invariant) b) (he : b.Edge s f t) :
    (∃ s t, a.Edge s f t) ∨ ∃ s e t, a.Edge s e t ∧ f = .sendFrom e.token c a.pid := by
  rcases (h.edge_iff s f t).mp he with ⟨he, -⟩ | ⟨i, source, e, target, hi, hhalf⟩
  · exact Or.inl ⟨s, t, he⟩
  · have hedge := (Automaton.mem_involved.mp (List.mem_of_getElem? hi)).1
    rcases hhalf with hhalf | hhalf
    · cases hhalf
      exact Or.inl ⟨s, target, hedge⟩
    · cases hhalf
      exact Or.inr ⟨source, e, t, hedge, rfl⟩

theorem exists_recorded (invariant : Invariant) (hbuilt : ∀ a ∈ n.automata, a.Built)
    (hown : ∀ a ∈ n.automata, ∀ s e t, a.Edge s e t → e.pid = a.pid) :
    ∃ m, n.instrument invariant = .ok m ∧
      m.channels = n.channels ++ [n.recordingChannel invariant] ∧
      ∀ b ∈ m.automata, ∃ a ∈ n.automata,
        Automaton.Recorded (n.recordingChannel invariant) a (a.involved invariant) b := by
  have hall : ∀ a ∈ n.automata, ∃ b, (a.involved invariant).foldlM
      (Automaton.recordTransition (n.recordingChannel invariant)) a = .ok b ∧
      Automaton.Recorded (n.recordingChannel invariant) a (a.involved invariant) b := by
    intro a ha
    refine Automaton.foldlM_recordTransition rfl (hbuilt a ha)
      (Automaton.nodup_involved (hbuilt a ha) invariant) fun s e t hmem => ?_
    have he := (Automaton.mem_involved.mp hmem).1
    exact ⟨he, hown a ha s e t he⟩
  choose! b hb using hall
  refine ⟨⟨n.channels ++ [n.recordingChannel invariant], n.automata.map b⟩, ?_, rfl, ?_⟩
  · exact Network.instrument_eq_ok_iff.mpr
      ⟨rfl, List.forall₂_map_right_iff.mpr (List.forall₂_same.mpr fun a ha => (hb a ha).1)⟩
  · intro c hc
    obtain ⟨a, ha, rfl⟩ := List.mem_map.mp hc
    exact ⟨a, ha, (hb a ha).2⟩

/-- The channel of the recordings takes the next index. -/
theorem index_of_instrumented
    (hindex : ∀ (i : Nat) (c : Channel), n.channels[i]? = some c → c.index = i)
    (hm : m.channels = n.channels ++ [n.recordingChannel invariant]) :
    ∀ (i : Nat) (c : Channel), m.channels[i]? = some c → c.index = i := by
  intro i c hc
  rw [hm, List.getElem?_append] at hc
  split at hc
  · exact hindex i c hc
  · obtain ⟨hlt, rfl⟩ := List.getElem?_eq_some_iff.mp hc
    rw [List.length_singleton] at hlt
    rw [List.getElem_singleton]
    show n.channels.length = i
    omega

theorem told_of_recorded
    (hevents : ∀ a ∈ n.automata, ∀ s e t, a.Edge s e t →
      e.pid = a.pid ∧ e.Writable processes n.channels)
    (hm : m.channels = n.channels ++ [n.recordingChannel invariant])
    (hrecorded : ∀ b ∈ m.automata, ∃ a ∈ n.automata,
      Automaton.Recorded (n.recordingChannel invariant) a (a.involved invariant) b) :
    ∀ f ∈ m.alphabet, Told processes n.channels m f := by
  intro f hf
  obtain ⟨b, hb, s, t, hedge⟩ := Network.mem_alphabet.mp hf
  obtain ⟨a, ha, hab⟩ := hrecorded b hb
  rcases edge_of_recorded hab hedge with ⟨s, t, he⟩ | ⟨s, e, t, he, rfl⟩
  · exact .system (hevents a ha s f t he).2
  · obtain ⟨hpid, hwritable⟩ := hevents a ha s e t he
    rw [← hpid]
    refine .recording hwritable ?_ rfl
    rw [hm, List.getElem?_concat_length]

/-- A process works and then hands a message over. -/
def errand : Recording where
  processes := 2
  channels := [⟨0, 1, 0, false⟩]
  traces := [[[.internal "work" 0, .send "m" ⟨0, 1, 0, false⟩], [.receive "m" ⟨0, 1, 0, false⟩]]]

def errandTrace : Trace where
  channels := [⟨0, 1, 0, false⟩]
  root := ⟨[⟨"0", true, false⟩, ⟨"0", true, false⟩], ⟨[[]]⟩⟩
  later := [⟨[⟨"1", false, false⟩, ⟨"0", true, false⟩], ⟨[[]]⟩⟩,
    ⟨[⟨"2", false, true⟩, ⟨"0", true, false⟩], ⟨[["m"]]⟩⟩,
    ⟨[⟨"2", false, true⟩, ⟨"1", false, true⟩], ⟨[[]]⟩⟩]
  edges := [⟨0, .internal "work" 0, 1⟩, ⟨1, .send "m" ⟨0, 1, 0, false⟩, 2⟩,
    ⟨2, .receive "m" ⟨0, 1, 0, false⟩, 3⟩]

end Scm

end ProtocolInference
