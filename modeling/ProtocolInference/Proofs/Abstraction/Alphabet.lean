import ProtocolInference.Proofs.Abstraction.Finest
import ProtocolInference.Proofs.Abstraction.Network
import ProtocolInference.Proofs.Abstraction.Synthesis
import ProtocolInference.Proofs.Automaton.Assembly
import ProtocolInference.Proofs.Event.Tokens

/-!
# What the automata of a recording are about

The transitions of the automata are on events that were recorded. Those fit the system and
their labels are identifiers, since a recording is checked before its graphs are built. The
automata are what adding states and transitions and reducing can build, so operations on
built automata apply to them.
-/

namespace ProtocolInference

namespace Recording

variable {r : Recording} {traces : List Trace} {t : Trace} {e : Event} {a b i : Nat}
  {c : Channel}

theorem checkChannel_eq_ok_iff : r.checkChannel i c = .ok () ↔
    c.index = i ∧ c.synthetic = false ∧ c.src < r.processes ∧ c.dst < r.processes := by
  unfold checkChannel
  split
  · rename_i h
    simp only [reduceCtorEq, false_iff]
    intro hn
    simp [hn.1, hn.2.1] at h
  · rename_i h
    split
    · simp only [reduceCtorEq, false_iff]
      omega
    · simp_all

theorem checkTopology_eq_ok_iff : r.checkTopology = .ok () ↔
    (∀ i c, r.channels[i]? = some c → r.checkChannel i c = .ok ()) ∧
      ∀ events ∈ r.traces, ∀ sequence ∈ events, ∀ e ∈ sequence,
        Text.isIdentifier e.label = true := by
  have hlabel : ∀ e : Event, (if Text.isIdentifier e.label then pure () else
      throw (.labelNotIdentifier e.label) : Except TraceError Unit) = .ok () ↔
      Text.isIdentifier e.label = true := by
    intro e
    split
    · simp_all [pure, Except.pure]
    · simp_all [throw, throwThe, MonadExceptOf.throw]
  unfold checkTopology
  rw [Checks.bind_eq_ok_iff]
  constructor
  · intro h
    obtain ⟨⟨⟩, hchannels, hlabels⟩ := h
    rw [Checks.forM_eq_ok_iff] at hchannels hlabels
    refine ⟨fun i c hc => hchannels (c, i) (List.mem_zipIdx_iff_getElem?.mpr hc),
      fun events hevents sequence hsequence e he => (hlabel e).mp (hlabels e ?_)⟩
    exact List.mem_flatten_of_mem (List.mem_flatten_of_mem hevents hsequence) he
  · intro h
    obtain ⟨hchannels, hlabels⟩ := h
    refine ⟨(), Checks.forM_eq_ok_iff.mpr fun x hx => ?_,
      Checks.forM_eq_ok_iff.mpr fun e he => ?_⟩
    · exact hchannels x.2 x.1 (List.mem_zipIdx_iff_getElem?.mp hx)
    · obtain ⟨sequence, hsequence, he⟩ := List.mem_flatten.mp he
      obtain ⟨events, hevents, hsequence⟩ := List.mem_flatten.mp hsequence
      exact (hlabel e).mpr (hlabels events hevents sequence hsequence e he)

theorem checkTopology_of_build (h : r.build = .ok traces) : r.checkTopology = .ok () := by
  obtain ⟨⟨⟩, hvalid, -⟩ := Checks.bind_eq_ok_iff.mp h
  unfold validate at hvalid
  split at hvalid
  · cases hvalid
  · split at hvalid
    · cases hvalid
    · exact Checks.mapError_eq_ok_iff.mp hvalid

/-- The channels of a recording have their places as indices, and none is synthetic. -/
theorem index_of_build (h : r.build = .ok traces) (hc : r.channels[i]? = some c) :
    c.index = i ∧ c.synthetic = false := by
  have hchannels := (checkTopology_eq_ok_iff.mp (checkTopology_of_build h)).1
  obtain ⟨hindex, hsynthetic, -⟩ := checkChannel_eq_ok_iff.mp (hchannels i c hc)
  exact ⟨hindex, hsynthetic⟩

theorem nodup_index_of_build (h : r.build = .ok traces) : (r.channels.map (·.index)).Nodup := by
  have hrange : r.channels.map (·.index) = List.range r.channels.length := by
    refine List.ext_getElem (by simp) fun i hi _ => ?_
    rw [List.length_map] at hi
    rw [List.getElem_map, List.getElem_range, (index_of_build h (List.getElem?_eq_getElem hi)).1]
  rw [hrange]
  exact List.nodup_range

/-- The event occurs in an execution of the recording. -/
def Records (r : Recording) (e : Event) : Prop :=
  ∃ events ∈ r.traces, ∃ sequence ∈ events, e ∈ sequence

theorem Records.writable (he : r.Records e) (h : r.build = .ok traces) :
    e.Writable r.processes r.channels := by
  obtain ⟨events, hevents, sequence, hsequence, he⟩ := he
  have hlabels := (checkTopology_eq_ok_iff.mp (checkTopology_of_build h)).2
  obtain ⟨t, -, hbuild, -⟩ := exists_mem_of_build h hevents
  obtain ⟨-, hcheck, -⟩ := Interleaving.ofSequences_eq_ok_iff.mp hbuild
  obtain ⟨pid, hseq⟩ := List.mem_iff_getElem?.mp hsequence
  exact ⟨(Interleaving.checkEvents_eq_ok_iff.mp hcheck pid sequence hseq e he).1,
    hlabels events hevents sequence hsequence e he⟩

theorem writable_of_build (h : r.build = .ok traces) (ht : t ∈ traces)
    (he : (e, b) ∈ t.next a) : e.Writable r.processes r.channels := by
  obtain ⟨events, hevents, hbuild, -⟩ := exists_of_mem_build h ht
  obtain ⟨-, -, -, configurations, -, -, hsteps⟩ := Interleaving.ofSequences_spec hbuild
  obtain ⟨c, d, pid, -, -, hs⟩ := Interleaving.exists_step_of_mem_next hsteps he
  obtain ⟨sequence, n, hseq, -, hn, -⟩ := Interleaving.step?_eq_some_iff.mp hs
  have hrecords : r.Records e :=
    ⟨events, hevents, sequence, List.mem_of_getElem? hseq, List.mem_of_getElem? hn⟩
  exact hrecords.writable h

end Recording

namespace Abstraction

variable {g : Abstraction} {traces : List Trace} {grouping : Grouping} {strict : Bool}
  {removed : List Block} {r : Recording} {e : Event} {pid p q s t : Nat}

theorem Coherent.built_unfold (hg : g.Coherent) (pid : Nat) : (g.unfold pid).Built := by
  have hlength : (g.unfold pid).states.length = g.size := by
    have hids := congrArg List.length (hg.toGrouped.ids_unfold pid)
    rw [List.length_map, List.length_range'] at hids
    exact hids
  refine Automaton.built_of_numbered ?_ ?_ hg.wellFormed_unfold (ordered_unfold g pid)
    fun s e t he => ?_
  · rw [hg.toGrouped.ids_unfold, hlength]
  · rw [hlength]
    rfl
  · obtain ⟨x, hx, -, hm⟩ := he
    obtain ⟨id, b, hb, rfl⟩ := mem_states_unfold.mp hx
    obtain ⟨m, q, -, hpid, -⟩ := (hg.toGrouped.mem_transitions_stateOf hb).mp hm
    exact hpid

theorem Coherent.built_reduced (hg : g.Coherent) (pid : Nat) : (g.reduced pid).Built :=
  .minimized (.pruned (hg.built_unfold pid))

/-- Blocks only have the transitions of their observations. -/
theorem Reached.exists_of_mem_next (h : Reached traces grouping strict removed g)
    (hn : q ∈ g.next p e) : ∃ t ∈ traces, ∃ a b, (e, b) ∈ t.next a := by
  obtain ⟨o, x, ho, hedge, -⟩ := h.coherent.mem_next_iff.mp hn
  obtain ⟨t, ht, k, node, hnode, rfl, hbegins⟩ := h.exists_beginsAt ho
  obtain ⟨b, -, hnext⟩ := h.exists_next_of_edge hbegins hnode hedge
  exact ⟨t, ht, node, b, hnext⟩

theorem Reached.writable_of_edge (hr : r.build = .ok traces)
    (h : Reached traces grouping strict removed g) (he : (g.reduced pid).Edge s e t) :
    e.pid = pid ∧ e.Writable r.processes r.channels := by
  obtain ⟨x, hx, -, hm⟩ := he
  obtain ⟨hpid, p, q, hn⟩ := h.coherent.exists_next_of_reduced hx hm
  obtain ⟨t, ht, a, b, hnext⟩ := h.exists_of_mem_next hn
  exact ⟨hpid, Recording.writable_of_build hr ht hnext⟩

theorem Reached.channels_of_build (hr : r.build = .ok traces)
    (h : Reached traces grouping strict removed g) : g.channels = r.channels := by
  obtain ⟨first, hfirst, -, -, -, hchannels⟩ := h.frame
  obtain ⟨⟨events, hevents⟩, -⟩ := Recording.of_mem_build hr hfirst
  rw [hchannels]
  exact (Interleaving.ofSequences_spec hevents).2.1

/-- The automata of the network are built ones, and do what was recorded of their processes. -/
theorem Reached.of_network (hr : r.build = .ok traces)
    (h : Reached traces grouping strict removed g) {n : Network} (hn : g.network = .ok n) :
    n.channels = r.channels ∧ ∀ a ∈ n.automata, a.Built ∧
      ∀ s e t, a.Edge s e t → e.pid = a.pid ∧ e.Writable r.processes r.channels := by
  obtain ⟨rfl, -⟩ := h.coherent.network_eq_ok_iff.mp hn
  refine ⟨h.channels_of_build hr, fun a ha => ?_⟩
  obtain ⟨pid, -, rfl⟩ := List.mem_map.mp ha
  exact ⟨h.coherent.built_reduced pid, fun s e t he => h.writable_of_edge hr he⟩

end Abstraction

end ProtocolInference
