import ProtocolInference.Proofs.Abstraction.Observed
import ProtocolInference.Proofs.Automaton.Minimality
import ProtocolInference.Proofs.Trace.WellFormed

/-!
# Every process has an automaton

A trace that passes its checks has an execution from an initial observation to an accepting
one, and a process does its part of it in every abstraction of the traces. So the automaton
of the process keeps an initial and an accepting state when it is reduced, and what is
reduced away leaves it trim and minimal. Main statement: `exists_synthesized`.
-/

namespace ProtocolInference

/-- The automaton is one of the process: it can start and end, each state can be reached,
each transition is on an event of the process and leads to a state, and no two states are
the same but for their numbers. -/
structure Automaton.Synthesized (a : Automaton) (pid : Nat) : Prop where
  pid_eq : a.pid = pid
  initial : a.initialStates ≠ []
  accept : a.acceptStates ≠ []
  trim : a.Trim
  own : ∀ s ∈ a.states, ∀ e t, (e, t) ∈ s.transitions → e.pid = pid
  wellFormed : a.WellFormed
  minimal : a.Minimal

namespace Abstraction

variable {g : Abstraction} {pid : Nat}

theorem ordered_unfold (g : Abstraction) (pid : Nat) :
    Automaton.Ordered (g.unfold pid).states := by
  intro s hs
  obtain ⟨id, b, -, rfl⟩ := mem_states_unfold.mp hs
  exact Ascending.sorted_ofList _

/-- A transition of the reduced automaton is on an event of the process that some block has. -/
theorem Coherent.exists_next_of_reduced (hg : g.Coherent) {s : State}
    (hs : s ∈ (g.reduced pid).states) {e : Event} {v : Nat} (hm : (e, v) ∈ s.transitions) :
    e.pid = pid ∧ ∃ p q, q ∈ g.next p e := by
  have hwf : (g.unfold pid).prune.1.WellFormed := hg.wellFormed_unfold.prune
  obtain ⟨f, hf⟩ := Automaton.exists_merged_minimize hwf
  obtain ⟨t, ht, u, hu⟩ := hf.of_mem_transitions hwf.minimize hs hm
  obtain ⟨id, b, hb, rfl⟩ := mem_states_unfold.mp (List.mem_filter.mp ht).1
  obtain ⟨p, q, -, hpid, hnext, -⟩ := (hg.toGrouped.mem_transitions_stateOf hb).mp hu
  exact ⟨hpid, p, q, hnext⟩

theorem Coherent.own_reduced (hg : g.Coherent) {s : State} (hs : s ∈ (g.reduced pid).states)
    {e : Event} {v : Nat} (hm : (e, v) ∈ s.transitions) : e.pid = pid :=
  (hg.exists_next_of_reduced hs hm).1

theorem Coherent.synthesized_reduced (hg : g.Coherent) {w : List Event} (hw : g.Spells pid w) :
    (g.reduced pid).Synthesized pid := by
  have haccepts : (g.reduced pid).Accepts w := hg.accepts_reduced_iff.mpr hw
  have hwf : (g.unfold pid).prune.1.WellFormed := hg.wellFormed_unfold.prune
  exact ⟨rfl, haccepts.initialStates_ne_nil, haccepts.acceptStates_ne_nil, hg.trim_reduced,
    fun s hs e t hm => hg.own_reduced hs hm, hwf.minimize,
    Automaton.minimal_minimize hwf (ordered_unfold g pid).prune⟩

variable {traces : List Trace} {grouping : Grouping}

/-- A legal request to split a block is always met unless the abstraction is strict. -/
theorem exists_split_of_not_strict (hg : g.strict = false) {s : Split} {b : Block}
    (hb : g.block? s.block = some b) (hl : s.Legal b) (place : Placement) :
    ∃ h fresh, g.split s place = .ok (h, fresh) := by
  refine ⟨_, _, split_eq_ok_iff.mpr ⟨b, hb, hl, rfl, rfl, fun hstrict => ?_⟩⟩
  have htrue : g.strict = true := hstrict
  rw [hg] at htrue
  cases htrue

theorem exists_ofTraces_of_topology (hne : traces ≠ [])
    (h : ∀ t ∈ traces, ∀ u ∈ traces, t.processes = u.processes ∧ t.channels = u.channels) :
    ∃ g, ofTraces traces grouping false = .ok g := by
  cases traces with
  | nil => exact absurd rfl hne
  | cons first rest =>
    exact ⟨_, ofTraces_eq_ok_iff.mpr ⟨first, rfl, fun t ht => h t ht first (List.mem_cons_self ..),
      rfl, fun hstrict => by cases hstrict⟩⟩

theorem Reached.exists_spells {strict : Bool}
    (hall : ∀ t ∈ traces, t.Closed ∧ t.validate = .ok ())
    (h : Reached traces grouping strict [] g) (hpid : pid < g.processes) :
    ∃ w, g.Spells pid w := by
  obtain ⟨first, hfirst, -, -, hproc, -⟩ := h.frame
  obtain ⟨hclosed, hvalid⟩ := hall first hfirst
  obtain ⟨k, hk⟩ := h.exists_holds hfirst fun hm => hclosed.of_mem_next hm
  obtain ⟨hroot, es, node, o, hp, ho, hacc⟩ := Trace.validate_spec hvalid
  exact ⟨_, hk.spells h.coherent hproc.symm hroot hp ho hacc hpid⟩

/-- Traces of one topology that pass their checks have an abstraction, and a legal request
to split a block is met. However the blocks have been split, every process has an automaton
that starts and ends, is trim and minimal, and only does what the process does. -/
theorem exists_synthesized (traces : List Trace) (grouping : Grouping) (hne : traces ≠ [])
    (hall : ∀ t ∈ traces, t.Built ∧ t.validate = .ok ())
    (htopology : ∀ t ∈ traces, ∀ u ∈ traces,
      t.processes = u.processes ∧ t.channels = u.channels) :
    (∃ g, ofTraces traces grouping false = .ok g) ∧
    (∀ g s b place, Reached traces grouping false [] g → g.block? s.block = some b →
      s.Legal b → ∃ h fresh, g.split s place = .ok (h, fresh)) ∧
    ∀ strict g, Reached traces grouping strict [] g → ∀ pid < g.processes,
      ∃ a, g.project pid = .ok a ∧ a.Synthesized pid := by
  refine ⟨exists_ofTraces_of_topology hne htopology, fun g s b place h hb hl => ?_,
    fun strict g h pid hpid => ?_⟩
  · exact exists_split_of_not_strict h.strict_eq hb hl place
  · obtain ⟨w, hw⟩ := h.exists_spells (fun t ht => ⟨(hall t ht).1.closed, (hall t ht).2⟩) hpid
    exact ⟨g.reduced pid, h.coherent.project_eq_ok_iff.mpr ⟨rfl, w, hw⟩,
      h.coherent.synthesized_reduced hw⟩

theorem built_workTwice : workTwice.Built := by
  have hstart : Trace.Built ⟨[], ⟨[⟨"0", true, false⟩], ⟨[]⟩⟩, [], []⟩ := .start _ _
  have hobserved := (hstart.observation ⟨[⟨"1", false, false⟩], ⟨[]⟩⟩).observation
    ⟨[⟨"2", false, true⟩], ⟨[]⟩⟩
  have hfirst := hobserved.edge (show Trace.addEdge _ 0 (.internal "work" 0) 1 = .ok _ from rfl)
  exact hfirst.edge (show Trace.addEdge _ 1 (.internal "work" 0) 2 = .ok _ from rfl)

/-- The observations before and after the work are told apart. -/
theorem exists_synthesized_workTwice : ∃ g h fresh a,
    ofTraces [workTwice] .queueTops false = .ok g ∧
    g.split ⟨0, [0], [2]⟩ (fun _ _ => false) = .ok (h, fresh) ∧ h.project 0 = .ok a ∧
    a.Synthesized 0 := by
  have hall : ∀ t ∈ [workTwice], t.Built ∧ t.validate = .ok () := by
    intro t ht
    rw [List.mem_singleton.mp ht]
    exact ⟨built_workTwice, by rfl⟩
  have htopology : ∀ t ∈ [workTwice], ∀ u ∈ [workTwice],
      t.processes = u.processes ∧ t.channels = u.channels := by
    intro t ht u hu
    rw [List.mem_singleton.mp ht, List.mem_singleton.mp hu]
    exact ⟨rfl, rfl⟩
  have hstart : ofTraces [workTwice] .queueTops false =
      .ok (assemble workTwice [workTwice] .queueTops false) := rfl
  obtain ⟨⟨h, fresh⟩, hsplit⟩ := Checks.exists_eq_ok (show Except.isOk
    ((assemble workTwice [workTwice] .queueTops false).split ⟨0, [0], [2]⟩
      fun _ _ => false) = true by decide +kernel)
  have hreached := Reached.split (.start hstart) hsplit
  have hpid : 0 < h.processes := by
    obtain ⟨first, hfirst, -, -, hproc, -⟩ := hreached.frame
    rw [hproc, List.mem_singleton.mp hfirst]
    decide
  obtain ⟨-, -, hproject⟩ := exists_synthesized [workTwice] .queueTops (List.cons_ne_nil _ _) hall
    htopology
  obtain ⟨a, ha, hsynthesized⟩ := hproject false h hreached 0 hpid
  exact ⟨_, h, fresh, a, hstart, hsplit, ha, hsynthesized⟩

end Abstraction

end ProtocolInference
