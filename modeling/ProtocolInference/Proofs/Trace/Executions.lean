import Mathlib.Data.List.Perm.Subperm
import ProtocolInference.Proofs.Graph.Reachability
import ProtocolInference.Proofs.Network.Runs
import ProtocolInference.Proofs.Trace.Layers
import ProtocolInference.Recording.Basic

/-!
# Observed executions

An execution is a path of a trace from its root. In the graph of all schedules of a
recording the channels allow the events of every execution, and what the execution
leaves in flight is what the observation at its end shows.
-/

namespace ProtocolInference

/-- A path of observations and the events on it. -/
inductive Trace.Path (t : Trace) : Nat → List Event → Nat → Prop where
  | nil (node : Nat) : Path t node [] node
  | cons {a b c : Nat} {e : Event} {es : List Event} :
      (e, b) ∈ t.next a → Path t b es c → Path t a (e :: es) c

namespace Interleaving

variable {processes : Nat} {channels : List Channel} {events : List (List Event)} {t : Trace}

theorem fit_of_checkEvents (h : checkEvents processes channels events = .ok ()) :
    Fit channels events := by
  intro pid sequence hseq e he
  have hone := Checks.forM_eq_ok_iff.mp h (sequence, pid)
    (List.mem_zipIdx_iff_getElem?.mpr hseq)
  obtain ⟨⟨⟩, hvalid, howner⟩ := Checks.bind_eq_ok_iff.mp (Checks.forM_eq_ok_iff.mp hone e he)
  split at howner
  · cases howner
  · rename_i hpid
    exact ⟨not_not.mp hpid, processes, hvalid⟩

theorem ofSequences_spec (h : Trace.ofSequences processes channels events = .ok t) :
    events.length = processes ∧ t.channels = channels ∧ Fit channels events ∧
      ∃ configurations, configurations[0]? = some (start channels events) ∧
        t.observations = configurations.map (observe events) ∧
        ∀ edge ∈ t.edges, IsStep events 0 configurations edge := by
  unfold Trace.ofSequences at h
  split at h
  · cases h
  rename_i hlen
  obtain ⟨⟨⟩, hcheck, h⟩ := Checks.bind_eq_ok_iff.mp h
  dsimp only at h
  split at h
  · cases h
  · split at h
    · injection h with h
      subst h
      have hfit := fit_of_checkEvents hcheck
      obtain ⟨⟨later, hlater⟩, hedges⟩ := layers_spec hfit events.flatten.length 0
        (List.forall_mem_singleton.mpr (balanced_start channels events))
      refine ⟨not_not.mp hlen, rfl, hfit, _, ?_, ?_, hedges⟩
      · rw [hlater]
        rfl
      · show observe events (start channels events) :: _ = _
        rw [hlater]
        rfl
    · cases h

theorem exists_step_of_mem_next {configurations : List Configuration}
    (hsteps : ∀ edge ∈ t.edges, IsStep events 0 configurations edge) {a b : Nat} {e : Event}
    (h : (e, b) ∈ t.next a) : ∃ c d pid, configurations[a]? = some c ∧
      configurations[b]? = some d ∧ step? events c pid = some (e, d) := by
  obtain ⟨edge, hedge, hpair⟩ := List.mem_map.mp h
  obtain ⟨hmem, hsource⟩ := List.mem_filter.mp hedge
  obtain ⟨i, j, c, d, pid, hs, hc, ht, hd, hstep⟩ := hsteps edge hmem
  rw [Nat.zero_add] at hs ht
  injection hpair with he hb
  refine ⟨c, d, pid, ?_, ?_, he ▸ hstep⟩
  · rw [← eq_of_beq hsource, hs]
    exact hc
  · rw [← hb, ht]
    exact hd

theorem run_of_path (hfit : Fit channels events) {configurations : List Configuration}
    (hsteps : ∀ edge ∈ t.edges, IsStep events 0 configurations edge) {a b : Nat}
    {es : List Event} (h : t.Path a es b) {c : Configuration} (hc : configurations[a]? = some c) :
    ∃ d, configurations[b]? = some d ∧ c.queues.Run es d.queues ∧
      ∀ e ∈ es, e.pid < events.length := by
  induction h generalizing c with
  | nil node => exact ⟨c, hc, .nil _, fun e he => absurd he List.not_mem_nil⟩
  | cons hnext _ ih =>
    obtain ⟨c', d, pid, hc', hd, hstep⟩ := exists_step_of_mem_next hsteps hnext
    rw [hc] at hc'
    injection hc' with hc'
    subst hc'
    obtain ⟨f, hf, hrun, hpids⟩ := ih hd
    obtain ⟨sequence, n, hseq, -, he, -, happly, -⟩ := step?_eq_some_iff.mp hstep
    refine ⟨f, hf, .cons happly hrun, List.forall_mem_cons.mpr ⟨?_, hpids⟩⟩
    rw [(hfit pid sequence hseq _ (List.mem_of_getElem? he)).1]
    exact (List.getElem?_eq_some_iff.mp hseq).1

/-- An execution runs from empty channels to what the observation at its end shows. -/
theorem execution_run (ht : Trace.ofSequences processes channels events = .ok t) {node : Nat}
    {es : List Event} (h : t.Path 0 es node) :
    (∀ e ∈ es, e.pid < processes) ∧ ∃ o, t.observation? node = some o ∧
      (Queues.empty channels.length).Run es o.queues := by
  obtain ⟨hlen, -, hfit, configurations, hstart, hobs, hsteps⟩ := ofSequences_spec ht
  obtain ⟨d, hd, hrun, hpids⟩ := run_of_path hfit hsteps h hstart
  refine ⟨hlen ▸ hpids, observe events d, ?_, hrun⟩
  rw [Trace.observation?, hobs, List.getElem?_map, hd]
  rfl

theorem lt_size_of_mem_next (ht : Trace.ofSequences processes channels events = .ok t)
    {a b : Nat} {e : Event} (h : (e, b) ∈ t.next a) : a < t.size ∧ b < t.size := by
  obtain ⟨-, -, -, configurations, -, hobs, hsteps⟩ := ofSequences_spec ht
  obtain ⟨c, d, pid, hc, hd, -⟩ := exists_step_of_mem_next hsteps h
  rw [Trace.size, hobs, List.length_map]
  exact ⟨(List.getElem?_eq_some_iff.mp hc).1, (List.getElem?_eq_some_iff.mp hd).1⟩

theorem processes_of_ofSequences (ht : Trace.ofSequences processes channels events = .ok t) :
    t.processes = processes := by
  obtain ⟨hlen, -, -, configurations, hstart, hobs, -⟩ := ofSequences_spec ht
  have hroot : t.observation? 0 = some (observe events (start channels events)) := by
    rw [Trace.observation?, hobs, List.getElem?_map, hstart]
    rfl
  have hzero : t.observation? 0 = some t.root := rfl
  rw [hzero] at hroot
  rw [Trace.processes, Option.some.inj hroot, ← hlen]
  simp [observe, start, finish]

end Interleaving

/-! ### Traces that pass their checks -/

namespace Trace

variable {t : Trace}

theorem exists_path_of_reaches {a b : Nat} (h : t.graph.Reaches a b) : ∃ es, t.Path a es b := by
  induction h using Relation.ReflTransGen.head_induction_on with
  | refl => exact ⟨[], .nil b⟩
  | @head a c hl _ ih =>
    obtain ⟨es, hes⟩ := ih
    have hlt := Graph.Leads.lt_size hl
    have hsize : t.graph.size = t.size := by simp [graph]
    rw [hsize] at hlt
    have hsucc : t.graph.successors a = (t.next a).map (·.2) := by
      simp [graph, Graph.successors, hlt]
    rw [Graph.Leads, hsucc] at hl
    obtain ⟨⟨e, c'⟩, hm, rfl⟩ := List.mem_map.mp hl
    exact ⟨e :: es, .cons hm hes⟩

theorem exists_path_of_length (h : (t.graph.preorder [0]).length = t.size) {node : Nat}
    (hlt : node < t.size) : ∃ es, t.Path 0 es node := by
  have hsize : t.graph.size = t.size := by simp [graph]
  have hsub : (t.graph.preorder [0]) ⊆ List.range t.size := by
    intro v hv
    rw [List.mem_range, ← hsize]
    exact (Graph.mem_preorder_iff.mp hv).1
  -- The search enters no node twice, so it has entered all of them.
  have hperm := ((t.graph.preorder_nodup [0]).subperm hsub).perm_of_length_le
    (by rw [List.length_range, h])
  obtain ⟨-, r, hr, hreach⟩ := Graph.mem_preorder_iff.mp (hperm.mem_iff.mpr (List.mem_range.mpr hlt))
  rw [List.mem_singleton] at hr
  subst hr
  exact exists_path_of_reaches hreach

/-- A trace that passes its checks has an initial root and an execution that ends in an
accepting observation. -/
theorem validate_spec (h : t.validate = .ok ()) : t.root.isInitial = true ∧
    ∃ es node o, t.Path 0 es node ∧ t.observation? node = some o ∧ o.isAccept = true := by
  unfold validate at h
  simp only [Checks.bind_eq_ok_iff, Checks.guard_eq_ok_iff, Checks.require_eq_ok_iff,
    not_not] at h
  obtain ⟨-, ⟨⟩, -, hreached, hinitial, haccept⟩ := h
  refine ⟨hinitial, ?_⟩
  split at haccept
  swap
  · cases haccept
  rename_i hany
  obtain ⟨o, ho, hacc⟩ := List.any_eq_true.mp hany
  obtain ⟨node, hnode⟩ := List.mem_iff_getElem?.mp ho
  obtain ⟨es, hes⟩ := exists_path_of_length hreached (List.getElem?_eq_some_iff.mp hnode).1
  exact ⟨es, node, o, hes, hnode, hacc⟩

end Trace

/-- The traces of a recording are the graphs of the schedules of its executions, and they
pass their checks. -/
theorem Recording.forall₂_of_build {r : Recording} {traces : List Trace}
    (h : r.build = .ok traces) :
    List.Forall₂ (fun events t => Trace.ofSequences r.processes r.channels events = .ok t ∧
      t.validate = .ok ()) r.traces traces := by
  obtain ⟨⟨⟩, -, hall⟩ := Checks.bind_eq_ok_iff.mp h
  have hbuilt := Checks.mapM_eq_ok_iff.mp (Checks.mapError_eq_ok_iff.mp hall)
  rw [← List.zipIdx_map_fst 0 r.traces, List.forall₂_map_left_iff]
  refine List.Forall₂.imp (fun x t hbuild => ?_) hbuilt
  obtain ⟨trace, htrace, hrest⟩ := Checks.bind_eq_ok_iff.mp hbuild
  obtain ⟨⟨⟩, hvalid, hpure⟩ := Checks.bind_eq_ok_iff.mp hrest
  injection hpure with hpure
  subst hpure
  exact ⟨Checks.mapError_eq_ok_iff.mp htrace, hvalid⟩

theorem Recording.exists_of_mem_build {r : Recording} {traces : List Trace} {t : Trace}
    (h : r.build = .ok traces) (ht : t ∈ traces) : ∃ events ∈ r.traces,
      Trace.ofSequences r.processes r.channels events = .ok t ∧ t.validate = .ok () := by
  obtain ⟨events, hevents, hbuild⟩ := Checks.exists_of_mem_right (forall₂_of_build h) ht
  exact ⟨events, hevents, hbuild⟩

theorem Recording.exists_mem_of_build {r : Recording} {traces : List Trace}
    {events : List (List Event)} (h : r.build = .ok traces) (hevents : events ∈ r.traces) :
    ∃ t ∈ traces, Trace.ofSequences r.processes r.channels events = .ok t ∧
      t.validate = .ok () := by
  obtain ⟨t, ht, hbuild⟩ := Checks.exists_of_mem_left (forall₂_of_build h) hevents
  exact ⟨t, ht, hbuild⟩

theorem Recording.of_mem_build {r : Recording} {traces : List Trace} {t : Trace}
    (h : r.build = .ok traces) (ht : t ∈ traces) :
    (∃ events, Trace.ofSequences r.processes r.channels events = .ok t) ∧ t.validate = .ok () := by
  obtain ⟨events, -, hevents, hvalid⟩ := exists_of_mem_build h ht
  exact ⟨⟨events, hevents⟩, hvalid⟩

end ProtocolInference
