import ProtocolInference.Proofs.Trace.Executions

/-!
# Traces that pass their checks

A trace comes from its root by adding observations and edges, so its edges lead from
observations to observations. Such a trace passes its checks if and only if it is well
formed: no path returns to where it started, every observation knows the processes and
channels of the system, the root is initial and has a path to each observation, and some
observation is accepting.
-/

namespace ProtocolInference.Trace

variable {t : Trace} {a b : Nat} {e : Event} {es fs : List Event}

/-! ### Traces as they are built -/

/-- The trace comes from its root by adding observations and edges. -/
inductive Built : Trace → Prop where
  | start (channels : List Channel) (root : Observation) : Built { channels, root }
  | observation {t : Trace} (o : Observation) : Built t → Built (t.addObservation o)
  | edge {t u : Trace} {source target : Nat} {e : Event} :
      Built t → t.addEdge source e target = .ok u → Built u

def Closed (t : Trace) : Prop := ∀ edge ∈ t.edges, edge.source < t.size ∧ edge.target < t.size

theorem addEdge_eq_ok_iff {u : Trace} {source target : Nat} :
    t.addEdge source e target = .ok u ↔ e.validate t.processes t.channels = .ok () ∧
      (source < t.size ∧ target < t.size) ∧
      u = { t with edges := t.edges ++ [⟨source, e, target⟩] } := by
  unfold addEdge
  cases hv : e.validate t.processes t.channels with
  | error cause => simp
  | ok _ =>
    dsimp only
    by_cases hin : source < t.size ∧ target < t.size
    · rw [if_pos hin]
      constructor
      · intro h
        injection h with h
        exact ⟨rfl, hin, h.symm⟩
      · rintro ⟨-, -, rfl⟩
        rfl
    · rw [if_neg hin]
      exact iff_of_false (fun h => by cases h) fun h => hin h.2.1

theorem Built.closed (h : t.Built) : t.Closed := by
  induction h with
  | start channels root => exact fun edge hedge => absurd hedge List.not_mem_nil
  | @observation t o _ ih =>
    intro edge hedge
    have hsize : (t.addObservation o).size = t.size + 1 := by
      simp [addObservation, size, observations]
    have hin := ih edge hedge
    omega
  | edge _ hadd ih =>
    obtain ⟨-, hin, rfl⟩ := addEdge_eq_ok_iff.mp hadd
    intro edge hedge
    rcases List.mem_append.mp hedge with hedge | hedge
    · exact ih edge hedge
    · rw [List.mem_singleton.mp hedge]
      exact hin

theorem mem_next_iff : (e, b) ∈ t.next a ↔ ⟨a, e, b⟩ ∈ t.edges := by
  constructor
  · intro h
    obtain ⟨edge, hedge, hpair⟩ := List.mem_map.mp h
    obtain ⟨hmem, hsource⟩ := List.mem_filter.mp hedge
    injection hpair with hevent htarget
    rw [← eq_of_beq hsource, ← hevent, ← htarget]
    exact hmem
  · intro h
    exact List.mem_map.mpr ⟨⟨a, e, b⟩, List.mem_filter.mpr ⟨h, beq_self_eq_true a⟩, rfl⟩

theorem Closed.of_mem_next (h : t.Closed) (hm : (e, b) ∈ t.next a) : a < t.size ∧ b < t.size :=
  h _ (mem_next_iff.mp hm)

theorem closed_of_ofSequences {processes : Nat} {channels : List Channel}
    {events : List (List Event)} (h : ofSequences processes channels events = .ok t) :
    t.Closed := by
  intro edge hedge
  exact Interleaving.lt_size_of_mem_next h (mem_next_iff.mpr hedge)

/-! ### Paths -/

theorem Path.append {c : Nat} (h : t.Path a es b) (h' : t.Path b fs c) :
    t.Path a (es ++ fs) c := by
  induction h with
  | nil node => exact h'
  | cons hnext _ ih => exact .cons hnext (ih h')

theorem size_graph (t : Trace) : t.graph.size = t.size := by
  simp [graph]

theorem leads_graph_iff (h : t.Closed) : t.graph.Leads a b ↔ ∃ e, (e, b) ∈ t.next a := by
  have hsucc : t.graph.Leads a b ↔ a < t.size ∧ b ∈ (t.next a).map (·.2) := by
    by_cases hlt : a < t.size <;> simp [Graph.Leads, graph, Graph.successors, hlt]
  rw [hsucc]
  constructor
  · rintro ⟨-, hm⟩
    obtain ⟨x, hx, rfl⟩ := List.mem_map.mp hm
    exact ⟨x.1, hx⟩
  · rintro ⟨e, hm⟩
    exact ⟨(h.of_mem_next hm).1, List.mem_map.mpr ⟨(e, b), hm, rfl⟩⟩

theorem reaches_graph_iff (h : t.Closed) : t.graph.Reaches a b ↔ ∃ es, t.Path a es b := by
  constructor
  · exact exists_path_of_reaches
  · rintro ⟨es, hp⟩
    induction hp with
    | nil node => exact .refl
    | cons hnext _ ih => exact .head ((leads_graph_iff h).mpr ⟨_, hnext⟩) ih

theorem hasCycle_graph_iff (h : t.Closed) :
    t.graph.hasCycle = true ↔ ∃ node e es, t.Path node (e :: es) node := by
  rw [Graph.hasCycle_eq_true_iff]
  constructor
  · rintro ⟨v, w, hl, hr⟩
    obtain ⟨e, hnext⟩ := (leads_graph_iff h).mp hl
    obtain ⟨es, hes⟩ := (reaches_graph_iff h).mp hr
    exact ⟨v, e, es, .cons hnext hes⟩
  · rintro ⟨node, e, es, hp⟩
    cases hp with
    | @cons _ w _ _ _ hnext hrest =>
      exact ⟨node, w, (leads_graph_iff h).mpr ⟨e, hnext⟩, (reaches_graph_iff h).mpr ⟨es, hrest⟩⟩

theorem length_preorder_eq_size_iff (h : t.Closed) :
    (t.graph.preorder [0]).length = t.size ↔ ∀ node < t.size, ∃ es, t.Path 0 es node := by
  constructor
  · exact fun hlen node hlt => exists_path_of_length hlen hlt
  · intro hall
    have hmem : ∀ v, v ∈ t.graph.preorder [0] ↔ v ∈ List.range t.size := by
      intro v
      simp only [Graph.mem_preorder_iff, size_graph, List.mem_singleton, exists_eq_left,
        reaches_graph_iff h, List.mem_range]
      exact ⟨fun hv => hv.1, fun hv => ⟨hv, hall v hv⟩⟩
    have hperm := (List.perm_ext_iff_of_nodup (t.graph.preorder_nodup [0]) List.nodup_range).mpr hmem
    rw [hperm.length_eq, List.length_range]

/-! ### What the checks say -/

structure WellFormed (t : Trace) : Prop where
  acyclic : ∀ node e es, ¬t.Path node (e :: es) node
  locals : ∀ o ∈ t.observations, o.locals.length = t.processes
  queues : ∀ o ∈ t.observations, o.queues.size = t.channels.length
  reached : ∀ node < t.size, ∃ es, t.Path 0 es node
  initial : t.root.isInitial = true
  accepting : ∃ o ∈ t.observations, o.isAccept = true

theorem checkObservation_eq_ok_iff {o : Observation} : t.checkObservation o = .ok () ↔
    o.locals.length = t.processes ∧ o.queues.size = t.channels.length := by
  unfold checkObservation
  split
  · rename_i h
    exact iff_of_false (fun hn => by cases hn) fun hn => h hn.1
  · rename_i hlocals
    split
    · rename_i h
      exact iff_of_false (fun hn => by cases hn) fun hn => h hn.2
    · rename_i hqueues
      exact iff_of_true rfl ⟨not_not.mp hlocals, not_not.mp hqueues⟩

theorem validate_eq_ok_iff (h : t.Closed) : t.validate = .ok () ↔ t.WellFormed := by
  have haccepting : (if t.observations.any (·.isAccept) = true then pure () else
      throw TraceError.neverAccepting : Except TraceError Unit) = .ok () ↔
      ∃ o ∈ t.observations, o.isAccept = true := by
    rw [← List.any_eq_true]
    split
    · rename_i hany
      exact iff_of_true rfl hany
    · rename_i hany
      exact iff_of_false (fun hn => by cases hn) hany
  unfold validate
  simp only [Checks.bind_eq_ok_iff, Checks.guard_eq_ok_iff, Checks.require_eq_ok_iff, not_not,
    haccepting, hasCycle_graph_iff h, length_preorder_eq_size_iff h]
  constructor
  · rintro ⟨hcycle, ⟨⟩, hobs, hreached, hinitial, hsome⟩
    have hshape := fun o ho => checkObservation_eq_ok_iff.mp (Checks.forM_eq_ok_iff.mp hobs o ho)
    exact ⟨fun node e es hp => hcycle ⟨node, e, es, hp⟩, fun o ho => (hshape o ho).1,
      fun o ho => (hshape o ho).2, hreached, hinitial, hsome⟩
  · intro hwf
    refine ⟨?_, (), Checks.forM_eq_ok_iff.mpr fun o ho => checkObservation_eq_ok_iff.mpr
      ⟨hwf.locals o ho, hwf.queues o ho⟩, hwf.reached, hwf.initial, hwf.accepting⟩
    rintro ⟨node, e, es, hp⟩
    exact hwf.acyclic node e es hp

end ProtocolInference.Trace

namespace ProtocolInference

theorem Recording.closed_of_build {r : Recording} {traces : List Trace}
    (h : r.build = .ok traces) : ∀ t ∈ traces, t.Closed ∧ t.validate = .ok () := by
  intro t ht
  obtain ⟨⟨events, hevents⟩, hvalid⟩ := of_mem_build h ht
  exact ⟨Trace.closed_of_ofSequences hevents, hvalid⟩

end ProtocolInference
