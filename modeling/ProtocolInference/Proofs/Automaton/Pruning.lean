import ProtocolInference.Proofs.Automaton.Language
import ProtocolInference.Proofs.Graph.Reachability
import ProtocolInference.Proofs.Table

/-!
# Pruning

Pruning keeps exactly the states that some path from an initial state leads to. No path
from an initial state leaves them, so the language is the same.
-/

namespace ProtocolInference.Automaton

variable {a : Automaton} {r s t id : Nat} {w : List Event} {e : Event} {x : State}

/-! ### Reachable states -/

/-- Some transition leads from one state to the other. -/
def Leads (a : Automaton) (s t : Nat) : Prop := ∃ e, a.Edge s e t

/-- Transitions, or none, lead from an initial state to the state with the number. -/
def Reachable (a : Automaton) (id : Nat) : Prop :=
  ∃ r ∈ a.initialStates, Relation.ReflTransGen a.Leads r id

theorem Run.leads (hw : a.Run s w t) : Relation.ReflTransGen a.Leads s t := by
  induction hw with
  | nil => exact .refl
  | cons he _ ih => exact .head ⟨_, he⟩ ih

theorem exists_run_of_leads (h : Relation.ReflTransGen a.Leads s t) : ∃ w, a.Run s w t := by
  induction h with
  | refl => exact ⟨[], .nil s⟩
  | tail _ hl ih =>
    obtain ⟨w, hw⟩ := ih
    obtain ⟨e, he⟩ := hl
    exact ⟨w ++ [e], hw.append (.cons he (.nil _))⟩

theorem reachable_of_mem_initialStates (h : id ∈ a.initialStates) : a.Reachable id :=
  ⟨id, h, .refl⟩

theorem Reachable.run (h : a.Reachable s) (hw : a.Run s w t) : a.Reachable t := by
  obtain ⟨r, hr, hrs⟩ := h
  exact ⟨r, hr, hrs.trans hw.leads⟩

theorem Reachable.edge (h : a.Reachable s) (he : a.Edge s e t) : a.Reachable t :=
  h.run (.cons he (.nil t))

theorem Trim.reachable (h : a.Trim) (hx : x ∈ a.states) : a.Reachable x.id := by
  obtain ⟨r, hr, w, hw⟩ := h x hx
  exact ⟨r, hr, hw.leads⟩

/-! ### The graph of an automaton -/

theorem graph_eq_fill (a : Automaton) :
    a.graph = Table.fill (·.id) (fun s => s.transitions.map (·.2))
      (Array.replicate a.nextId []) a.states := rfl

theorem size_graph (a : Automaton) : a.graph.size = a.nextId := by
  rw [graph_eq_fill, Table.size_fill, Array.size_replicate]

theorem successors_graph {a : Automaton} (h : a.WellFormed) {s : State} (hs : s ∈ a.states) :
    a.graph.successors s.id = s.transitions.map (·.2) := by
  have hlt : s.id < (Array.replicate a.nextId ([] : List Nat)).size := by
    rw [Array.size_replicate]
    exact (h.bounds s hs).2
  rw [Graph.successors, graph_eq_fill, Table.getElem?_fill_of_mem h.nodup hs hlt,
    Option.getD_some]

theorem leads_graph_iff {a : Automaton} (h : a.WellFormed) {x y : Nat} :
    a.graph.Leads x y ↔ a.Leads x y := by
  constructor
  · intro hl
    by_cases hx : ∃ s ∈ a.states, s.id = x
    · obtain ⟨s, hs, rfl⟩ := hx
      rw [Graph.Leads, successors_graph h hs] at hl
      obtain ⟨⟨e, t⟩, hm, rfl⟩ := List.mem_map.mp hl
      exact ⟨e, s, hs, rfl, hm⟩
    · -- A number that no state has is left without successors.
      have hne : ∀ s ∈ a.states, s.id ≠ x := fun s hs he => hx ⟨s, hs, he⟩
      rw [Graph.Leads, Graph.successors, graph_eq_fill,
        Table.getElem?_fill_of_forall_ne _ hne, Array.getElem?_replicate] at hl
      split at hl <;> simp at hl
  · rintro ⟨e, s, hs, rfl, hm⟩
    rw [Graph.Leads, successors_graph h hs]
    exact List.mem_map.mpr ⟨(e, y), hm, rfl⟩

theorem reaches_graph (h : a.WellFormed) :
    a.graph.Reaches = Relation.ReflTransGen a.Leads := by
  have hleads : a.graph.Leads = a.Leads := by
    funext s t
    exact propext (leads_graph_iff h)
  rw [← hleads]
  rfl

/-! ### Pruned automata -/

theorem mem_prune (h : a.WellFormed) :
    x ∈ a.prune.1.states ↔ x ∈ a.states ∧ a.Reachable x.id := by
  simp only [prune, List.mem_filter, Graph.reached_getD, reaches_graph h, size_graph]
  constructor
  · exact fun ⟨hx, _, hr⟩ => ⟨hx, hr⟩
  · exact fun ⟨hx, hr⟩ => ⟨hx, (h.bounds x hx).2, hr⟩

theorem edge_of_edge_prune (h : a.WellFormed) (he : a.prune.1.Edge s e t) : a.Edge s e t := by
  obtain ⟨x, hx, hid, hm⟩ := he
  exact ⟨x, ((mem_prune h).mp hx).1, hid, hm⟩

theorem run_of_run_prune (h : a.WellFormed) (hw : a.prune.1.Run s w t) : a.Run s w t := by
  induction hw with
  | nil s => exact .nil s
  | cons he _ ih => exact .cons (edge_of_edge_prune h he) ih

/-- A path that starts where an initial state leads stays among the kept states. -/
theorem run_prune_of_run (h : a.WellFormed) (hw : a.Run s w t) (hs : a.Reachable s) :
    a.prune.1.Run s w t := by
  induction hw with
  | nil s => exact .nil s
  | cons he _ ih =>
    have hnext := hs.edge he
    obtain ⟨x, hx, rfl, hm⟩ := he
    exact .cons ⟨x, (mem_prune h).mpr ⟨hx, hs⟩, rfl, hm⟩ (ih hnext)

theorem initialStates_prune (h : a.WellFormed) : a.prune.1.initialStates = a.initialStates := by
  have hfilter : a.prune.1.states.filter (·.initial) = a.states.filter (·.initial) := by
    rw [prune, List.filter_filter]
    refine List.filter_congr fun x hx => ?_
    by_cases hi : x.initial = true
    · have hreach := reachable_of_mem_initialStates ((h.id_mem_initialStates_iff hx).mpr hi)
      rw [hi, Bool.true_and]
      exact (List.mem_filter.mp ((mem_prune h).mpr ⟨hx, hreach⟩)).2
    · rw [Bool.not_eq_true] at hi
      rw [hi, Bool.false_and]
  rw [initialStates, initialStates, hfilter]

theorem accepts_prune_iff (h : a.WellFormed) : a.prune.1.Accepts w ↔ a.Accepts w := by
  constructor
  · intro hw
    obtain ⟨s, hs, t, ht, hw⟩ := hw
    obtain ⟨x, hx, haccept, hid⟩ := mem_acceptStates.mp ht
    rw [initialStates_prune h] at hs
    refine ⟨s, hs, t, ?_, run_of_run_prune h hw⟩
    exact mem_acceptStates.mpr ⟨x, ((mem_prune h).mp hx).1, haccept, hid⟩
  · intro hw
    obtain ⟨s, hs, t, ht, hw⟩ := hw
    obtain ⟨x, hx, haccept, rfl⟩ := mem_acceptStates.mp ht
    have hreach := reachable_of_mem_initialStates hs
    rw [← initialStates_prune h] at hs
    refine ⟨s, hs, x.id, ?_, run_prune_of_run h hw hreach⟩
    exact mem_acceptStates.mpr ⟨x, (mem_prune h).mpr ⟨hx, hreach.run hw⟩, haccept, rfl⟩

theorem WellFormed.prune (h : a.WellFormed) : a.prune.1.WellFormed where
  ascending := h.ascending.sublist (List.filter_sublist.map _)
  bounds := fun x hx => h.bounds x ((mem_prune h).mp hx).1
  targets := by
    intro x hx e t hm
    obtain ⟨hx, hreach⟩ := (mem_prune h).mp hx
    obtain ⟨u, hu, rfl⟩ := h.targets x hx e t hm
    exact ⟨u, (mem_prune h).mpr ⟨hu, hreach.edge ⟨x, hx, rfl, hm⟩⟩, rfl⟩

theorem trim_prune (h : a.WellFormed) : a.prune.1.Trim := by
  intro x hx
  obtain ⟨r, hr, hrx⟩ := ((mem_prune h).mp hx).2
  obtain ⟨w, hw⟩ := exists_run_of_leads hrx
  have hreach := reachable_of_mem_initialStates hr
  rw [initialStates_prune h]
  exact ⟨r, hr, w, run_prune_of_run h hw hreach⟩

/-! ### What is taken away -/

/-- The number that is returned is that of the states that have gone. -/
theorem snd_prune (a : Automaton) :
    a.prune.2 = (a.states.filter (· ∉ a.prune.1.states)).length := by
  have hcount : ∀ p : State → Bool, a.states.length - (a.states.filter p).length =
      (a.states.filter (· ∉ a.states.filter p)).length := by
    intro p
    have hgone : a.states.filter (· ∉ a.states.filter p) = a.states.filter (!p ·) := by
      refine List.filter_congr fun s hs => ?_
      simp [List.mem_filter, hs]
    have hlength := List.length_eq_length_filter_add (l := a.states) p
    rw [hgone]
    omega
  exact hcount _

/-- Where every state can be reached, nothing is taken away. -/
theorem Trim.prune_eq (ht : a.Trim) (h : a.WellFormed) : a.prune = (a, 0) := by
  have hstates : a.prune.1.states = a.states := by
    rw [prune, List.filter_eq_self]
    intro s hs
    exact (List.mem_filter.mp ((mem_prune h).mpr ⟨hs, ht.reachable hs⟩)).2
  have hnone : a.prune.2 = 0 := by
    rw [snd_prune, hstates]
    simp
  refine Prod.ext ?_ hnone
  show Automaton.mk a.pid a.prune.1.states a.nextId = a
  rw [hstates]

end ProtocolInference.Automaton
