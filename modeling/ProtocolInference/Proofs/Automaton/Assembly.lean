import Mathlib.Data.List.Induction
import ProtocolInference.Proofs.Automaton.Editing

/-!
# Assembling automata

An automaton is what its outline and its transitions say. If its states have the numbers from
one on and its transitions are on events of its process, it can be built: the states are added
in turn, and the transitions after all the states. Main statement: `built_of_numbered`.
-/

namespace ProtocolInference.Automaton

variable {a b : Automaton}

theorem eq_of_edge_iff (ha : a.WellFormed) (hb : b.WellFormed) (hoa : Ordered a.states)
    (hob : Ordered b.states) (houtline : a.sameOutline b = true)
    (h : ∀ s e t, a.Edge s e t ↔ b.Edge s e t) : a = b := by
  have hext : ∀ {x y : State}, x.id = y.id → x.initial = y.initial → x.accept = y.accept →
      x.transitions = y.transitions → x = y := by
    intro x y hid hinitial haccept htransitions
    cases x
    cases y
    simp_all
  obtain ⟨hpid, hnext, hstates⟩ := sameOutline_iff.mp houtline
  have hall : a.states = b.states := by
    refine List.ext_getElem (length_states_of_sameOutline houtline).symm fun i hi hj => ?_
    have hx := List.getElem_mem hi
    have hy := List.getElem_mem hj
    have hparts := congrArg (·[i]?) hstates
    simp only [List.getElem?_map, List.getElem?_eq_getElem hi, List.getElem?_eq_getElem hj,
      Option.map_some, Option.some.injEq, Prod.mk.injEq] at hparts
    obtain ⟨hid, hinitial, haccept⟩ := hparts
    have htransitions : a.states[i].transitions = b.states[i].transitions := by
      refine (hoa _ hx).ext (hob _ hy) fun ⟨e, t⟩ => ?_
      rw [← ha.edge_iff hx, ← hb.edge_iff hy, h, hid]
    exact hext hid hinitial haccept htransitions
  cases a
  cases b
  simp_all

/-- States that have the numbers from one on can be added in turn. -/
theorem built_outline (pid : Nat) {states : List State}
    (hids : states.map (·.id) = List.range' 1 states.length) :
    Built ⟨pid, states.map fun s => { s with transitions := [] }, states.length + 1⟩ := by
  induction states using List.reverseRecOn with
  | nil => exact .empty pid
  | append_singleton states s ih =>
    rw [List.map_append, List.length_append, List.length_singleton, List.range'_1_concat] at hids
    obtain ⟨hids, hlast⟩ := List.append_inj' hids rfl
    have hid : s.id = states.length + 1 := by
      rw [Nat.add_comm]
      exact (List.cons.inj hlast).1
    have hstate := Built.state s.initial s.accept (ih hids)
    rw [List.map_append, List.length_append, List.length_singleton, List.map_singleton, hid]
    exact hstate

/-- Transitions on events of the process can be added between states that are there. -/
theorem Built.exists_edges (h : a.Built) {es : List (Nat × Event × Nat)}
    (hes : ∀ s e t, (s, e, t) ∈ es → e.pid = a.pid ∧
      (∃ x ∈ a.states, x.id = s) ∧ ∃ x ∈ a.states, x.id = t) :
    ∃ b, b.Built ∧ a.sameOutline b = true ∧
      ∀ s e t, b.Edge s e t ↔ a.Edge s e t ∨ (s, e, t) ∈ es := by
  induction es generalizing a with
  | nil =>
    refine ⟨a, h, sameOutline_iff.mpr ⟨rfl, rfl, rfl⟩, fun s e t => ?_⟩
    simp
  | cons p es ih =>
    obtain ⟨s, e, t⟩ := p
    obtain ⟨hpid, hsource, htarget⟩ := hes s e t (List.mem_cons_self ..)
    have hadd := addTransition_eq_ok_iff.mpr ⟨⟨hsource, htarget⟩, hpid, rfl⟩
    have houtline := sameOutline_of_addTransition hadd
    obtain ⟨b, hb, hrest, hedges⟩ := ih (.transition h hadd) fun s' e' t' hmem => by
      rw [pid_eq_of_sameOutline houtline, exists_state_of_sameOutline houtline,
        exists_state_of_sameOutline houtline]
      exact hes s' e' t' (List.mem_cons_of_mem _ hmem)
    refine ⟨b, hb, sameOutline_trans houtline hrest, fun s' e' t' => ?_⟩
    rw [hedges, edge_of_addTransition hadd, List.mem_cons]
    tauto

/-- A well-formed automaton that skips no number and keeps to its process can be built. -/
theorem built_of_numbered (hids : a.states.map (·.id) = List.range' 1 a.states.length)
    (hnext : a.nextId = a.states.length + 1) (hwf : a.WellFormed) (ho : Ordered a.states)
    (hown : ∀ s e t, a.Edge s e t → e.pid = a.pid) : a.Built := by
  have houtline := built_outline a.pid hids
  have hsame : a.sameOutline ⟨a.pid, a.states.map fun s => { s with transitions := [] },
      a.states.length + 1⟩ = true := by
    refine sameOutline_iff.mpr ⟨rfl, hnext, ?_⟩
    rw [List.map_map]
    rfl
  have hends : ∀ s e t, (s, e, t) ∈ a.edges → e.pid = a.pid ∧
      (∃ x ∈ a.states.map fun s => { s with transitions := [] }, x.id = s) ∧
      ∃ x ∈ a.states.map fun s => { s with transitions := [] }, x.id = t := by
    intro s e t hmem
    have hedge := mem_edges.mp hmem
    obtain ⟨x, hx, hid, -⟩ := id hedge
    exact ⟨hown s e t hedge, (exists_state_of_sameOutline hsame).mpr ⟨x, hx, hid⟩,
      (exists_state_of_sameOutline hsame).mpr (hwf.exists_target hedge)⟩
  obtain ⟨b, hb, hrest, hedges⟩ := houtline.exists_edges hends
  have heq : a = b := by
    refine eq_of_edge_iff hwf hb.wellFormed ho hb.ordered (sameOutline_trans hsame hrest)
      fun s e t => ?_
    have hblank : ¬Edge ⟨a.pid, a.states.map fun s => { s with transitions := [] },
        a.states.length + 1⟩ s e t := by
      intro hedge
      obtain ⟨x, hx, -, hm⟩ := hedge
      obtain ⟨y, -, rfl⟩ := List.mem_map.mp hx
      cases hm
    rw [hedges, mem_edges, or_iff_right hblank]
  rw [heq]
  exact hb

end ProtocolInference.Automaton
