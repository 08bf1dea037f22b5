import Mathlib.Data.List.Perm.Basic
import ProtocolInference.Proofs.Automaton.Building

/-!
# What an operation changes

Adding a state leaves the transitions as they are. Adding or removing a transition leaves the
states as they are, and the other transitions. So the number of transitions changes by one at
most, and the initial and accepting states stay what they were.
-/

namespace ProtocolInference.Automaton

variable {a b c : Automaton} {s t source target id : Nat} {e f : Event}
  {change : State → State}

/-! ### The states -/

theorem sameOutline_iff : a.sameOutline b = true ↔ a.pid = b.pid ∧ a.nextId = b.nextId ∧
    a.states.map (fun s => (s.id, s.initial, s.accept)) =
      b.states.map (fun s => (s.id, s.initial, s.accept)) := by
  simp [sameOutline, and_assoc]

theorem sameOutline_trans (h : a.sameOutline b = true) (h' : b.sameOutline c = true) :
    a.sameOutline c = true := by
  rw [sameOutline_iff] at h h' ⊢
  exact ⟨h.1.trans h'.1, h.2.1.trans h'.2.1, h.2.2.trans h'.2.2⟩

theorem pid_eq_of_sameOutline (h : a.sameOutline b = true) : b.pid = a.pid :=
  (sameOutline_iff.mp h).1.symm

theorem nextId_eq_of_sameOutline (h : a.sameOutline b = true) : b.nextId = a.nextId :=
  (sameOutline_iff.mp h).2.1.symm

theorem length_states_of_sameOutline (h : a.sameOutline b = true) :
    b.states.length = a.states.length := by
  have hlength := congrArg List.length (sameOutline_iff.mp h).2.2
  rw [List.length_map, List.length_map] at hlength
  exact hlength.symm

/-- The states whose flags have a property are the same. -/
theorem map_filter_of_sameOutline (h : a.sameOutline b = true) (p : Bool → Bool → Bool) :
    (b.states.filter fun s => p s.initial s.accept).map (·.id) =
      (a.states.filter fun s => p s.initial s.accept).map (·.id) := by
  have houtline : ∀ c : Automaton, (c.states.filter fun s => p s.initial s.accept).map (·.id) =
      ((c.states.map fun s => (s.id, s.initial, s.accept)).filter fun x => p x.2.1 x.2.2).map
        (·.1) := by
    intro c
    rw [List.filter_map, List.map_map]
    rfl
  rw [houtline, houtline, (sameOutline_iff.mp h).2.2]

theorem initialStates_of_sameOutline (h : a.sameOutline b = true) :
    b.initialStates = a.initialStates :=
  map_filter_of_sameOutline h fun initial _ => initial

theorem acceptStates_of_sameOutline (h : a.sameOutline b = true) :
    b.acceptStates = a.acceptStates :=
  map_filter_of_sameOutline h fun _ accept => accept

theorem exists_state_of_sameOutline (h : a.sameOutline b = true) :
    (∃ x ∈ b.states, x.id = id) ↔ ∃ x ∈ a.states, x.id = id := by
  have hids : b.states.map (·.id) = a.states.map (·.id) := by
    have hmap := congrArg (List.map Prod.fst) (sameOutline_iff.mp h).2.2
    rw [List.map_map, List.map_map] at hmap
    exact hmap.symm
  rw [← List.mem_map, hids, List.mem_map]

theorem sameOutline_updateState
    (hchange : ∀ s, (change s).id = s.id ∧ (change s).initial = s.initial ∧
      (change s).accept = s.accept) : a.sameOutline (a.updateState id change) = true := by
  refine sameOutline_iff.mpr ⟨rfl, rfl, ?_⟩
  rw [updateState, List.map_map]
  refine List.map_congr_left fun s _ => ?_
  rw [Function.comp_apply]
  split
  · obtain ⟨hid, hinitial, haccept⟩ := hchange s
    rw [hid, hinitial, haccept]
  · rfl

theorem sameOutline_insertTransition :
    a.sameOutline (a.insertTransition source e target) = true :=
  sameOutline_updateState fun _ => ⟨rfl, rfl, rfl⟩

/-! ### The transitions -/

theorem edge_updateState_iff (hid : ∀ s, (change s).id = s.id) :
    (a.updateState id change).Edge s f t ↔
      ∃ x ∈ a.states, x.id = s ∧ (f, t) ∈ (if x.id = id then change x else x).transitions := by
  constructor
  · intro h
    obtain ⟨y, hy, hs, hm⟩ := h
    obtain ⟨x, hx, rfl⟩ := List.mem_map.mp hy
    have hsame : (if x.id = id then change x else x).id = x.id := by split <;> simp [hid]
    exact ⟨x, hx, hsame.symm.trans hs, hm⟩
  · intro h
    obtain ⟨x, hx, hs, hm⟩ := h
    have hsame : (if x.id = id then change x else x).id = x.id := by split <;> simp [hid]
    exact ⟨_, List.mem_map_of_mem hx, hsame.trans hs, hm⟩

theorem edge_addState_iff {initial accept : Bool} :
    (a.addState initial accept).1.Edge s f t ↔ a.Edge s f t := by
  constructor
  · intro h
    obtain ⟨x, hx, hid, hm⟩ := h
    rcases mem_addState.mp hx with hx | hx
    · exact ⟨x, hx, hid, hm⟩
    · rw [hx] at hm
      exact absurd hm List.not_mem_nil
  · intro h
    obtain ⟨x, hx, hid, hm⟩ := h
    exact ⟨x, mem_addState.mpr (Or.inl hx), hid, hm⟩

theorem edge_insertTransition_iff (hsource : ∃ x ∈ a.states, x.id = source) :
    (a.insertTransition source e target).Edge s f t ↔
      (s, f, t) = (source, e, target) ∨ a.Edge s f t := by
  have hid : ∀ s : State, State.id { s with
      transitions := Ascending.insert (e, target) s.transitions } = s.id := fun _ => rfl
  rw [insertTransition, edge_updateState_iff hid]
  constructor
  · intro h
    obtain ⟨x, hx, hs, hm⟩ := h
    split at hm
    · rename_i hid
      rcases Ascending.mem_insert.mp hm with hm | hm
      · exact Or.inl (by rw [← hs, hid, hm])
      · exact Or.inr ⟨x, hx, hs, hm⟩
    · exact Or.inr ⟨x, hx, hs, hm⟩
  · intro h
    rcases h with h | h
    · obtain ⟨x, hx, hid⟩ := hsource
      injection h with h1 h2
      refine ⟨x, hx, hid.trans h1.symm, ?_⟩
      rw [if_pos hid]
      exact Ascending.mem_insert.mpr (Or.inl h2)
    · obtain ⟨x, hx, hs, hm⟩ := h
      refine ⟨x, hx, hs, ?_⟩
      split
      · exact Ascending.mem_insert.mpr (Or.inr hm)
      · exact hm

theorem edge_of_removeTransition (h : a.removeTransition source e target = .ok b) :
    b.Edge s f t ↔ a.Edge s f t ∧ (s, f, t) ≠ (source, e, target) := by
  obtain ⟨-, rfl⟩ := removeTransition_eq_ok_iff.mp h
  have hid : ∀ s : State, State.id { s with
      transitions := s.transitions.filter (· ≠ (e, target)) } = s.id := fun _ => rfl
  rw [edge_updateState_iff hid]
  constructor
  · intro h
    obtain ⟨x, hx, hs, hm⟩ := h
    split at hm
    · obtain ⟨hm, hne⟩ := List.mem_filter.mp hm
      rw [decide_eq_true_eq] at hne
      exact ⟨⟨x, hx, hs, hm⟩, fun heq => hne (Prod.ext_iff.mp heq).2⟩
    · rename_i hid
      exact ⟨⟨x, hx, hs, hm⟩, fun heq => hid (hs.trans (Prod.ext_iff.mp heq).1)⟩
  · intro h
    obtain ⟨⟨x, hx, hs, hm⟩, hne⟩ := h
    refine ⟨x, hx, hs, ?_⟩
    split
    · rename_i hid
      refine List.mem_filter.mpr ⟨hm, decide_eq_true fun heq => hne ?_⟩
      rw [← hs, hid, heq]
    · exact hm

theorem sameOutline_of_removeTransition (h : a.removeTransition source e target = .ok b) :
    a.sameOutline b = true := by
  obtain ⟨-, rfl⟩ := removeTransition_eq_ok_iff.mp h
  exact sameOutline_updateState fun _ => ⟨rfl, rfl, rfl⟩

theorem WellFormed.state?_id (h : a.WellFormed) {x : State} (hx : x ∈ a.states) :
    a.state? x.id = some x := by
  rw [state?, List.find?_eq_some_iff_append]
  obtain ⟨before, after, heq⟩ := List.append_of_mem hx
  refine ⟨beq_self_eq_true x.id, before, after, heq, fun y hy => ?_⟩
  have hnodup := h.nodup
  rw [heq, List.map_append, List.map_cons] at hnodup
  have hne : y.id ≠ x.id := (List.nodup_append.mp hnodup).2.2 y.id (List.mem_map_of_mem hy) x.id
    (List.mem_cons_self ..)
  exact bne_iff_ne.mpr hne

theorem WellFormed.state?_eq_some_iff (h : a.WellFormed) {x : State} :
    a.state? id = some x ↔ x ∈ a.states ∧ x.id = id := by
  constructor
  · intro hx
    rw [state?] at hx
    have hid := List.find?_some hx
    exact ⟨List.mem_of_find?_eq_some hx, eq_of_beq hid⟩
  · intro hx
    rw [← hx.2]
    exact h.state?_id hx.1

theorem sameOutline_of_addTransition (h : a.addTransition source e target = .ok b) :
    a.sameOutline b = true := by
  obtain ⟨-, -, rfl⟩ := addTransition_eq_ok_iff.mp h
  exact sameOutline_insertTransition

theorem sameOutline_of_addSyntheticTransition
    (h : a.addSyntheticTransition source e target = .ok b) : a.sameOutline b = true := by
  obtain ⟨-, -, rfl⟩ := addSyntheticTransition_eq_ok_iff.mp h
  exact sameOutline_insertTransition

theorem edge_of_addTransition (h : a.addTransition source e target = .ok b) :
    b.Edge s f t ↔ (s, f, t) = (source, e, target) ∨ a.Edge s f t := by
  obtain ⟨⟨hsource, -⟩, -, rfl⟩ := addTransition_eq_ok_iff.mp h
  exact edge_insertTransition_iff hsource

theorem edge_of_addSyntheticTransition (h : a.addSyntheticTransition source e target = .ok b) :
    b.Edge s f t ↔ (s, f, t) = (source, e, target) ∨ a.Edge s f t := by
  obtain ⟨⟨hsource, -⟩, -, rfl⟩ := addSyntheticTransition_eq_ok_iff.mp h
  exact edge_insertTransition_iff hsource

/-- A transition that is there can be removed. -/
theorem WellFormed.exists_removeTransition (h : a.WellFormed) (he : a.Edge source e target) :
    ∃ b, a.removeTransition source e target = .ok b := by
  obtain ⟨x, hx, rfl, hm⟩ := he
  exact ⟨_, removeTransition_eq_ok_iff.mpr ⟨⟨x, h.state?_id hx, hm⟩, rfl⟩⟩

/-! ### The number of transitions -/

/-- The transitions, each with the state that it leaves. -/
def edges (a : Automaton) : List (Nat × Event × Nat) :=
  a.states.flatMap fun s => s.transitions.map fun x => (s.id, x)

theorem mem_edges : (s, e, t) ∈ a.edges ↔ a.Edge s e t := by
  simp only [edges, List.mem_flatMap, List.mem_map, Prod.mk.injEq]
  constructor
  · intro h
    obtain ⟨x, hx, y, hy, hid, rfl⟩ := h
    exact ⟨x, hx, hid, hy⟩
  · intro h
    obtain ⟨x, hx, hid, hm⟩ := h
    exact ⟨x, hx, (e, t), hm, hid, rfl⟩

theorem length_edges (a : Automaton) : a.edges.length = a.transitionCount := by
  simp [edges, transitionCount, List.length_flatMap]

theorem nodup_edges (h : a.WellFormed) (ho : Ordered a.states) : a.edges.Nodup := by
  refine List.nodup_flatMap.mpr ⟨fun x hx => ?_, ?_⟩
  · exact (ho x hx).nodup.map fun _ _ heq => (Prod.ext_iff.mp heq).2
  · refine (List.pairwise_map.mp h.nodup).imp fun {x y} hne => ?_
    intro p hp hq
    obtain ⟨u, -, rfl⟩ := List.mem_map.mp hp
    obtain ⟨v, -, heq⟩ := List.mem_map.mp hq
    exact hne (Prod.ext_iff.mp heq).1.symm

/-- One more transition counts one more. -/
theorem transitionCount_eq_add_one (ha : a.Built) (hb : b.Built) (hnew : ¬a.Edge source e target)
    (h : ∀ s f t, b.Edge s f t ↔ (s, f, t) = (source, e, target) ∨ a.Edge s f t) :
    b.transitionCount = a.transitionCount + 1 := by
  have hperm : b.edges.Perm ((source, e, target) :: a.edges) := by
    refine (List.perm_ext_iff_of_nodup (nodup_edges hb.wellFormed hb.ordered) ?_).mpr fun q => ?_
    · exact List.nodup_cons.mpr
        ⟨fun hmem => hnew (mem_edges.mp hmem), nodup_edges ha.wellFormed ha.ordered⟩
    · obtain ⟨s, f, t⟩ := q
      rw [List.mem_cons, mem_edges, mem_edges, h]
  have hlength := hperm.length_eq
  rw [List.length_cons, length_edges, length_edges] at hlength
  exact hlength

theorem transitionCount_addState {initial accept : Bool} :
    (a.addState initial accept).1.transitionCount = a.transitionCount := by
  simp [addState, transitionCount]

theorem transitionCount_of_removeTransition (h : a.Built) (he : a.Edge source e target)
    (hr : a.removeTransition source e target = .ok b) :
    a.transitionCount = b.transitionCount + 1 := by
  refine transitionCount_eq_add_one (.removal h hr) h
    (fun hedge => ((edge_of_removeTransition hr).mp hedge).2 rfl) fun s f t => ?_
  rw [edge_of_removeTransition hr]
  by_cases heq : (s, f, t) = (source, e, target)
  · cases heq
    exact iff_of_true he (Or.inl rfl)
  · exact ⟨fun hedge => Or.inr ⟨hedge, heq⟩, fun hq => (hq.resolve_left heq).1⟩

end ProtocolInference.Automaton
