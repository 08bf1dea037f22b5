import ProtocolInference.Proofs.Automaton.Minimality
import ProtocolInference.Proofs.Automaton.Pruning
import ProtocolInference.Proofs.Checks

/-!
# Automata as they are built

An automaton comes from one without states by adding states and transitions, by taking
transitions away, and by reducing it. A transition is only added between states that are
there, and the number of a state is a new one, so every automaton that is built is well
formed. The transitions of each state stay in ascending order.
-/

namespace ProtocolInference.Automaton

variable {a b : Automaton} {source target id : Nat} {e : Event} {change : State → State}

/-- The automaton comes from one without states by the operations on automata. -/
inductive Built : Automaton → Prop where
  | empty (pid : Nat) : Built (.empty pid)
  | state {a : Automaton} (initial accept : Bool) : Built a → Built (a.addState initial accept).1
  | transition {a b : Automaton} {source target : Nat} {e : Event} :
      Built a → a.addTransition source e target = .ok b → Built b
  | synthetic {a b : Automaton} {source target : Nat} {e : Event} :
      Built a → a.addSyntheticTransition source e target = .ok b → Built b
  | removal {a b : Automaton} {source target : Nat} {e : Event} :
      Built a → a.removeTransition source e target = .ok b → Built b
  | pruned {a : Automaton} : Built a → Built a.prune.1
  | minimized {a : Automaton} : Built a → Built a.minimize.1

/-! ### Changing a state -/

theorem map_id_updateState (hid : ∀ s, (change s).id = s.id) :
    (a.updateState id change).states.map (·.id) = a.states.map (·.id) := by
  simp only [updateState, List.map_map]
  refine List.map_congr_left fun s _ => ?_
  by_cases hs : s.id = id <;> simp [hs, hid]

theorem WellFormed.updateState (h : a.WellFormed) (hid : ∀ s, (change s).id = s.id)
    (htargets : ∀ s ∈ a.states, ∀ x ∈ (change s).transitions,
      x ∈ s.transitions ∨ ∃ u ∈ a.states, u.id = x.2) :
    (a.updateState id change).WellFormed := by
  have hids : (a.updateState id change).states.map (·.id) = a.states.map (·.id) :=
    map_id_updateState hid
  have hstay : ∀ s ∈ a.states, ∃ t ∈ (a.updateState id change).states, t.id = s.id := by
    intro s hs
    have hmem : s.id ∈ (a.updateState id change).states.map (·.id) := by
      rw [hids]
      exact List.mem_map_of_mem hs
    exact List.mem_map.mp hmem
  constructor
  case ascending =>
    rw [hids]
    exact h.ascending
  case bounds =>
    intro t ht
    obtain ⟨s, hs, rfl⟩ := List.mem_map.mp ht
    have hsame : (if s.id = id then change s else s).id = s.id := by split <;> simp [hid]
    rw [hsame]
    exact h.bounds s hs
  case targets =>
    intro t ht e v hm
    obtain ⟨s, hs, rfl⟩ := List.mem_map.mp ht
    have hold : (e, v) ∈ s.transitions ∨ ∃ u ∈ a.states, u.id = v := by
      split at hm
      · exact htargets s hs (e, v) hm
      · exact Or.inl hm
    have htarget : ∃ u ∈ a.states, u.id = v := hold.elim (h.targets s hs e v) (fun hu => hu)
    obtain ⟨u, hu, rfl⟩ := htarget
    exact hstay u hu

theorem Ordered.updateState (h : Ordered a.states)
    (hchange : ∀ s, Ascending.Sorted s.transitions → Ascending.Sorted (change s).transitions) :
    Ordered (a.updateState id change).states := by
  intro t ht
  obtain ⟨s, hs, rfl⟩ := List.mem_map.mp ht
  split
  · exact hchange s (h s hs)
  · exact h s hs

/-! ### The operations -/

theorem mem_addState {s : State} {initial accept : Bool} :
    s ∈ (a.addState initial accept).1.states ↔
      s ∈ a.states ∨ s = ⟨a.nextId, initial, accept, []⟩ := by
  simp [Automaton.addState]

theorem WellFormed.addState (h : a.WellFormed) (initial accept : Bool) (hpos : 1 ≤ a.nextId) :
    (a.addState initial accept).1.WellFormed := by
  constructor
  case ascending =>
    have hnew : ∀ i ∈ a.states.map (·.id), i < a.nextId := by
      intro i hi
      obtain ⟨s, hs, rfl⟩ := List.mem_map.mp hi
      exact (h.bounds s hs).2
    simpa [Automaton.addState, List.pairwise_append] using ⟨h.ascending, by simpa using hnew⟩
  case bounds =>
    intro s hs
    show 1 ≤ s.id ∧ s.id < a.nextId + 1
    rcases mem_addState.mp hs with hs | hs
    · have hb := h.bounds s hs
      omega
    · rw [hs]
      exact ⟨hpos, Nat.lt_succ_self _⟩
  case targets =>
    intro s hs e v hm
    rcases mem_addState.mp hs with hs | hs
    · obtain ⟨u, hu, hid⟩ := h.targets s hs e v hm
      exact ⟨u, List.mem_append_left _ hu, hid⟩
    · rw [hs] at hm
      exact absurd hm List.not_mem_nil

theorem state?_isNone_iff : (a.state? id).isNone = true ↔ ¬∃ s ∈ a.states, s.id = id := by
  simp [state?]

theorem checkEnds_eq_ok_iff : a.checkEnds source target = .ok () ↔
    (∃ s ∈ a.states, s.id = source) ∧ ∃ t ∈ a.states, t.id = target := by
  unfold checkEnds
  simp only [state?_isNone_iff]
  split
  · simp_all
  · split <;> simp_all

/-- A transition is added where the states at its ends are there and the event is one that
may be on it. -/
theorem insertTransition_eq_ok_iff {rest : Except AutomatonFault Automaton} {p : Prop}
    (hrest : rest = .ok b ↔
      p ∧ (pure (a.insertTransition source e target) : Except AutomatonFault Automaton) = .ok b) :
    (a.checkEnds source target >>= fun _ => rest) = .ok b ↔
      ((∃ s ∈ a.states, s.id = source) ∧ ∃ t ∈ a.states, t.id = target) ∧
        p ∧ b = a.insertTransition source e target := by
  rw [Checks.bind_eq_ok_iff, hrest, ← checkEnds_eq_ok_iff]
  constructor
  · intro h
    obtain ⟨⟨⟩, hends, hp, hb⟩ := h
    exact ⟨hends, hp, (Except.ok.inj hb).symm⟩
  · intro h
    obtain ⟨hends, hp, hb⟩ := h
    exact ⟨(), hends, hp, congrArg Except.ok hb.symm⟩

theorem addTransition_eq_ok_iff : a.addTransition source e target = .ok b ↔
    ((∃ s ∈ a.states, s.id = source) ∧ ∃ t ∈ a.states, t.id = target) ∧
      e.pid = a.pid ∧ b = a.insertTransition source e target := by
  refine insertTransition_eq_ok_iff (Checks.guard_eq_ok_iff.trans ?_)
  rw [not_not]

theorem addSyntheticTransition_eq_ok_iff : a.addSyntheticTransition source e target = .ok b ↔
    ((∃ s ∈ a.states, s.id = source) ∧ ∃ t ∈ a.states, t.id = target) ∧
      e.isSyntheticSend = true ∧ b = a.insertTransition source e target :=
  insertTransition_eq_ok_iff Checks.require_eq_ok_iff

theorem removeTransition_eq_ok_iff : a.removeTransition source e target = .ok b ↔
    (∃ s, a.state? source = some s ∧ (e, target) ∈ s.transitions) ∧
      b = a.updateState source fun s =>
        { s with transitions := s.transitions.filter (· ≠ (e, target)) } := by
  unfold removeTransition
  cases hs : a.state? source with
  | none => simp
  | some s =>
    by_cases hm : (e, target) ∈ s.transitions
    · have hmem : target ∈ s.transitions.targets e := by simp [Transitions.targets, hm]
      have htargets : (s.transitions.targets e).isEmpty = false := by
        rw [List.isEmpty_eq_false_iff]
        exact List.ne_nil_of_mem hmem
      simp only [htargets, Bool.false_eq_true, if_false, if_neg (not_not_intro hm)]
      constructor
      · intro h
        injection h with h
        exact ⟨⟨s, rfl, hm⟩, h.symm⟩
      · rintro ⟨-, rfl⟩
        rfl
    · have hnone : ¬∃ t, some s = some t ∧ (e, target) ∈ t.transitions := by
        rintro ⟨t, ht, hmem⟩
        injection ht with ht
        exact hm (ht ▸ hmem)
      refine iff_of_false (fun h => ?_) fun h => hnone h.1
      dsimp only at h
      rw [if_pos hm] at h
      split at h <;> cases h

theorem WellFormed.insertTransition (h : a.WellFormed)
    (htarget : ∃ t ∈ a.states, t.id = target) :
    (a.insertTransition source e target).WellFormed := by
  refine h.updateState (fun s => rfl) fun s hs x hx => ?_
  rcases Ascending.mem_insert.mp hx with hx | hx
  · rw [hx]
    exact Or.inr htarget
  · exact Or.inl hx

theorem Ordered.insertTransition (h : Ordered a.states) :
    Ordered (a.insertTransition source e target).states :=
  h.updateState fun _ hs => Ascending.sorted_insert _ hs

/-! ### What is built -/

/-- Whatever has been built, its states have numbers of their own below the next one, its
transitions lead to states, and those of each state are in ascending order. -/
theorem Built.spec (h : a.Built) : a.WellFormed ∧ Ordered a.states ∧ 1 ≤ a.nextId := by
  induction h with
  | empty pid =>
    refine ⟨⟨.nil, ?_, ?_⟩, ?_, le_rfl⟩
    · exact fun s hs => absurd hs List.not_mem_nil
    · exact fun s hs => absurd hs List.not_mem_nil
    · exact fun s hs => absurd hs List.not_mem_nil
  | @state a initial accept _ ih =>
    obtain ⟨hwf, hordered, hpos⟩ := ih
    refine ⟨hwf.addState initial accept hpos, fun s hs => ?_, Nat.le_succ_of_le hpos⟩
    rcases mem_addState.mp hs with hs | hs
    · exact hordered s hs
    · rw [hs]
      exact .nil
  | transition _ hadd ih =>
    obtain ⟨hends, -, hb⟩ := addTransition_eq_ok_iff.mp hadd
    rw [hb]
    exact ⟨ih.1.insertTransition hends.2, ih.2.1.insertTransition, ih.2.2⟩
  | synthetic _ hadd ih =>
    obtain ⟨hends, -, hb⟩ := addSyntheticTransition_eq_ok_iff.mp hadd
    rw [hb]
    exact ⟨ih.1.insertTransition hends.2, ih.2.1.insertTransition, ih.2.2⟩
  | removal _ hremove ih =>
    obtain ⟨-, hb⟩ := removeTransition_eq_ok_iff.mp hremove
    rw [hb]
    refine ⟨ih.1.updateState (fun s => rfl) ?_, ih.2.1.updateState ?_, ih.2.2⟩
    · exact fun s _ x hx => Or.inl (List.mem_filter.mp hx).1
    · exact fun s hs => hs.sublist List.filter_sublist
  | pruned _ ih => exact ⟨ih.1.prune, ih.2.1.prune, ih.2.2⟩
  | @minimized a _ ih => exact ⟨ih.1.minimize, ordered_collapseAll _ ih.2.1, ih.2.2⟩

theorem Built.wellFormed (h : a.Built) : a.WellFormed := h.spec.1

theorem Built.ordered (h : a.Built) : Ordered a.states := h.spec.2.1

/-- A process that works and then rests on either of two branches, and may then work on. The
ends of the branches agree, and once they are one the branches agree too. -/
def fork : Automaton where
  pid := 0
  states :=
    [⟨1, true, false, [(.internal "work" 0, 2), (.internal "work" 0, 3)]⟩,
      ⟨2, false, false, [(.internal "rest" 0, 4)]⟩, ⟨3, false, false, [(.internal "rest" 0, 5)]⟩,
      ⟨4, false, true, [(.internal "work" 0, 4)]⟩, ⟨5, false, true, [(.internal "work" 0, 4)]⟩]
  nextId := 6

theorem built_fork : fork.Built := by
  have hstates := ((((Built.empty 0).state true false).state false false).state false
    false).state false true |>.state false true
  have h12 := hstates.transition (show addTransition _ 1 (.internal "work" 0) 2 = .ok _ from rfl)
  have h13 := h12.transition (show addTransition _ 1 (.internal "work" 0) 3 = .ok _ from rfl)
  have h24 := h13.transition (show addTransition _ 2 (.internal "rest" 0) 4 = .ok _ from rfl)
  have h35 := h24.transition (show addTransition _ 3 (.internal "rest" 0) 5 = .ok _ from rfl)
  have h44 := h35.transition (show addTransition _ 4 (.internal "work" 0) 4 = .ok _ from rfl)
  have h54 := h44.transition (show addTransition _ 5 (.internal "work" 0) 4 = .ok _ from rfl)
  exact h54

end ProtocolInference.Automaton
