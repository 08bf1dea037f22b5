import ProtocolInference.Proofs.Automaton.Merging

/-!
# No two states agree after merging

A round of merging that merges anything removes a state, so there are no more such rounds
than states, and after the last no two states agree. Since the transitions of a state are
kept in ascending order, states with the same transitions as sets agree on them as lists.
-/

namespace ProtocolInference.Automaton

/-- No two states have the same flags and the same set of transitions. -/
def Minimal (a : Automaton) : Prop :=
  ∀ s ∈ a.states, ∀ t ∈ a.states, s.initial = t.initial → s.accept = t.accept →
    (∀ x, x ∈ s.transitions ↔ x ∈ t.transitions) → s = t

/-- In a minimal automaton the flags and the transitions tell the states apart. -/
theorem Minimal.eq_of_edges {a : Automaton} (h : a.Minimal) (hwf : a.WellFormed) {s t : Nat}
    (hs : ∃ x ∈ a.states, x.id = s) (ht : ∃ y ∈ a.states, y.id = t)
    (hinitial : s ∈ a.initialStates ↔ t ∈ a.initialStates)
    (haccept : s ∈ a.acceptStates ↔ t ∈ a.acceptStates)
    (hedges : ∀ e u, a.Edge s e u ↔ a.Edge t e u) : s = t := by
  obtain ⟨x, hx, rfl⟩ := hs
  obtain ⟨y, hy, rfl⟩ := ht
  rw [hwf.id_mem_initialStates_iff hx, hwf.id_mem_initialStates_iff hy] at hinitial
  rw [hwf.id_mem_acceptStates_iff hx, hwf.id_mem_acceptStates_iff hy] at haccept
  refine congrArg State.id (h x hx y hy (Bool.eq_iff_iff.mpr hinitial)
    (Bool.eq_iff_iff.mpr haccept) fun z => ?_)
  rw [← hwf.edge_iff hx, ← hwf.edge_iff hy]
  exact hedges z.1 z.2

def Ordered (states : List State) : Prop :=
  ∀ s ∈ states, Ascending.Sorted s.transitions

theorem ordered_collapse (states : List State) : Ordered (collapse states) := by
  intro t ht
  obtain ⟨s, -, rfl⟩ := List.mem_map.mp ht
  exact Ascending.sorted_ofList _

theorem ordered_collapseAll (rounds : Nat) {states : List State} (h : Ordered states) :
    Ordered (collapseAll rounds states) := by
  induction rounds generalizing states with
  | zero => exact h
  | succ rounds ih =>
    simp only [collapseAll]
    split
    · exact h
    · exact ih (ordered_collapse states)

theorem Ordered.prune {a : Automaton} (h : Ordered a.states) : Ordered a.prune.1.states :=
  fun s hs => h s (List.mem_filter.mp hs).1

theorem length_collapse_lt {states : List State} (h : merges states ≠ []) :
    (collapse states).length < states.length := by
  obtain ⟨⟨id, first⟩, hmem⟩ := List.exists_mem_of_ne_nil _ h
  obtain ⟨-, s, hs, rfl, -⟩ := mem_merges.mp hmem
  rw [collapse, List.length_map]
  -- The state that is merged into another one does not stay.
  refine List.length_filter_lt_length_iff_exists.mpr ⟨s, hs, fun hnone => ?_⟩
  rw [Option.isNone_iff_eq_none] at hnone
  have hkey := List.lookup_eq_none_iff.mp hnone _ hmem
  simp at hkey

theorem merges_collapseAll (rounds : Nat) {states : List State} (h : states.length ≤ rounds) :
    merges (collapseAll rounds states) = [] := by
  induction rounds generalizing states with
  | zero =>
    rw [List.length_eq_zero_iff.mp (Nat.le_zero.mp h)]
    rfl
  | succ rounds ih =>
    simp only [collapseAll]
    split
    · rename_i hnone
      exact List.isEmpty_iff.mp hnone
    · rename_i hsome
      have hlt := length_collapse_lt fun hnil => hsome (List.isEmpty_iff.mpr hnil)
      exact ih (by omega)

theorem id_eq_of_agree {states : List State} (h : merges states = []) {s t : State}
    (hs : s ∈ states) (ht : t ∈ states) (ha : agree s t = true) : s.id = t.id := by
  have hself : ∀ u ∈ states, representative states u = u.id := by
    intro u hu
    by_contra hne
    have hmem := mem_merges.mpr ⟨fun he => hne he.symm, u, hu, rfl, rfl⟩
    rw [h] at hmem
    cases hmem
  obtain ⟨r, hr⟩ := Option.isSome_iff_exists.mp (List.find?_isSome.mpr ⟨t, ht, ha⟩)
  calc s.id = representative states s := (hself s hs).symm
    _ = r.id := by simp [representative, hr]
    _ = representative states t := by simp [representative, ← agree_congr ha, hr]
    _ = t.id := hself t ht

theorem minimal_minimize {a : Automaton} (h : a.WellFormed) (ho : Ordered a.states) :
    a.minimize.1.Minimal := by
  intro s hs t ht hinitial haccept htransitions
  have hlist : s.transitions = t.transitions :=
    (ordered_collapseAll _ ho s hs).ext (ordered_collapseAll _ ho t ht) htransitions
  have hid := id_eq_of_agree (merges_collapseAll a.states.length (Nat.le_refl _)) hs ht
    (agree_iff.mpr ⟨hinitial, haccept, hlist⟩)
  exact eq_of_id_eq h.minimize.nodup hs ht hid

end ProtocolInference.Automaton
