import ProtocolInference.Proofs.Abstraction.Synthesis
import ProtocolInference.Proofs.Automaton.Cycles

/-!
# Bisimilar states of a projection

No two states of the automaton of a process have the same flags and the same transitions. So
two of its states can only be bisimilar, and yet not be the same, if the same words lead from
both into cycles. On cycles it happens: where two blocks lead to each other on one event, and
are alike otherwise, each has a transition to the other, and they are not merged. Main
statement: `bisimilar_shares_cycle`.
-/

namespace ProtocolInference.Abstraction

open Automaton (Bisimilar)

variable {traces : List Trace} {grouping : Grouping} {strict : Bool} {removed : List Block}
  {g : Abstraction} {pid : Nat} {a : Automaton}

/-- No two states of a projection have the same flags and the same transitions. If two of them
are bisimilar, one word leads from them to two bisimilar states that are again not the same,
and another word, which is not empty, leads from each of those back to itself. So a state from
which no cycle can be reached is bisimilar to no other. -/
theorem bisimilar_shares_cycle (h : Reached traces grouping strict removed g)
    (ha : g.project pid = .ok a) :
    (∀ x ∈ a.states, ∀ y ∈ a.states, x.initial = y.initial → x.accept = y.accept →
      (∀ z, z ∈ x.transitions ↔ z ∈ y.transitions) → x = y) ∧
    (∀ x ∈ a.states, ∀ y ∈ a.states, x ≠ y → Bisimilar a a x.id y.id →
      a.SharesCycle x.id y.id) ∧
    ∀ x ∈ a.states, (∀ u w z, a.Run x.id w u → a.Run u z u → z = []) →
      ∀ y ∈ a.states, Bisimilar a a x.id y.id → x = y := by
  obtain ⟨hreduced, w, hw⟩ := h.coherent.project_eq_ok_iff.mp ha
  have hsynthesized : a.Synthesized pid := hreduced ▸ h.coherent.synthesized_reduced hw
  have hwf := hsynthesized.wellFormed
  have hshares : ∀ x ∈ a.states, ∀ y ∈ a.states, x ≠ y → Bisimilar a a x.id y.id →
      a.SharesCycle x.id y.id := by
    intro x hx y hy hne hbisimilar
    have hid : x.id ≠ y.id := fun hid => hne (Automaton.eq_of_id_eq hwf.nodup hx hy hid)
    exact hsynthesized.minimal.sharesCycle hwf ⟨⟨x, hx, rfl⟩, ⟨y, hy, rfl⟩, hid, hbisimilar⟩
  refine ⟨hsynthesized.minimal, hshares, fun x hx hnone y hy hbisimilar => ?_⟩
  by_contra hne
  obtain ⟨u, v, w, z, hw, -, -, hz, hround, -⟩ := hshares x hx y hy hne hbisimilar
  exact hz (hnone u w z hw hround)

/-! ### Two blocks that lead to each other -/

/-- One process that works once. -/
def workOnce : Trace where
  channels := []
  root := ⟨[⟨"0", true, false⟩], ⟨[]⟩⟩
  later := [⟨[⟨"1", false, true⟩], ⟨[]⟩⟩]
  edges := [⟨0, .internal "work" 0, 1⟩]

/-- The process that works once, observed two times. -/
def workSeenTwice : Recording where
  processes := 1
  channels := []
  traces := [[[.internal "work" 0]], [[.internal "work" 0]]]

/-- Each block has the start of one execution and the end of the other. -/
def crossed : Abstraction :=
  match (assemble workOnce [workOnce, workOnce] .queueTops false).split ⟨0, [0, 3], [1, 2]⟩
    fun _ _ => false with
  | .ok (g, _) => g
  | .error _ => default

def crossedAutomaton : Automaton where
  pid := 0
  states := [⟨1, true, true, [(.internal "work" 0, 2)]⟩, ⟨2, true, true, [(.internal "work" 0, 1)]⟩]
  nextId := 3

theorem split_crossed : ∃ g fresh, ofTraces [workOnce, workOnce] .queueTops false = .ok g ∧
    g.split ⟨0, [0, 3], [1, 2]⟩ (fun _ _ => false) = .ok (crossed, fresh) := by
  obtain ⟨⟨g, fresh⟩, hsplit⟩ := Checks.exists_eq_ok (show Except.isOk
    ((assemble workOnce [workOnce, workOnce] .queueTops false).split ⟨0, [0, 3], [1, 2]⟩
      fun _ _ => false) = true by decide +kernel)
  have heq : crossed = g := by
    unfold crossed
    rw [hsplit]
  exact ⟨_, fresh, rfl, heq ▸ hsplit⟩

theorem project_crossed : crossed.project 0 = .ok crossedAutomaton := by decide +kernel

theorem bisimilar_crossed : Bisimilar crossedAutomaton crossedAutomaton 1 2 := by
  have hedge : ∀ s e t, crossedAutomaton.Edge s e t ↔
      e = .internal "work" 0 ∧ (s = 1 ∧ t = 2 ∨ s = 2 ∧ t = 1) := by
    intro s e t
    simp only [Automaton.Edge, crossedAutomaton, List.mem_cons, List.not_mem_nil, or_false,
      exists_eq_or_imp, exists_eq_left, Prod.mk.injEq]
    grind
  refine ⟨fun s t => (s = 1 ∨ s = 2) ∧ (t = 1 ∨ t = 2), ⟨?_, ?_, ?_, ?_⟩, by decide⟩
  · intro s t hst
    have hboth : crossedAutomaton.initialStates = [1, 2] := rfl
    simp [hboth, hst.1, hst.2]
  · intro s t hst
    have hboth : crossedAutomaton.acceptStates = [1, 2] := rfl
    simp [hboth, hst.1, hst.2]
  · intro s t e u hst he
    obtain ⟨hevent, hends⟩ := (hedge s e u).mp he
    exact ⟨3 - t, (hedge t e _).mpr ⟨hevent, by omega⟩, by omega⟩
  · intro s t e v hst he
    obtain ⟨hevent, hends⟩ := (hedge t e v).mp he
    exact ⟨3 - s, (hedge s e _).mpr ⟨hevent, by omega⟩, by omega⟩

/-- The two states share the cycle that goes from each of them over the other. -/
theorem bisimilar_shares_cycle_crossed : ∃ g fresh,
    ofTraces [workOnce, workOnce] .queueTops false = .ok g ∧
    g.split ⟨0, [0, 3], [1, 2]⟩ (fun _ _ => false) = .ok (crossed, fresh) ∧
    crossed.project 0 = .ok crossedAutomaton ∧ Bisimilar crossedAutomaton crossedAutomaton 1 2 ∧
    crossedAutomaton.SharesCycle 1 2 := by
  obtain ⟨g, fresh, hstart, hsplit⟩ := split_crossed
  obtain ⟨-, hshares, -⟩ :=
    bisimilar_shares_cycle (.split (.start hstart) hsplit) project_crossed
  exact ⟨g, fresh, hstart, hsplit, project_crossed, bisimilar_crossed,
    hshares ⟨1, true, true, [(.internal "work" 0, 2)]⟩ (by decide)
      ⟨2, true, true, [(.internal "work" 0, 1)]⟩ (by decide) (by decide) bisimilar_crossed⟩

/-- After a legal split of recorded traces, two states of a projection may be alike in their
flags and bisimilar, and still be two states. -/
theorem bisimilar_not_merged_crossed : workSeenTwice.build = .ok [workOnce, workOnce] ∧
    ∃ g fresh, ofTraces [workOnce, workOnce] .queueTops false = .ok g ∧
      g.split ⟨0, [0, 3], [1, 2]⟩ (fun _ _ => false) = .ok (crossed, fresh) ∧
      crossed.project 0 = .ok crossedAutomaton ∧
      ∃ x ∈ crossedAutomaton.states, ∃ y ∈ crossedAutomaton.states, x ≠ y ∧
        x.initial = y.initial ∧ x.accept = y.accept ∧
        Bisimilar crossedAutomaton crossedAutomaton x.id y.id := by
  obtain ⟨g, fresh, hstart, hsplit⟩ := split_crossed
  exact ⟨by rfl, g, fresh, hstart, hsplit, project_crossed,
    ⟨1, true, true, [(.internal "work" 0, 2)]⟩, by decide,
    ⟨2, true, true, [(.internal "work" 0, 1)]⟩, by decide, by decide, rfl, rfl, bisimilar_crossed⟩

end ProtocolInference.Abstraction
