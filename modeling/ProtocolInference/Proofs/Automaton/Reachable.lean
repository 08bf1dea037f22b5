import ProtocolInference.Proofs.Automaton.Editing

/-!
# What pruning takes away

Pruning takes away the states that cannot be reached, and those only. Nothing is left that leads
to a state that has gone, since whatever a kept state leads to is kept too. So the automaton
accepts what it accepted before, and there is nothing to be taken away a second time. Main
statement: `Built.prune_exact`.
-/

namespace ProtocolInference.Automaton

variable {a : Automaton} {id : Nat} {x : State}

/-- The automaton `b` is `a` without the states that cannot be reached, of which there are as
many as said. A state that is kept is the same in all its parts and is found as before, every
initial state is kept, and transitions lead from kept states to kept states. -/
structure Pruned (a b : Automaton) (removed : Nat) : Prop where
  pid : b.pid = a.pid
  nextId : b.nextId = a.nextId
  kept : ∀ x, x ∈ b.states ↔ x ∈ a.states ∧ a.Reachable x.id
  order : b.states.Sublist a.states
  found : ∀ id x, b.state? id = some x ↔ a.state? id = some x ∧ a.Reachable id
  initial : b.initialStates = a.initialStates
  targets : ∀ x ∈ b.states, ∀ e t, (e, t) ∈ x.transitions → ∃ y ∈ b.states, y.id = t
  removed : removed = (a.states.filter (· ∉ b.states)).length
  language : ∀ w, b.Accepts w ↔ a.Accepts w

theorem WellFormed.state?_prune_iff (h : a.WellFormed) :
    a.prune.1.state? id = some x ↔ a.state? id = some x ∧ a.Reachable id := by
  rw [h.prune.state?_eq_some_iff, h.state?_eq_some_iff, mem_prune h]
  constructor
  · intro hx
    obtain ⟨⟨hx, hreach⟩, rfl⟩ := hx
    exact ⟨⟨hx, rfl⟩, hreach⟩
  · intro hx
    obtain ⟨⟨hx, rfl⟩, hreach⟩ := hx
    exact ⟨⟨hx, hreach⟩, rfl⟩

/-- Whatever operations an automaton has come from, pruning takes away what cannot be reached,
and nothing more if it is done again. -/
theorem Built.prune_exact (h : a.Built) :
    Pruned a a.prune.1 a.prune.2 ∧ a.prune.1.prune = (a.prune.1, 0) := by
  have hwf := h.wellFormed
  have htrim : a.prune.1.Trim := trim_prune hwf
  refine ⟨?_, htrim.prune_eq hwf.prune⟩
  constructor
  case pid => rfl
  case nextId => rfl
  case kept => exact fun x => mem_prune hwf
  case order => exact List.filter_sublist
  case found => exact fun id x => hwf.state?_prune_iff
  case initial => exact initialStates_prune hwf
  case targets => exact hwf.prune.targets
  case removed => exact snd_prune a
  case language => exact fun w => accepts_prune_iff hwf

/-- The fork with a cycle that leads into it from outside, and a start of its own that leads
nowhere. -/
def islands : Automaton where
  pid := 0
  states := fork.states ++
    [⟨6, false, false, [(.internal "work" 0, 7)]⟩,
      ⟨7, false, true, [(.internal "rest" 0, 4), (.internal "rest" 0, 6)]⟩,
      ⟨8, true, false, []⟩]
  nextId := 9

theorem built_islands : islands.Built := by
  have hstates := ((built_fork.state false false).state false true).state true false
  have h67 := hstates.transition (show addTransition _ 6 (.internal "work" 0) 7 = .ok _ from rfl)
  have h74 := h67.transition (show addTransition _ 7 (.internal "rest" 0) 4 = .ok _ from rfl)
  have h76 := h74.transition (show addTransition _ 7 (.internal "rest" 0) 6 = .ok _ from rfl)
  exact h76

/-- The cycle goes, though it leads to a state that stays. The lone start stays. -/
theorem prune_exact_islands : islands.Built ∧
    islands.prune.1.states.map (·.id) = [1, 2, 3, 4, 5, 8] ∧ islands.prune.2 = 2 ∧
    Pruned islands islands.prune.1 2 ∧ islands.prune.1.prune = (islands.prune.1, 0) := by
  have htwo : islands.prune.2 = 2 := by decide +kernel
  obtain ⟨hpruned, hagain⟩ := built_islands.prune_exact
  rw [htwo] at hpruned
  exact ⟨built_islands, by decide +kernel, htwo, hpruned, hagain⟩

end ProtocolInference.Automaton
