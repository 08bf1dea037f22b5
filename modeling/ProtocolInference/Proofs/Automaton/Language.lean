import Mathlib.Data.List.Nodup
import Mathlib.Tactic.Common
import ProtocolInference.Automaton.Reduction
import ProtocolInference.Proofs.Order.Ascending

/-!
# The language of an automaton

A word is accepted if some path from an initial state to an accepting state spells it.
The automata that are built here are well formed: their states are in the order of
their numbers, and every transition leads to a state.
-/

namespace ProtocolInference

open Std

namespace Automaton

/-! ### Words -/

def Edge (a : Automaton) (source : Nat) (e : Event) (target : Nat) : Prop :=
  ∃ s ∈ a.states, s.id = source ∧ (e, target) ∈ s.transitions

/-- A path and the word that it spells. -/
inductive Run (a : Automaton) : Nat → List Event → Nat → Prop where
  | nil (s : Nat) : Run a s [] s
  | cons {s t u : Nat} {e : Event} {w : List Event} :
      a.Edge s e t → Run a t w u → Run a s (e :: w) u

/-- Some path from an initial state to an accepting state spells the word. -/
def Accepts (a : Automaton) (w : List Event) : Prop :=
  ∃ s ∈ a.initialStates, ∃ t ∈ a.acceptStates, a.Run s w t

theorem run_nil_iff {a : Automaton} {s t : Nat} : a.Run s [] t ↔ s = t := by
  constructor
  · intro h
    cases h
    rfl
  · rintro rfl
    exact .nil s

theorem Run.append {a : Automaton} {s t u : Nat} {v w : List Event} (h : a.Run s v t)
    (h' : a.Run t w u) : a.Run s (v ++ w) u := by
  induction h with
  | nil s => exact h'
  | cons he _ ih => exact .cons he (ih h')

theorem mem_initialStates {a : Automaton} {id : Nat} :
    id ∈ a.initialStates ↔ ∃ s ∈ a.states, s.initial = true ∧ s.id = id := by
  simp [initialStates, and_assoc]

theorem mem_acceptStates {a : Automaton} {id : Nat} :
    id ∈ a.acceptStates ↔ ∃ s ∈ a.states, s.accept = true ∧ s.id = id := by
  simp [acceptStates, and_assoc]

theorem Accepts.initialStates_ne_nil {a : Automaton} {w : List Event} (h : a.Accepts w) :
    a.initialStates ≠ [] := by
  obtain ⟨s, hs, -⟩ := h
  exact List.ne_nil_of_mem hs

theorem Accepts.acceptStates_ne_nil {a : Automaton} {w : List Event} (h : a.Accepts w) :
    a.acceptStates ≠ [] := by
  obtain ⟨s, -, t, ht, -⟩ := h
  exact List.ne_nil_of_mem ht

/-- Some path from an initial state leads to each state. -/
def Trim (a : Automaton) : Prop :=
  ∀ s ∈ a.states, ∃ r ∈ a.initialStates, ∃ w, a.Run r w s.id

theorem Trim.exists_accepts {a : Automaton} (h : a.Trim) (ha : a.acceptStates ≠ []) :
    ∃ w, a.Accepts w := by
  obtain ⟨t, ht⟩ := List.exists_mem_of_ne_nil _ ha
  obtain ⟨s, hs, -, hid⟩ := mem_acceptStates.mp ht
  obtain ⟨r, hr, w, hw⟩ := h s hs
  exact ⟨w, r, hr, t, ht, by rw [← hid]; exact hw⟩

/-! ### Well-formed automata -/

/-- The states have numbers of their own, in ascending order from one on and below the
next free one, and every transition leads to a state of the automaton. -/
structure WellFormed (a : Automaton) : Prop where
  ascending : (a.states.map (·.id)).Pairwise (· < ·)
  bounds : ∀ s ∈ a.states, 1 ≤ s.id ∧ s.id < a.nextId
  targets : ∀ s ∈ a.states, ∀ e t, (e, t) ∈ s.transitions → ∃ u ∈ a.states, u.id = t

theorem WellFormed.nodup {a : Automaton} (h : a.WellFormed) : (a.states.map (·.id)).Nodup :=
  h.ascending.imp Nat.ne_of_lt

theorem eq_of_id_eq {states : List State} (hd : (states.map (·.id)).Nodup) {s t : State}
    (hs : s ∈ states) (ht : t ∈ states) (h : s.id = t.id) : s = t :=
  List.inj_on_of_nodup_map hd hs ht h

/-- Automata that list the same states list them in the same order. -/
theorem eq_of_mem_states_iff {a b : Automaton} (ha : (a.states.map (·.id)).Pairwise (· < ·))
    (hb : (b.states.map (·.id)).Pairwise (· < ·)) (hpid : a.pid = b.pid)
    (hnext : a.nextId = b.nextId) (h : ∀ x, x ∈ a.states ↔ x ∈ b.states) : a = b := by
  have hirrefl : Std.Irrefl fun x y : State => x.id < y.id := ⟨fun x => Nat.lt_irrefl x.id⟩
  have hantisymm : Std.Antisymm fun x y : State => x.id < y.id :=
    ⟨fun x y hxy hyx => absurd hxy (Nat.lt_asymm hyx)⟩
  have hstates : a.states = b.states :=
    (List.pairwise_map.mp ha).eq_of_mem_iff (List.pairwise_map.mp hb) h
  cases a
  cases b
  simp_all

theorem WellFormed.edge_iff {a : Automaton} (h : a.WellFormed) {s : State} (hs : s ∈ a.states)
    {e : Event} {target : Nat} : a.Edge s.id e target ↔ (e, target) ∈ s.transitions := by
  constructor
  · intro he
    obtain ⟨t, ht, hid, hm⟩ := he
    rw [eq_of_id_eq h.nodup hs ht hid.symm]
    exact hm
  · intro hm
    exact ⟨s, hs, rfl, hm⟩

/-- The number of a state is among those of the states with a property if the state has it. -/
theorem WellFormed.id_mem_filter_iff {a : Automaton} (h : a.WellFormed) {s : State}
    (hs : s ∈ a.states) (p : State → Bool) :
    s.id ∈ (a.states.filter p).map (·.id) ↔ p s = true := by
  rw [List.mem_map]
  constructor
  · intro hi
    obtain ⟨t, ht, hid⟩ := hi
    rw [List.mem_filter] at ht
    rw [eq_of_id_eq h.nodup hs ht.1 hid.symm]
    exact ht.2
  · intro hp
    exact ⟨s, List.mem_filter.mpr ⟨hs, hp⟩, rfl⟩

theorem WellFormed.id_mem_initialStates_iff {a : Automaton} (h : a.WellFormed) {s : State}
    (hs : s ∈ a.states) : s.id ∈ a.initialStates ↔ s.initial = true :=
  h.id_mem_filter_iff hs State.initial

theorem WellFormed.id_mem_acceptStates_iff {a : Automaton} (h : a.WellFormed) {s : State}
    (hs : s ∈ a.states) : s.id ∈ a.acceptStates ↔ s.accept = true :=
  h.id_mem_filter_iff hs State.accept

theorem WellFormed.exists_target {a : Automaton} (h : a.WellFormed) {source target : Nat}
    {e : Event} (he : a.Edge source e target) : ∃ t ∈ a.states, t.id = target := by
  obtain ⟨s, hs, -, hm⟩ := he
  exact h.targets s hs e target hm

theorem WellFormed.edge_lt {a : Automaton} (h : a.WellFormed) {s t : Nat} {e : Event}
    (he : a.Edge s e t) : s < a.nextId ∧ t < a.nextId := by
  obtain ⟨y, hy, rfl⟩ := h.exists_target he
  obtain ⟨x, hx, rfl, -⟩ := he
  exact ⟨(h.bounds x hx).2, (h.bounds y hy).2⟩

theorem WellFormed.exists_end {a : Automaton} (h : a.WellFormed) {s t : Nat} {w : List Event}
    (hw : a.Run s w t) (hs : ∃ x ∈ a.states, x.id = s) : ∃ x ∈ a.states, x.id = t := by
  induction hw with
  | nil s => exact hs
  | cons he _ ih => exact ih (h.exists_target he)

end Automaton

end ProtocolInference
