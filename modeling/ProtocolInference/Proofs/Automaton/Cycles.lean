import Mathlib.Data.Finite.Prod
import Mathlib.Logic.Relation
import Mathlib.Order.Preorder.Finite
import ProtocolInference.Proofs.Automaton.Bisimulation

/-!
# Bisimilar states that are not merged

Two states are merged if they have the same transitions, and that is less than to be
bisimilar. If two bisimilar states of a minimal automaton are apart, then on some event they
go on to two bisimilar states that are again apart. There are only so many pairs of states, so
some pair comes back: one word leads from both states into two cycles, and another word goes
once round each of them. Where no cycle can be reached, bisimilar states are the same. Main
statement: `Minimal.sharesCycle`.
-/

namespace ProtocolInference.Automaton

/-! ### Steps that never end -/

/-- Steps that always go on among finitely many points come back to one of them. -/
theorem exists_return {α : Type} {r : α → α → Prop} {p : α → Prop} (hfinite : {a | p a}.Finite)
    (hstep : ∀ a, p a → ∃ b, r a b ∧ p b) {a : α} (ha : p a) :
    ∃ b, p b ∧ Relation.ReflTransGen r a b ∧ Relation.TransGen r b b := by
  have : Nonempty α := ⟨a⟩
  choose! f hf using hstep
  have hp : ∀ n, p (f^[n] a) := by
    intro n
    induction n with
    | zero => exact ha
    | succ n ih =>
      rw [Function.iterate_succ_apply']
      exact (hf _ ih).2
  have hone : ∀ n, r (f^[n] a) (f^[n + 1] a) := by
    intro n
    rw [Function.iterate_succ_apply']
    exact (hf _ (hp n)).1
  obtain ⟨m, n, hlt, heq⟩ :=
    Set.Finite.exists_lt_map_eq_of_forall_mem (f := fun n => f^[n] a) hp hfinite
  have hreach : Relation.ReflTransGen r (f^[0] a) (f^[m] a) :=
    Nat.rel_of_forall_rel_succ_of_le (Relation.ReflTransGen r) (f := fun n => f^[n] a)
      (fun n => .single (hone n)) (Nat.zero_le m)
  have hround : Relation.TransGen r (f^[m] a) (f^[n] a) :=
    Nat.rel_of_forall_rel_succ_of_lt (Relation.TransGen r) (f := fun n => f^[n] a)
      (fun n => .single (hone n)) hlt
  rw [← heq] at hround
  exact ⟨f^[m] a, hp m, hreach, hround⟩

/-! ### Pairs of states -/

variable {a : Automaton} {s t : Nat}

/-- Two states that are bisimilar and yet not the same. -/
structure Apart (a : Automaton) (s t : Nat) : Prop where
  left : ∃ x ∈ a.states, x.id = s
  right : ∃ y ∈ a.states, y.id = t
  ne : s ≠ t
  bisimilar : Bisimilar a a s t

/-- Both states of a pair take a transition on the same event. -/
def PairStep (a : Automaton) (p q : Nat × Nat) : Prop :=
  ∃ e, a.Edge p.1 e q.1 ∧ a.Edge p.2 e q.2

/-- A word leads from the two states to two states that are apart, and another word leads each
of those back to itself. -/
def SharesCycle (a : Automaton) (s t : Nat) : Prop :=
  ∃ u v w z, a.Run s w u ∧ a.Run t w v ∧ a.Apart u v ∧ z ≠ [] ∧ a.Run u z u ∧ a.Run v z v

theorem run_of_reflTransGen {p q : Nat × Nat} (h : Relation.ReflTransGen a.PairStep p q) :
    ∃ w, a.Run p.1 w q.1 ∧ a.Run p.2 w q.2 := by
  induction h using Relation.ReflTransGen.head_induction_on with
  | refl => exact ⟨[], .nil _, .nil _⟩
  | head hstep _ ih =>
    obtain ⟨e, hleft, hright⟩ := hstep
    obtain ⟨w, hw, hw'⟩ := ih
    exact ⟨e :: w, .cons hleft hw, .cons hright hw'⟩

theorem run_of_transGen {p q : Nat × Nat} (h : Relation.TransGen a.PairStep p q) :
    ∃ w, w ≠ [] ∧ a.Run p.1 w q.1 ∧ a.Run p.2 w q.2 := by
  obtain ⟨m, hstep, hrest⟩ := Relation.TransGen.head'_iff.mp h
  obtain ⟨e, hleft, hright⟩ := hstep
  obtain ⟨w, hw, hw'⟩ := run_of_reflTransGen hrest
  exact ⟨e :: w, List.cons_ne_nil _ _, .cons hleft hw, .cons hright hw'⟩

theorem Apart.symm (h : a.Apart s t) : a.Apart t s :=
  ⟨h.right, h.left, h.ne.symm, h.bisimilar.symm⟩

/-- A transition that only one of the two states has is answered by one to another state. -/
theorem exists_apart_of_edge (hwf : a.WellFormed) (h : Bisimilar a a s t) {e : Event} {u : Nat}
    (he : a.Edge s e u) (hnot : ¬a.Edge t e u) : ∃ v, a.PairStep (s, t) (u, v) ∧ a.Apart u v := by
  obtain ⟨v, hv, huv⟩ := h.exists_edge he
  have hne : u ≠ v := fun heq => hnot (heq ▸ hv)
  exact ⟨v, ⟨e, he, hv⟩, hwf.exists_target he, hwf.exists_target hv, hne, huv⟩

theorem Minimal.exists_apart (hminimal : a.Minimal) (hwf : a.WellFormed) (h : a.Apart s t) :
    ∃ q : Nat × Nat, a.PairStep (s, t) q ∧ a.Apart q.1 q.2 := by
  have hdiffer : ¬∀ e u, a.Edge s e u ↔ a.Edge t e u := fun hedges =>
    h.ne (hminimal.eq_of_edges hwf h.left h.right h.bisimilar.initial_iff h.bisimilar.accept_iff
      hedges)
  obtain ⟨e, hdiffer⟩ := not_forall.mp hdiffer
  obtain ⟨u, hu⟩ := not_forall.mp hdiffer
  by_cases he : a.Edge s e u
  · have hnot : ¬a.Edge t e u := fun he' => hu (iff_of_true he he')
    obtain ⟨v, hstep, hapart⟩ := exists_apart_of_edge hwf h.bisimilar he hnot
    exact ⟨(u, v), hstep, hapart⟩
  · have he' : a.Edge t e u := by
      by_contra hnot
      exact hu (iff_of_false he hnot)
    obtain ⟨v, ⟨f, ht, hs⟩, hapart⟩ := exists_apart_of_edge hwf h.bisimilar.symm he' he
    exact ⟨(v, u), ⟨f, hs, ht⟩, hapart.symm⟩

theorem finite_apart (a : Automaton) : {p : Nat × Nat | a.Apart p.1 p.2}.Finite := by
  have hids : {s | ∃ x ∈ a.states, x.id = s}.Finite := by
    have himage : {s | ∃ x ∈ a.states, x.id = s} = {s | s ∈ a.states.map (·.id)} := by
      ext s
      simp
    rw [himage]
    exact List.finite_toSet _
  exact (hids.prod hids).subset fun _ hp => ⟨hp.left, hp.right⟩

/-- Two states of a minimal automaton that are bisimilar and not the same share a cycle. -/
theorem Minimal.sharesCycle (hminimal : a.Minimal) (hwf : a.WellFormed) (h : a.Apart s t) :
    a.SharesCycle s t := by
  obtain ⟨⟨u, v⟩, hapart, hreach, hround⟩ := exists_return (a := (s, t)) (finite_apart a)
    (fun p hp => hminimal.exists_apart hwf hp) h
  obtain ⟨w, hw, hw'⟩ := run_of_reflTransGen hreach
  obtain ⟨z, hz, hu, hv⟩ := run_of_transGen hround
  exact ⟨u, v, w, z, hw, hw', hapart, hz, hu, hv⟩

end ProtocolInference.Automaton
