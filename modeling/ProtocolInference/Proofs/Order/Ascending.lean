import Mathlib.Data.List.Sort
import ProtocolInference.Automaton.Basic

/-!
# Sets as strictly ascending lists

`Ascending.ofList` gives the set of the elements of a list: it has the same elements,
and it is strictly ascending. Two strictly ascending lists with the same elements are
the same list. The orders of events and of transitions are linear, so both facts hold
of transition relations and alphabets.
-/

namespace ProtocolInference

open Std

namespace Ascending

variable {α : Type} [Ord α]

/-- Each element comes strictly before all later ones. -/
def Sorted (s : List α) : Prop := s.Pairwise fun a b => compare a b = .lt

theorem mem_insert [LawfulEqOrd α] {a x : α} {s : List α} :
    x ∈ insert a s ↔ x = a ∨ x ∈ s := by
  induction s with
  | nil => simp [insert]
  | cons b bs ih =>
    simp only [insert]
    cases h : compare a b with
    | lt => simp
    | eq =>
      have hab : a = b := LawfulEqOrd.eq_of_compare h
      simp [hab]
    | gt =>
      simp only [List.mem_cons, ih]
      exact or_left_comm

theorem mem_foldl_insert [LawfulEqOrd α] {x : α} (xs s : List α) :
    x ∈ xs.foldl (fun s a => insert a s) s ↔ x ∈ xs ∨ x ∈ s := by
  induction xs generalizing s with
  | nil => simp
  | cons a xs ih =>
    rw [List.foldl_cons, ih, mem_insert, List.mem_cons, or_assoc]
    exact or_left_comm

@[simp]
theorem mem_ofList [LawfulEqOrd α] {x : α} {xs : List α} : x ∈ ofList xs ↔ x ∈ xs := by
  simp [ofList, mem_foldl_insert]

theorem sorted_insert [TransOrd α] [LawfulEqOrd α] (a : α) {s : List α} (hs : Sorted s) :
    Sorted (insert a s) := by
  induction s with
  | nil => exact List.pairwise_singleton _ _
  | cons b bs ih =>
    have hb := List.pairwise_cons.mp hs
    simp only [insert]
    cases h : compare a b with
    | lt =>
      refine List.pairwise_cons.mpr ⟨?_, hs⟩
      intro c hc
      rcases List.mem_cons.mp hc with rfl | hc
      · exact h
      · exact TransCmp.lt_trans h (hb.1 c hc)
    | eq => exact hs
    | gt =>
      refine List.pairwise_cons.mpr ⟨?_, ih hb.2⟩
      intro c hc
      rcases mem_insert.mp hc with rfl | hc
      · exact OrientedCmp.lt_of_gt h
      · exact hb.1 c hc

theorem sorted_ofList [TransOrd α] [LawfulEqOrd α] (xs : List α) : Sorted (ofList xs) := by
  have key : ∀ xs s : List α, Sorted s → Sorted (xs.foldl (fun s a => insert a s) s) := by
    intro xs
    induction xs with
    | nil => exact fun s hs => hs
    | cons a xs ih => exact fun s hs => ih _ (sorted_insert a hs)
  exact key xs [] List.Pairwise.nil

theorem Sorted.nodup [ReflOrd α] {s : List α} (hs : Sorted s) : s.Nodup := by
  refine List.Pairwise.imp ?_ hs
  rintro a b hab rfl
  rw [ReflOrd.compare_self] at hab
  cases hab

/-- A set has one strictly ascending list only. -/
theorem Sorted.ext [TransOrd α] [LawfulEqOrd α] {s t : List α} (hs : Sorted s)
    (ht : Sorted t) (h : ∀ x, x ∈ s ↔ x ∈ t) : s = t := by
  have hirrefl : Std.Irrefl fun a b : α => compare a b = .lt :=
    ⟨fun a hlt => by rw [ReflOrd.compare_self] at hlt; cases hlt⟩
  have hantisymm : Std.Antisymm fun a b : α => compare a b = .lt :=
    ⟨fun a b hlt hgt => absurd (TransCmp.lt_trans hlt hgt) (hirrefl.irrefl a)⟩
  exact List.Pairwise.eq_of_mem_iff hs ht h

end Ascending

/-! ### The orders of channels, events and transitions -/

instance : TransOrd EventKind := inferInstanceAs (TransCmp (compareOn EventKind.rank))

instance : LawfulEqOrd EventKind where
  eq_of_compare {a b} h := by
    have hr : a.rank = b.rank := LawfulEqOrd.eq_of_compare h
    cases a <;> cases b <;> first | rfl | cases hr

instance : TransOrd Channel :=
  inferInstanceAs (TransCmp (compareLex (compareOn Channel.src)
    (compareLex (compareOn Channel.dst)
      (compareLex (compareOn Channel.index) (compareOn Channel.synthetic)))))

instance : LawfulEqOrd Channel where
  eq_of_compare {a b} h := by
    have h' : (compareLex (compareOn Channel.src) (compareLex (compareOn Channel.dst)
      (compareLex (compareOn Channel.index) (compareOn Channel.synthetic)))) a b = .eq := h
    simp only [compareLex_eq_eq, compareOn] at h'
    obtain ⟨hs, hd, hi, hy⟩ := h'
    cases a
    cases b
    simp_all

instance : TransOrd Event :=
  inferInstanceAs (TransCmp (compareLex (compareOn Event.pid) (compareLex (compareOn Event.kind)
    (compareLex (compareOn Event.label) (compareOn Event.channel)))))

instance : LawfulEqOrd Event where
  eq_of_compare {a b} h := by
    have h' : (compareLex (compareOn Event.pid) (compareLex (compareOn Event.kind)
      (compareLex (compareOn Event.label) (compareOn Event.channel)))) a b = .eq := h
    simp only [compareLex_eq_eq, compareOn] at h'
    obtain ⟨hp, hk, hl, hc⟩ := h'
    cases a
    cases b
    simp_all

instance : TransOrd (Event × Nat) :=
  inferInstanceAs (TransCmp (compareLex (compareOn Prod.fst) (compareOn Prod.snd)))

instance : LawfulEqOrd (Event × Nat) where
  eq_of_compare {a b} h := by
    have h' : (compareLex (compareOn Prod.fst) (compareOn Prod.snd)) a b = .eq := h
    simp only [compareLex_eq_eq, compareOn] at h'
    exact Prod.ext (LawfulEqOrd.eq_of_compare h'.1) (LawfulEqOrd.eq_of_compare h'.2)

/-! ### Transitions by their events -/

namespace Transitions

variable {ts : Transitions} {e : Event} {t : Nat}

theorem mem_targets : t ∈ ts.targets e ↔ (e, t) ∈ ts := by
  simp only [targets, List.mem_map, List.mem_filter, beq_iff_eq]
  constructor
  · rintro ⟨⟨f, u⟩, ⟨hm, rfl⟩, rfl⟩
    exact hm
  · exact fun hm => ⟨(e, t), ⟨hm, rfl⟩, rfl⟩

end Transitions

end ProtocolInference
