import Mathlib.Data.List.Forall2
import Mathlib.Tactic.Common

/-!
# Checks and computations made in turn

A list of checks succeeds if each of them does. A list of computations succeeds if each
of them does, and gives their results in order.
-/

namespace ProtocolInference.Checks

variable {α β ε : Type}

theorem exists_eq_ok {x : Except ε α} (h : x.isOk = true) : ∃ a, x = .ok a := by
  cases x with
  | error e => cases h
  | ok a => exact ⟨a, rfl⟩

theorem exists_eq_ok_of_any {x : Except ε α} {p : α → Bool} (h : x.toOption.any p = true) :
    ∃ a, x = .ok a ∧ p a = true := by
  cases x with
  | error e => cases h
  | ok a => exact ⟨a, rfl, h⟩

theorem exists_eq_ok_fst {σ : Type} {x : Except ε α × σ} (h : x.1.isOk = true) :
    ∃ a s, x = (.ok a, s) := by
  obtain ⟨a, ha⟩ := exists_eq_ok h
  exact ⟨a, x.2, Prod.ext ha rfl⟩

theorem exists_eq_error_fst {σ : Type} {x : Except ε α × σ} {f : α → β} {e : ε}
    (h : x.1.map f = .error e) : ∃ s, x = (.error e, s) := by
  obtain ⟨y, s⟩ := x
  cases y with
  | error e' =>
    injection h with h
    rw [h]
    exact ⟨s, rfl⟩
  | ok a => cases h

theorem bind_eq_ok_iff {x : Except ε α} {f : α → Except ε β} {b : β} :
    (x >>= f) = .ok b ↔ ∃ a, x = .ok a ∧ f a = .ok b := by
  cases x with
  | error e =>
    refine iff_of_false (fun h => by cases h) ?_
    rintro ⟨a, ha, -⟩
    cases ha
  | ok a =>
    constructor
    · exact fun h => ⟨a, rfl, h⟩
    · rintro ⟨a', ha, h⟩
      injection ha with ha
      subst ha
      exact h

theorem guard_eq_ok_iff {c : Prop} [Decidable c] {e : ε} {f : Unit → Except ε α}
    {x : Except ε α} {a : α} :
    (if c then (throw e >>= f : Except ε α) else x) = .ok a ↔ ¬c ∧ x = .ok a := by
  by_cases h : c
  · rw [if_pos h]
    exact iff_of_false (fun hn => by cases hn) fun hn => hn.1 h
  · rw [if_neg h]
    exact ⟨fun hx => ⟨h, hx⟩, fun hx => hx.2⟩

theorem require_eq_ok_iff {c : Prop} [Decidable c] {e : ε} {f : Unit → Except ε α}
    {x : Except ε α} {a : α} :
    (if c then x else (throw e >>= f : Except ε α)) = .ok a ↔ c ∧ x = .ok a := by
  by_cases h : c
  · rw [if_pos h]
    exact ⟨fun hx => ⟨h, hx⟩, fun hx => hx.2⟩
  · rw [if_neg h]
    exact iff_of_false (fun hn => by cases hn) fun hn => h hn.1

theorem map_eq_ok_iff {x : Except ε α} {f : α → β} {b : β} :
    x.map f = .ok b ↔ ∃ a, x = .ok a ∧ f a = b := by
  cases x with
  | error e =>
    refine iff_of_false (fun h => by cases h) fun h => ?_
    obtain ⟨a, ha, -⟩ := h
    cases ha
  | ok a => simp [Except.map]

theorem mapError_eq_ok_iff {δ : Type} {x : Except ε α} {f : ε → δ} {a : α} :
    x.mapError f = .ok a ↔ x = .ok a := by
  cases x with
  | error e => exact iff_of_false (fun h => by cases h) (fun h => by cases h)
  | ok b =>
    constructor
    · exact fun h => congrArg Except.ok (Except.ok.inj h)
    · exact fun h => congrArg Except.ok (Except.ok.inj h)

theorem forM_eq_ok_iff {f : α → Except ε Unit} {xs : List α} :
    xs.forM f = .ok () ↔ ∀ x ∈ xs, f x = .ok () := by
  induction xs with
  | nil => exact ⟨fun _ x hx => absurd hx List.not_mem_nil, fun _ => rfl⟩
  | cons a xs ih =>
    rw [List.forall_mem_cons, ← ih]
    show (f a >>= fun _ => xs.forM f) = .ok () ↔ _
    cases h : f a with
    | error e =>
      refine iff_of_false (fun hn => by cases hn) ?_
      rintro ⟨hn, -⟩
      cases hn
    | ok u => exact ⟨fun hr => ⟨rfl, hr⟩, fun hr => hr.2⟩

theorem mapM_eq_ok_iff {f : α → Except ε β} {xs : List α} {ys : List β} :
    xs.mapM f = .ok ys ↔ List.Forall₂ (fun x y => f x = .ok y) xs ys := by
  induction xs generalizing ys with
  | nil =>
    rw [List.mapM_nil, List.forall₂_nil_left_iff]
    exact ⟨fun h => by injection h with h; exact h.symm, fun h => by rw [h]; rfl⟩
  | cons a xs ih =>
    rw [List.mapM_cons, List.forall₂_cons_left_iff]
    cases h : f a with
    | error e =>
      refine iff_of_false (fun hn => by cases hn) ?_
      rintro ⟨y, ys', hn, -⟩
      cases hn
    | ok y =>
      cases h' : xs.mapM f with
      | error e =>
        refine iff_of_false (fun hn => ?_) ?_
        · simp only [bind, Except.bind] at hn
          cases hn
        · rintro ⟨z, zs, -, hz, -⟩
          rw [ih.mpr hz] at h'
          cases h'
      | ok zs =>
        simp only [bind, Except.bind, pure, Except.pure]
        constructor
        · intro hn
          injection hn with hn
          exact ⟨y, zs, rfl, ih.mp h', hn.symm⟩
        · rintro ⟨z, zs', hz, hzs, rfl⟩
          injection hz with hz
          have hzz := ih.mpr hzs
          rw [h'] at hzz
          injection hzz with hzz
          rw [hz, hzz]

theorem exists_of_mem_right {R : α → β → Prop} {xs : List α} {ys : List β} {y : β}
    (h : List.Forall₂ R xs ys) (hy : y ∈ ys) : ∃ x ∈ xs, R x y := by
  induction h with
  | nil => exact absurd hy List.not_mem_nil
  | @cons a b xs ys hab _ ih =>
    rcases List.mem_cons.mp hy with rfl | hy
    · exact ⟨a, List.mem_cons_self .., hab⟩
    · obtain ⟨x, hx, hxy⟩ := ih hy
      exact ⟨x, List.mem_cons_of_mem _ hx, hxy⟩

theorem exists_of_mem_left {R : α → β → Prop} {xs : List α} {ys : List β} {x : α}
    (h : List.Forall₂ R xs ys) (hx : x ∈ xs) : ∃ y ∈ ys, R x y :=
  exists_of_mem_right h.flip hx

end ProtocolInference.Checks
