import Mathlib.Tactic.Common

/-!
# Tables filled entry by entry

A table is an array into which entries are written in turn. An entry beyond the end is
lost, and of several entries for one place the last one stays.
-/

namespace ProtocolInference.Table

variable {α β : Type}

/-- The table after the entry of every element has been written. -/
def fill (key : β → Nat) (value : β → α) (t : Array α) (xs : List β) : Array α :=
  xs.foldl (fun t x => t.setIfInBounds (key x) (value x)) t

theorem fill_cons (key : β → Nat) (value : β → α) (t : Array α) (x : β) (xs : List β) :
    fill key value t (x :: xs) = fill key value (t.setIfInBounds (key x) (value x)) xs := rfl

@[simp]
theorem size_fill (key : β → Nat) (value : β → α) (t : Array α) (xs : List β) :
    (fill key value t xs).size = t.size := by
  induction xs generalizing t with
  | nil => rfl
  | cons x xs ih => rw [fill_cons, ih, Array.size_setIfInBounds]

theorem getElem?_fill_of_forall_ne {key : β → Nat} {value : β → α} {xs : List β} {i : Nat}
    (t : Array α) (h : ∀ x ∈ xs, key x ≠ i) : (fill key value t xs)[i]? = t[i]? := by
  induction xs generalizing t with
  | nil => rfl
  | cons x xs ih =>
    rw [fill_cons, ih _ fun y hy => h y (List.mem_cons_of_mem _ hy),
      Array.getElem?_setIfInBounds_ne (h x (List.mem_cons_self ..))]

theorem getElem?_fill_of_mem {key : β → Nat} {value : β → α} {xs : List β} {x : β}
    {t : Array α} (hd : (xs.map key).Nodup) (hx : x ∈ xs) (hlt : key x < t.size) :
    (fill key value t xs)[key x]? = some (value x) := by
  induction xs generalizing t with
  | nil => exact absurd hx List.not_mem_nil
  | cons y ys ih =>
    rw [List.map_cons, List.nodup_cons] at hd
    rw [fill_cons]
    rcases List.mem_cons.mp hx with rfl | hx
    · rw [getElem?_fill_of_forall_ne, Array.getElem?_setIfInBounds_self_of_lt hlt]
      intro z hz he
      exact hd.1 (he ▸ List.mem_map_of_mem hz)
    · exact ih hd.2 hx (by rw [Array.size_setIfInBounds]; exact hlt)

theorem getElem?_fill_const {value : α} {t : Array α} {places : List Nat} {i : Nat} :
    (fill id (fun _ => value) t places)[i]? =
      if i ∈ places ∧ i < t.size then some value else t[i]? := by
  induction places generalizing t with
  | nil => simp [fill]
  | cons p places ih =>
    rw [fill_cons, ih, Array.size_setIfInBounds, id_eq, Array.getElem?_setIfInBounds]
    by_cases hp : p = i
    · subst hp
      by_cases hlt : p < t.size
      · simp [hlt]
      · simp [hlt]
    · simp [hp, Ne.symm hp]

end ProtocolInference.Table
