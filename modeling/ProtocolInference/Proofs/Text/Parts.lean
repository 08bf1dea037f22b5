import Mathlib
import ProtocolInference.Text.Identifier

/-!
# Lines and words of a text

A text is read line by line, and a line word by word. What is put together from parts without
the separator comes apart into the same parts, so a text that is written as lines of words is
read back as those lines and words. Numbers and identifiers have no separator in them.
-/

namespace ProtocolInference.Text

variable {s t : String} {sep c : Char} {n : Nat}

@[simp]
theorem toString_string (s : String) : toString s = s := rfl

/-! ### Parts between separators -/

/-- The parts of a text between the separators. -/
def parts (sep : Char) (s : String) : List String :=
  (s.toList.splitOn sep).map String.ofList

theorem parts_append (h : sep ∉ s.toList) :
    parts sep (s ++ (String.singleton sep ++ t)) = s :: parts sep t := by
  simp [parts, List.splitOn_append_cons_self_of_not_mem h]

theorem parts_of_not_mem (h : sep ∉ s.toList) : parts sep s = [s] := by
  simp [parts, List.splitOn_eq_singleton h]

theorem parts_ne_nil (sep : Char) (s : String) : parts sep s ≠ [] := by
  simp [parts, List.splitOn_ne_nil]

/-- Where two texts go on after their first separators, their first parts are the same. -/
theorem eq_of_append_cons {α : Type} [BEq α] [LawfulBEq α] {a : α} {xs ys us vs : List α}
    (hx : a ∉ xs) (hy : a ∉ ys) (h : xs ++ a :: us = ys ++ a :: vs) : xs = ys ∧ us = vs := by
  have hsplit := congrArg (List.splitOn a) h
  rw [List.splitOn_append_cons_self_of_not_mem hx, List.splitOn_append_cons_self_of_not_mem hy]
    at hsplit
  have hparts : xs = ys := (List.cons.inj hsplit).1
  rw [hparts, List.append_cancel_left_eq] at h
  exact ⟨hparts, (List.cons.inj h).2⟩

/-! ### Words -/

/-- The words of a line. Blanks that follow each other have an empty word between them. -/
def words (s : String) : List String := parts ' ' s

theorem words_intercalate {ws : List String} (hne : ws ≠ []) (h : ∀ w ∈ ws, ' ' ∉ w.toList) :
    words (String.intercalate " " ws) = ws := by
  induction ws with
  | nil => exact absurd rfl hne
  | cons w ws ih =>
    obtain ⟨hw, hws⟩ := List.forall_mem_cons.mp h
    cases ws with
    | nil =>
      rw [String.intercalate_singleton]
      exact parts_of_not_mem hw
    | cons v ws =>
      rw [String.intercalate_cons_cons, String.append_assoc]
      exact (parts_append hw).trans (congrArg (w :: ·) (ih (List.cons_ne_nil _ _) hws))

theorem words_append (s t : String) : words (s ++ (" " ++ t)) = words s ++ words t := by
  have hblank : " " = String.singleton ' ' := rfl
  rw [hblank]
  simp only [words, parts, String.toList_append, String.toList_singleton, List.singleton_append,
    List.splitOn_append_cons_self, List.map_append]

theorem words_of_not_mem (h : ' ' ∉ s.toList) : words s = [s] := parts_of_not_mem h

theorem words_cons (h : ' ' ∉ s.toList) (t : String) : words (s ++ (" " ++ t)) = s :: words t := by
  rw [words_append, words_of_not_mem h, List.singleton_append]

theorem not_mem_intercalate {ws : List String} (hs : c ∉ s.toList)
    (h : ∀ w ∈ ws, c ∉ w.toList) : c ∉ (String.intercalate s ws).toList := by
  induction ws with
  | nil => simp
  | cons w ws ih =>
    obtain ⟨hw, hws⟩ := List.forall_mem_cons.mp h
    cases ws with
    | nil =>
      rw [String.intercalate_singleton]
      exact hw
    | cons v ws =>
      have hrest := ih hws
      simp only [String.intercalate_cons_cons, String.toList_append, List.mem_append, not_or]
      exact ⟨⟨hw, hs⟩, hrest⟩

/-! ### Lines -/

/-- The lines of a text. What follows the last line break is no line. -/
def lines (s : String) : List String := (parts '\n' s).dropLast

/-- The text of the given lines. -/
def unlines (ls : List String) : String := String.join (ls.map (· ++ "\n"))

theorem unlines_append (ls ms : List String) : unlines (ls ++ ms) = unlines ls ++ unlines ms := by
  simp [unlines]

theorem unlines_cons (l : String) (ls : List String) :
    unlines (l :: ls) = l ++ "\n" ++ unlines ls := by
  simp [unlines]

theorem unlines_flatMap {α : Type} (f : α → List String) (xs : List α) :
    unlines (xs.flatMap f) = String.join (xs.map fun x => unlines (f x)) := by
  induction xs with
  | nil => rfl
  | cons x xs ih => rw [List.flatMap_cons, unlines_append, ih, List.map_cons, String.join_cons]

theorem lines_append {ls : List String} (h : ∀ l ∈ ls, '\n' ∉ l.toList) :
    lines (unlines ls ++ t) = ls ++ lines t := by
  induction ls with
  | nil => simp [unlines]
  | cons l ls ih =>
    obtain ⟨hl, hls⟩ := List.forall_mem_cons.mp h
    have htext : unlines (l :: ls) ++ t = l ++ (String.singleton '\n' ++ (unlines ls ++ t)) := by
      simp [unlines, String.append_assoc]
    rw [htext, lines, parts_append hl, List.dropLast_cons_of_ne_nil (parts_ne_nil _ _)]
    exact congrArg (l :: ·) (ih hls)

theorem lines_unlines {ls : List String} (h : ∀ l ∈ ls, '\n' ∉ l.toList) :
    lines (unlines ls) = ls := by
  have hlines := lines_append (t := "") h
  rw [String.append_empty] at hlines
  rw [hlines]
  exact List.append_nil ls

/-! ### Numbers and identifiers -/

theorem not_mem_digits (h : c.isDigit = false) : c ∉ Nat.toDigits 10 n := by
  intro hc
  rw [Nat.isDigit_of_mem_toDigits (by decide) (by decide) hc] at h
  cases h

theorem not_mem_toString (h : c.isDigit = false) : c ∉ (toString n).toList := by
  rw [Nat.toString_eq_repr, Nat.repr_eq_ofList_toDigits, String.toList_ofList]
  exact not_mem_digits h

theorem toString_ne_empty (n : Nat) : toString n ≠ "" := by
  intro h
  rw [Nat.toString_eq_repr, Nat.repr_eq_ofList_toDigits, String.ofList_eq_empty_iff] at h
  exact Nat.toDigits_ne_nil h

/-- The text has characters of identifiers only. -/
def IsName (s : String) : Prop := ∀ c ∈ s.toList, continuesIdentifier c = true

instance (s : String) : Decidable (IsName s) :=
  decidable_of_iff (s.toList.all continuesIdentifier = true) List.all_eq_true

theorem IsName.not_mem (h : IsName s) (hc : continuesIdentifier c = false) : c ∉ s.toList := by
  intro hmem
  rw [h c hmem] at hc
  cases hc

theorem IsName.append (hs : IsName s) (ht : IsName t) : IsName (s ++ t) := by
  intro c hc
  rw [String.toList_append] at hc
  exact (List.mem_append.mp hc).elim (hs c) (ht c)

theorem isName_of_isIdentifier (h : isIdentifier s = true) : IsName s := by
  intro c hc
  rw [isIdentifier] at h
  cases hs : s.toList with
  | nil =>
    rw [hs] at hc
    exact absurd hc List.not_mem_nil
  | cons d rest =>
    rw [hs] at h hc
    rw [Bool.and_eq_true, List.all_eq_true] at h
    rcases List.mem_cons.mp hc with rfl | hc
    · have hstart := h.1
      simp only [startsIdentifier, Bool.or_eq_true] at hstart
      simp only [continuesIdentifier, Char.isAlphanum, Bool.or_eq_true]
      tauto
    · exact h.2 c hc

/-- The number is told from a text that ends with it. -/
theorem eq_of_append_toString {front : String} {m n : Nat}
    (h : front ++ toString m = front ++ toString n) : m = n :=
  Nat.repr_inj.mp ((String.append_right_inj front).mp h)

/-- Numbers that are written with blanks between them can be read back. -/
theorem eq_of_intercalate {ms ns : List Nat}
    (h : String.intercalate " " (ms.map fun n => toString n) =
      String.intercalate " " (ns.map fun n => toString n)) : ms = ns := by
  have hwords : ∀ n ns, words (String.intercalate " " ((n :: ns).map fun n : Nat => toString n)) =
      (n :: ns).map fun n => toString n := by
    intro n ns
    refine words_intercalate (List.cons_ne_nil _ _) fun w hw => ?_
    obtain ⟨m, -, rfl⟩ := List.mem_map.mp hw
    exact not_mem_toString (by decide)
  have hempty : ∀ n ns, [""] ≠ (n :: ns).map fun n : Nat => toString n := by
    intro n ns heq
    exact toString_ne_empty n (List.cons.inj heq).1.symm
  cases ms with
  | nil =>
    cases ns with
    | nil => rfl
    | cons n ns => exact absurd ((congrArg words h).trans (hwords n ns)) (hempty n ns)
  | cons m ms =>
    cases ns with
    | nil => exact absurd ((congrArg words h.symm).trans (hwords m ms)) (hempty m ms)
    | cons n ns =>
      have heq := congrArg words h
      rw [hwords, hwords] at heq
      exact List.map_injective_iff.mpr (fun _ _ => Nat.repr_inj.mp) heq

theorem isName_toString (n : Nat) : IsName (toString n) := by
  intro c hc
  rw [Nat.toString_eq_repr, Nat.repr_eq_ofList_toDigits, String.toList_ofList] at hc
  have hdigit := Nat.isDigit_of_mem_toDigits (by decide) (by decide) hc
  simp [continuesIdentifier, Char.isAlphanum, hdigit]

end ProtocolInference.Text
