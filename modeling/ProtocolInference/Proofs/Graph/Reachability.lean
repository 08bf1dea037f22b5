import Mathlib.Logic.Relation
import Mathlib.Data.List.TakeWhile
import Mathlib.Tactic.Common
import ProtocolInference.Graph.DepthFirst

/-!
# What a depth-first search enters

The search from some roots enters exactly the nodes that the roots reach, each of them
once. One step of the search keeps two facts: what is still to be entered is on the
stack, and the successors of an entered node are on the stack or entered. When the
stack is empty, the entered nodes are closed under successors.
-/

namespace ProtocolInference.Graph

/-! ### Reachability -/

def Leads (g : Graph) (a b : Nat) : Prop := b ∈ g.successors a

def Reaches (g : Graph) : Nat → Nat → Prop := Relation.ReflTransGen g.Leads

theorem Leads.lt_size {g : Graph} {a b : Nat} (h : g.Leads a b) : a < g.size := by
  by_contra hn
  have hnone : g[a]? = none := Array.getElem?_eq_none (by omega)
  simp [Leads, successors, hnone] at h

/-! ### Marks -/

theorem entered_eq_true_iff {marks : Array Bool} {v : Nat} :
    entered marks v = true ↔ marks[v]? ≠ some false := by
  unfold entered
  cases h : marks[v]? with
  | none => simp
  | some b => cases b <;> simp

theorem not_entered_iff {marks : Array Bool} {v : Nat} :
    ¬ entered marks v = true ↔ marks[v]? = some false := by
  rw [entered_eq_true_iff, not_not]

theorem lt_size_of_not_entered {marks : Array Bool} {v : Nat} (h : ¬ entered marks v = true) :
    v < marks.size := by
  rw [not_entered_iff] at h
  exact (Array.getElem?_eq_some_iff.mp h).1

theorem entered_mark_iff {marks : Array Bool} {node v : Nat} :
    entered (marks.setIfInBounds node true) v = true ↔ entered marks v = true ∨ v = node := by
  rw [entered_eq_true_iff, entered_eq_true_iff, Array.getElem?_setIfInBounds]
  by_cases hv : node = v
  · subst hv
    by_cases hb : node < marks.size <;> simp [hb]
  · simp [hv, Ne.symm hv]

theorem count_mark {marks : Array Bool} {node : Nat} (h : ¬ entered marks node = true) :
    (marks.setIfInBounds node true).count false + 1 = marks.count false := by
  have hlt := lt_size_of_not_entered h
  have hval : marks[node] = false := by
    have h1 := not_entered_iff.mp h
    rw [Array.getElem?_eq_getElem hlt] at h1
    exact Option.some.inj h1
  have hpos : 0 < marks.count false := by
    rw [Array.count_pos_iff, ← hval]
    exact Array.getElem_mem hlt
  rw [Array.setIfInBounds_def, dif_pos hlt, Array.count_set hlt, hval]
  simp only [beq_self_eq_true, if_true]
  have hne : ((true == false) = true) = False := by decide
  simp only [hne, if_false]
  omega

theorem entered_of_count_eq_zero {marks : Array Bool} (h : marks.count false = 0) (v : Nat) :
    entered marks v = true := by
  by_contra hn
  have h1 := count_mark hn
  omega

/-! ### One search -/

theorem dropWhile_entered_cons {marks : Array Bool} {stack rest : List Nat} {node : Nat}
    (h : stack.dropWhile (entered marks) = node :: rest) :
    ¬ entered marks node = true ∧ node ∈ stack ∧ (∀ v ∈ rest, v ∈ stack) ∧
      ∀ v ∈ stack, entered marks v = true ∨ v = node ∨ v ∈ rest := by
  induction stack with
  | nil => simp at h
  | cons a stack ih =>
    by_cases ha : entered marks a = true
    · rw [List.dropWhile_cons_of_pos ha] at h
      obtain ⟨h1, h2, h3, h4⟩ := ih h
      refine ⟨h1, List.mem_cons_of_mem _ h2, fun v hv => List.mem_cons_of_mem _ (h3 v hv), ?_⟩
      intro v hv
      rcases List.mem_cons.mp hv with rfl | hv
      · exact Or.inl ha
      · exact h4 v hv
    · rw [List.dropWhile_cons_of_neg ha] at h
      injection h with h1 h2
      subst h1 h2
      refine ⟨ha, List.mem_cons_self .., fun v hv => List.mem_cons_of_mem _ hv, ?_⟩
      intro v hv
      exact Or.inr (List.mem_cons.mp hv)

/-- What a search enters has not been entered before, and the stack reaches it. -/
theorem search_sound {g : Graph} {steps : Nat} {stack : List Nat} {marks : Array Bool} {v : Nat}
    (h : v ∈ g.search steps stack marks) :
    ¬ entered marks v = true ∧ ∃ s ∈ stack, g.Reaches s v := by
  induction steps generalizing stack marks with
  | zero => simp [search] at h
  | succ steps ih =>
    simp only [search] at h
    split at h
    · simp at h
    · rename_i node rest hd
      obtain ⟨hnode, hmem, hrest, -⟩ := dropWhile_entered_cons hd
      rcases List.mem_cons.mp h with rfl | h
      · exact ⟨hnode, v, hmem, Relation.ReflTransGen.refl⟩
      · obtain ⟨hv, s, hs, hr⟩ := ih h
        rw [entered_mark_iff, not_or] at hv
        refine ⟨hv.1, ?_⟩
        rcases List.mem_append.mp hs with hs | hs
        · exact ⟨node, hmem, Relation.ReflTransGen.head hs hr⟩
        · exact ⟨s, hrest s hs, hr⟩

theorem search_nodup (g : Graph) (steps : Nat) (stack : List Nat) (marks : Array Bool) :
    (g.search steps stack marks).Nodup := by
  induction steps generalizing stack marks with
  | zero => exact List.nodup_nil
  | succ steps ih =>
    simp only [search]
    split
    · exact List.nodup_nil
    · rename_i node rest hd
      refine List.nodup_cons.mpr ⟨?_, ih _ _⟩
      intro h
      have hn := (search_sound h).1
      rw [entered_mark_iff, not_or] at hn
      exact hn.2 rfl

/-- With a step for every node that is left, the search misses nothing: the stack is
entered, and so are the successors of what the search enters. -/
theorem search_closed {g : Graph} {steps : Nat} {stack : List Nat} {marks : Array Bool}
    (hc : marks.count false ≤ steps) :
    (∀ v ∈ stack, entered marks v = true ∨ v ∈ g.search steps stack marks) ∧
      ∀ v ∈ g.search steps stack marks, ∀ w ∈ g.successors v,
        entered marks w = true ∨ w ∈ g.search steps stack marks := by
  induction steps generalizing stack marks with
  | zero =>
    have hall := entered_of_count_eq_zero (Nat.le_zero.mp hc)
    exact ⟨fun v _ => Or.inl (hall v), fun v hv => by simp [search] at hv⟩
  | succ steps ih =>
    simp only [search]
    split
    · rename_i hd
      refine ⟨?_, fun v hv => by simp at hv⟩
      intro v hv
      exact Or.inl (List.dropWhile_eq_nil_iff.mp hd v hv)
    · rename_i node rest hd
      obtain ⟨hnode, -, -, hstack⟩ := dropWhile_entered_cons hd
      have hcount := count_mark hnode
      obtain ⟨hin, hsucc⟩ := @ih (g.successors node ++ rest)
        (marks.setIfInBounds node true) (by omega)
      have hkeep : ∀ w, (entered (marks.setIfInBounds node true) w = true ∨
          w ∈ g.search steps (g.successors node ++ rest) (marks.setIfInBounds node true)) →
          entered marks w = true ∨ w ∈ node ::
            g.search steps (g.successors node ++ rest) (marks.setIfInBounds node true) := by
        intro w hw
        rw [entered_mark_iff] at hw
        rw [List.mem_cons]
        tauto
      constructor
      · intro v hv
        rcases hstack v hv with hv | rfl | hv
        · exact Or.inl hv
        · exact Or.inr (List.mem_cons_self ..)
        · exact hkeep v (hin v (List.mem_append_right _ hv))
      · intro v hv w hw
        rcases List.mem_cons.mp hv with rfl | hv
        · exact hkeep w (hin w (List.mem_append_left _ hw))
        · exact hkeep w (hsucc v hv w hw)

/-! ### The searches from given roots -/

theorem not_entered_replicate {n v : Nat} :
    ¬ entered (Array.replicate n false) v = true ↔ v < n := by
  rw [not_entered_iff, Array.getElem?_replicate]
  simp

/-- The search from the roots enters exactly the nodes that they reach. -/
theorem mem_preorder_iff {g : Graph} {roots : List Nat} {v : Nat} :
    v ∈ g.preorder roots ↔ v < g.size ∧ ∃ r ∈ roots, g.Reaches r v := by
  unfold preorder
  constructor
  · intro h
    obtain ⟨hv, hr⟩ := search_sound h
    exact ⟨not_entered_replicate.mp hv, hr⟩
  · rintro ⟨hv, r, hr, hp⟩
    obtain ⟨hin, hsucc⟩ := @search_closed g g.size roots
      (Array.replicate g.size false) (by simp)
    -- The roots are entered, and every edge leads on to an entered node.
    have key : ∀ w, g.Reaches r w → w < g.size →
        w ∈ g.search g.size roots (Array.replicate g.size false) := by
      intro w hw
      induction hw with
      | refl =>
        intro hlt
        exact (hin r hr).resolve_left (not_entered_replicate.mpr hlt)
      | tail _ hbc ih =>
        intro hlt
        exact (hsucc _ (ih (Leads.lt_size hbc)) _ hbc).resolve_left
          (not_entered_replicate.mpr hlt)
    exact key v hp hv

theorem preorder_nodup (g : Graph) (roots : List Nat) : (g.preorder roots).Nodup :=
  search_nodup g _ _ _

theorem marksOf_getD {n v : Nat} (nodes : List Nat) :
    (marksOf n nodes)[v]?.getD false = true ↔ v < n ∧ v ∈ nodes := by
  have key : ∀ (nodes : List Nat) (marks : Array Bool),
      (nodes.foldl (fun marks node => marks.setIfInBounds node true) marks)[v]?.getD false = true ↔
        marks[v]?.getD false = true ∨ (v < marks.size ∧ v ∈ nodes) := by
    intro nodes
    induction nodes with
    | nil => simp
    | cons a nodes ih =>
      intro marks
      rw [List.foldl_cons, ih, Array.getElem?_setIfInBounds, Array.size_setIfInBounds,
        List.mem_cons]
      by_cases ha : a = v
      · subst ha
        by_cases hb : a < marks.size <;> simp [hb]
      · simp [ha, Ne.symm ha]
  rw [marksOf, key, Array.getElem?_replicate, Array.size_replicate]
  by_cases hv : v < n <;> simp [hv]

theorem reached_getD {g : Graph} {roots : List Nat} {v : Nat} :
    (g.reached roots)[v]?.getD false = true ↔ v < g.size ∧ ∃ r ∈ roots, g.Reaches r v := by
  rw [reached, marksOf_getD, mem_preorder_iff]
  tauto

theorem mem_closure_iff {g : Graph} {roots : List Nat} {v : Nat} :
    v ∈ g.closure roots ↔ v < g.size ∧ ∃ r ∈ roots, g.Reaches r v := by
  simp only [closure, List.mem_filter, List.mem_range, reached_getD]
  tauto

/-! ### Cycles -/

theorem onCycle_iff {g : Graph} {v : Nat} (hv : v < g.size) :
    g.onCycle v = true ↔ ∃ w, g.Leads v w ∧ g.Reaches w v := by
  simp [onCycle, mem_preorder_iff, hv, Leads]

theorem hasCycle_eq_true_iff {g : Graph} :
    g.hasCycle = true ↔ ∃ v w, g.Leads v w ∧ g.Reaches w v := by
  simp only [hasCycle, List.any_eq_true, List.mem_range]
  constructor
  · rintro ⟨v, hv, hc⟩
    exact ⟨v, (onCycle_iff hv).mp hc⟩
  · rintro ⟨v, w, hl, hr⟩
    exact ⟨v, hl.lt_size, (onCycle_iff hl.lt_size).mpr ⟨w, hl, hr⟩⟩

end ProtocolInference.Graph
