import Mathlib.Data.List.Count
import ProtocolInference.Proofs.Graph.Reachability

/-!
# Depth-first search by recursion

Depth-first search is a recursion over the graph: to visit a node that has not been seen is
to enter it and then to visit its successors in turn. The search with a stack enters the
same nodes in the same order. The part of the stack above any place is left to be visited
before what lies below, so the search works off the stack piece by piece: it visits the
nodes on top with all that they reach, and goes on below with what it has seen by then.
-/

namespace ProtocolInference.Graph

variable {g : Graph} {seen : List Nat} {marks : Array Bool} {node steps : Nat}

/-! ### The recursion -/

/-- Number of nodes that have not been seen. -/
def unseen (g : Graph) (seen : List Nat) : Nat :=
  (List.range g.size).countP (· ∉ seen)

theorem unseen_lt {seen' : List Nat} (h : ¬(node ∈ seen ∨ g.size ≤ node)) (hnode : node ∈ seen')
    (hseen : ∀ v ∈ seen, v ∈ seen') : g.unseen seen' < g.unseen seen := by
  rw [not_or, Nat.not_le] at h
  have hperm := List.perm_cons_erase (List.mem_range.mpr h.2)
  rw [unseen, unseen, hperm.countP_eq, hperm.countP_eq]
  have hmono : ((List.range g.size).erase node).countP (· ∉ seen') ≤
      ((List.range g.size).erase node).countP (· ∉ seen) := by
    refine List.countP_mono_left fun v _ hv => ?_
    rw [decide_eq_true_eq] at hv ⊢
    exact fun hin => hv (hseen v hin)
  rw [List.countP_cons_of_neg (by simpa using hnode), List.countP_cons_of_pos (by simpa using h.1)]
  omega

/-- Visits the nodes in turn. A node that has been seen is skipped, as is what is no node of
the graph. Any other node is entered, and its successors are visited before the next node
is. The result lists the nodes in the order of entry. -/
def visit (g : Graph) (seen : List Nat) : List Nat → List Nat
  | [] => []
  | node :: rest =>
    if node ∈ seen ∨ g.size ≤ node then visit g seen rest
    else
      let below := visit g (node :: seen) (g.successors node)
      node :: below ++ visit g (below ++ node :: seen) rest
termination_by nodes => (g.unseen seen, nodes.length)
decreasing_by
  · exact .right _ (Nat.lt_succ_self _)
  · exact .left _ _ (unseen_lt ‹_› (List.mem_cons_self ..) fun v hv => List.mem_cons_of_mem _ hv)
  · refine .left _ _ (unseen_lt ‹_› ?_ fun v hv => ?_)
    · exact List.mem_append_right _ (List.mem_cons_self ..)
    · exact List.mem_append_right _ (List.mem_cons_of_mem _ hv)

/-! ### One step of the search with a stack -/

theorem search_cons_of_entered {stack : List Nat} (h : entered marks node = true) :
    g.search steps (node :: stack) marks = g.search steps stack marks := by
  cases steps with
  | zero => rfl
  | succ steps => rw [search, search, List.dropWhile_cons_of_pos h]

theorem search_cons_of_not_entered {stack : List Nat} (h : ¬entered marks node = true) :
    g.search (steps + 1) (node :: stack) marks =
      node :: g.search steps (g.successors node ++ stack) (marks.setIfInBounds node true) := by
  rw [search, List.dropWhile_cons_of_neg h]

/-- More steps than there are nodes to enter make no difference. -/
theorem search_succ {stack : List Nat} (h : marks.count false ≤ steps) :
    g.search (steps + 1) stack marks = g.search steps stack marks := by
  induction steps generalizing stack marks with
  | zero =>
    have hall : stack.dropWhile (entered marks) = [] := List.dropWhile_eq_nil_iff.mpr
      fun v _ => entered_of_count_eq_zero (Nat.le_zero.mp h) v
    rw [search, search, hall]
  | succ steps ih =>
    rw [search, search]
    cases hd : stack.dropWhile (entered marks) with
    | nil => rfl
    | cons node rest =>
      have hcount := count_mark (dropWhile_entered_cons hd).1
      exact congrArg (node :: ·) (ih (by omega))

/-! ### The stack worked off -/

/-- The marks are those of the nodes that have been seen. -/
def Records (g : Graph) (marks : Array Bool) (seen : List Nat) : Prop :=
  ∀ v, entered marks v = true ↔ v ∈ seen ∨ g.size ≤ v

theorem records_start (g : Graph) : g.Records (Array.replicate g.size false) [] := by
  intro v
  have hv := not_entered_replicate (n := g.size) (v := v)
  rw [← not_iff_not, hv]
  simp

theorem Records.mark (h : g.Records marks seen) :
    g.Records (marks.setIfInBounds node true) (node :: seen) := by
  intro v
  rw [entered_mark_iff, h v, List.mem_cons]
  tauto

/-- The nodes on top of the stack are visited with all that they reach, before the search
goes on with what lies below them. -/
theorem search_append (nodes : List Nat) (h : g.Records marks seen) :
    ∃ marks', g.Records marks' (g.visit seen nodes ++ seen) ∧
      marks'.count false ≤ marks.count false ∧
      ∀ steps rest, marks.count false ≤ steps →
        g.search steps (nodes ++ rest) marks =
          g.visit seen nodes ++ g.search steps rest marks' := by
  fun_induction visit g seen nodes generalizing marks
  case case1 seen => exact ⟨marks, h, le_rfl, fun _ _ _ => rfl⟩
  case case2 seen node nodes hskip ih =>
    obtain ⟨marks', hrecords, hcount, hsearch⟩ := ih h
    refine ⟨marks', hrecords, hcount, fun steps rest hsteps => ?_⟩
    rw [List.cons_append, search_cons_of_entered ((h node).mpr hskip), hsearch steps rest hsteps]
  case case3 seen node nodes henter below ihbelow ihrest =>
    have hnode : ¬entered marks node = true := fun hin => henter ((h node).mp hin)
    have hmark := count_mark hnode
    obtain ⟨marks₁, hrecords₁, hcount₁, hsearch₁⟩ := ihbelow h.mark
    obtain ⟨marks₂, hrecords₂, hcount₂, hsearch₂⟩ := ihrest hrecords₁
    refine ⟨marks₂, fun v => ?_, by omega, fun steps rest hsteps => ?_⟩
    · rw [hrecords₂ v]
      simp only [List.mem_append, List.mem_cons]
      tauto
    · obtain ⟨k, rfl⟩ : ∃ k, steps = k + 1 := ⟨steps - 1, by omega⟩
      calc g.search (k + 1) (node :: nodes ++ rest) marks
          = node :: g.search k (g.successors node ++ (nodes ++ rest))
              (marks.setIfInBounds node true) := search_cons_of_not_entered hnode
        _ = node :: (below ++ g.search k (nodes ++ rest) marks₁) := by
            rw [hsearch₁ k _ (by omega)]
        _ = node :: (below ++ (g.visit (below ++ node :: seen) nodes ++
              g.search k rest marks₂)) := by rw [hsearch₂ k rest (by omega)]
        _ = node :: below ++ g.visit (below ++ node :: seen) nodes ++
              g.search (k + 1) rest marks₂ := by
            rw [search_succ (by omega)]
            simp only [List.cons_append, List.append_assoc]

/-- The search with a stack enters the nodes in the order in which the recursion visits
them from the roots in turn. -/
theorem preorder_eq_visit (g : Graph) (roots : List Nat) : g.preorder roots = g.visit [] roots := by
  obtain ⟨marks, -, -, hsearch⟩ := search_append roots (records_start g)
  have hwhole := hsearch g.size [] (by simp)
  have hdone : g.search g.size [] marks = [] := by
    cases g.size <;> rfl
  rw [List.append_nil, hdone, List.append_nil] at hwhole
  exact hwhole

end ProtocolInference.Graph
