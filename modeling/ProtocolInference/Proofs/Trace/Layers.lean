import ProtocolInference.Proofs.Trace.Interleaving

/-!
# The graph of all schedules

Every configuration in the layers is balanced, because a step from a balanced one is. So
the first configuration that is met with some progress stands for all of them, and each
edge of the graph executes its event.
-/

namespace ProtocolInference.Interleaving

variable {channels : List Channel} {events : List (List Event)} {layer : List Configuration}
  {c d : Configuration} {e : Event}

/-! ### One layer and the next -/

theorem mem_steps : (e, d) ∈ steps events c ↔ ∃ pid, step? events c pid = some (e, d) := by
  simp only [steps, List.mem_filterMap, List.mem_range]
  constructor
  · rintro ⟨pid, -, h⟩
    exact ⟨pid, h⟩
  · rintro ⟨pid, h⟩
    obtain ⟨sequence, n, hseq, -⟩ := step?_eq_some_iff.mp h
    exact ⟨pid, (List.getElem?_eq_some_iff.mp hseq).1, h⟩

def meet (found : List Configuration) (x : Event × Configuration) : List Configuration :=
  if found.any (·.progress == x.2.progress) then found else found ++ [x.2]

theorem successors_eq (events : List (List Event)) (layer : List Configuration) :
    successors events layer = (layer.flatMap (steps events)).foldl meet [] := rfl

theorem foldl_meet_spec (xs : List (Event × Configuration)) (found : List Configuration) :
    (∀ d ∈ xs.foldl meet found, d ∈ found ∨ ∃ e, (e, d) ∈ xs) ∧
    (∀ d ∈ found, d ∈ xs.foldl meet found) ∧
    ∀ e d, (e, d) ∈ xs → ∃ f ∈ xs.foldl meet found, f.progress = d.progress := by
  induction xs generalizing found with
  | nil => exact ⟨fun d hd => Or.inl hd, fun d hd => hd, fun e d h => absurd h List.not_mem_nil⟩
  | cons x xs ih =>
    obtain ⟨hfrom, hkept, hmet⟩ := ih (meet found x)
    have hgrow : ∀ d ∈ found, d ∈ meet found x := by
      intro d hd
      unfold meet
      split
      · exact hd
      · exact List.mem_append_left _ hd
    rw [List.foldl_cons]
    refine ⟨fun d hd => ?_, fun d hd => hkept d (hgrow d hd), fun e d hm => ?_⟩
    · rcases hfrom d hd with hd | ⟨e, he⟩
      · unfold meet at hd
        split at hd
        · exact Or.inl hd
        · rcases List.mem_append.mp hd with hd | hd
          · exact Or.inl hd
          · rw [List.mem_singleton] at hd
            exact Or.inr ⟨x.1, by rw [hd]; exact List.mem_cons_self ..⟩
      · exact Or.inr ⟨e, List.mem_cons_of_mem _ he⟩
    · rcases List.mem_cons.mp hm with rfl | hm
      · unfold meet at hkept ⊢
        split at hkept
        · rename_i hany
          obtain ⟨f, hf, hprogress⟩ := List.any_eq_true.mp hany
          rw [if_pos hany]
          exact ⟨f, hkept f hf, eq_of_beq hprogress⟩
        · rename_i hnone
          rw [if_neg hnone]
          exact ⟨d, hkept d (List.mem_append_right _ (List.mem_singleton_self d)), rfl⟩
      · exact hmet e d hm

theorem exists_step_of_mem_successors (h : d ∈ successors events layer) :
    ∃ c ∈ layer, ∃ e pid, step? events c pid = some (e, d) := by
  rw [successors_eq] at h
  rcases (foldl_meet_spec _ _).1 d h with h | ⟨e, he⟩
  · cases h
  · obtain ⟨c, hc, hm⟩ := List.mem_flatMap.mp he
    obtain ⟨pid, hs⟩ := mem_steps.mp hm
    exact ⟨c, hc, e, pid, hs⟩

theorem balanced_of_mem_successors (hfit : Fit channels events)
    (hlayer : ∀ c ∈ layer, Balanced channels events c) (h : d ∈ successors events layer) :
    Balanced channels events d := by
  obtain ⟨c, hc, e, pid, hs⟩ := exists_step_of_mem_successors h
  exact (hlayer c hc).step hfit hs

/-- From a balanced layer each step leads to a configuration of the next, which is found
there by its progress. -/
theorem getElem?_successors_of_step (hfit : Fit channels events)
    (hlayer : ∀ c ∈ layer, Balanced channels events c) (hc : c ∈ layer) {pid : Nat}
    (hs : step? events c pid = some (e, d)) :
    (successors events layer)[(successors events layer).findIdx
      (·.progress == d.progress)]? = some d := by
  have hm : (e, d) ∈ layer.flatMap (steps events) :=
    List.mem_flatMap.mpr ⟨c, hc, mem_steps.mpr ⟨pid, hs⟩⟩
  obtain ⟨f, hf, hprogress⟩ := (foldl_meet_spec (layer.flatMap (steps events)) []).2.2 e d hm
  have hlt : (successors events layer).findIdx (·.progress == d.progress) <
      (successors events layer).length :=
    List.findIdx_lt_length_of_exists ⟨f, hf, beq_iff_eq.mpr hprogress⟩
  -- What is found is balanced, and so is `d`, whatever step led there first.
  have hfound := balanced_of_mem_successors hfit hlayer (List.getElem_mem hlt)
  have hsame := eq_of_beq (List.findIdx_getElem (w := hlt))
  rw [List.getElem?_eq_getElem hlt, hfound.eq_of_progress ((hlayer c hc).step hfit hs) hsame]

/-! ### All layers -/

/-- The edge is a step between two of the configurations, whose numbers begin with the
given one. -/
def IsStep (events : List (List Event)) (first : Nat) (configurations : List Configuration)
    (edge : Edge) : Prop :=
  ∃ i j c d pid, edge.source = first + i ∧ configurations[i]? = some c ∧
    edge.target = first + j ∧ configurations[j]? = some d ∧
    step? events c pid = some (edge.event, d)

theorem isStep_of_mem_edgesBetween (hfit : Fit channels events)
    (hlayer : ∀ c ∈ layer, Balanced channels events c) {first : Nat} {edge : Edge}
    (h : edge ∈ edgesBetween events first layer (successors events layer)) :
    IsStep events first (layer ++ successors events layer) edge := by
  simp only [edgesBetween, List.mem_flatMap, List.mem_map] at h
  obtain ⟨⟨c, source⟩, hc, ⟨e, d⟩, hm, rfl⟩ := h
  obtain ⟨pid, hs⟩ := mem_steps.mp hm
  obtain ⟨hle, hsource⟩ := List.mem_zipIdx_iff_le_and_getElem?_sub.mp hc
  have hlt := (List.getElem?_eq_some_iff.mp hsource).1
  have htarget := getElem?_successors_of_step hfit hlayer (List.mem_of_getElem? hsource) hs
  refine ⟨source - first, _, c, d, pid, (Nat.add_sub_cancel' hle).symm, ?_, Nat.add_assoc ..,
    ?_, hs⟩
  · rw [List.getElem?_append_left hlt]
    exact hsource
  · rw [List.getElem?_append_right (Nat.le_add_right ..), Nat.add_sub_cancel_left]
    exact htarget

theorem IsStep.append {first : Nat} {configurations : List Configuration} {edge : Edge}
    (h : IsStep events first configurations edge) (later : List Configuration) :
    IsStep events first (configurations ++ later) edge := by
  obtain ⟨i, j, c, d, pid, hs, hc, ht, hd, hstep⟩ := h
  refine ⟨i, j, c, d, pid, hs, ?_, ht, ?_, hstep⟩
  · rw [List.getElem?_append_left (List.getElem?_eq_some_iff.mp hc).1, hc]
  · rw [List.getElem?_append_left (List.getElem?_eq_some_iff.mp hd).1, hd]

theorem IsStep.prepend {first : Nat} {configurations : List Configuration} {edge : Edge}
    (earlier : List Configuration)
    (h : IsStep events (first + earlier.length) configurations edge) :
    IsStep events first (earlier ++ configurations) edge := by
  obtain ⟨i, j, c, d, pid, hs, hc, ht, hd, hstep⟩ := h
  refine ⟨earlier.length + i, earlier.length + j, c, d, pid, by omega, ?_, by omega, ?_, hstep⟩
  · rw [List.getElem?_append_right (Nat.le_add_right ..), Nat.add_sub_cancel_left, hc]
  · rw [List.getElem?_append_right (Nat.le_add_right ..), Nat.add_sub_cancel_left, hd]

/-- From a balanced layer on, the edges are steps between the configurations. -/
theorem layers_spec (hfit : Fit channels events) (n first : Nat)
    (hlayer : ∀ c ∈ layer, Balanced channels events c) :
    (∃ later, (layers events n first layer).1 = layer ++ later) ∧
      ∀ edge ∈ (layers events n first layer).2,
        IsStep events first (layers events n first layer).1 edge := by
  induction n generalizing first layer with
  | zero => exact ⟨⟨[], (List.append_nil _).symm⟩, fun edge he => absurd he List.not_mem_nil⟩
  | succ n ih =>
    unfold layers
    split
    · exact ⟨⟨[], (List.append_nil _).symm⟩, fun edge he => absurd he List.not_mem_nil⟩
    · obtain ⟨⟨later, hlater⟩, hedges⟩ := @ih (successors events layer) (first + layer.length)
        fun c hc => balanced_of_mem_successors hfit hlayer hc
      dsimp only
      refine ⟨⟨_, rfl⟩, fun edge he => ?_⟩
      rcases List.mem_append.mp he with he | he
      · rw [hlater, ← List.append_assoc]
        exact (isStep_of_mem_edgesBetween hfit hlayer he).append later
      · exact (hedges edge he).prepend layer

end ProtocolInference.Interleaving
