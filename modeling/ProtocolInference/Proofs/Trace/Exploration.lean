import ProtocolInference.Proofs.Trace.Layers
import ProtocolInference.Proofs.Trace.Schedules

/-!
# The exploration of all schedules

Layer `k` holds the configurations that the schedules of `k` events lead to, each progress
once. The layers from one on, together with the edges between them, hold all configurations
of at least as long schedules, and the edges out of a configuration are its steps in the
order of the processes.
-/

namespace ProtocolInference.Interleaving

variable {channels : List Channel} {events : List (List Event)} {layer : List Configuration}
  {c d : Configuration} {e : Event} {k : Nat}

/-! ### One layer -/

structure IsLayer (channels : List Channel) (events : List (List Event)) (k : Nat)
    (layer : List Configuration) : Prop where
  nodup : (layer.map (·.progress)).Nodup
  mem_iff : ∀ c, c ∈ layer ↔ ∃ es, es.length = k ∧ Scheduled channels events c es

theorem isLayer_start (channels : List Channel) (events : List (List Event)) :
    IsLayer channels events 0 [start channels events] where
  nodup := List.nodup_singleton _
  mem_iff := by
    intro c
    rw [List.mem_singleton, ← scheduled_nil_iff]
    constructor
    · exact fun h => ⟨[], rfl, h⟩
    · rintro ⟨es, hes, h⟩
      rw [List.eq_nil_of_length_eq_zero hes] at h
      exact h

theorem nodup_foldl_meet (xs : List (Event × Configuration)) (found : List Configuration)
    (h : (found.map (·.progress)).Nodup) : ((xs.foldl meet found).map (·.progress)).Nodup := by
  induction xs generalizing found with
  | nil => exact h
  | cons x xs ih =>
    rw [List.foldl_cons]
    refine ih _ ?_
    unfold meet
    split
    · exact h
    · rename_i hnone
      rw [List.map_append, List.nodup_append]
      refine ⟨h, List.nodup_singleton _, ?_⟩
      intro p hp q hq hpq
      rw [List.map_singleton, List.mem_singleton] at hq
      obtain ⟨f, hf, hfp⟩ := List.mem_map.mp hp
      refine hnone (List.any_eq_true.mpr ⟨f, hf, beq_iff_eq.mpr ?_⟩)
      rw [hfp, hpq, hq]

theorem IsLayer.balanced (hfit : Fit channels events) (h : IsLayer channels events k layer) :
    ∀ c ∈ layer, Balanced channels events c := by
  intro c hc
  obtain ⟨es, -, hes⟩ := (h.mem_iff c).mp hc
  exact hes.balanced hfit

theorem IsLayer.next (hfit : Fit channels events) (h : IsLayer channels events k layer) :
    IsLayer channels events (k + 1) (successors events layer) where
  nodup := nodup_foldl_meet _ [] List.nodup_nil
  mem_iff := by
    intro d
    constructor
    · intro hd
      obtain ⟨c, hc, e, pid, hs⟩ := exists_step_of_mem_successors hd
      obtain ⟨es, hlen, hes⟩ := (h.mem_iff c).mp hc
      refine ⟨es ++ [e], ?_, (scheduled_snoc_iff hfit).mpr ⟨c, pid, hes, hs⟩⟩
      rw [List.length_append, List.length_singleton, hlen]
    · rintro ⟨fs, hlen, hfs⟩
      rcases List.eq_nil_or_concat fs with hnil | ⟨es, e, hsnoc⟩
      · rw [hnil] at hlen
        simp at hlen
      · rw [List.concat_eq_append] at hsnoc
        subst hsnoc
        rw [List.length_append, List.length_singleton] at hlen
        obtain ⟨c, pid, hes, hs⟩ := (scheduled_snoc_iff hfit).mp hfs
        have hc : c ∈ layer := (h.mem_iff c).mpr ⟨es, by omega, hes⟩
        exact List.mem_of_getElem?
          (getElem?_successors_of_step hfit (h.balanced hfit) hc hs)

theorem IsLayer.sum_progress (hfit : Fit channels events) (h : IsLayer channels events k layer)
    (hc : c ∈ layer) : c.progress.sum = k := by
  obtain ⟨es, hlen, hes⟩ := (h.mem_iff c).mp hc
  rw [hes.sum_progress hfit, hlen]

/-! ### Edges out of a layer -/

theorem filter_flatMap_zipIdx {α : Type} (f : α → Nat → List Edge)
    (hf : ∀ a n, ∀ edge ∈ f a n, edge.source = n) (xs : List α) (first : Nat) {i : Nat} {a : α}
    (ha : xs[i]? = some a) :
    ((xs.zipIdx first).flatMap fun x => f x.1 x.2).filter (·.source == first + i) =
      f a (first + i) := by
  induction xs generalizing first i with
  | nil => simp at ha
  | cons b xs ih =>
    rw [List.zipIdx_cons, List.flatMap_cons, List.filter_append]
    cases i with
    | zero =>
      rw [List.getElem?_cons_zero] at ha
      injection ha with ha
      subst ha
      -- The edges of later elements have later sources.
      have hlater : ((xs.zipIdx (first + 1)).flatMap fun x => f x.1 x.2).filter
          (·.source == first + 0) = [] := by
        rw [List.filter_eq_nil_iff]
        intro edge hedge
        obtain ⟨x, hx, hmem⟩ := List.mem_flatMap.mp hedge
        have hsource := hf _ _ _ hmem
        have hle := (List.mem_zipIdx hx).1
        rw [beq_iff_eq]
        omega
      have hhere : (f b first).filter (·.source == first + 0) = f b first := by
        rw [List.filter_eq_self]
        intro edge hedge
        rw [beq_iff_eq]
        exact hf _ _ _ hedge
      rw [hlater, List.append_nil]
      exact hhere
    | succ i =>
      rw [List.getElem?_cons_succ] at ha
      have hhere : (f b first).filter (·.source == first + (i + 1)) = [] := by
        rw [List.filter_eq_nil_iff]
        intro edge hedge
        have hsource := hf _ _ _ hedge
        rw [beq_iff_eq]
        omega
      have hshift : first + (i + 1) = first + 1 + i := by omega
      rw [hhere, List.nil_append, hshift]
      exact ih (first + 1) ha

theorem filter_edgesBetween (following : List Configuration) (first : Nat) {i : Nat}
    (hc : layer[i]? = some c) :
    (edgesBetween events first layer following).filter (·.source == first + i) =
      (steps events c).map fun x => ⟨first + i, x.1,
        first + layer.length + following.findIdx (·.progress == x.2.progress)⟩ := by
  refine filter_flatMap_zipIdx (fun c source => (steps events c).map fun x => ⟨source, x.1,
    first + layer.length + following.findIdx (·.progress == x.2.progress)⟩) ?_ layer first hc
  intro a n edge hedge
  obtain ⟨x, -, hx⟩ := List.mem_map.mp hedge
  rw [← hx]

theorem source_of_mem_edgesBetween {following : List Configuration} {first : Nat} {edge : Edge}
    (h : edge ∈ edgesBetween events first layer following) :
    first ≤ edge.source ∧ edge.source < first + layer.length := by
  simp only [edgesBetween, List.mem_flatMap, List.mem_map] at h
  obtain ⟨⟨c, source⟩, hc, x, -, hx⟩ := h
  have hbounds := List.mem_zipIdx hc
  subst hx
  exact ⟨hbounds.1, hbounds.2.1⟩

/-! ### All layers -/

theorem layers_nil (events : List (List Event)) (n first : Nat) :
    layers events n first [] = ([], []) := by
  cases n <;> rfl

theorem steps_eq_nil_of_successors (h : successors events layer = []) (hc : c ∈ layer) :
    steps events c = [] := by
  rw [List.eq_nil_iff_forall_not_mem]
  rintro ⟨e, d⟩ hm
  obtain ⟨f, hf, -⟩ := (foldl_meet_spec (layer.flatMap (steps events)) []).2.2 e d
    (List.mem_flatMap.mpr ⟨c, hc, hm⟩)
  rw [← successors_eq, h] at hf
  exact List.not_mem_nil hf

/-- An empty layer has nothing after it, so the search may as well go on. -/
theorem layers_succ (events : List (List Event)) (n first : Nat) (layer : List Configuration) :
    layers events (n + 1) first layer =
      (layer ++ (layers events n (first + layer.length) (successors events layer)).1,
        edgesBetween events first layer (successors events layer) ++
          (layers events n (first + layer.length) (successors events layer)).2) := by
  rw [layers]
  split
  · rename_i hnone
    have hedges : edgesBetween events first layer [] = [] := by
      rw [edgesBetween, List.flatMap_eq_nil_iff]
      rintro ⟨c, source⟩ hx
      show (steps events c).map _ = []
      rw [steps_eq_nil_of_successors hnone (List.fst_mem_of_mem_zipIdx hx)]
      rfl
    rw [hnone, layers_nil, hedges, List.append_nil, List.append_nil]
  · rfl

/-- All configurations that schedules of at least `k` events lead to, each once, and their
steps. The first of them has number `first`. -/
structure Explored (channels : List Channel) (events : List (List Event)) (k first : Nat)
    (configurations : List Configuration) (edges : List Edge) : Prop where
  nodup : (configurations.map (·.progress)).Nodup
  mem_iff : ∀ c, c ∈ configurations ↔ ∃ es, k ≤ es.length ∧ Scheduled channels events c es
  source_le : ∀ edge ∈ edges, first ≤ edge.source
  edges_eq : ∀ {i c}, configurations[i]? = some c →
    edges.filter (·.source == first + i) = (steps events c).map fun x => ⟨first + i, x.1,
      first + configurations.findIdx (·.progress == x.2.progress)⟩

theorem IsLayer.explored_last (hfit : Fit channels events)
    (h : IsLayer channels events k layer) (hk : events.flatten.length ≤ k) (first : Nat) :
    Explored channels events k first layer [] where
  nodup := h.nodup
  mem_iff := by
    intro c
    rw [h.mem_iff]
    constructor
    · rintro ⟨es, hlen, hes⟩
      exact ⟨es, by omega, hes⟩
    · rintro ⟨es, hlen, hes⟩
      have hle := hes.length_le hfit
      exact ⟨es, by omega, hes⟩
  source_le := fun edge hedge => absurd hedge List.not_mem_nil
  edges_eq := by
    intro i c hc
    have hnone : steps events c = [] := by
      rw [List.eq_nil_iff_forall_not_mem]
      rintro ⟨e, d⟩ hm
      obtain ⟨pid, hs⟩ := mem_steps.mp hm
      obtain ⟨es, hlen, hes⟩ := (h.mem_iff c).mp (List.mem_of_getElem? hc)
      have hle := ((scheduled_snoc_iff hfit).mpr ⟨c, pid, hes, hs⟩).length_le hfit
      rw [List.length_append, List.length_singleton] at hle
      omega
    rw [hnone]
    rfl

theorem Explored.sum_progress (hfit : Fit channels events) {first : Nat}
    {configurations : List Configuration} {edges : List Edge}
    (h : Explored channels events k first configurations edges) (hc : c ∈ configurations) :
    k ≤ c.progress.sum := by
  obtain ⟨es, hlen, hes⟩ := (h.mem_iff c).mp hc
  rw [hes.sum_progress hfit]
  exact hlen

theorem findIdx_append_of_not {α : Type} {p : α → Bool} {xs : List α}
    (h : ∀ x ∈ xs, ¬p x = true) (ys : List α) :
    (xs ++ ys).findIdx p = xs.length + ys.findIdx p := by
  have hnone : ¬xs.findIdx p < xs.length := by
    intro hlt
    obtain ⟨x, hx, hpx⟩ := List.findIdx_lt_length.mp hlt
    exact h x hx hpx
  rw [List.findIdx_append, if_neg hnone, Nat.add_comm]

theorem IsLayer.not_found (hfit : Fit channels events) (h : IsLayer channels events k layer)
    (hlonger : k < d.progress.sum) : ∀ y ∈ layer, ¬(y.progress == d.progress) = true := by
  intro y hy hyd
  have hsum := h.sum_progress hfit hy
  rw [eq_of_beq hyd] at hsum
  omega

/-- Where a configuration of the next layer is found among the layer and all later ones. -/
theorem findIdx_append_later (hfit : Fit channels events)
    (h : IsLayer channels events k layer) (later : List Configuration) (hc : c ∈ layer)
    {pid : Nat} (hs : step? events c pid = some (e, d)) :
    (layer ++ (successors events layer ++ later)).findIdx
        (·.progress == d.progress) =
      layer.length + (successors events layer).findIdx
        (·.progress == d.progress) := by
  have hnext := h.next hfit
  have hd := List.mem_of_getElem? (getElem?_successors_of_step hfit (h.balanced hfit) hc hs)
  have hsum := hnext.sum_progress hfit hd
  have hlt : (successors events layer).findIdx (·.progress == d.progress) <
      (successors events layer).length :=
    List.findIdx_lt_length_of_exists ⟨d, hd, beq_self_eq_true _⟩
  rw [findIdx_append_of_not (h.not_found hfit (by omega)), List.findIdx_append, if_pos hlt]

/-- The edges out of a configuration of the layer are its steps, into the next layer. -/
theorem IsLayer.edges_here (hfit : Fit channels events) (h : IsLayer channels events k layer)
    {first i : Nat} (later : List Configuration) {edges : List Edge}
    (hsource : ∀ edge ∈ edges, first + layer.length ≤ edge.source) (hc : layer[i]? = some c) :
    (edgesBetween events first layer (successors events layer) ++ edges).filter
        (·.source == first + i) =
      (steps events c).map fun x => ⟨first + i, x.1, first +
        (layer ++ (successors events layer ++ later)).findIdx (·.progress == x.2.progress)⟩ := by
  have hi := (List.getElem?_eq_some_iff.mp hc).1
  have hnone : edges.filter (·.source == first + i) = [] := by
    rw [List.filter_eq_nil_iff]
    intro edge hedge
    have hle := hsource edge hedge
    rw [beq_iff_eq]
    omega
  rw [List.filter_append, hnone, List.append_nil, filter_edgesBetween _ _ hc]
  refine List.map_congr_left fun x hx => ?_
  obtain ⟨pid, hs⟩ := mem_steps.mp hx
  rw [findIdx_append_later hfit h later (List.mem_of_getElem? hc) hs, Nat.add_assoc]

/-- The edges out of a configuration of a later layer are those found from there on. -/
theorem IsLayer.edges_later (hfit : Fit channels events) (h : IsLayer channels events k layer)
    {first i : Nat} {configurations : List Configuration} {edges : List Edge}
    (hlater : Explored channels events (k + 1) (first + layer.length) configurations edges)
    (hi : layer.length ≤ i) (hc : configurations[i - layer.length]? = some c) :
    (edgesBetween events first layer (successors events layer) ++ edges).filter
        (·.source == first + i) =
      (steps events c).map fun x => ⟨first + i, x.1, first +
        (layer ++ configurations).findIdx (·.progress == x.2.progress)⟩ := by
  have hnone : (edgesBetween events first layer
      (successors events layer)).filter (·.source == first + i) = [] := by
    rw [List.filter_eq_nil_iff]
    intro edge hedge
    have hlt := (source_of_mem_edgesBetween hedge).2
    rw [beq_iff_eq]
    omega
  have hhere := hlater.edges_eq hc
  have hshift : first + layer.length + (i - layer.length) = first + i := by omega
  rw [hshift] at hhere
  rw [List.filter_append, hnone, List.nil_append, hhere]
  refine List.map_congr_left fun x hx => ?_
  obtain ⟨pid, hs⟩ := mem_steps.mp hx
  obtain ⟨es, hlen, hes⟩ := (hlater.mem_iff c).mp (List.mem_of_getElem? hc)
  have hsum := ((scheduled_snoc_iff hfit).mpr ⟨c, pid, hes, hs⟩).sum_progress hfit
  rw [List.length_append, List.length_singleton] at hsum
  -- The target has a longer schedule than the configurations of the layer.
  rw [findIdx_append_of_not (h.not_found hfit (by omega)), Nat.add_assoc]

theorem IsLayer.explored_cons (hfit : Fit channels events)
    (h : IsLayer channels events k layer) {first : Nat} {later : List Configuration}
    {edges : List Edge} (hlater : Explored channels events (k + 1) (first + layer.length)
      (successors events layer ++ later) edges) :
    Explored channels events k first (layer ++ (successors events layer ++ later))
      (edgesBetween events first layer (successors events layer) ++ edges) where
  nodup := by
    rw [List.map_append, List.nodup_append]
    refine ⟨h.nodup, hlater.nodup, ?_⟩
    intro p hp q hq hpq
    obtain ⟨c, hc, hcp⟩ := List.mem_map.mp hp
    obtain ⟨d, hd, hdq⟩ := List.mem_map.mp hq
    have h1 := h.sum_progress hfit hc
    have h2 := hlater.sum_progress hfit hd
    rw [hcp, hpq, ← hdq] at h1
    omega
  mem_iff := by
    intro c
    rw [List.mem_append, h.mem_iff, hlater.mem_iff]
    constructor
    · intro hc
      rcases hc with ⟨es, hlen, hes⟩ | ⟨es, hlen, hes⟩
      · exact ⟨es, by omega, hes⟩
      · exact ⟨es, by omega, hes⟩
    · rintro ⟨es, hlen, hes⟩
      by_cases heq : es.length = k
      · exact Or.inl ⟨es, heq, hes⟩
      · exact Or.inr ⟨es, by omega, hes⟩
  source_le := by
    intro edge hedge
    rcases List.mem_append.mp hedge with hedge | hedge
    · exact (source_of_mem_edgesBetween hedge).1
    · have hle := hlater.source_le edge hedge
      omega
  edges_eq := by
    intro i c hc
    by_cases hi : i < layer.length
    · rw [List.getElem?_append_left hi] at hc
      exact h.edges_here hfit later hlater.source_le hc
    · rw [List.getElem?_append_right (by omega)] at hc
      exact h.edges_later hfit hlater (by omega) hc

/-- The search from a layer on finds all longer schedules, given enough rounds. -/
theorem IsLayer.explored (hfit : Fit channels events) (n first : Nat)
    (h : IsLayer channels events k layer) (hn : events.flatten.length ≤ k + n) :
    Explored channels events k first (layers events n first layer).1
      (layers events n first layer).2 := by
  induction n generalizing k first layer with
  | zero => exact h.explored_last hfit hn first
  | succ n ih =>
    have hnext := h.next hfit
    obtain ⟨later, hlater⟩ := (layers_spec hfit n (first + layer.length)
      (hnext.balanced hfit)).1
    have hrest := ih (first + layer.length) hnext (by omega)
    rw [hlater] at hrest
    rw [layers_succ, hlater]
    exact h.explored_cons hfit hrest

end ProtocolInference.Interleaving
