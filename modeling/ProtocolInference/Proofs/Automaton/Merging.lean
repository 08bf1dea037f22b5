import ProtocolInference.Proofs.Automaton.Language

/-!
# Merging states that agree

A merge sends every state to one with the same flags whose transitions are the same up
to the merge. Such a map carries runs over in both directions, so the language stays
the same. One round of merging is such a map, and so are all rounds together.
-/

namespace ProtocolInference.Automaton

/-! ### Maps between automata -/

/-- The states of `b` are states of `a`, and `f` sends every state of `a` to one of
them with the same flags, whose transitions are those of the former state with `f`
applied to their targets. What is left in place goes to itself. -/
structure Merged (f : Nat → Nat) (a b : Automaton) : Prop where
  image : ∀ s ∈ a.states, ∃ t ∈ b.states, t.id = f s.id ∧ t.initial = s.initial ∧
    t.accept = s.accept ∧ ∀ e v, (e, v) ∈ t.transitions ↔ ∃ u, (e, u) ∈ s.transitions ∧ f u = v
  survivor : ∀ t ∈ b.states, f t.id = t.id ∧ ∃ s ∈ a.states, s.id = t.id

theorem Merged.refl (a : Automaton) : Merged id a a where
  image := fun s hs => ⟨s, hs, rfl, rfl, rfl, fun e v => by simp⟩
  survivor := fun t ht => ⟨rfl, t, ht, rfl⟩

theorem Merged.trans {f g : Nat → Nat} {a b c : Automaton} (h : Merged f a b)
    (h' : Merged g b c) : Merged (g ∘ f) a c where
  image := by
    intro s hs
    obtain ⟨t, ht, hid, hi, ha, hm⟩ := h.image s hs
    obtain ⟨u, hu, hid', hi', ha', hm'⟩ := h'.image t ht
    refine ⟨u, hu, by rw [hid', hid]; rfl, hi'.trans hi, ha'.trans ha, ?_⟩
    intro e w
    rw [hm']
    constructor
    · rintro ⟨v, hv, rfl⟩
      obtain ⟨x, hx, rfl⟩ := (hm e v).mp hv
      exact ⟨x, hx, rfl⟩
    · rintro ⟨x, hx, rfl⟩
      exact ⟨f x, (hm e (f x)).mpr ⟨x, hx, rfl⟩, rfl⟩
  survivor := by
    intro u hu
    obtain ⟨hg, t, ht, hid⟩ := h'.survivor u hu
    obtain ⟨hf, s, hs, hid'⟩ := h.survivor t ht
    refine ⟨?_, s, hs, hid'.trans hid⟩
    rw [Function.comp_apply, ← hid, hf, hid, hg]

theorem Merged.edge {f : Nat → Nat} {a b : Automaton} (h : Merged f a b) {s t : Nat} {e : Event}
    (he : a.Edge s e t) : b.Edge (f s) e (f t) := by
  obtain ⟨r, hr, rfl, hm⟩ := he
  obtain ⟨q, hq, hid, -, -, htr⟩ := h.image r hr
  exact ⟨q, hq, hid, (htr e (f t)).mpr ⟨t, hm, rfl⟩⟩

theorem Merged.run {f : Nat → Nat} {a b : Automaton} (h : Merged f a b) {s t : Nat}
    {w : List Event} (hw : a.Run s w t) : b.Run (f s) w (f t) := by
  induction hw with
  | nil s => exact .nil (f s)
  | cons he _ ih => exact .cons (h.edge he) ih

theorem Merged.image_eq {f : Nat → Nat} {a b : Automaton} (h : Merged f a b)
    (hb : b.WellFormed) {s t : State} (hs : s ∈ a.states) (ht : t ∈ b.states)
    (hid : t.id = f s.id) : t.initial = s.initial ∧ t.accept = s.accept ∧
      ∀ e v, (e, v) ∈ t.transitions ↔ ∃ u, (e, u) ∈ s.transitions ∧ f u = v := by
  obtain ⟨t', ht', hid', hrest⟩ := h.image s hs
  rw [eq_of_id_eq hb.nodup ht ht' (hid.trans hid'.symm)]
  exact hrest

/-- A transition of `b` from where a state has gone comes from a transition of that state. -/
theorem Merged.lift_edge {f : Nat → Nat} {a b : Automaton} (h : Merged f a b)
    (ha : a.WellFormed) (hb : b.WellFormed) {s : State} (hs : s ∈ a.states) {e : Event} {v : Nat}
    (he : b.Edge (f s.id) e v) : ∃ t ∈ a.states, a.Edge s.id e t.id ∧ f t.id = v := by
  obtain ⟨q, hq, hid, hm⟩ := he
  obtain ⟨-, -, htr⟩ := h.image_eq hb hs hq hid
  obtain ⟨u, hu, hfu⟩ := (htr e v).mp hm
  obtain ⟨t, ht, rfl⟩ := ha.targets s hs e u hu
  exact ⟨t, ht, ⟨s, hs, rfl, hu⟩, hfu⟩

/-- A run of `b` from where a state has gone comes from a run from that state. -/
theorem Merged.lift_run {f : Nat → Nat} {a b : Automaton} (h : Merged f a b)
    (ha : a.WellFormed) (hb : b.WellFormed) {x y : Nat} {w : List Event} (hw : b.Run x w y)
    {s : State} (hs : s ∈ a.states) (hx : f s.id = x) :
    ∃ t ∈ a.states, a.Run s.id w t.id ∧ f t.id = y := by
  induction hw generalizing s with
  | nil x => exact ⟨s, hs, .nil _, hx⟩
  | cons he _ ih =>
    rw [← hx] at he
    obtain ⟨r, hr, hedge, hfr⟩ := h.lift_edge ha hb hs he
    obtain ⟨t, ht, hrun, hft⟩ := ih hr hfr
    exact ⟨t, ht, .cons hedge hrun, hft⟩

/-- States whose flags have a property go to such states. -/
theorem Merged.mem_map_filter {f : Nat → Nat} {a b : Automaton} (h : Merged f a b)
    (p : Bool → Bool → Bool) {id : Nat}
    (hid : id ∈ (a.states.filter fun s => p s.initial s.accept).map (·.id)) :
    f id ∈ (b.states.filter fun s => p s.initial s.accept).map (·.id) := by
  obtain ⟨s, hs, rfl⟩ := List.mem_map.mp hid
  obtain ⟨hmem, hp⟩ := List.mem_filter.mp hs
  obtain ⟨t, ht, htid, hinitial, haccept, -⟩ := h.image s hmem
  refine List.mem_map.mpr ⟨t, List.mem_filter.mpr ⟨ht, ?_⟩, htid⟩
  rw [hinitial, haccept]
  exact hp

/-- Only such states go to them. -/
theorem Merged.mem_map_filter_iff {f : Nat → Nat} {a b : Automaton} (h : Merged f a b)
    (hb : b.WellFormed) (p : Bool → Bool → Bool) {x : State} (hx : x ∈ a.states) :
    x.id ∈ (a.states.filter fun s => p s.initial s.accept).map (·.id) ↔
      f x.id ∈ (b.states.filter fun s => p s.initial s.accept).map (·.id) := by
  refine ⟨h.mem_map_filter p, fun hfx => ?_⟩
  obtain ⟨y, hy, hid⟩ := List.mem_map.mp hfx
  obtain ⟨hmem, hp⟩ := List.mem_filter.mp hy
  obtain ⟨hinitial, haccept, -⟩ := h.image_eq hb hx hmem hid
  rw [hinitial, haccept] at hp
  exact List.mem_map.mpr ⟨x, List.mem_filter.mpr ⟨hx, hp⟩, rfl⟩

theorem Merged.mem_initialStates_iff {f : Nat → Nat} {a b : Automaton} (h : Merged f a b)
    (hb : b.WellFormed) {x : State} (hx : x ∈ a.states) :
    x.id ∈ a.initialStates ↔ f x.id ∈ b.initialStates :=
  h.mem_map_filter_iff hb (fun initial _ => initial) hx

theorem Merged.mem_acceptStates_iff {f : Nat → Nat} {a b : Automaton} (h : Merged f a b)
    (hb : b.WellFormed) {x : State} (hx : x ∈ a.states) :
    x.id ∈ a.acceptStates ↔ f x.id ∈ b.acceptStates :=
  h.mem_map_filter_iff hb (fun _ accept => accept) hx

theorem Merged.accepts_iff {f : Nat → Nat} {a b : Automaton} (h : Merged f a b)
    (ha : a.WellFormed) (hb : b.WellFormed) {w : List Event} : b.Accepts w ↔ a.Accepts w := by
  constructor
  · intro hw
    obtain ⟨x, hx, y, hy, hrun⟩ := hw
    obtain ⟨p, hp, -, hid⟩ := Automaton.mem_initialStates.mp hx
    obtain ⟨hstays, s, hs, hsid⟩ := h.survivor p hp
    have hsx : f s.id = x := by rw [hsid, hstays, hid]
    obtain ⟨t, ht, hlifted, hty⟩ := h.lift_run ha hb hrun hs hsx
    rw [← hsx, ← h.mem_initialStates_iff hb hs] at hx
    rw [← hty, ← h.mem_acceptStates_iff hb ht] at hy
    exact ⟨s.id, hx, t.id, hy, hlifted⟩
  · intro hw
    obtain ⟨s, hs, t, ht, hrun⟩ := hw
    exact ⟨f s, h.mem_map_filter (fun initial _ => initial) hs,
      f t, h.mem_map_filter (fun _ accept => accept) ht, h.run hrun⟩

theorem Merged.trim {f : Nat → Nat} {a b : Automaton} (h : Merged f a b) (ht : a.Trim) :
    b.Trim := by
  intro t hmem
  obtain ⟨hf, s, hs, hid⟩ := h.survivor t hmem
  obtain ⟨r, hr, w, hw⟩ := ht s hs
  refine ⟨f r, h.mem_map_filter (fun initial _ => initial) hr, w, ?_⟩
  have hrun := h.run hw
  rw [hid, hf] at hrun
  exact hrun

theorem Merged.of_mem_transitions {f : Nat → Nat} {a b : Automaton} (h : Merged f a b)
    (hb : b.WellFormed) {t : State} (ht : t ∈ b.states) {e : Event} {v : Nat}
    (hm : (e, v) ∈ t.transitions) : ∃ s ∈ a.states, ∃ u, (e, u) ∈ s.transitions := by
  obtain ⟨hf, s, hs, hid⟩ := h.survivor t ht
  obtain ⟨-, -, htr⟩ := h.image_eq hb hs ht (by rw [hid, hf])
  obtain ⟨u, hu, -⟩ := (htr e v).mp hm
  exact ⟨s, hs, u, hu⟩

/-- Numbers that were left in order keep the automaton well formed. -/
theorem Merged.wellFormed {f : Nat → Nat} {a b : Automaton} (h : Merged f a b)
    (ha : a.WellFormed) (hascending : (b.states.map (·.id)).Pairwise (· < ·))
    (hnext : b.nextId = a.nextId) : b.WellFormed where
  ascending := hascending
  bounds := by
    intro t ht
    obtain ⟨-, s, hs, hid⟩ := h.survivor t ht
    rw [← hid, hnext]
    exact ha.bounds s hs
  targets := by
    intro t ht e v hm
    obtain ⟨hf, s, hs, hid⟩ := h.survivor t ht
    obtain ⟨q, hq, hqid, -, -, htr⟩ := h.image s hs
    have hqt : q = t := eq_of_id_eq (hascending.imp Nat.ne_of_lt) hq ht (by rw [hqid, hid, hf])
    rw [hqt] at htr
    obtain ⟨u, hu, hv⟩ := (htr e v).mp hm
    obtain ⟨z, hz, hzid⟩ := ha.targets s hs e u hu
    obtain ⟨y, hy, hyid, -⟩ := h.image z hz
    exact ⟨y, hy, by rw [hyid, hzid, hv]⟩

/-! ### One round -/

theorem agree_iff {s t : State} : agree s t = true ↔
    s.initial = t.initial ∧ s.accept = t.accept ∧ s.transitions = t.transitions := by
  simp [agree, and_assoc]

theorem agree_congr {s t : State} (h : agree s t = true) : agree s = agree t := by
  funext u
  obtain ⟨h1, h2, h3⟩ := agree_iff.mp h
  simp only [agree, h1, h2, h3]

/-- The representative of a state is the first that agrees with it. -/
theorem exists_representative {states : List State} {s : State} (hs : s ∈ states) :
    ∃ t ∈ states, agree s t = true ∧ t.id = representative states s ∧
      representative states t = t.id := by
  have hself : agree s s = true := agree_iff.mpr ⟨rfl, rfl, rfl⟩
  obtain ⟨t, ht⟩ := Option.isSome_iff_exists.mp
    (List.find?_isSome.mpr ⟨s, hs, hself⟩)
  have hagree := List.find?_some ht
  refine ⟨t, List.mem_of_find?_eq_some ht, hagree, ?_, ?_⟩
  · simp [representative, ht]
  · simp [representative, ← agree_congr hagree, ht]

def fold (states : List State) (id : Nat) : Nat :=
  ((merges states).lookup id).getD id

theorem mem_merges {states : List State} {id first : Nat} :
    (id, first) ∈ merges states ↔
      id ≠ first ∧ ∃ s ∈ states, s.id = id ∧ representative states s = first := by
  simp only [merges, List.mem_filter, List.mem_map, Prod.mk.injEq, decide_eq_true_eq]
  exact and_comm

theorem fold_id {states : List State} (hd : (states.map (·.id)).Nodup) {s : State}
    (hs : s ∈ states) : fold states s.id = representative states s := by
  unfold fold
  cases h : (merges states).lookup s.id with
  | none =>
    by_contra hne
    have hmem : (s.id, representative states s) ∈ merges states :=
      mem_merges.mpr ⟨hne, s, hs, rfl, rfl⟩
    have hnone := List.lookup_eq_none_iff.mp h _ hmem
    simp at hnone
  | some first =>
    obtain ⟨l₁, l₂, hl, -⟩ := List.lookup_eq_some_iff.mp h
    have hmem : (s.id, first) ∈ merges states := by
      rw [hl]
      exact List.mem_append_right _ (List.mem_cons_self ..)
    obtain ⟨-, t, ht, hid, hrep⟩ := mem_merges.mp hmem
    rw [eq_of_id_eq hd ht hs hid] at hrep
    exact hrep.symm

theorem lookup_merges_eq_none_iff {states : List State} (hd : (states.map (·.id)).Nodup)
    {s : State} (hs : s ∈ states) :
    (merges states).lookup s.id = none ↔ representative states s = s.id := by
  constructor
  · intro h
    rw [← fold_id hd hs, fold, h, Option.getD_none]
  · intro h
    rw [List.lookup_eq_none_iff]
    rintro ⟨id, first⟩ hmem
    obtain ⟨hne, t, ht, hid, hrep⟩ := mem_merges.mp hmem
    rw [bne_iff_ne]
    intro he
    have hts : t = s := eq_of_id_eq hd ht hs (hid.trans he.symm)
    subst hts
    exact hne (by rw [← hrep, h, hid])

theorem mem_redirect {merged : List (Nat × Nat)} {ts : Transitions} {e : Event} {v : Nat} :
    (e, v) ∈ redirect merged ts ↔ ∃ u, (e, u) ∈ ts ∧ (merged.lookup u).getD u = v := by
  simp only [redirect, Ascending.mem_ofList, List.mem_map, Prod.mk.injEq]
  constructor
  · rintro ⟨⟨f, u⟩, hm, rfl, rfl⟩
    exact ⟨u, hm, rfl⟩
  · rintro ⟨u, hm, rfl⟩
    exact ⟨(e, u), hm, rfl, rfl⟩

/-- What a round leaves: the representatives, with their transitions redirected. -/
theorem mem_collapse {states : List State} (hd : (states.map (·.id)).Nodup) {t : State} :
    t ∈ collapse states ↔ ∃ s ∈ states, representative states s = s.id ∧
      t = { s with transitions := redirect (merges states) s.transitions } := by
  simp only [collapse, List.mem_map, List.mem_filter, Option.isNone_iff_eq_none]
  constructor
  · rintro ⟨s, ⟨hs, hnone⟩, rfl⟩
    exact ⟨s, hs, (lookup_merges_eq_none_iff hd hs).mp hnone, rfl⟩
  · rintro ⟨s, hs, hrep, rfl⟩
    exact ⟨s, ⟨hs, (lookup_merges_eq_none_iff hd hs).mpr hrep⟩, rfl⟩

def collapsed (a : Automaton) : Automaton := { a with states := collapse a.states }

theorem merged_collapsed {a : Automaton} (h : a.WellFormed) :
    Merged (fold a.states) a a.collapsed where
  image := by
    intro s hs
    obtain ⟨t, ht, hagree, hid, hrep⟩ := exists_representative hs
    obtain ⟨hi, ha, htr⟩ := agree_iff.mp hagree
    refine ⟨_, (mem_collapse h.nodup).mpr ⟨t, ht, hrep, rfl⟩, ?_, hi.symm, ha.symm, ?_⟩
    · exact hid.trans (fold_id h.nodup hs).symm
    · intro e v
      rw [mem_redirect, htr]
      exact Iff.rfl
  survivor := by
    intro t ht
    obtain ⟨s, hs, hrep, rfl⟩ := (mem_collapse h.nodup).mp ht
    exact ⟨(fold_id h.nodup hs).trans hrep, s, hs, rfl⟩

theorem WellFormed.collapsed {a : Automaton} (h : a.WellFormed) : a.collapsed.WellFormed := by
  have hids : (collapse a.states).map (·.id) =
      (a.states.filter fun s => ((merges a.states).lookup s.id).isNone).map (·.id) := by
    rw [collapse, List.map_map]
    rfl
  refine (merged_collapsed h).wellFormed h ?_ rfl
  show ((collapse a.states).map (·.id)).Pairwise (· < ·)
  rw [hids]
  exact h.ascending.sublist (List.filter_sublist.map _)

/-! ### All rounds -/

/-- What holds at first and is kept by every round holds of the minimised automaton. -/
theorem WellFormed.minimize_induction {P : Automaton → Prop} {a : Automaton} (h : a.WellFormed)
    (hstart : P a) (hround : ∀ b, b.WellFormed → P b → P b.collapsed) :
    a.minimize.1.WellFormed ∧ P a.minimize.1 := by
  have hall : ∀ rounds, ∀ b : Automaton, b.WellFormed → P b →
      ({ b with states := collapseAll rounds b.states } : Automaton).WellFormed ∧
        P { b with states := collapseAll rounds b.states } := by
    intro rounds
    induction rounds with
    | zero => exact fun b hb hp => ⟨hb, hp⟩
    | succ rounds ih =>
      intro b hb hp
      simp only [collapseAll]
      split
      · exact ⟨hb, hp⟩
      · exact ih b.collapsed hb.collapsed (hround b hb hp)
  exact hall a.states.length a h hstart

theorem WellFormed.minimize {a : Automaton} (h : a.WellFormed) : a.minimize.1.WellFormed :=
  (h.minimize_induction (P := fun _ => True) trivial fun _ _ _ => trivial).1

theorem exists_merged_minimize {a : Automaton} (h : a.WellFormed) :
    ∃ f, Merged f a a.minimize.1 := by
  refine (h.minimize_induction (P := fun b => ∃ f, Merged f a b) ⟨id, .refl a⟩ ?_).2
  intro b hb hp
  obtain ⟨f, hf⟩ := hp
  exact ⟨fold b.states ∘ f, hf.trans (merged_collapsed hb)⟩

theorem accepts_minimize_iff {a : Automaton} (h : a.WellFormed) {w : List Event} :
    a.minimize.1.Accepts w ↔ a.Accepts w := by
  obtain ⟨f, hf⟩ := exists_merged_minimize h
  exact hf.accepts_iff h h.minimize

end ProtocolInference.Automaton
