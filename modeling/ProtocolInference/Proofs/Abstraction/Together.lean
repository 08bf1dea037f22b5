import ProtocolInference.Proofs.Abstraction.History

/-!
# What a strict abstraction keeps together

Observations are alike if they have the same trace and the same local states. The check
compares an observation with the first that is alike only, and that is enough, since being
alike is transitive. After a split only the members of the block that was split are checked.
Where observations that are alike lay in one block before, this is enough too, since
observations in other blocks have not moved.
-/

namespace ProtocolInference.Abstraction

variable {g h : Abstraction} {o p q : Nat}

/-! ### Observations that are alike -/

def Alike (g : Abstraction) (o p : Nat) : Prop :=
  ∃ n m, g.nodes[o]? = some n ∧ g.nodes[p]? = some m ∧ n.trace = m.trace ∧
    n.observation.locals = m.observation.locals

theorem Alike.symm (h : g.Alike o p) : g.Alike p o := by
  obtain ⟨n, m, hn, hm, htrace, hlocals⟩ := h
  exact ⟨m, n, hm, hn, htrace.symm, hlocals.symm⟩

theorem Alike.trans (h : g.Alike o p) (h' : g.Alike p q) : g.Alike o q := by
  obtain ⟨n, m, hn, hm, htrace, hlocals⟩ := h
  obtain ⟨m', k, hm', hk, htrace', hlocals'⟩ := h'
  rw [hm] at hm'
  injection hm' with hm'
  subst hm'
  exact ⟨n, k, hn, hk, htrace.trans htrace', hlocals.trans hlocals'⟩

theorem alike_congr (hn : h.nodes = g.nodes) : h.Alike o p ↔ g.Alike o p := by
  unfold Alike
  rw [hn]

/-- Those of the observations that are alike lie in the same block, or in none. -/
def Together (g : Abstraction) (observations : List Nat) : Prop :=
  ∀ o ∈ observations, ∀ p ∈ observations, g.Alike o p → g.parentOf o = g.parentOf p

def KeepsTogether (g : Abstraction) : Prop :=
  ∀ o p, g.Alike o p → g.parentOf o = g.parentOf p

theorem lt_size_of_alike (h : g.Alike o p) : o < g.nodes.size := by
  obtain ⟨n, m, hn, -⟩ := h
  exact (Array.getElem?_eq_some_iff.mp hn).1

theorem together_range_iff : g.Together (List.range g.nodes.size) ↔ g.KeepsTogether := by
  constructor
  · exact fun h o p ha => h o (List.mem_range.mpr (lt_size_of_alike ha)) p
      (List.mem_range.mpr (lt_size_of_alike ha.symm)) ha
  · exact fun h o _ p _ ha => h o p ha

/-! ### The check -/

theorem firstAlike_eq_none_iff {earlier : List Nat} :
    g.firstAlike earlier o = none ↔ ∀ p ∈ earlier, ¬g.Alike p o := by
  unfold firstAlike
  cases hn : g.nodes[o]? with
  | none =>
    refine iff_of_true rfl fun p _ ha => ?_
    obtain ⟨n, m, -, hm, -⟩ := ha
    rw [hn] at hm
    cases hm
  | some n =>
    rw [List.find?_eq_none]
    refine forall₂_congr fun p _ => not_congr ?_
    rw [Option.any_eq_true]
    simp only [Alike, hn, Bool.and_eq_true, beq_iff_eq]
    constructor
    · rintro ⟨m, hm, htrace, hlocals⟩
      exact ⟨m, n, hm, rfl, htrace, hlocals⟩
    · rintro ⟨m, n', hm, hn', htrace, hlocals⟩
      injection hn' with hn'
      subst hn'
      exact ⟨m, hm, htrace, hlocals⟩

theorem alike_of_firstAlike {earlier : List Nat} (h : g.firstAlike earlier o = some p) :
    p ∈ earlier ∧ g.Alike p o := by
  unfold firstAlike at h
  cases hn : g.nodes[o]? with
  | none =>
    rw [hn] at h
    cases h
  | some n =>
    rw [hn] at h
    dsimp only at h
    have hany := List.find?_some h
    obtain ⟨m, hm, halike⟩ := (Option.any_eq_true ..).mp hany
    rw [Bool.and_eq_true] at halike
    exact ⟨List.mem_of_find?_eq_some h, m, n, hm, hn, eq_of_beq halike.1, eq_of_beq halike.2⟩

theorem together_snoc {earlier : List Nat} (h : g.Together earlier)
    (ho : ∀ p ∈ earlier, ¬g.Alike p o) : g.Together (earlier ++ [o]) := by
  intro p hp q hq ha
  rw [List.mem_append, List.mem_singleton] at hp hq
  rcases hp with hp | rfl
  · rcases hq with hq | rfl
    · exact h p hp q hq ha
    · exact absurd ha (ho p hp)
  · rcases hq with hq | rfl
    · exact absurd ha.symm (ho q hq)
    · rfl

/-- An observation that lies where one that is alike lies need not be looked at again. -/
theorem together_cons_iff {earlier rest : List Nat} (hp : p ∈ earlier) (ha : g.Alike p o)
    (hsame : g.parentOf p = g.parentOf o) :
    g.Together (earlier ++ o :: rest) ↔ g.Together (earlier ++ rest) := by
  have hmem : ∀ x, x ∈ earlier ++ o :: rest ↔ x = o ∨ x ∈ earlier ++ rest := by
    intro x
    simp only [List.mem_append, List.mem_cons]
    tauto
  have hfirst : p ∈ earlier ++ rest := List.mem_append_left _ hp
  constructor
  · exact fun h x hx y hy => h x ((hmem x).mpr (Or.inr hx)) y ((hmem y).mpr (Or.inr hy))
  · intro h x hx y hy hxy
    rcases (hmem x).mp hx with rfl | hx'
    · rcases (hmem y).mp hy with rfl | hy'
      · rfl
      · exact hsame.symm.trans (h p hfirst y hy' (ha.trans hxy))
    · rcases (hmem y).mp hy with rfl | hy'
      · exact (h x hx' p hfirst (hxy.trans ha.symm)).trans hsame
      · exact h x hx' y hy' hxy

theorem checkFrom_eq_ok_iff {earlier rest : List Nat} (h : g.Together earlier) :
    g.checkFrom earlier rest = .ok () ↔ g.Together (earlier ++ rest) := by
  induction rest generalizing earlier with
  | nil =>
    rw [List.append_nil]
    exact iff_of_true rfl h
  | cons o rest ih =>
    unfold checkFrom
    cases hfirst : g.firstAlike earlier o with
    | none =>
      dsimp only
      rw [ih (together_snoc h (firstAlike_eq_none_iff.mp hfirst)), List.append_assoc]
      rfl
    | some p =>
      obtain ⟨hp, ha⟩ := alike_of_firstAlike hfirst
      dsimp only
      by_cases hsame : g.parentOf p = g.parentOf o
      · rw [if_pos hsame, ih h, together_cons_iff hp ha hsame]
      · rw [if_neg hsame]
        refine iff_of_false (fun hn => by cases hn) fun hall => hsame ?_
        exact hall p (List.mem_append_left _ hp) o
          (List.mem_append_right _ (List.mem_cons_self ..)) ha

theorem checkTogether_eq_ok_iff {observations : List Nat} :
    g.checkTogether observations = .ok () ↔ g.Together observations :=
  checkFrom_eq_ok_iff fun _ ho => absurd ho List.not_mem_nil

/-- The check fails with two observations that are alike and do not lie together. -/
theorem separated_of_checkFrom {earlier rest : List Nat} {f : Fault}
    (h : g.checkFrom earlier rest = .error f) :
    ∃ o p, g.Alike o p ∧ g.parentOf o ≠ g.parentOf p ∧
      f = .separated o p (g.parentOf o) (g.parentOf p) g.display := by
  induction rest generalizing earlier with
  | nil => cases h
  | cons o rest ih =>
    unfold checkFrom at h
    cases hfirst : g.firstAlike earlier o with
    | none =>
      rw [hfirst] at h
      exact ih h
    | some p =>
      rw [hfirst] at h
      dsimp only at h
      split at h
      · exact ih h
      · rename_i hne
        injection h with h
        exact ⟨p, o, (alike_of_firstAlike hfirst).2, hne, h.symm⟩

/-! ### Splits -/

/-- A split leaves alike observations together unless it takes one of them out of the block
and leaves the other. -/
theorem Grouped.keepsTogether_separate_iff (hg : g.Grouped) (hk : g.KeepsTogether) {id : Nat}
    {b : Block} (hb : g.block? id = some b) {gone : List Nat}
    (hsub : ∀ o ∈ gone, o ∈ b.members) : (g.separate b gone).KeepsTogether ↔
      ¬∃ o p, g.Alike o p ∧ o ∈ gone ∧ p ∈ b.members ∧ p ∉ gone := by
  have hparent := hg.parentOf_separate hb hsub
  constructor
  · rintro hall ⟨o, p, ha, ho, -, hp⟩
    have hsame := hall o p ha
    rw [hparent, hparent, if_pos ho, if_neg hp] at hsame
    exact hg.parentOf_ne_size p hsame.symm
  · intro hnone o p ha
    have ha' : g.Alike o p := ha
    have hin : ∀ {o p}, g.Alike o p → o ∈ gone → p ∈ gone := by
      intro o p ha ho
      by_contra hp
      have hmem : p ∈ b.members := by
        rw [hg.mem_iff hb, ← hk o p ha]
        exact (hg.mem_iff hb).mp (hsub o ho)
      exact hnone ⟨o, p, ha, ho, hmem, hp⟩
    rw [hparent, hparent, hk o p ha']
    by_cases ho : o ∈ gone
    · rw [if_pos ho, if_pos (hin ha' ho)]
    · rw [if_neg ho, if_neg fun hp => ho (hin ha'.symm hp)]

/-- The members of the block that was split are all that has to be checked. -/
theorem Grouped.together_separate_iff (hg : g.Grouped) (hk : g.KeepsTogether) {id : Nat}
    {b : Block} (hb : g.block? id = some b) {gone : List Nat}
    (hsub : ∀ o ∈ gone, o ∈ b.members) :
    (g.separate b gone).Together b.members ↔ (g.separate b gone).KeepsTogether := by
  refine ⟨fun h => (hg.keepsTogether_separate_iff hk hb hsub).mpr ?_,
    fun h o _ p _ ha => h o p ha⟩
  rintro ⟨o, p, ha, ho, hp, hgone⟩
  have hsame := h o (hsub o ho) p hp ha
  rw [hg.parentOf_separate hb hsub, hg.parentOf_separate hb hsub, if_pos ho,
    if_neg hgone] at hsame
  exact hg.parentOf_ne_size p hsame.symm

theorem split_eq_of_legal {s : Split} {b : Block} (hb : g.block? s.block = some b)
    (hl : s.Legal b) (hstrict : g.strict = true) (place : Placement) :
    g.split s place = ((g.separate b (moved b s (place g.blocks.size))).checkTogether
      b.members).map fun _ => (g.separate b (moved b s (place g.blocks.size)), g.blocks.size) := by
  have hkept : (g.separate b (moved b s (place g.blocks.size))).strict = true := hstrict
  unfold split
  rw [checkSplit_eq_ok_iff.mpr ⟨hb, hl⟩]
  show (if (g.separate b (moved b s (place g.blocks.size))).strict = true then _ else _) = _
  rw [if_pos hkept]
  cases (g.separate b (moved b s (place g.blocks.size))).checkTogether b.members <;> rfl

/-! ### Histories -/

variable {traces : List Trace} {grouping : Grouping} {removed : List Block}

theorem Reached.keepsTogether (h : Reached traces grouping true removed g) :
    g.KeepsTogether := by
  induction h with
  | start h =>
    obtain ⟨first, -, -, -, htogether⟩ := ofTraces_eq_ok_iff.mp h
    exact together_range_iff.mp (checkTogether_eq_ok_iff.mp (htogether rfl))
  | split hr hs ih =>
    obtain ⟨b, hb, -, rfl, -, htogether⟩ := split_eq_ok_iff.mp hs
    exact (hr.coherent.toGrouped.together_separate_iff ih hb fun o ho => (mem_moved.mp ho).1).mp
      (checkTogether_eq_ok_iff.mp (htogether hr.strict_eq))
  | @remove removed g id hr ih =>
    cases hb : g.block? id with
    | none =>
      rw [remove_eq_self hb]
      exact ih
    | some b =>
      have hg := hr.coherent.toGrouped
      rw [remove_eq hb]
      intro o p ha
      have hsame := ih o p ha
      have hin : o ∈ b.members ↔ p ∈ b.members := by
        rw [hg.mem_iff hb, hg.mem_iff hb, hsame]
      rw [parentOf_advance, parentOf_advance, hg.parentOf_takeOut hb, hg.parentOf_takeOut hb,
        hsame]
      simp only [hin]
  | @read removed g id _ ih =>
    intro o p ha
    rw [parentOf_remember, parentOf_remember]
    exact ih o p ((alike_congr (remember_frame g id).1).mp ha)

end ProtocolInference.Abstraction
