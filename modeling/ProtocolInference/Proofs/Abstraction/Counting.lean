import Mathlib.Data.List.Perm.Subperm
import ProtocolInference.Proofs.Abstraction.Network

/-!
# Counting blocks and observations

Every block has a member of its own, so there are at most as many blocks as observations
in blocks. A split adds one block and keeps every observation in some block. The number
of observations in blocks less the number of blocks therefore bounds the number of splits.
-/

namespace ProtocolInference.Abstraction

/-- Number of observations that lie in a block. -/
def observed (g : Abstraction) : Nat :=
  (List.range g.nodes.size).countP fun o => (g.parentOf o).isSome

variable {g h : Abstraction}

theorem observed_le (g : Abstraction) : g.observed ≤ g.nodes.size := by
  have hle : g.observed ≤ (List.range g.nodes.size).length := List.countP_le_length
  rwa [List.length_range] at hle

theorem size_eq_length_ids (g : Abstraction) : g.size = g.ids.length :=
  (List.length_map ..).symm

theorem Grouped.mem_ids (hg : g.Grouped) {id : Nat} :
    id ∈ g.ids ↔ ∃ b, g.block? id = some b := by
  rw [ids, List.mem_map]
  constructor
  · rintro ⟨b, hb, hid⟩
    obtain ⟨i, hi⟩ := mem_live.mp hb
    rw [← hid, (hg.fits hi).id_eq]
    exact ⟨b, hi⟩
  · rintro ⟨b, hb⟩
    exact ⟨b, mem_live.mpr ⟨id, hb⟩, (hg.fits hb).id_eq⟩

/-- Every block is the block of some observation. -/
theorem Grouped.size_le_observed (hg : g.Grouped) : g.size ≤ g.observed := by
  have hsub : g.ids ⊆ (List.range g.nodes.size).filterMap g.parentOf := by
    intro id hid
    obtain ⟨b, hb⟩ := hg.mem_ids.mp hid
    obtain ⟨o, ho⟩ := List.exists_mem_of_ne_nil _ (hg.fits hb).nonempty
    exact List.mem_filterMap.mpr
      ⟨o, List.mem_range.mpr (hg.mem_lt hb ho), (hg.mem_iff hb).mp ho⟩
  calc g.size = g.ids.length := g.size_eq_length_ids
    _ ≤ ((List.range g.nodes.size).filterMap g.parentOf).length :=
        (List.subperm_of_subset hg.nodup_ids hsub).length_le
    _ = g.observed := List.length_filterMap_eq_countP

/-- The second abstraction has one block more, which has a number of its own and members. -/
structure AddsBlock (g h : Abstraction) (fresh : Nat) : Prop where
  new : g.block? fresh = none
  nonempty : ∃ b, h.block? fresh = some b ∧ b.members ≠ []
  others : ∀ {id}, id ≠ fresh → ((∃ b, h.block? id = some b) ↔ ∃ b, g.block? id = some b)
  size_eq : h.size = g.size + 1

section

variable {s : Split} {place : Placement} {fresh : Nat}

theorem Coherent.exists_block_of_split (hg : g.Coherent) (hs : g.split s place = .ok (h, fresh))
    (id : Nat) : (∃ b, h.block? id = some b) ↔ id = fresh ∨ ∃ b, g.block? id = some b := by
  obtain ⟨b, hb, -, hh, hfresh, -⟩ := split_eq_ok_iff.mp hs
  rw [hh, hfresh, separate_eq, block?_advance, block?_moveOut hb (hg.fits hb).id_eq]
  by_cases h1 : id = g.blocks.size
  · simp [h1]
  · rw [if_neg h1, or_iff_right h1]
    by_cases h2 : id = s.block
    · rw [if_pos h2, h2]
      exact iff_of_true ⟨_, rfl⟩ ⟨b, hb⟩
    · rw [if_neg h2]
      simp [Option.map_eq_some_iff]

theorem Coherent.addsBlock_of_split (hg : g.Coherent) (hs : g.split s place = .ok (h, fresh)) :
    AddsBlock g h fresh := by
  have hh := hg.split hs
  have hexists := hg.exists_block_of_split hs
  have hnew : g.block? fresh = none := by
    obtain ⟨-, -, -, -, hfresh, -⟩ := split_eq_ok_iff.mp hs
    rw [← Option.not_isSome_iff_eq_none, Option.isSome_iff_exists]
    rintro ⟨b, hb⟩
    have hlt := lt_size_of_block? hb
    omega
  constructor
  case new => exact hnew
  case nonempty =>
    obtain ⟨b, hb⟩ := (hexists fresh).mpr (Or.inl rfl)
    exact ⟨b, hb, (hh.fits hb).nonempty⟩
  case others =>
    intro id hid
    rw [hexists, or_iff_right hid]
  case size_eq =>
    have hnot : fresh ∉ g.ids := by
      intro hmem
      obtain ⟨b, hb⟩ := hg.toGrouped.mem_ids.mp hmem
      rw [hnew] at hb
      cases hb
    have hperm : h.ids.Perm (fresh :: g.ids) := by
      refine (List.perm_ext_iff_of_nodup hh.toGrouped.nodup_ids
        (List.nodup_cons.mpr ⟨hnot, hg.toGrouped.nodup_ids⟩)).mpr fun id => ?_
      rw [hh.toGrouped.mem_ids, hexists, List.mem_cons, hg.toGrouped.mem_ids]
    rw [size_eq_length_ids, size_eq_length_ids, hperm.length_eq, List.length_cons]

theorem Coherent.observed_of_split (hg : g.Coherent) (hs : g.split s place = .ok (h, fresh)) :
    h.observed = g.observed := by
  obtain ⟨hnodes, -, -, hparent⟩ := hg.toGrouped.parentOf_split hs
  unfold observed
  rw [hnodes]
  refine List.countP_congr fun o _ => ?_
  rw [hparent o, Option.isSome_map]

end

/-! ### Keeping transitions -/

theorem size_eq_countP (g : Abstraction) : g.size = g.blocks.toList.countP Option.isSome := by
  rw [size, live, List.length_filterMap_eq_countP]
  rfl

theorem size_remember (g : Abstraction) (id : Nat) : (g.remember id).size = g.size := by
  cases hb : g.block? id with
  | none => rw [remember_eq_self hb]
  | some b =>
    obtain ⟨hlt, hget⟩ := Array.getElem?_eq_some_iff.mp (block?_eq_some_iff.mp hb)
    have hlength : id < g.blocks.toList.length := hlt
    have hsome : (g.blocks.toList[id]).isSome = true := by
      rw [Array.getElem_toList, hget]
      rfl
    have hpos : 0 < g.blocks.toList.countP Option.isSome :=
      List.countP_pos_iff.mpr ⟨_, List.getElem_mem hlength, hsome⟩
    rw [size_eq_countP, size_eq_countP, remember, hb]
    dsimp only
    rw [Array.toList_setIfInBounds, List.countP_set hlength, hsome]
    show g.blocks.toList.countP Option.isSome - 1 + 1 = g.blocks.toList.countP Option.isSome
    omega

theorem observed_remember (g : Abstraction) (i : Nat) : (g.remember i).observed = g.observed := by
  unfold observed
  rw [(remember_frame g i).1]
  refine List.countP_congr fun o _ => ?_
  rw [parentOf_remember]

/-- What keeping the transitions of one block preserves, keeping those of all preserves. -/
theorem rememberAll_induction {P : Abstraction → Prop} (hg : P g)
    (hstep : ∀ {h}, P h → ∀ id, P (h.remember id)) : P g.rememberAll := by
  unfold rememberAll
  generalize g.ids = ids
  induction ids generalizing g with
  | nil => exact hg
  | cons id ids ih => exact ih (hstep hg id)

theorem Coherent.rememberAll (hg : g.Coherent) : g.rememberAll.Coherent :=
  rememberAll_induction hg fun hh id => hh.remember id

theorem size_rememberAll (g : Abstraction) : g.rememberAll.size = g.size :=
  rememberAll_induction (P := fun h => h.size = g.size) rfl
    fun hh id => (size_remember _ id).trans hh

theorem observed_rememberAll (g : Abstraction) : g.rememberAll.observed = g.observed :=
  rememberAll_induction (P := fun h => h.observed = g.observed) rfl
    fun hh id => (observed_remember _ id).trans hh

end ProtocolInference.Abstraction
