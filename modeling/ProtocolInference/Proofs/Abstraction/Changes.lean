import ProtocolInference.Proofs.Abstraction.Coherence

/-!
# Changing an abstraction

What each operation does to the blocks and to the blocks of the observations, and that
each of them leaves a coherent abstraction coherent. The number of a removed block is
not used again.
-/

namespace ProtocolInference

open Ascending

/-! ### Blocks that fit -/

namespace Block

theorem Fits.withCached {b : Block} {g : Abstraction} {id : Nat} (h : b.Fits g id)
    (n : Nat) (c : Option Cached) :
    ({ b with generation := n, cached := c } : Block).Fits g id where
  id_eq := h.id_eq
  nonempty := h.nonempty
  sorted := h.sorted
  mem_iff := h.mem_iff
  flags := congrArg (fun x : Block => { x with generation := n, cached := c }) h.flags

theorem Fits.congr {b : Block} {g h : Abstraction} {id : Nat} (hb : b.Fits g id)
    (hn : h.nodes = g.nodes) (hp : h.processes = g.processes)
    (hm : ∀ o, h.parentOf o = some id ↔ g.parentOf o = some id) : b.Fits h id where
  id_eq := hb.id_eq
  nonempty := hb.nonempty
  sorted := hb.sorted
  mem_iff := fun o => (hb.mem_iff o).trans (hm o).symm
  flags := by rw [hn, hp, hb.flags]

end Block

namespace Abstraction

/-! ### Going into the next generation -/

theorem parentOf_advance (g : Abstraction) (ids : List Nat) (o : Nat) :
    (g.advance ids).parentOf o = g.parentOf o := rfl

theorem advance_cons (g : Abstraction) (i : Nat) (ids : List Nat) :
    g.advance (i :: ids) = (g.advance [i]).advance ids := rfl

theorem block?_advance (g : Abstraction) (ids : List Nat) (id : Nat) :
    (g.advance ids).block? id =
      (g.block? id).map fun b => { b with generation := b.generation + ids.count id } := by
  induction ids generalizing g with
  | nil => cases h : g.block? id <;> simp [advance, h]
  | cons i ids ih =>
    rw [advance_cons, ih]
    have hone : (g.advance [i]).block? id =
        if i = id then (g.block? id).map Block.advance else g.block? id := by
      simp only [advance, block?, List.foldl_cons, List.foldl_nil, Array.getElem?_modify]
      by_cases hi : i = id
      · subst hi
        cases g.blocks[i]? with
        | none => simp
        | some x => cases x <;> simp
      · simp [hi]
    rw [hone, List.count_cons]
    by_cases hi : i = id
    · subst hi
      cases g.block? i with
      | none => simp
      | some b => simp [Block.advance, Nat.add_comm, Nat.add_left_comm]
    · simp [hi]

theorem Grouped.advance {g : Abstraction} (hg : g.Grouped) (ids : List Nat) :
    (g.advance ids).Grouped where
  parent_size := hg.parent_size
  fits := by
    intro id b hb
    rw [block?_advance] at hb
    obtain ⟨x, hx, rfl⟩ := Option.map_eq_some_iff.mp hb
    have hf := (hg.fits hx).withCached (x.generation + ids.count id) x.cached
    exact ⟨hf.id_eq, hf.nonempty, hf.sorted, hf.mem_iff, hf.flags⟩
  live := by
    intro o id ho
    obtain ⟨x, hx⟩ := hg.live ho
    exact ⟨_, by rw [block?_advance, hx]; rfl⟩
  converse := hg.converse

/-- Transitions that are stale are no matter once their block has gone into its next
generation. -/
theorem Grouped.coherent_advance {g : Abstraction} {ids : List Nat} (hg : g.Grouped)
    (hc : ∀ {id b c}, g.block? id = some b → b.cached = some c →
      c.generation < b.generation ∨ (c.generation = b.generation ∧
        (id ∉ ids → c.transitions = g.computeTransitions b))) :
    (g.advance ids).Coherent where
  toGrouped := hg.advance ids
  cache := by
    intro id b c hb hk
    rw [block?_advance] at hb
    obtain ⟨x, hx, rfl⟩ := Option.map_eq_some_iff.mp hb
    show c.generation < x.generation + ids.count id ∨
      (c.generation = x.generation + ids.count id ∧ c.transitions = g.computeTransitions x)
    rcases hc hx hk with hlt | ⟨heq, htr⟩
    · exact Or.inl (by omega)
    · by_cases hid : id ∈ ids
      · have hpos := List.count_pos_iff.mpr hid
        exact Or.inl (by omega)
      · rw [List.count_eq_zero.mpr hid]
        exact Or.inr ⟨heq, htr hid⟩

/-! ### Keeping transitions -/

theorem block?_remember {g : Abstraction} {id : Nat} {b : Block} (hb : g.block? id = some b)
    (i : Nat) : (g.remember id).block? i =
      if i = id then some { b with cached := some ⟨b.generation, g.transitionsOf b⟩ }
      else g.block? i := by
  have hlt := lt_size_of_block? hb
  unfold remember
  rw [hb]
  by_cases hi : i = id
  · subst hi
    simp [block?, hlt]
  · simp [block?, hi, Ne.symm hi]

theorem remember_eq_self {g : Abstraction} {id : Nat} (hb : g.block? id = none) :
    g.remember id = g := by
  unfold remember
  rw [hb]

theorem remember_frame (g : Abstraction) (id : Nat) : (g.remember id).nodes = g.nodes ∧
    (g.remember id).processes = g.processes ∧ (g.remember id).channels = g.channels ∧
    (g.remember id).parent = g.parent := by
  unfold remember
  split <;> exact ⟨rfl, rfl, rfl, rfl⟩

theorem parentOf_remember (g : Abstraction) (id o : Nat) :
    (g.remember id).parentOf o = g.parentOf o := by
  unfold parentOf
  rw [(remember_frame g id).2.2.2]

theorem computeTransitions_congr {g h : Abstraction} (hn : h.nodes = g.nodes)
    (hp : h.parent = g.parent) (b : Block) : h.computeTransitions b = g.computeTransitions b := by
  unfold computeTransitions edges parentOf
  rw [hn, hp]

theorem Grouped.remember {g : Abstraction} (hg : g.Grouped) {id : Nat} {b : Block}
    (hb : g.block? id = some b) : (g.remember id).Grouped := by
  obtain ⟨hn, hp, -, hparent⟩ := remember_frame g id
  constructor
  · rw [hn, hparent]
    exact hg.parent_size
  · intro i x hx
    rw [block?_remember hb] at hx
    refine Block.Fits.congr ?_ hn hp fun o => by rw [parentOf_remember]
    split at hx
    · rename_i hi
      injection hx with hx
      subst hi hx
      exact (hg.fits hb).withCached _ _
    · exact hg.fits hx
  · intro o i ho
    rw [parentOf_remember] at ho
    obtain ⟨x, hx⟩ := hg.live ho
    rw [block?_remember hb]
    split
    · exact ⟨_, rfl⟩
    · exact ⟨x, hx⟩
  · intro p n hnode o
    rw [hn] at hnode
    rw [edges_congr hn]
    exact hg.converse hnode o

theorem Coherent.remember {g : Abstraction} (hg : g.Coherent) (id : Nat) :
    (g.remember id).Coherent := by
  cases hb : g.block? id with
  | none =>
    rw [remember_eq_self hb]
    exact hg
  | some b =>
    refine ⟨hg.toGrouped.remember hb, ?_⟩
    intro i x c hx hc
    obtain ⟨hn, -, -, hparent⟩ := remember_frame g id
    rw [computeTransitions_congr hn hparent]
    rw [block?_remember hb] at hx
    split at hx
    · -- What is kept now is what has just been read.
      injection hx with hx
      subst hx
      injection hc with hc
      subst hc
      exact Or.inr ⟨rfl, hg.transitionsOf_eq hb⟩
    · exact hg.cache hx hc

/-! ### Splitting a block -/

/-- What is left of a block without the given members. -/
def remainder (g : Abstraction) (b : Block) (gone : List Nat) : Block :=
  (Block.withFlags g.nodes g.processes
    { b with members := b.members.filter fun o => !gone.contains o }).advance

/-- The new block with the given members. -/
def addition (g : Abstraction) (gone : List Nat) : Block :=
  Block.withFlags g.nodes g.processes { id := g.blocks.size, members := gone }

/-- The abstraction in which the members have moved, before any block has gone into its
next generation. -/
def moveOut (g : Abstraction) (b : Block) (gone : List Nat) : Abstraction :=
  { g with
    blocks := (g.blocks.setIfInBounds b.id (some (g.remainder b gone))).push
      (some (g.addition gone))
    parent := Table.fill id (fun _ => some g.blocks.size) g.parent gone }

theorem separate_eq (g : Abstraction) (b : Block) (gone : List Nat) :
    g.separate b gone = (g.moveOut b gone).advance (g.predecessors b) := rfl

theorem block?_moveOut {g : Abstraction} {id : Nat} {b : Block} (hb : g.block? id = some b)
    (hid : b.id = id) (gone : List Nat) (i : Nat) :
    (g.moveOut b gone).block? i =
      if i = g.blocks.size then some (g.addition gone)
      else if i = id then some (g.remainder b gone) else g.block? i := by
  have hlt := lt_size_of_block? hb
  subst hid
  simp only [block?, moveOut, Array.getElem?_push, Array.size_setIfInBounds]
  by_cases h1 : i = g.blocks.size
  · simp [h1]
  · by_cases h2 : i = b.id
    · subst h2
      simp [hlt, h1]
    · simp [h1, h2, Ne.symm h2]

theorem mem_remainder {g : Abstraction} {b : Block} {gone : List Nat} {o : Nat} :
    o ∈ (g.remainder b gone).members ↔ o ∈ b.members ∧ o ∉ gone := by
  simp [remainder, Block.advance, Block.withFlags]

/-- The number of the new block belonged to no observation before. -/
theorem Grouped.parentOf_ne_size {g : Abstraction} (hg : g.Grouped) (o : Nat) :
    g.parentOf o ≠ some g.blocks.size := by
  intro ho
  obtain ⟨b, hb⟩ := hg.live ho
  exact Nat.lt_irrefl _ (lt_size_of_block? hb)

section

variable {g : Abstraction} {id : Nat} {b : Block} {gone : List Nat}

theorem Grouped.parentOf_moveOut (hg : g.Grouped) (hb : g.block? id = some b)
    (hsub : ∀ o ∈ gone, o ∈ b.members) (o : Nat) :
    (g.moveOut b gone).parentOf o = if o ∈ gone then some g.blocks.size else g.parentOf o := by
  simp only [parentOf, moveOut, Table.getElem?_fill_const]
  by_cases ho : o ∈ gone
  · have hlt : o < g.parent.size := by
      rw [hg.parent_size]
      exact hg.mem_lt hb (hsub o ho)
    simp [ho, hlt]
  · simp [ho]

theorem Grouped.parentOf_separate (hg : g.Grouped) (hb : g.block? id = some b)
    (hsub : ∀ o ∈ gone, o ∈ b.members) (o : Nat) :
    (g.separate b gone).parentOf o = if o ∈ gone then some g.blocks.size else g.parentOf o := by
  rw [separate_eq, parentOf_advance, hg.parentOf_moveOut hb hsub]

theorem Grouped.fits_addition (hg : g.Grouped) (hb : g.block? id = some b)
    (hsub : ∀ o ∈ gone, o ∈ b.members) (hsorted : Sorted gone) (hgone : gone ≠ []) :
    (g.addition gone).Fits (g.moveOut b gone) g.blocks.size where
  id_eq := rfl
  nonempty := hgone
  sorted := hsorted
  mem_iff := by
    intro o
    rw [hg.parentOf_moveOut hb hsub]
    by_cases ho : o ∈ gone
    · exact iff_of_true ho (if_pos ho)
    · rw [if_neg ho]
      exact iff_of_false ho (hg.parentOf_ne_size o)
  flags := rfl

theorem Grouped.fits_remainder (hg : g.Grouped) (hb : g.block? id = some b)
    (hsub : ∀ o ∈ gone, o ∈ b.members) (hrest : ∃ o ∈ b.members, o ∉ gone) :
    (g.remainder b gone).Fits (g.moveOut b gone) id where
  id_eq := (hg.fits hb).id_eq
  nonempty := by
    obtain ⟨o, ho, hng⟩ := hrest
    exact List.ne_nil_of_mem (mem_remainder.mpr ⟨ho, hng⟩)
  sorted := (hg.fits hb).sorted.sublist List.filter_sublist
  mem_iff := by
    intro o
    rw [mem_remainder, hg.parentOf_moveOut hb hsub, hg.mem_iff hb]
    by_cases ho : o ∈ gone
    · rw [if_pos ho]
      refine iff_of_false (fun h => h.2 ho) fun he => ?_
      exact Nat.ne_of_lt (lt_size_of_block? hb) (Option.some.inj he).symm
    · rw [if_neg ho]
      exact and_iff_left ho
  flags := rfl

theorem Grouped.fits_other (hg : g.Grouped) (hb : g.block? id = some b)
    (hsub : ∀ o ∈ gone, o ∈ b.members) {i : Nat} {x : Block} (hx : g.block? i = some x)
    (hi : i ≠ id) : x.Fits (g.moveOut b gone) i := by
  refine (hg.fits hx).congr rfl rfl fun o => ?_
  rw [hg.parentOf_moveOut hb hsub]
  by_cases ho : o ∈ gone
  · rw [if_pos ho, (hg.mem_iff hb).mp (hsub o ho)]
    refine iff_of_false (fun he => ?_) (fun he => hi (Option.some.inj he).symm)
    exact Nat.ne_of_lt (lt_size_of_block? hx) (Option.some.inj he).symm
  · rw [if_neg ho]

theorem Grouped.moveOut (hg : g.Grouped) (hb : g.block? id = some b)
    (hsub : ∀ o ∈ gone, o ∈ b.members) (hsorted : Sorted gone) (hgone : gone ≠ [])
    (hrest : ∃ o ∈ b.members, o ∉ gone) : (g.moveOut b gone).Grouped where
  parent_size := (Table.size_fill ..).trans hg.parent_size
  fits := by
    intro i x hx
    rw [block?_moveOut hb (hg.fits hb).id_eq] at hx
    split at hx
    · rename_i hi
      injection hx with hx
      subst hi hx
      exact hg.fits_addition hb hsub hsorted hgone
    · split at hx
      · rename_i hi
        injection hx with hx
        subst hi hx
        exact hg.fits_remainder hb hsub hrest
      · rename_i hi
        exact hg.fits_other hb hsub hx hi
  live := by
    intro o i ho
    rw [block?_moveOut hb (hg.fits hb).id_eq]
    rw [hg.parentOf_moveOut hb hsub] at ho
    split at ho
    · exact ⟨_, if_pos (Option.some.inj ho).symm⟩
    · obtain ⟨x, hx⟩ := hg.live ho
      rw [if_neg (Nat.ne_of_lt (lt_size_of_block? hx))]
      split
      · exact ⟨_, rfl⟩
      · exact ⟨x, hx⟩
  converse := hg.converse

theorem Coherent.separate (hg : g.Coherent) (hb : g.block? id = some b)
    (hsub : ∀ o ∈ gone, o ∈ b.members) (hsorted : Sorted gone) (hgone : gone ≠ [])
    (hrest : ∃ o ∈ b.members, o ∉ gone) : (g.separate b gone).Coherent := by
  rw [separate_eq]
  refine (hg.moveOut hb hsub hsorted hgone hrest).coherent_advance ?_
  intro i x c hx hc
  rw [block?_moveOut hb (hg.fits hb).id_eq] at hx
  split at hx
  · -- For the new block nothing has been kept.
    injection hx with hx
    subst hx
    cases hc
  · split at hx
    · injection hx with hx
      subst hx
      left
      show c.generation < b.generation + 1
      rcases hg.cache hb hc with hlt | ⟨heq, -⟩ <;> omega
    · rcases hg.cache hx hc with hlt | ⟨heq, htr⟩
      · exact Or.inl hlt
      · refine Or.inr ⟨heq, fun hi => htr.trans ?_⟩
        refine (hg.computeTransitions_eq (h := g.moveOut b gone) hb hx hi rfl fun t ht => ?_).symm
        rw [hg.parentOf_moveOut hb hsub, if_neg fun h => ht (hsub t h)]

end

/-! ### Removing a block -/

/-- The abstraction without the block, before any block has gone into its next
generation. -/
def takeOut (g : Abstraction) (i : Nat) (b : Block) : Abstraction :=
  { g with
    blocks := g.blocks.setIfInBounds i none
    parent := Table.fill id (fun _ => none) g.parent b.members }

theorem remove_eq {g : Abstraction} {id : Nat} {b : Block} (hb : g.block? id = some b) :
    g.remove id = (g.takeOut id b).advance (g.predecessors b) := by
  unfold remove
  rw [hb]
  rfl

theorem remove_eq_self {g : Abstraction} {id : Nat} (hb : g.block? id = none) :
    g.remove id = g := by
  unfold remove
  rw [hb]

theorem remove_frame (g : Abstraction) (id : Nat) : (g.remove id).nodes = g.nodes ∧
    (g.remove id).processes = g.processes ∧ (g.remove id).channels = g.channels := by
  unfold remove
  split <;> exact ⟨rfl, rfl, rfl⟩

theorem Grouped.parentOf_takeOut {g : Abstraction} (hg : g.Grouped) {id : Nat} {b : Block}
    (hb : g.block? id = some b) (o : Nat) :
    (g.takeOut id b).parentOf o = if o ∈ b.members then none else g.parentOf o := by
  simp only [parentOf, takeOut, Table.getElem?_fill_const]
  by_cases ho : o ∈ b.members
  · have hlt : o < g.parent.size := by
      rw [hg.parent_size]
      exact hg.mem_lt hb ho
    simp [ho, hlt]
  · simp [ho]

theorem block?_takeOut {g : Abstraction} {id : Nat} {b : Block} (hb : g.block? id = some b)
    (i : Nat) : (g.takeOut id b).block? i = if i = id then none else g.block? i := by
  have hlt := lt_size_of_block? hb
  simp only [block?, takeOut]
  by_cases h : i = id
  · subst h
    simp [hlt]
  · simp [h, Ne.symm h]

theorem Grouped.takeOut {g : Abstraction} (hg : g.Grouped) {id : Nat} {b : Block}
    (hb : g.block? id = some b) : (g.takeOut id b).Grouped where
  parent_size := (Table.size_fill ..).trans hg.parent_size
  fits := by
    intro i x hx
    rw [block?_takeOut hb] at hx
    split at hx
    · cases hx
    · rename_i hi
      refine (hg.fits hx).congr rfl rfl fun o => ?_
      rw [hg.parentOf_takeOut hb]
      by_cases ho : o ∈ b.members
      · rw [if_pos ho, (hg.mem_iff hb).mp ho]
        exact iff_of_false (fun he => by cases he) fun he => hi (Option.some.inj he).symm
      · rw [if_neg ho]
  live := by
    intro o i ho
    rw [hg.parentOf_takeOut hb] at ho
    split at ho
    · cases ho
    · rename_i hng
      obtain ⟨x, hx⟩ := hg.live ho
      refine ⟨x, ?_⟩
      rw [block?_takeOut hb, if_neg]
      · exact hx
      · rintro rfl
        exact hng ((hg.mem_iff hb).mpr ho)
  converse := hg.converse

theorem Coherent.remove {g : Abstraction} (hg : g.Coherent) (id : Nat) :
    (g.remove id).Coherent := by
  cases hb : g.block? id with
  | none =>
    rw [remove_eq_self hb]
    exact hg
  | some b =>
    rw [remove_eq hb]
    refine (hg.takeOut hb).coherent_advance ?_
    intro i x c hx hc
    rw [block?_takeOut hb] at hx
    split at hx
    · cases hx
    · rcases hg.cache hx hc with hlt | ⟨heq, htr⟩
      · exact Or.inl hlt
      · refine Or.inr ⟨heq, fun hi => htr.trans ?_⟩
        refine (hg.computeTransitions_eq (h := g.takeOut id b) hb hx hi rfl fun t ht => ?_).symm
        rw [hg.parentOf_takeOut hb, if_neg ht]

end Abstraction

end ProtocolInference
