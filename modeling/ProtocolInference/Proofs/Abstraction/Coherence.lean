import Mathlib.Data.List.Basic
import ProtocolInference.Abstraction.Refinement
import ProtocolInference.Proofs.Order.Ascending
import ProtocolInference.Proofs.Table

/-!
# The representation of an abstraction

An abstraction keeps the same facts in several places: the members of the blocks and
the block of every observation, the edges out of the observations and the edges into
them, the flags of a block and those of its members, the transitions of a block and
those that have been kept for it. It is coherent if these agree. Splitting a block,
removing one and keeping transitions leave a coherent abstraction coherent. What makes
this work for kept transitions is that a block with an edge into a changed block is
among its predecessors, so it is put into its next generation.
-/

namespace ProtocolInference

open Ascending

/-! ### Coherence -/

/-- The block has the given number. It has members, namely the observations that lie in
it, and its flags tell of them. -/
structure Block.Fits (b : Block) (g : Abstraction) (id : Nat) : Prop where
  id_eq : b.id = id
  nonempty : b.members ≠ []
  sorted : Sorted b.members
  mem_iff : ∀ o, o ∈ b.members ↔ g.parentOf o = some id
  flags : b.withFlags g.nodes g.processes = b

namespace Abstraction

/-- The blocks and the edges are as the observations have them: a block holds the
observations that lie in it, every observation in a block lies in one that is there,
and the edges into an observation are those of the others that lead to it. -/
structure Grouped (g : Abstraction) : Prop where
  parent_size : g.parent.size = g.nodes.size
  fits : ∀ {id b}, g.block? id = some b → b.Fits g id
  live : ∀ {o id}, g.parentOf o = some id → ∃ b, g.block? id = some b
  converse : ∀ {p n}, g.nodes[p]? = some n → ∀ o, n.prev.count o = (g.edges o).countP (·.2 == p)

/-- Moreover, transitions that were kept in the present generation of a block are its
transitions. -/
structure Coherent (g : Abstraction) : Prop extends Grouped g where
  cache : ∀ {id b c}, g.block? id = some b → b.cached = some c →
    c.generation < b.generation ∨
      (c.generation = b.generation ∧ c.transitions = g.computeTransitions b)

theorem block?_eq_some_iff {g : Abstraction} {id : Nat} {b : Block} :
    g.block? id = some b ↔ g.blocks[id]? = some (some b) := by
  simp [block?, Option.join_eq_some_iff]

theorem lt_size_of_block? {g : Abstraction} {id : Nat} {b : Block} (h : g.block? id = some b) :
    id < g.blocks.size :=
  (Array.getElem?_eq_some_iff.mp (block?_eq_some_iff.mp h)).1

theorem lt_size_of_parentOf {g : Abstraction} {o id : Nat} (h : g.parentOf o = some id) :
    o < g.parent.size := by
  rw [parentOf, Option.join_eq_some_iff] at h
  exact (Array.getElem?_eq_some_iff.mp h).1

theorem Grouped.mem_iff {g : Abstraction} (hg : g.Grouped) {id o : Nat} {b : Block}
    (hb : g.block? id = some b) : o ∈ b.members ↔ g.parentOf o = some id :=
  (hg.fits hb).mem_iff o

theorem Grouped.mem_lt {g : Abstraction} (hg : g.Grouped) {id o : Nat} {b : Block}
    (hb : g.block? id = some b) (ho : o ∈ b.members) : o < g.nodes.size := by
  rw [← hg.parent_size]
  exact lt_size_of_parentOf ((hg.mem_iff hb).mp ho)

/-! ### Transitions -/

theorem mem_computeTransitions {g : Abstraction} {b : Block} {e : Event} {c : Nat} :
    (e, c) ∈ g.computeTransitions b ↔
      ∃ o ∈ b.members, ∃ t, (e, t) ∈ g.edges o ∧ g.parentOf t = some c := by
  simp only [computeTransitions, mem_ofList, List.mem_flatMap, List.mem_filterMap]
  constructor
  · rintro ⟨o, ho, ⟨f, t⟩, hm, hc⟩
    obtain ⟨d, hd, hp⟩ := Option.map_eq_some_iff.mp hc
    injection hp with h1 h2
    subst h1 h2
    exact ⟨o, ho, t, hm, hd⟩
  · rintro ⟨o, ho, t, hm, hc⟩
    exact ⟨o, ho, (e, t), hm, by rw [hc]; rfl⟩

/-- No stale transitions are read. -/
theorem Coherent.transitionsOf_eq {g : Abstraction} (hg : g.Coherent) {id : Nat} {b : Block}
    (hb : g.block? id = some b) : g.transitionsOf b = g.computeTransitions b := by
  unfold transitionsOf
  split
  · rename_i c hc
    split
    · rename_i hgen
      rcases hg.cache hb hc with hlt | ⟨-, htr⟩
      · omega
      · exact htr
    · rfl
  · rfl

/-- Where a block goes on an event, said with the blocks of observations alone. -/
theorem Coherent.mem_next_iff {g : Abstraction} (hg : g.Coherent) {id c : Nat} {e : Event} :
    c ∈ g.next id e ↔
      ∃ o t, g.parentOf o = some id ∧ (e, t) ∈ g.edges o ∧ g.parentOf t = some c := by
  unfold next
  cases hb : g.block? id with
  | none =>
    simp only [List.not_mem_nil, false_iff]
    rintro ⟨o, t, ho, -, -⟩
    obtain ⟨b, hb'⟩ := hg.live ho
    rw [hb] at hb'
    cases hb'
  | some b =>
    simp only [hg.transitionsOf_eq hb, Transitions.mem_targets, mem_computeTransitions,
      hg.mem_iff hb]
    constructor
    · rintro ⟨o, ho, t, hm, hc⟩
      exact ⟨o, t, ho, hm, hc⟩
    · rintro ⟨o, t, ho, hm, hc⟩
      exact ⟨o, ho, t, hm, hc⟩

theorem Grouped.mem_predecessors_iff {g : Abstraction} (hg : g.Grouped) {id p : Nat} {b : Block}
    (hb : g.block? id = some b) : p ∈ g.predecessors b ↔
      ∃ t ∈ b.members, ∃ o e, (e, t) ∈ g.edges o ∧ g.parentOf o = some p := by
  have hprev : ∀ t o n, g.nodes[t]? = some n → (o ∈ n.prev ↔ ∃ e, (e, t) ∈ g.edges o) := by
    intro t o n hn
    rw [← List.count_pos_iff, hg.converse hn, List.countP_pos_iff]
    simp
  simp only [predecessors, mem_ofList, List.mem_flatMap]
  constructor
  · rintro ⟨t, ht, hp⟩
    have hlt := hg.mem_lt hb ht
    rw [Array.getElem?_eq_getElem hlt] at hp
    obtain ⟨o, ho, hpo⟩ := List.mem_filterMap.mp hp
    obtain ⟨e, he⟩ := (hprev t o _ (Array.getElem?_eq_getElem hlt)).mp ho
    exact ⟨t, ht, o, e, he, hpo⟩
  · rintro ⟨t, ht, o, e, he, hpo⟩
    have hlt := hg.mem_lt hb ht
    refine ⟨t, ht, ?_⟩
    rw [Array.getElem?_eq_getElem hlt]
    exact List.mem_filterMap.mpr
      ⟨o, (hprev t o _ (Array.getElem?_eq_getElem hlt)).mpr ⟨e, he⟩, hpo⟩

theorem edges_congr {g h : Abstraction} (hn : h.nodes = g.nodes) (o : Nat) :
    h.edges o = g.edges o := by
  unfold edges
  rw [hn]

/-- Only blocks with an edge into a block see that its members lie elsewhere. -/
theorem Grouped.computeTransitions_eq {g h : Abstraction} (hg : g.Grouped) {id i : Nat}
    {b x : Block} (hb : g.block? id = some b) (hx : g.block? i = some x)
    (hi : i ∉ g.predecessors b) (hn : h.nodes = g.nodes)
    (hp : ∀ t, t ∉ b.members → h.parentOf t = g.parentOf t) :
    h.computeTransitions x = g.computeTransitions x := by
  unfold computeTransitions
  congr 1
  refine List.flatMap_congr fun o ho => ?_
  rw [edges_congr hn]
  refine List.filterMap_congr fun ⟨e, t⟩ hm => ?_
  have ht : t ∉ b.members := by
    intro ht
    exact hi ((hg.mem_predecessors_iff hb).mpr ⟨t, ht, o, e, hm, (hg.mem_iff hx).mp ho⟩)
  show (h.parentOf t).map _ = (g.parentOf t).map _
  rw [hp t ht]

end Abstraction

end ProtocolInference
