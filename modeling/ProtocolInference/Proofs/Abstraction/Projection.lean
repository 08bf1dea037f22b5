import ProtocolInference.Proofs.Abstraction.History
import ProtocolInference.Proofs.Abstraction.Paths
import ProtocolInference.Proofs.Automaton.Merging
import ProtocolInference.Proofs.Automaton.Pruning

/-!
# The language of a projection

The states that stand for the blocks are numbered from one on in the order of the
blocks. From the state of a block the automaton runs as the process does from the
block, with silent stretches. So before it is reduced it accepts the words that the
process does on the accepting paths, and the reduction changes no language.
-/

namespace ProtocolInference.Abstraction

variable {g : Abstraction} {pid p q : Nat} {b c : Block}

/-! ### The numbers of the states -/

theorem mem_live : b ∈ g.live ↔ ∃ id, g.block? id = some b := by
  simp only [live, List.mem_filterMap, Array.mem_toList_iff, id_eq, block?_eq_some_iff]
  constructor
  · rintro ⟨x, hx, rfl⟩
    exact Array.mem_iff_getElem?.mp hx
  · intro h
    exact ⟨some b, Array.mem_iff_getElem?.mpr h, rfl⟩

theorem sorted_filterMap (blocks : List (Option Block)) (first : Nat)
    (h : ∀ i b, blocks[i]? = some (some b) → b.id = first + i) :
    (∀ b ∈ blocks.filterMap id, first ≤ b.id) ∧
      ((blocks.filterMap id).map (·.id)).Pairwise (· < ·) := by
  induction blocks generalizing first with
  | nil => exact ⟨fun b hb => absurd hb List.not_mem_nil, .nil⟩
  | cons x blocks ih =>
    obtain ⟨hle, hsorted⟩ := ih (first + 1) fun i b hi => by
      rw [h (i + 1) b hi]
      omega
    cases x with
    | none => exact ⟨fun b hb => Nat.le_of_succ_le (hle b hb), hsorted⟩
    | some b =>
      have hb : b.id = first := h 0 b rfl
      have hcons : (some b :: blocks).filterMap id = b :: blocks.filterMap id := rfl
      rw [hcons]
      constructor
      · intro c hc
        rcases List.mem_cons.mp hc with rfl | hc
        · omega
        · exact Nat.le_of_succ_le (hle c hc)
      · rw [List.map_cons, List.pairwise_cons]
        refine ⟨fun i hm => ?_, hsorted⟩
        obtain ⟨c, hc, hid⟩ := List.mem_map.mp hm
        have hlt := hle c hc
        omega

theorem Grouped.sorted_ids (hg : g.Grouped) : g.ids.Pairwise (· < ·) := by
  refine (sorted_filterMap g.blocks.toList 0 fun i b hi => ?_).2
  rw [Nat.zero_add]
  refine (hg.fits (block?_eq_some_iff.mpr ?_)).id_eq
  rw [← Array.getElem?_toList]
  exact hi

theorem Grouped.nodup_ids (hg : g.Grouped) : g.ids.Nodup :=
  hg.sorted_ids.imp Nat.ne_of_lt

def number (g : Abstraction) (id : Nat) : Nat := g.stateNumbers[id]?.getD 0

theorem stateNumbers_eq (g : Abstraction) : g.stateNumbers =
    Table.fill (·.1) (fun x => x.2 + 1) (Array.replicate g.blocks.size 0) g.ids.zipIdx := rfl

/-- The states have the numbers of their places, from one on. -/
theorem Grouped.number_of_getElem? (hg : g.Grouped) {i : Nat} (h : g.live[i]? = some b) :
    g.number b.id = i + 1 := by
  obtain ⟨id, hid⟩ := mem_live.mp (List.mem_of_getElem? h)
  have hlt : b.id < g.blocks.size := by
    rw [(hg.fits hid).id_eq]
    exact lt_size_of_block? hid
  have hmem : (b.id, i) ∈ g.ids.zipIdx := by
    rw [List.mem_zipIdx_iff_getElem?, ids, List.getElem?_map, h]
    rfl
  have hkeys : (g.ids.zipIdx.map (·.1)).Nodup := by
    rw [List.zipIdx_map_fst]
    exact hg.nodup_ids
  have hsize : b.id < (Array.replicate g.blocks.size 0).size := by
    rw [Array.size_replicate]
    exact hlt
  have hget : (Table.fill (·.1) (fun x : Nat × Nat => x.2 + 1) (Array.replicate g.blocks.size 0)
      g.ids.zipIdx)[b.id]? = some (i + 1) :=
    Table.getElem?_fill_of_mem hkeys hmem hsize
  rw [number, stateNumbers_eq, hget]
  rfl

theorem Grouped.number_inj (hg : g.Grouped) (hb : g.block? p = some b)
    (hc : g.block? q = some c) (h : g.number p = g.number q) : p = q := by
  obtain ⟨i, hi⟩ := List.mem_iff_getElem?.mp (mem_live.mpr ⟨p, hb⟩)
  obtain ⟨j, hj⟩ := List.mem_iff_getElem?.mp (mem_live.mpr ⟨q, hc⟩)
  have hbp := (hg.fits hb).id_eq
  have hcq := (hg.fits hc).id_eq
  have hni := hg.number_of_getElem? hi
  have hnj := hg.number_of_getElem? hj
  rw [hbp] at hni
  rw [hcq] at hnj
  have hij : i = j := by omega
  subst hij
  rw [hi] at hj
  injection hj with hj
  rw [← hbp, ← hcq, hj]

/-! ### The states -/

def stateOf (g : Abstraction) (pid : Nat) (b : Block) : State :=
  g.projectBlock pid (g.silentGraph pid) g.stateNumbers b

theorem mem_states_unfold {s : State} :
    s ∈ (g.unfold pid).states ↔ ∃ id b, g.block? id = some b ∧ s = g.stateOf pid b := by
  simp only [unfold, List.mem_map, mem_live]
  constructor
  · rintro ⟨b, ⟨id, hb⟩, rfl⟩
    exact ⟨id, b, hb, rfl⟩
  · rintro ⟨id, b, hb, rfl⟩
    exact ⟨b, ⟨id, hb⟩, rfl⟩

theorem Grouped.id_stateOf (hg : g.Grouped) (hb : g.block? p = some b) :
    (g.stateOf pid b).id = g.number p := by
  rw [← (hg.fits hb).id_eq]
  rfl

theorem mem_silently_reached (hb : b.id = p) :
    c ∈ ((g.silentGraph pid).closure [b.id]).filterMap g.block? ↔
      ∃ q, (g.silentGraph pid).Reaches p q ∧ g.block? q = some c := by
  have hsize : (g.silentGraph pid).size = g.blocks.size := Array.size_map ..
  simp only [List.mem_filterMap, Graph.mem_closure_iff, List.mem_singleton, exists_eq_left, hb,
    hsize]
  constructor
  · rintro ⟨q, ⟨-, hr⟩, hc⟩
    exact ⟨q, hr, hc⟩
  · rintro ⟨q, hr, hc⟩
    exact ⟨q, ⟨lt_size_of_block? hc, hr⟩, hc⟩

theorem Grouped.accept_stateOf_iff (hg : g.Grouped) (hb : g.block? p = some b) :
    (g.stateOf pid b).accept = true ↔
      ∃ q c, (g.silentGraph pid).Reaches p q ∧ g.block? q = some c ∧ c.accept = true := by
  show (List.any _ _) = true ↔ _
  rw [List.any_eq_true]
  constructor
  · rintro ⟨c, hc, hacc⟩
    obtain ⟨q, hr, hq⟩ := (mem_silently_reached (hg.fits hb).id_eq).mp hc
    exact ⟨q, c, hr, hq, hacc⟩
  · rintro ⟨q, c, hr, hq, hacc⟩
    exact ⟨c, (mem_silently_reached (hg.fits hb).id_eq).mpr ⟨q, hr, hq⟩, hacc⟩

/-- The transitions of a state are those on own events of the blocks that are silently
reached. -/
theorem Grouped.mem_transitions_stateOf (hg : g.Grouped) (hb : g.block? p = some b) {e : Event}
    {v : Nat} : (e, v) ∈ (g.stateOf pid b).transitions ↔
      ∃ m q, (g.silentGraph pid).Reaches p m ∧ e.pid = pid ∧ q ∈ g.next m e ∧ v = g.number q := by
  show (e, v) ∈ Ascending.ofList _ ↔ _
  simp only [Ascending.mem_ofList, List.mem_flatMap, List.mem_map, List.mem_filter, beq_iff_eq,
    mem_silently_reached (hg.fits hb).id_eq]
  constructor
  · rintro ⟨c, ⟨m, hr, hm⟩, ⟨f, q⟩, ⟨hmem, hpid⟩, hev⟩
    injection hev with h1 h2
    subst h1
    refine ⟨m, q, hr, hpid, ?_, h2.symm⟩
    unfold next
    rw [hm]
    exact Transitions.mem_targets.mpr hmem
  · rintro ⟨m, q, hr, hpid, hn, rfl⟩
    unfold next at hn
    split at hn
    · rename_i c hm
      exact ⟨c, ⟨m, hr, hm⟩, (e, q), ⟨Transitions.mem_targets.mp hn, hpid⟩, rfl⟩
    · cases hn

/-- The states have the numbers from one on. -/
theorem Grouped.ids_unfold (hg : g.Grouped) (pid : Nat) :
    (g.unfold pid).states.map (·.id) = List.range' 1 g.size := by
  refine List.ext_getElem? fun i => ?_
  simp only [unfold, List.getElem?_map, Option.map_map]
  cases hi : g.live[i]? with
  | none =>
    have hle := List.getElem?_eq_none_iff.mp hi
    rw [List.getElem?_eq_none (by rw [List.length_range']; exact hle)]
    rfl
  | some b =>
    have hlt := (List.getElem?_eq_some_iff.mp hi).1
    have hnum : (g.stateOf pid b).id = i + 1 := hg.number_of_getElem? hi
    rw [List.getElem?_range' (by exact hlt), Nat.one_mul, Nat.add_comm 1 i, ← hnum]
    rfl

theorem Coherent.wellFormed_unfold (hg : g.Coherent) : (g.unfold pid).WellFormed where
  ascending := by
    rw [hg.toGrouped.ids_unfold]
    exact List.pairwise_lt_range'
  bounds := by
    intro s hs
    obtain ⟨id, b, hb, rfl⟩ := mem_states_unfold.mp hs
    obtain ⟨i, hi⟩ := List.mem_iff_getElem?.mp (mem_live.mpr ⟨id, hb⟩)
    have hlt := (List.getElem?_eq_some_iff.mp hi).1
    have hnum : (g.stateOf pid b).id = i + 1 := hg.toGrouped.number_of_getElem? hi
    have hnext : (g.unfold pid).nextId = g.live.length + 1 := rfl
    omega
  targets := by
    intro s hs e t hm
    obtain ⟨id, b, hb, rfl⟩ := mem_states_unfold.mp hs
    obtain ⟨m, q, -, -, hn, rfl⟩ := (hg.toGrouped.mem_transitions_stateOf hb).mp hm
    obtain ⟨c, hc⟩ := hg.exists_of_mem_next hn
    exact ⟨g.stateOf pid c, mem_states_unfold.mpr ⟨q, c, hc, rfl⟩, hg.toGrouped.id_stateOf hc⟩

/-! ### Runs -/

theorem Grouped.edge_unfold_iff (hg : g.Grouped) (hb : g.block? p = some b) {e : Event}
    {v : Nat} : (g.unfold pid).Edge (g.number p) e v ↔
      ∃ m q, (g.silentGraph pid).Reaches p m ∧ e.pid = pid ∧ q ∈ g.next m e ∧ v = g.number q := by
  rw [← hg.mem_transitions_stateOf hb]
  constructor
  · rintro ⟨s, hs, hid, hm⟩
    obtain ⟨q, c, hc, rfl⟩ := mem_states_unfold.mp hs
    rw [hg.id_stateOf hc] at hid
    have hqp := hg.number_inj hc hb hid
    subst hqp
    rw [hb] at hc
    injection hc with hc
    rw [hc]
    exact hm
  · exact fun hm => ⟨_, mem_states_unfold.mpr ⟨p, b, hb, rfl⟩, hg.id_stateOf hb, hm⟩

/-- The automaton runs as the process does. -/
theorem Coherent.run_unfold_iff (hg : g.Coherent) {w : List Event} {v : Nat}
    (hb : g.block? p = some b) : (g.unfold pid).Run (g.number p) w v ↔
      ∃ q, g.OwnRun pid p w q ∧ v = g.number q := by
  induction w generalizing p b with
  | nil =>
    constructor
    · intro h
      cases h
      exact ⟨p, .nil p, rfl⟩
    · rintro ⟨q, hrun, rfl⟩
      cases hrun
      exact .nil _
  | cons e w ih =>
    constructor
    · intro h
      cases h with
      | cons hedge hrun =>
        obtain ⟨m, q, hr, he, hn, rfl⟩ := (hg.toGrouped.edge_unfold_iff hb).mp hedge
        obtain ⟨c, hc⟩ := hg.exists_of_mem_next hn
        obtain ⟨r, hown, rfl⟩ := (ih hc).mp hrun
        exact ⟨r, .cons hr he hn hown, rfl⟩
    · rintro ⟨r, hrun, rfl⟩
      cases hrun with
      | cons hr he hn hown =>
        obtain ⟨c, hc⟩ := hg.exists_of_mem_next hn
        exact .cons ((hg.toGrouped.edge_unfold_iff hb).mpr ⟨_, _, hr, he, hn, rfl⟩)
          ((ih hc).mpr ⟨r, hown, rfl⟩)

/-! ### Words -/

theorem Grouped.number_mem_initialStates_iff (hg : g.Grouped) {v : Nat} :
    v ∈ (g.unfold pid).initialStates ↔
      ∃ p b, g.block? p = some b ∧ b.isInitialFor pid = true ∧ v = g.number p := by
  rw [Automaton.mem_initialStates]
  constructor
  · rintro ⟨s, hs, hinit, rfl⟩
    obtain ⟨p, b, hb, rfl⟩ := mem_states_unfold.mp hs
    exact ⟨p, b, hb, hinit, hg.id_stateOf hb⟩
  · rintro ⟨p, b, hb, hinit, rfl⟩
    exact ⟨_, mem_states_unfold.mpr ⟨p, b, hb, rfl⟩, hinit, hg.id_stateOf hb⟩

theorem Grouped.number_mem_acceptStates_iff (hg : g.Grouped) (hb : g.block? p = some b) :
    g.number p ∈ (g.unfold pid).acceptStates ↔
      ∃ q c, (g.silentGraph pid).Reaches p q ∧ g.block? q = some c ∧ c.accept = true := by
  rw [Automaton.mem_acceptStates, ← hg.accept_stateOf_iff hb]
  constructor
  · rintro ⟨s, hs, hacc, hid⟩
    obtain ⟨q, c, hc, rfl⟩ := mem_states_unfold.mp hs
    rw [hg.id_stateOf hc] at hid
    have hqp := hg.number_inj hc hb hid
    subst hqp
    rw [hb] at hc
    injection hc with hc
    rw [hc]
    exact hacc
  · exact fun hacc => ⟨_, mem_states_unfold.mpr ⟨p, b, hb, rfl⟩, hacc, hg.id_stateOf hb⟩

theorem Coherent.exists_of_ownRun (hg : g.Coherent) {w : List Event} (h : g.OwnRun pid p w q)
    (hp : ∃ b, g.block? p = some b) : ∃ b, g.block? q = some b := by
  induction h with
  | nil p => exact hp
  | cons _ _ hn _ ih => exact ih (hg.exists_of_mem_next hn)

/-- Before it is reduced the automaton accepts what the process does on accepting paths. -/
theorem Coherent.accepts_unfold_iff (hg : g.Coherent) {w : List Event} :
    (g.unfold pid).Accepts w ↔ g.Spells pid w := by
  constructor
  · rintro ⟨s, hs, t, ht, hrun⟩
    obtain ⟨p, b, hb, hinit, rfl⟩ := hg.toGrouped.number_mem_initialStates_iff.mp hs
    obtain ⟨r, hown, rfl⟩ := (hg.run_unfold_iff hb).mp hrun
    obtain ⟨d, hd⟩ := hg.exists_of_ownRun hown ⟨b, hb⟩
    obtain ⟨q, c, hr, hc, hacc⟩ := (hg.toGrouped.number_mem_acceptStates_iff hd).mp ht
    obtain ⟨es, hpath, hw⟩ := exists_path_iff.mpr ⟨r, hown, hr⟩
    exact ⟨p, b, q, c, es, hb, hinit, hc, hacc, hpath, hw⟩
  · rintro ⟨p, b, q, c, es, hb, hinit, hc, hacc, hpath, hw⟩
    obtain ⟨r, hown, hr⟩ := exists_path_iff.mp ⟨es, hpath, hw⟩
    obtain ⟨d, hd⟩ := hg.exists_of_ownRun hown ⟨b, hb⟩
    exact ⟨g.number p, hg.toGrouped.number_mem_initialStates_iff.mpr ⟨p, b, hb, hinit, rfl⟩,
      g.number r, (hg.toGrouped.number_mem_acceptStates_iff hd).mpr ⟨q, c, hr, hc, hacc⟩,
      (hg.run_unfold_iff hb).mpr ⟨r, hown, rfl⟩⟩

def reduced (g : Abstraction) (pid : Nat) : Automaton := ((g.unfold pid).prune.1).minimize.1

theorem Coherent.accepts_reduced_iff (hg : g.Coherent) {w : List Event} :
    (g.reduced pid).Accepts w ↔ g.Spells pid w := by
  have hwf : (g.unfold pid).WellFormed := hg.wellFormed_unfold
  rw [reduced, Automaton.accepts_minimize_iff hwf.prune, Automaton.accepts_prune_iff hwf,
    hg.accepts_unfold_iff]

theorem Coherent.trim_reduced (hg : g.Coherent) : (g.reduced pid).Trim := by
  have hwf : (g.unfold pid).WellFormed := hg.wellFormed_unfold
  obtain ⟨f, hf⟩ := Automaton.exists_merged_minimize hwf.prune
  exact hf.trim (Automaton.trim_prune hwf)

/-- A projection succeeds if the process does some word. -/
theorem Coherent.project_eq_ok_iff (hg : g.Coherent) {a : Automaton} :
    g.project pid = .ok a ↔ a = g.reduced pid ∧ ∃ w, g.Spells pid w := by
  have hends : (∃ w, g.Spells pid w) ↔
      ¬((g.reduced pid).initialStates.length = 0 ∨ (g.reduced pid).acceptStates.length = 0) := by
    simp only [List.length_eq_zero_iff, not_or, ← hg.accepts_reduced_iff]
    constructor
    · rintro ⟨w, hw⟩
      exact ⟨hw.initialStates_ne_nil, hw.acceptStates_ne_nil⟩
    · rintro ⟨-, hacc⟩
      exact hg.trim_reduced.exists_accepts hacc
  rw [hends]
  show (if (g.reduced pid).initialStates.length = 0 ∨ (g.reduced pid).acceptStates.length = 0
    then Except.error _ else Except.ok (g.reduced pid)) = _ ↔ _
  split
  · rename_i h
    exact iff_of_false (fun hn => by cases hn) fun hn => hn.2 h
  · rename_i h
    constructor
    · intro hok
      injection hok with hok
      exact ⟨hok.symm, h⟩
    · rintro ⟨rfl, -⟩
      rfl

/-- The projection of an abstraction onto a process accepts the words that the process
does on the paths of blocks from one that is initial for it to an accepting one. The
closure under silent transitions, the pruning and the merging neither add a word nor
lose one. -/
theorem accepts_project_iff {traces : List Trace} {grouping : Grouping} {strict : Bool}
    {removed : List Block} {a : Automaton} {w : List Event}
    (h : Reached traces grouping strict removed g) (ha : g.project pid = .ok a) :
    a.Accepts w ↔ g.Spells pid w := by
  obtain ⟨rfl, -⟩ := h.coherent.project_eq_ok_iff.mp ha
  exact h.coherent.accepts_reduced_iff

/-- Where the observations of `workTwice` are not told apart, its process may work once. -/
theorem accepts_project_workTwice : ∃ g a, ofTraces [workTwice] .queueTops false = .ok g ∧
    g.project 0 = .ok a ∧ a.Accepts [.internal "work" 0] := by
  have hstart : ofTraces [workTwice] .queueTops false =
      .ok (assemble workTwice [workTwice] .queueTops false) := rfl
  obtain ⟨a, ha⟩ := Checks.exists_eq_ok (show Except.isOk
    ((assemble workTwice [workTwice] .queueTops false).project 0) = true by decide +kernel)
  obtain ⟨b, hb, hends⟩ := (Option.any_eq_true ..).mp
    (show ((assemble workTwice [workTwice] .queueTops false).block? 0).any
      (fun b => b.isInitialFor 0 && b.accept) = true by decide +kernel)
  rw [Bool.and_eq_true] at hends
  have hloop : 0 ∈ (assemble workTwice [workTwice] .queueTops false).next 0
      (.internal "work" 0) := by decide +kernel
  refine ⟨_, a, hstart, ha, (accepts_project_iff (.start hstart) ha).mpr ?_⟩
  exact ⟨0, b, 0, b, _, hb, hends.1, hb, hends.2, .cons hloop (.nil 0), rfl⟩

end ProtocolInference.Abstraction
