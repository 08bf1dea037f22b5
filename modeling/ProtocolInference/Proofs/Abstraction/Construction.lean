import Mathlib.Data.List.Perm.Basic
import ProtocolInference.Abstraction.Construction
import ProtocolInference.Proofs.Abstraction.Coherence
import ProtocolInference.Proofs.Checks
import ProtocolInference.Proofs.Graph.Recursion

/-!
# The first grouping

The traversal visits every observation once, in the order of a recursive depth-first
search, and every grouping of what has been visited holds each observation in exactly one
group. The sources of the edges into an observation are counted edge by edge. So the first
abstraction of any traces is coherent.
-/

namespace ProtocolInference.Abstraction

open Ascending

/-! ### Edges in both directions -/

/-- The edges of the nodes, each as its target and its source. The first node has the
given number. -/
def sources (nodes : List Node) (first : Nat) : List (Nat × Nat) :=
  (nodes.zipIdx first).flatMap fun (n, i) => n.next.map fun (_, target) => (target, i)

theorem count_sources (nodes : List Node) (first p o : Nat) :
    (sources nodes first).count (p, first + o) =
      ((nodes[o]?.map (·.next)).getD []).countP (·.2 == p) := by
  have hhere : ∀ (n : Node) (i j : Nat), (n.next.map fun x => (x.2, i)).count (p, j) =
      if i = j then n.next.countP (·.2 == p) else 0 := by
    intro n i j
    rw [List.count, List.countP_map]
    by_cases hij : i = j
    · subst hij
      rw [if_pos rfl]
      refine List.countP_congr fun x _ => ?_
      simp
    · rw [if_neg hij, List.countP_eq_zero]
      intro x _
      simp [hij]
  induction nodes generalizing first o with
  | nil => simp [sources]
  | cons n nodes ih =>
    have hcons : sources (n :: nodes) first =
        (n.next.map fun x => (x.2, first)) ++ sources nodes (first + 1) := rfl
    rw [hcons, List.count_append, hhere]
    cases o with
    | zero =>
      have hlater : (sources nodes (first + 1)).count (p, first + 0) = 0 := by
        rw [List.count_eq_zero, sources, List.mem_flatMap]
        rintro ⟨⟨m, i⟩, hm, hmem⟩
        obtain ⟨x, -, hx⟩ := List.mem_map.mp hmem
        have hi := (List.mem_zipIdx hm).1
        injection hx with _ h2
        omega
      rw [hlater]
      simp
    | succ o =>
      have hshift : first + (o + 1) = first + 1 + o := by omega
      rw [if_neg (by omega), hshift, ih (first + 1) o]
      simp

theorem getElem?_foldl_modify (edges : List (Nat × Nat)) (t : Array (List Nat)) (p : Nat) :
    (edges.foldl (fun t x => t.modify x.1 (· ++ [x.2])) t)[p]? =
      t[p]?.map (· ++ (edges.filter (·.1 == p)).map (·.2)) := by
  induction edges generalizing t with
  | nil => simp
  | cons x edges ih =>
    rw [List.foldl_cons, ih, Array.getElem?_modify, List.filter_cons]
    by_cases hx : x.1 = p
    · simp [hx, Function.comp_def]
    · simp [hx]

def sourceTable (nodes : List Node) : Array (List Nat) :=
  (sources nodes 0).foldl (fun t x => t.modify x.1 (· ++ [x.2]))
    (Array.replicate nodes.length [])

theorem withIncoming_eq (nodes : List Node) : withIncoming nodes =
    (nodes.zipIdx.map fun x : Node × Nat =>
      ({ x.1 with prev := (sourceTable nodes)[x.2]?.getD [] } : Node)).toArray := rfl

theorem getElem?_sourceTable {nodes : List Node} {p : Nat} (hp : p < nodes.length) :
    (sourceTable nodes)[p]?.getD [] = ((sources nodes 0).filter (·.1 == p)).map (·.2) := by
  rw [sourceTable, getElem?_foldl_modify, Array.getElem?_replicate, if_pos hp]
  rfl

theorem getElem?_withIncoming (nodes : List Node) (p : Nat) : (withIncoming nodes)[p]? =
    nodes[p]?.map fun n =>
      { n with prev := ((sources nodes 0).filter (·.1 == p)).map (·.2) } := by
  rw [withIncoming_eq, List.getElem?_toArray, List.getElem?_map, List.getElem?_zipIdx,
    Option.map_map]
  cases hn : nodes[p]? with
  | none => rfl
  | some n =>
    have hp := (List.getElem?_eq_some_iff.mp hn).1
    simp only [Option.map_some, Function.comp_apply, Nat.zero_add, getElem?_sourceTable hp]

/-! ### The traversal -/

theorem mem_traversal {g : Graph} {roots : List Nat} {o : Nat} :
    o ∈ traversal g roots ↔ o < g.size := by
  simp only [traversal, List.mem_append, List.mem_filter, List.mem_range, Bool.not_eq_true']
  constructor
  · rintro (h | ⟨h, -⟩)
    · exact (Graph.mem_preorder_iff.mp h).1
    · exact h
  · intro h
    cases hm : (Graph.marksOf g.size (g.preorder roots))[o]?.getD false with
    | true => exact Or.inl (Graph.marksOf_getD _ |>.mp hm).2
    | false => exact Or.inr ⟨h, rfl⟩

theorem nodup_traversal (g : Graph) (roots : List Nat) : (traversal g roots).Nodup := by
  refine List.nodup_append.mpr ⟨g.preorder_nodup roots, List.nodup_range.filter _, ?_⟩
  rintro a ha b hb rfl
  obtain ⟨hlt, hm⟩ := List.mem_filter.mp hb
  have hmark := (Graph.marksOf_getD (g.preorder roots)).mpr ⟨List.mem_range.mp hlt, ha⟩
  rw [hmark] at hm
  cases hm

theorem perm_traversal (g : Graph) (roots : List Nat) :
    (traversal g roots).Perm (List.range g.size) := by
  refine (List.perm_ext_iff_of_nodup (nodup_traversal g roots) List.nodup_range).mpr fun o => ?_
  rw [mem_traversal, List.mem_range]

/-- The traversal meets each observation once: those that the roots reach in the order in
which recursive depth-first search enters them from the roots in turn, and after them those
that no root reaches, in ascending order. -/
theorem traversal_exact (g : Graph) (roots : List Nat) :
    (traversal g roots).Perm (List.range g.size) ∧
      ∃ missed, traversal g roots = g.visit [] roots ++ missed ∧ missed.Pairwise (· < ·) ∧
        ∀ o, o ∈ missed ↔ o < g.size ∧ ∀ r ∈ roots, ¬g.Reaches r o := by
  refine ⟨perm_traversal g roots, _, congrArg (· ++ _) (g.preorder_eq_visit roots), ?_, ?_⟩
  · exact List.pairwise_lt_range.filter _
  · intro o
    have hmark : (g.reached roots)[o]?.getD false = true ↔
        o < g.size ∧ ∃ r ∈ roots, g.Reaches r o := Graph.reached_getD
    rw [List.mem_filter, List.mem_range, Bool.not_eq_true', ← Bool.not_eq_true]
    constructor
    · intro h
      exact ⟨h.1, fun r hr hreach => h.2 (hmark.mpr ⟨h.1, r, hr, hreach⟩)⟩
    · intro h
      refine ⟨h.1, fun hin => ?_⟩
      obtain ⟨-, r, hr, hreach⟩ := hmark.mp hin
      exact h.2 r hr hreach

-- Observation 1 is left on the stack by observation 0 and met through observation 2.
example : traversal #[[2, 1], [], [1], [0]] [0] = [0, 2, 1, 3] := by decide

/-! ### Grouping what has been visited -/

def GroupsSorted (groups : List (List Nat)) : Prop := ∀ m ∈ groups, m ≠ [] ∧ Sorted m

theorem perm_insert {o : Nat} {s : List Nat} (h : o ∉ s) :
    (Ascending.insert o s).Perm (o :: s) := by
  induction s with
  | nil => exact List.Perm.refl _
  | cons a s ih =>
    rw [List.mem_cons, not_or] at h
    simp only [Ascending.insert]
    cases hc : compare o a with
    | lt => exact List.Perm.refl _
    | eq => exact absurd (Std.LawfulEqOrd.eq_of_compare hc) h.1
    | gt => exact ((ih h.2).cons a).trans (List.Perm.swap o a s)

theorem perm_addToGroup (key : List (Option String)) (o : Nat)
    (groups : List (List (Option String) × List Nat)) (h : o ∉ (groups.map (·.2)).flatten) :
    ((addToGroup groups key o).map (·.2)).flatten.Perm (o :: (groups.map (·.2)).flatten) := by
  induction groups with
  | nil => simp [addToGroup]
  | cons x groups ih =>
    rw [List.map_cons, List.flatten_cons, List.mem_append, not_or] at h
    simp only [addToGroup]
    split
    · exact (perm_insert h.1).append_right _
    · simp only [List.map_cons, List.flatten_cons]
      exact ((ih h.2).append_left _).trans List.perm_middle

theorem sorted_addToGroup {key : List (Option String)} {o : Nat}
    {groups : List (List (Option String) × List Nat)} (h : GroupsSorted (groups.map (·.2))) :
    GroupsSorted ((addToGroup groups key o).map (·.2)) := by
  induction groups with
  | nil =>
    intro m hm
    simp only [addToGroup, List.map_cons, List.map_nil, List.mem_singleton] at hm
    subst hm
    exact ⟨List.cons_ne_nil _ _, List.pairwise_singleton _ _⟩
  | cons x groups ih =>
    have hx := h x.2 (List.mem_cons_self ..)
    have hrest : GroupsSorted (groups.map (·.2)) := fun m hm => h m (List.mem_cons_of_mem _ hm)
    simp only [addToGroup]
    split
    · intro m hm
      rcases List.mem_cons.mp hm with rfl | hm
      · exact ⟨List.ne_nil_of_mem (mem_insert.mpr (Or.inl rfl)), sorted_insert o hx.2⟩
      · exact hrest m hm
    · intro m hm
      rcases List.mem_cons.mp hm with rfl | hm
      · exact hx
      · exact ih hrest m hm

theorem foldl_addToGroup_spec (key : Nat → List (Option String)) (order : List Nat)
    (groups : List (List (Option String) × List Nat))
    (hd : (order ++ (groups.map (·.2)).flatten).Nodup) (hs : GroupsSorted (groups.map (·.2))) :
    ((order.foldl (fun groups o => addToGroup groups (key o) o) groups).map
        (·.2)).flatten.Perm (order ++ (groups.map (·.2)).flatten) ∧
      GroupsSorted ((order.foldl (fun groups o => addToGroup groups (key o) o)
        groups).map (·.2)) := by
  induction order generalizing groups with
  | nil => exact ⟨List.Perm.refl _, hs⟩
  | cons o order ih =>
    rw [List.cons_append, List.nodup_cons, List.mem_append, not_or] at hd
    obtain ⟨⟨ho, hgroups⟩, hrest⟩ := hd
    have hadd := perm_addToGroup (key o) o groups hgroups
    have hmove : (order ++ ((addToGroup groups (key o) o).map (·.2)).flatten).Perm
        (o :: (order ++ (groups.map (·.2)).flatten)) :=
      (hadd.append_left order).trans List.perm_middle
    have hnew : o ∉ order ++ (groups.map (·.2)).flatten := by
      rw [List.mem_append, not_or]
      exact ⟨ho, hgroups⟩
    obtain ⟨hp, hs'⟩ := ih _ (hmove.nodup_iff.mpr (List.nodup_cons.mpr ⟨hnew, hrest⟩))
      (sorted_addToGroup hs)
    exact ⟨hp.trans hmove, hs'⟩

/-- The groups hold what has been visited, each observation once. -/
theorem group_spec (nodes : Array Node) {order : List Nat} (hd : order.Nodup) (how : Grouping) :
    (group nodes order how).flatten.Perm order ∧ GroupsSorted (group nodes order how) := by
  cases how with
  | queueTops =>
    obtain ⟨hp, hs⟩ := foldl_addToGroup_spec (topsAt nodes) order [] (by simpa using hd)
      fun m hm => absurd hm List.not_mem_nil
    have hnil : order ++ (List.map (fun x : List (Option String) × List Nat => x.2) []).flatten =
        order := List.append_nil order
    rw [hnil] at hp
    exact ⟨hp, hs⟩
  | single =>
    constructor
    · have hflat : (order.map fun o => [o]).flatten = order := by
        rw [← List.flatMap_def]
        exact List.flatMap_singleton' order
      show ((order.map fun o => [o]).flatten).Perm order
      rw [hflat]
    · intro m hm
      obtain ⟨o, -, rfl⟩ := List.mem_map.mp hm
      exact ⟨List.cons_ne_nil _ _, List.pairwise_singleton _ _⟩

/-! ### The block of every observation -/

/-- Every member of every group, with the number of its group. -/
def memberships (groups : List (List Nat)) : List (Nat × Nat) :=
  groups.zipIdx.flatMap fun (members, id) => members.map fun o => (o, id)

theorem mem_memberships {groups : List (List Nat)} {o id : Nat} :
    (o, id) ∈ memberships groups ↔ ∃ members, groups[id]? = some members ∧ o ∈ members := by
  simp only [memberships, List.mem_flatMap, List.mem_map, Prod.mk.injEq, Prod.exists,
    List.mem_zipIdx_iff_getElem?]
  constructor
  · rintro ⟨members, i, hi, p, hp, rfl, rfl⟩
    exact ⟨members, hi, hp⟩
  · rintro ⟨members, hi, ho⟩
    exact ⟨members, id, hi, o, ho, rfl, rfl⟩

theorem map_fst_memberships (groups : List (List Nat)) :
    (memberships groups).map (·.1) = groups.flatten := by
  have hone : ∀ x : List Nat × Nat, (x.1.map fun o => (o, x.2)).map (·.1) = x.1 := by
    intro x
    rw [List.map_map]
    exact List.map_id _
  simp only [memberships, List.map_flatMap, hone]
  rw [List.flatMap_def]
  exact congrArg List.flatten (List.zipIdx_map_fst 0 groups)

theorem parentsOf_eq (n : Nat) (groups : List (List Nat)) : parentsOf n groups =
    Table.fill (·.1) (fun x => some x.2) (Array.replicate n none) (memberships groups) := by
  simp only [parentsOf, Table.fill, memberships, List.foldl_flatMap, List.foldl_map]

/-- Where the groups have nothing in common, an observation lies in the block of its
group, and in none if it is in no group. -/
theorem parentsOf_join_eq_some_iff {n : Nat} {groups : List (List Nat)}
    (hd : groups.flatten.Nodup) (hlt : ∀ o ∈ groups.flatten, o < n) {o id : Nat} :
    (parentsOf n groups)[o]?.join = some id ↔
      ∃ members, groups[id]? = some members ∧ o ∈ members := by
  rw [← mem_memberships, parentsOf_eq]
  have hkeys : ((memberships groups).map (·.1)).Nodup := by rwa [map_fst_memberships]
  have hin : ∀ {x}, x ∈ memberships groups →
      (Table.fill (·.1) (fun x => some x.2) (Array.replicate n none) (memberships groups))[x.1]? =
        some (some x.2) := by
    intro x hx
    have hsize : x.1 < (Array.replicate n (none : Option Nat)).size := by
      rw [Array.size_replicate]
      exact hlt x.1 (by rw [← map_fst_memberships]; exact List.mem_map_of_mem hx)
    exact Table.getElem?_fill_of_mem hkeys hx hsize
  constructor
  · intro h
    by_cases hx : ∃ x ∈ memberships groups, x.1 = o
    · obtain ⟨x, hx, rfl⟩ := hx
      rw [hin hx] at h
      injection h with h
      subst h
      exact hx
    · -- What no group names keeps the entry that the table began with.
      rw [Table.getElem?_fill_of_forall_ne _ fun x hm he => hx ⟨x, hm, he⟩,
        Array.getElem?_replicate] at h
      split at h <;> cases h
  · intro h
    rw [hin h]
    rfl

/-! ### The first abstraction -/

section

variable {first : Trace} {traces : List Trace} {grouping : Grouping} {strict : Bool}

/-- The groups of the first abstraction. -/
def firstGroups (traces : List Trace) (grouping : Grouping) : List (List Nat) :=
  group (withIncoming (outgoing traces))
    (traversal (graphOf (withIncoming (outgoing traces))) (offsets 0 traces)) grouping

theorem nodes_assemble : (assemble first traces grouping strict).nodes =
    withIncoming (outgoing traces) := rfl

theorem parentOf_assemble (o : Nat) : (assemble first traces grouping strict).parentOf o =
    (parentsOf (withIncoming (outgoing traces)).size (firstGroups traces grouping))[o]?.join := rfl

theorem block?_assemble (id : Nat) : (assemble first traces grouping strict).block? id =
    (firstGroups traces grouping)[id]?.map fun members =>
      Block.withFlags (withIncoming (outgoing traces)) first.processes { id, members } := by
  show (((firstGroups traces grouping).zipIdx.map fun x =>
    some (Block.withFlags (withIncoming (outgoing traces)) first.processes
      { id := x.2, members := x.1 })).toArray)[id]?.join = _
  rw [List.getElem?_toArray, List.getElem?_map, List.getElem?_zipIdx]
  cases (firstGroups traces grouping)[id]? with
  | none => rfl
  | some members => simp

/-- Each observation is in one group, and in one only. -/
theorem firstGroups_spec (traces : List Trace) (grouping : Grouping) :
    (firstGroups traces grouping).flatten.Nodup ∧
      (∀ o, o ∈ (firstGroups traces grouping).flatten ↔
        o < (withIncoming (outgoing traces)).size) ∧
      GroupsSorted (firstGroups traces grouping) := by
  obtain ⟨hp, hs⟩ := group_spec (withIncoming (outgoing traces))
    (nodup_traversal (graphOf (withIncoming (outgoing traces))) (offsets 0 traces)) grouping
  refine ⟨hp.nodup_iff.mpr (nodup_traversal _ _), fun o => ?_, hs⟩
  rw [firstGroups, hp.mem_iff, mem_traversal, graphOf, Array.size_map]

theorem parentOf_assemble_eq_some_iff {o id : Nat} :
    (assemble first traces grouping strict).parentOf o = some id ↔
      ∃ members, (firstGroups traces grouping)[id]? = some members ∧ o ∈ members := by
  obtain ⟨hd, hm, -⟩ := firstGroups_spec traces grouping
  rw [parentOf_assemble]
  exact parentsOf_join_eq_some_iff hd fun o ho => (hm o).mp ho

/-- At first every observation lies in a block. -/
theorem exists_parentOf_assemble {o : Nat}
    (h : o < (assemble first traces grouping strict).nodes.size) :
    ∃ id, (assemble first traces grouping strict).parentOf o = some id := by
  obtain ⟨-, hm, -⟩ := firstGroups_spec traces grouping
  obtain ⟨members, hmem, ho⟩ := List.mem_flatten.mp ((hm o).mpr h)
  obtain ⟨id, hid⟩ := List.mem_iff_getElem?.mp hmem
  exact ⟨id, parentOf_assemble_eq_some_iff.mpr ⟨members, hid, ho⟩⟩

theorem edges_assemble (o : Nat) : (assemble first traces grouping strict).edges o =
    (((outgoing traces)[o]?).map (·.next)).getD [] := by
  unfold edges
  rw [nodes_assemble, getElem?_withIncoming]
  cases (outgoing traces)[o]? <;> rfl

/-- The edges into the observations are the converse of those out of them. -/
theorem converse_assemble {p : Nat} {n : Node}
    (hn : (assemble first traces grouping strict).nodes[p]? = some n) (o : Nat) :
    n.prev.count o = ((assemble first traces grouping strict).edges o).countP (·.2 == p) := by
  rw [nodes_assemble, getElem?_withIncoming] at hn
  obtain ⟨m, -, rfl⟩ := Option.map_eq_some_iff.mp hn
  have hcount := count_sources (outgoing traces) 0 p o
  rw [Nat.zero_add] at hcount
  rw [edges_assemble, ← hcount]
  show (((sources (outgoing traces) 0).filter (·.1 == p)).map (·.2)).count o = _
  rw [List.count, List.countP_map, List.countP_filter, List.count]
  refine List.countP_congr fun x _ => ?_
  simp [Prod.ext_iff, and_comm]

theorem coherent_assemble : (assemble first traces grouping strict).Coherent where
  parent_size := by
    show (parentsOf _ _).size = _
    rw [parentsOf_eq, Table.size_fill, Array.size_replicate]
    rfl
  fits := by
    intro id b hb
    rw [block?_assemble] at hb
    obtain ⟨members, hmem, rfl⟩ := Option.map_eq_some_iff.mp hb
    obtain ⟨-, -, hs⟩ := firstGroups_spec traces grouping
    obtain ⟨hne, hsorted⟩ := hs members (List.mem_of_getElem? hmem)
    refine ⟨rfl, hne, hsorted, fun o => ?_, rfl⟩
    rw [parentOf_assemble_eq_some_iff]
    constructor
    · exact fun ho => ⟨members, hmem, ho⟩
    · rintro ⟨members', hmem', ho⟩
      rw [hmem] at hmem'
      injection hmem' with hmem'
      subst hmem'
      exact ho
  live := by
    intro o id ho
    obtain ⟨members, hmem, -⟩ := parentOf_assemble_eq_some_iff.mp ho
    exact ⟨_, by rw [block?_assemble, hmem]; rfl⟩
  converse := converse_assemble
  cache := by
    intro id b c hb hc
    rw [block?_assemble] at hb
    obtain ⟨members, -, rfl⟩ := Option.map_eq_some_iff.mp hb
    cases hc

end

theorem checkTopology_eq_ok_iff {first t : Trace} {number : Nat} :
    checkTopology first number t = .ok () ↔
      t.processes = first.processes ∧ t.channels = first.channels := by
  unfold checkTopology
  split
  · rename_i h
    exact iff_of_true rfl h
  · rename_i h
    exact iff_of_false (fun hn => by cases hn) h

/-- A construction succeeds if the traces have one topology and, in a strict abstraction,
equal local states are kept together. -/
theorem ofTraces_eq_ok_iff {traces : List Trace} {grouping : Grouping} {strict : Bool}
    {g : Abstraction} : ofTraces traces grouping strict = .ok g ↔
      ∃ first, traces.head? = some first ∧
        (∀ t ∈ traces, t.processes = first.processes ∧ t.channels = first.channels) ∧
        g = assemble first traces grouping strict ∧
        (strict = true → g.checkTogether (List.range g.nodes.size) = .ok ()) := by
  cases traces with
  | nil =>
    refine iff_of_false (fun h => by cases h) ?_
    rintro ⟨first, hfirst, -⟩
    cases hfirst
  | cons first rest =>
    have htopology : ((first :: rest).zipIdx.forM fun x => checkTopology first x.2 x.1) =
        .ok () ↔ ∀ t ∈ first :: rest, t.processes = first.processes ∧
          t.channels = first.channels := by
      rw [Checks.forM_eq_ok_iff]
      constructor
      · intro hall t ht
        obtain ⟨i, hi⟩ := List.mem_iff_getElem?.mp ht
        exact checkTopology_eq_ok_iff.mp (hall (t, i) (List.mem_zipIdx_iff_getElem?.mpr hi))
      · exact fun hall x hx => checkTopology_eq_ok_iff.mpr (hall x.1 (List.fst_mem_of_mem_zipIdx hx))
    simp only [List.head?_cons, Option.some.injEq, exists_eq_left', ← htopology]
    unfold ofTraces
    dsimp only
    split
    · rename_i cause hcause
      rw [hcause]
      exact iff_of_false (fun h => by cases h) fun h => by cases h.1
    · rename_i hok
      rw [hok]
      cases strict with
      | false =>
        rw [if_neg Bool.false_ne_true]
        constructor
        · intro h
          injection h with h
          exact ⟨rfl, h.symm, fun h => by cases h⟩
        · rintro ⟨-, rfl, -⟩
          rfl
      | true =>
        rw [if_pos rfl]
        constructor
        · intro h
          split at h
          · rename_i htogether
            injection h with h
            exact ⟨rfl, h.symm, fun _ => h ▸ htogether⟩
          · cases h
        · rintro ⟨-, rfl, htogether⟩
          rw [htogether rfl]

/-- A construction that succeeds has assembled traces of one topology. -/
theorem eq_assemble_of_ofTraces {traces : List Trace} {grouping : Grouping} {strict : Bool}
    {g : Abstraction} (h : ofTraces traces grouping strict = .ok g) :
    ∃ first ∈ traces, (∀ t ∈ traces, t.processes = first.processes ∧ t.channels = first.channels) ∧
      g = assemble first traces grouping strict := by
  obtain ⟨first, hfirst, hall, hg, -⟩ := ofTraces_eq_ok_iff.mp h
  exact ⟨first, List.mem_of_mem_head? hfirst, hall, hg⟩

end ProtocolInference.Abstraction
