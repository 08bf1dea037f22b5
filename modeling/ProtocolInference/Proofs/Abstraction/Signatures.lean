import ProtocolInference.Proofs.Abstraction.Strictness

/-!
# Grouping by the next messages

At first two observations lie in one block if and only if the same messages are next on all
channels. Adding an observation to the groups keeps one group for each key, in the order in
which the keys were first met, so a block is numbered by the place of its next messages among
those that the traversal meets, each counted where it is first met. The traversal meets every
observation of every trace, also one that no root reaches. Main statement: `queueTops_exact`.
-/

namespace ProtocolInference.Abstraction

variable {key : Nat → List (Option String)} {groups : List (List (Option String) × List Nat)}
  {met : List Nat} {o p id : Nat}

/-! ### One group for each key -/

theorem addToGroup_of_not_mem {k : List (Option String)} (h : k ∉ groups.map (·.1)) :
    addToGroup groups k o = groups ++ [(k, [o])] := by
  induction groups with
  | nil => rfl
  | cons x groups ih =>
    rw [List.map_cons, List.mem_cons, not_or] at h
    simp only [addToGroup, if_neg (Ne.symm h.1), ih h.2, List.cons_append]

theorem addToGroup_of_mem {k : List (Option String)} (hd : (groups.map (·.1)).Nodup)
    (h : k ∈ groups.map (·.1)) : addToGroup groups k o =
      groups.map fun x => if x.1 = k then (x.1, Ascending.insert o x.2) else x := by
  induction groups with
  | nil => exact absurd h List.not_mem_nil
  | cons x groups ih =>
    rw [List.map_cons, List.nodup_cons] at hd
    rw [List.map_cons, List.mem_cons] at h
    rw [List.map_cons]
    by_cases hx : x.1 = k
    · -- No later group has the key, so the others stay as they are.
      have hrest : groups.map (fun y => if y.1 = k then (y.1, Ascending.insert o y.2) else y) =
          groups := by
        refine (List.map_congr_left fun y hy => if_neg fun hyk => ?_).trans (List.map_id _)
        exact hd.1 (hx.trans hyk.symm ▸ List.mem_map_of_mem hy)
      simp only [addToGroup, if_pos hx, hrest]
    · have hmem : k ∈ groups.map (·.1) := h.resolve_left (Ne.symm hx)
      simp only [addToGroup, if_neg hx, ih hd.2 hmem]

theorem eraseDups_concat_of_mem {α : Type} [BEq α] [LawfulBEq α] {a : α} {l : List α}
    (h : a ∈ l) : (l ++ [a]).eraseDups = l.eraseDups := by
  have hnone : [a].removeAll l = [] := by simp [List.removeAll, h]
  rw [List.eraseDups_append, hnone, List.eraseDups_nil, List.append_nil]

theorem eraseDups_concat_of_not_mem {α : Type} [BEq α] [LawfulBEq α] {a : α} {l : List α}
    (h : a ∉ l) : (l ++ [a]).eraseDups = l.eraseDups ++ [a] := by
  have hone : [a].removeAll l = [a] := by simp [List.removeAll, h]
  rw [List.eraseDups_append, hone]
  simp [List.eraseDups_cons]

/-- The groups of what has been met: one for each key, in the order in which the keys were
first met, with all observations that have the key. -/
structure Sorts (key : Nat → List (Option String)) (met : List Nat)
    (groups : List (List (Option String) × List Nat)) : Prop where
  keys : groups.map (·.1) = (met.map key).eraseDups
  nodup : (groups.map (·.1)).Nodup
  mem_iff : ∀ x ∈ groups, ∀ o, o ∈ x.2 ↔ o ∈ met ∧ key o = x.1

theorem Sorts.mem_keys_iff (h : Sorts key met groups) {k : List (Option String)} :
    k ∈ groups.map (·.1) ↔ k ∈ met.map key := by
  rw [h.keys, List.mem_eraseDups]

theorem mem_concat_and_iff {k : List (Option String)} :
    p ∈ met ++ [o] ∧ key p = k ↔ (p ∈ met ∧ key p = k) ∨ (p = o ∧ key o = k) := by
  rw [List.mem_append, List.mem_singleton]
  constructor
  · rintro ⟨hp | rfl, hkey⟩
    · exact Or.inl ⟨hp, hkey⟩
    · exact Or.inr ⟨rfl, hkey⟩
  · rintro (⟨hp, hkey⟩ | ⟨rfl, hkey⟩)
    · exact ⟨Or.inl hp, hkey⟩
    · exact ⟨Or.inr rfl, hkey⟩

theorem Sorts.add_of_mem (h : Sorts key met groups) (ho : key o ∈ met.map key) :
    Sorts key (met ++ [o]) (addToGroup groups (key o) o) := by
  have hadd := addToGroup_of_mem (o := o) h.nodup (h.mem_keys_iff.mpr ho)
  have hkeys : (addToGroup groups (key o) o).map (·.1) = groups.map (·.1) := by
    rw [hadd, List.map_map]
    refine List.map_congr_left fun x _ => ?_
    by_cases hx : x.1 = key o <;> simp [hx]
  constructor
  case keys =>
    rw [hkeys, h.keys, List.map_append, List.map_singleton, eraseDups_concat_of_mem ho]
  case nodup => exact hkeys ▸ h.nodup
  case mem_iff =>
    rw [hadd]
    intro x hx p
    obtain ⟨y, hy, rfl⟩ := List.mem_map.mp hx
    have hp := h.mem_iff y hy p
    rw [mem_concat_and_iff]
    by_cases hyo : y.1 = key o
    · rw [if_pos hyo, Ascending.mem_insert, hp]
      simp only [hyo, and_true]
      exact or_comm
    · have hno : ¬(p = o ∧ key o = y.1) := fun hpo => hyo hpo.2.symm
      rw [if_neg hyo, hp, or_iff_left hno]

theorem Sorts.add_of_not_mem (h : Sorts key met groups) (ho : key o ∉ met.map key) :
    Sorts key (met ++ [o]) (addToGroup groups (key o) o) := by
  have hnew : key o ∉ groups.map (·.1) := fun hmem => ho (h.mem_keys_iff.mp hmem)
  have hkeys : (groups ++ [(key o, [o])]).map (·.1) = groups.map (·.1) ++ [key o] :=
    List.map_append
  rw [addToGroup_of_not_mem hnew]
  constructor
  case keys =>
    rw [hkeys, h.keys, List.map_append, List.map_singleton, eraseDups_concat_of_not_mem ho]
  case nodup =>
    rw [hkeys]
    exact List.nodup_append.mpr ⟨h.nodup, List.nodup_singleton _, fun a ha b hb hab =>
      hnew (List.mem_singleton.mp hb ▸ hab ▸ ha)⟩
  case mem_iff =>
    intro x hx p
    rw [mem_concat_and_iff]
    rcases List.mem_append.mp hx with hx | hx
    · have hno : ¬(p = o ∧ key o = x.1) := fun hpo => hnew (hpo.2 ▸ List.mem_map_of_mem hx)
      rw [h.mem_iff x hx p, or_iff_left hno]
    · rw [List.mem_singleton.mp hx]
      have hno : ¬(p ∈ met ∧ key p = key o) := fun hp => ho (hp.2 ▸ List.mem_map_of_mem hp.1)
      simp only [List.mem_singleton, or_iff_right hno, and_true]

theorem sorts_foldl (key : Nat → List (Option String)) (order : List Nat) :
    Sorts key order (order.foldl (fun groups o => addToGroup groups (key o) o) []) := by
  induction order using List.reverseRecOn with
  | nil => exact ⟨rfl, .nil, fun x hx => absurd hx List.not_mem_nil⟩
  | append_singleton order o ih =>
    rw [List.foldl_append]
    by_cases ho : key o ∈ order.map key
    · exact ih.add_of_mem ho
    · exact ih.add_of_not_mem ho

/-- An observation is in the group whose place is that of its key among the keys. -/
theorem Sorts.exists_group_iff (h : Sorts key met groups) (ho : o ∈ met) :
    (∃ members, (groups.map (·.2))[id]? = some members ∧ o ∈ members) ↔
      (met.map key).eraseDups[id]? = some (key o) := by
  rw [← h.keys]
  simp only [List.getElem?_map, Option.map_eq_some_iff]
  constructor
  · rintro ⟨members, ⟨x, hx, rfl⟩, hmem⟩
    exact ⟨x, hx, ((h.mem_iff x (List.mem_of_getElem? hx) o).mp hmem).2.symm⟩
  · rintro ⟨x, hx, hkey⟩
    exact ⟨x.2, ⟨x, hx, rfl⟩, (h.mem_iff x (List.mem_of_getElem? hx) o).mpr ⟨ho, hkey.symm⟩⟩

/-! ### The first blocks -/

/-- The order in which the first grouping meets the observations. -/
def visited (g : Abstraction) (traces : List Trace) : List Nat :=
  traversal (graphOf g.nodes) (offsets 0 traces)

/-- What is next on the channels, each once, in the order in which it is first met. -/
def signatures (g : Abstraction) (traces : List Trace) : List (List (Option String)) :=
  ((g.visited traces).map (topsAt g.nodes)).eraseDups

section

variable {first : Trace} {traces : List Trace} {strict : Bool}

theorem perm_visited (g : Abstraction) (traces : List Trace) :
    (g.visited traces).Perm (List.range g.nodes.size) := by
  have hperm := perm_traversal (graphOf g.nodes) (offsets 0 traces)
  rw [graphOf, Array.size_map] at hperm
  exact hperm

theorem firstGroups_queueTops (traces : List Trace) : ∃ groups,
    firstGroups traces .queueTops = groups.map (·.2) ∧
    Sorts (topsAt (withIncoming (outgoing traces)))
      (traversal (graphOf (withIncoming (outgoing traces))) (offsets 0 traces)) groups :=
  ⟨_, rfl, sorts_foldl _ _⟩

theorem parentOf_queueTops
    (ho : o < (assemble first traces .queueTops strict).nodes.size) :
    (assemble first traces .queueTops strict).parentOf o = some id ↔
      ((assemble first traces .queueTops strict).signatures traces)[id]? =
        some (topsAt (assemble first traces .queueTops strict).nodes o) := by
  obtain ⟨groups, hgroups, hsorts⟩ := firstGroups_queueTops traces
  have hmet := (perm_visited (assemble first traces .queueTops strict) traces).mem_iff.mpr
    (List.mem_range.mpr ho)
  rw [parentOf_assemble_eq_some_iff, hgroups]
  exact hsorts.exists_group_iff hmet

theorem ids_assemble (grouping : Grouping) : (assemble first traces grouping strict).ids =
    List.range (firstGroups traces grouping).length := by
  show ((((firstGroups traces grouping).zipIdx.map fun x => some (Block.withFlags
    (withIncoming (outgoing traces)) first.processes
      { id := x.2, members := x.1 })).toArray).toList.filterMap id).map (·.id) = _
  rw [List.filterMap_map, List.map_filterMap]
  simp [Block.withFlags, List.range_eq_range']

theorem ids_queueTops : (assemble first traces .queueTops strict).ids =
    List.range ((assemble first traces .queueTops strict).signatures traces).length := by
  obtain ⟨groups, hgroups, hsorts⟩ := firstGroups_queueTops traces
  have hlength : (firstGroups traces .queueTops).length =
      ((assemble first traces .queueTops strict).signatures traces).length := by
    have hkeys := congrArg List.length hsorts.keys
    rw [List.length_map] at hkeys
    rw [hgroups, List.length_map]
    exact hkeys
  rw [ids_assemble, hlength]

/-- The search enters the first root before anything else, so its next messages come first. -/
theorem signatures_zero {t : Trace} (g : Abstraction) (hpos : 0 < g.nodes.size) :
    (g.signatures (t :: traces))[0]? = some (topsAt g.nodes 0) := by
  have hsize : (graphOf g.nodes).size = g.nodes.size := Array.size_map
  obtain ⟨n, hn⟩ : ∃ n, (graphOf g.nodes).size = n + 1 :=
    Nat.exists_eq_succ_of_ne_zero (by omega)
  have hzero : ¬Graph.entered (Array.replicate (n + 1) false) 0 = true :=
    Graph.not_entered_replicate.mpr (Nat.succ_pos n)
  rw [signatures, visited, traversal, offsets, Graph.preorder, hn, Graph.search,
    List.dropWhile_cons_of_neg hzero]
  simp [List.eraseDups_cons]

/-! ### The observations of the traces -/

theorem observation?_assemble (grouping : Grouping) (o : Nat) :
    (assemble first traces grouping strict).observation? o =
      ((outgoing traces).map (·.observation))[o]? := by
  rw [observation?, nodes_assemble, getElem?_withIncoming, List.getElem?_map, Option.map_map]
  rfl

/-- The nodes are the observations of the traces in turn, each with the number of its trace. -/
theorem map_outgoingFrom (number offset : Nat) (traces : List Trace) :
    (outgoingFrom number offset traces).map (fun n => (n.trace, n.observation)) =
      (traces.zipIdx number).flatMap fun x => x.1.observations.map (x.2, ·) := by
  induction traces generalizing number offset with
  | nil => rfl
  | cons t traces ih =>
    have hhere : (nodesOf number offset t).map (fun n => (n.trace, n.observation)) =
        t.observations.map (number, ·) := by
      conv_rhs => rw [← List.zipIdx_map_fst 0 t.observations, List.map_map]
      rw [nodesOf, List.map_map]
      rfl
    rw [outgoingFrom_cons, List.map_append, hhere, ih, List.zipIdx_cons, List.flatMap_cons]

theorem map_observation_outgoing (traces : List Trace) :
    (outgoing traces).map (·.observation) = traces.flatMap (·.observations) := by
  have hpairs := congrArg (List.map Prod.snd) (map_outgoingFrom 0 0 traces)
  rw [List.map_map, List.map_flatMap] at hpairs
  simp only [List.map_map, Function.comp_def, List.map_id'] at hpairs
  calc (outgoing traces).map (·.observation)
      = traces.zipIdx.flatMap fun x => x.1.observations := hpairs
    _ = (traces.zipIdx.map Prod.fst).flatMap (·.observations) := (List.flatMap_map ..).symm
    _ = traces.flatMap (·.observations) := by rw [List.zipIdx_map_fst]

/-- The nodes of a trace show its observations. -/
theorem exists_node_iff {grouping : Grouping} {number : Nat} {x : Observation} :
    (∃ (o : Nat) (n : Node), (assemble first traces grouping strict).nodes[o]? = some n ∧
      n.trace = number ∧ n.observation = x) ↔
      ∃ t, traces[number]? = some t ∧ x ∈ t.observations := by
  have hpairs : (number, x) ∈ (outgoing traces).map (fun n => (n.trace, n.observation)) ↔
      ∃ t, traces[number]? = some t ∧ x ∈ t.observations := by
    have heq : (outgoing traces).map (fun n => (n.trace, n.observation)) = _ :=
      map_outgoingFrom 0 0 traces
    rw [heq]
    simp [List.mem_flatMap, List.mem_zipIdx_iff_getElem?]
  rw [← hpairs, List.mem_map]
  simp only [nodes_assemble, getElem?_withIncoming, Option.map_eq_some_iff, Prod.mk.injEq]
  constructor
  · rintro ⟨o, -, ⟨n, hn, rfl⟩, hnumber, hx⟩
    exact ⟨n, List.mem_of_getElem? hn, hnumber, hx⟩
  · rintro ⟨n, hn, hnumber, hx⟩
    obtain ⟨o, ho⟩ := List.mem_iff_getElem?.mp hn
    exact ⟨o, _, ⟨n, ho, rfl⟩, hnumber, hx⟩

theorem topsAt_of_observation? {g : Abstraction} {x : Observation}
    (h : g.observation? o = some x) : topsAt g.nodes o = x.queues.tops := by
  obtain ⟨n, hn, rfl⟩ := Option.map_eq_some_iff.mp h
  rw [topsAt, hn]

theorem lt_size_of_observation? {g : Abstraction} {x : Observation}
    (h : g.observation? o = some x) : o < g.nodes.size := by
  obtain ⟨n, hn, -⟩ := Option.map_eq_some_iff.mp h
  exact (Array.getElem?_eq_some_iff.mp hn).1

/-- Two observations lie in one block if and only if the same messages are next. -/
theorem parentOf_eq_iff {x y : Observation}
    (hx : (assemble first traces .queueTops strict).observation? o = some x)
    (hy : (assemble first traces .queueTops strict).observation? p = some y) :
    (assemble first traces .queueTops strict).parentOf o =
        (assemble first traces .queueTops strict).parentOf p ↔
      x.queues.tops = y.queues.tops := by
  obtain ⟨id, hid⟩ := exists_parentOf_assemble (lt_size_of_observation? hx)
  have hplace := (parentOf_queueTops (lt_size_of_observation? hx)).mp hid
  rw [hid, eq_comm, parentOf_queueTops (lt_size_of_observation? hy), hplace,
    topsAt_of_observation? hx, topsAt_of_observation? hy, Option.some.injEq]

/-- The check of a strict abstraction looks at the observations of each trace alone. -/
theorem checkTogether_queueTops_iff :
    (assemble first traces .queueTops strict).checkTogether
        (List.range (assemble first traces .queueTops strict).nodes.size) = .ok () ↔
      ∀ t ∈ traces, ∀ x ∈ t.observations, ∀ y ∈ t.observations, x.locals = y.locals →
        x.queues.tops = y.queues.tops := by
  rw [checkTogether_eq_ok_iff, together_range_iff]
  constructor
  · intro h t ht x hx y hy hlocals
    obtain ⟨number, hnumber⟩ := List.mem_iff_getElem?.mp ht
    obtain ⟨o, n, hn, hnt, rfl⟩ := exists_node_iff.mpr ⟨t, hnumber, hx⟩
    obtain ⟨p, m, hm, hmt, rfl⟩ := exists_node_iff.mpr ⟨t, hnumber, hy⟩
    refine (parentOf_eq_iff ?_ ?_).mp (h o p ⟨n, m, hn, hm, hnt.trans hmt.symm, hlocals⟩)
    · rw [observation?, hn, Option.map_some]
    · rw [observation?, hm, Option.map_some]
  · rintro h o p ⟨n, m, hn, hm, htrace, hlocals⟩
    obtain ⟨t, ht, hx⟩ := exists_node_iff.mp ⟨o, n, hn, rfl, rfl⟩
    obtain ⟨u, hu, hy⟩ := exists_node_iff.mp ⟨p, m, hm, htrace.symm, rfl⟩
    rw [ht] at hu
    injection hu with hu
    subst hu
    refine (parentOf_eq_iff ?_ ?_).mpr
      (h t (List.mem_of_getElem? ht) _ hx _ hy hlocals)
    · rw [observation?, hn, Option.map_some]
    · rw [observation?, hm, Option.map_some]

end

/-- Traces of one topology can be grouped by their next messages, in a strict abstraction if
and only if observations of one trace with the same local states have the same next messages.
The abstraction holds the observations of the traces in turn. Each of them lies in one block,
and in the same block as exactly those with the same next messages. The blocks are numbered
from zero on in the order in which the traversal, which visits every observation once, first
meets their next messages, so that block zero holds the root of the first trace. -/
theorem queueTops_exact (traces : List Trace) (strict : Bool) (hne : traces ≠ [])
    (htopology : ∀ t ∈ traces, ∀ u ∈ traces,
      t.processes = u.processes ∧ t.channels = u.channels) :
    ((∃ g, ofTraces traces .queueTops strict = .ok g) ↔
      (strict = true → ∀ t ∈ traces, ∀ x ∈ t.observations, ∀ y ∈ t.observations,
        x.locals = y.locals → x.queues.tops = y.queues.tops)) ∧
    ∀ g, ofTraces traces .queueTops strict = .ok g →
      (∀ o, g.observation? o = (traces.flatMap (·.observations))[o]?) ∧
      (∀ o < g.nodes.size, ∃! id, ∃ b, g.block? id = some b ∧ o ∈ b.members) ∧
      (∀ o p x y, g.observation? o = some x → g.observation? p = some y →
        (g.parentOf o = g.parentOf p ↔ x.queues.tops = y.queues.tops)) ∧
      (g.visited traces).Perm (List.range g.nodes.size) ∧
      g.ids = List.range (g.signatures traces).length ∧
      (∀ o x id, g.observation? o = some x →
        (g.parentOf o = some id ↔ (g.signatures traces)[id]? = some x.queues.tops)) ∧
      g.parentOf 0 = some 0 := by
  obtain ⟨first, rest, rfl⟩ := List.exists_cons_of_ne_nil hne
  have hall : ∀ t ∈ first :: rest,
      t.processes = first.processes ∧ t.channels = first.channels :=
    fun t ht => htopology t ht first (List.mem_cons_self ..)
  have hok : ∀ g, ofTraces (first :: rest) .queueTops strict = .ok g ↔
      g = assemble first (first :: rest) .queueTops strict ∧
      (strict = true → g.checkTogether (List.range g.nodes.size) = .ok ()) := by
    intro g
    rw [ofTraces_eq_ok_iff]
    simp only [List.head?_cons, Option.some.injEq, exists_eq_left', and_iff_right hall]
  constructor
  · simp only [hok, exists_eq_left, checkTogether_queueTops_iff]
  · intro g hg
    obtain ⟨rfl, -⟩ := (hok g).mp hg
    have hgrouped := (Reached.start hg).coherent.toGrouped
    have hroot : (assemble first (first :: rest) .queueTops strict).observation? 0 =
        some first.root := by
      rw [observation?_assemble, map_observation_outgoing]
      rfl
    have hplace : ∀ o x id, (assemble first (first :: rest) .queueTops strict).observation? o =
        some x → ((assemble first (first :: rest) .queueTops strict).parentOf o = some id ↔
          ((assemble first (first :: rest) .queueTops strict).signatures (first :: rest))[id]? =
            some x.queues.tops) := by
      intro o x id hx
      rw [parentOf_queueTops (lt_size_of_observation? hx), topsAt_of_observation? hx]
    refine ⟨fun o => ?_, fun o ho => ?_, fun o p x y hx hy => parentOf_eq_iff hx hy,
      perm_visited _ _, ids_queueTops, hplace, ?_⟩
    · rw [observation?_assemble, map_observation_outgoing]
    · obtain ⟨id, hid⟩ := exists_parentOf_assemble ho
      obtain ⟨b, hb⟩ := hgrouped.live hid
      refine ⟨id, ⟨b, hb, (hgrouped.mem_iff hb).mpr hid⟩, ?_⟩
      rintro other ⟨c, hc, hmem⟩
      rw [(hgrouped.mem_iff hc).mp hmem] at hid
      exact Option.some.inj hid
    · rw [hplace 0 _ 0 hroot, ← topsAt_of_observation? hroot]
      exact signatures_zero _ (lt_size_of_observation? hroot)

/-- A message that is sent and received over and over. No execution leads to the observation in
which two messages are in flight. -/
def relay : Trace where
  channels := [⟨0, 1, 0, false⟩]
  root := ⟨[⟨"0", true, true⟩, ⟨"0", true, true⟩], ⟨[[]]⟩⟩
  later := [⟨[⟨"1", false, false⟩, ⟨"0", true, true⟩], ⟨[["m"]]⟩⟩,
    ⟨[⟨"2", false, false⟩, ⟨"0", true, true⟩], ⟨[["m", "m"]]⟩⟩]
  edges := [⟨0, .send "m" ⟨0, 1, 0, false⟩, 1⟩, ⟨1, .receive "m" ⟨0, 1, 0, false⟩, 0⟩]

/-- The observations of two traces lie in two blocks. -/
theorem queueTops_exact_relay : ∃ g,
    ofTraces [relay, handoverTrace] .queueTops true = .ok g ∧
    g.parentOf 0 = some 0 ∧ g.parentOf 2 = g.parentOf 4 ∧ g.parentOf 4 ≠ g.parentOf 5 := by
  have htopology : ∀ t ∈ [relay, handoverTrace], ∀ u ∈ [relay, handoverTrace],
      t.processes = u.processes ∧ t.channels = u.channels := by
    simp [relay, handoverTrace, Trace.processes]
  obtain ⟨hok, hall⟩ :=
    queueTops_exact [relay, handoverTrace] true (List.cons_ne_nil _ _) htopology
  obtain ⟨g, hg⟩ := hok.mpr (by simp [relay, handoverTrace, Trace.observations])
  obtain ⟨hobserved, -, hsame, -, -, -, hroot⟩ := hall g hg
  have hstray := hobserved 2
  have hsent := hobserved 4
  have hlast := hobserved 5
  refine ⟨g, hg, hroot, (hsame 2 4 _ _ hstray hsent).mpr (by decide), fun heq => ?_⟩
  have htops := (hsame 4 5 _ _ hsent hlast).mp heq
  revert htops
  decide

end ProtocolInference.Abstraction
