import ProtocolInference.Automaton.Keyed
import ProtocolInference.Proofs.Checks
import ProtocolInference.Proofs.Graph.Reachability
import ProtocolInference.Proofs.Table

/-!
# What the tables of an automaton keep to

The operations on a keyed automaton leave every state under its own number, no entry of an
event empty, every target a state that is there, and every event one of the process or a
synthetic send. The counter is the number of the additions, and as long as it has not
wrapped around the numbers below it are given away once and for all.
-/

namespace ProtocolInference

open Std (ExtTreeMap ExtTreeSet)

/-! ### The entries of a state -/

namespace KeyedState

variable {s s' : KeyedState} {e f : Event} {u v gone keep : UInt32} {ts : ExtTreeSet UInt32}

/-- The target is in the entry of the event. -/
def HasTransition (s : KeyedState) (e : Event) (u : UInt32) : Prop :=
  ∃ ts, s.transitions[e]? = some ts ∧ u ∈ ts

/-- No event has an empty entry. -/
def Filled (s : KeyedState) : Prop :=
  ∀ (e : Event) (ts : ExtTreeSet UInt32), s.transitions[e]? = some ts → ts ≠ ∅

theorem mem_insert_iff : v ∈ ts.insert u ↔ v = u ∨ v ∈ ts := by
  rw [ExtTreeSet.mem_insert, Std.compare_eq_iff_eq, eq_comm]

theorem mem_erase_iff : v ∈ ts.erase u ↔ v ∈ ts ∧ v ≠ u := by
  rw [ExtTreeSet.mem_erase, and_comm, ne_eq, ne_eq, Std.compare_eq_iff_eq, eq_comm]

theorem hasTransition_iff (h : s.transitions[e]? = some ts) : s.HasTransition e u ↔ u ∈ ts := by
  simp [HasTransition, h]

theorem not_hasTransition_new {id : UInt32} {pid : Nat} {initial accept : Bool} :
    ¬(new id pid initial accept).HasTransition e u := by
  simp [HasTransition, new]

theorem filled_new {id : UInt32} {pid : Nat} {initial accept : Bool} :
    (new id pid initial accept).Filled := by
  intro e ts hts
  rw [new, ExtTreeMap.getElem?_empty] at hts
  cases hts

theorem getElem?_insertTarget : (s.insertTarget e u).transitions[f]? =
    if e = f then some ((s.transitions[e]?.getD ∅).insert u) else s.transitions[f]? := by
  simp only [insertTarget, ExtTreeMap.getElem?_alter, Std.compare_eq_iff_eq]

theorem getElem?_eraseTarget : (s.eraseTarget e ts u).transitions[f]? =
    if e = f then (if ts.erase u = ∅ then none else some (ts.erase u))
    else s.transitions[f]? := by
  rw [eraseTarget]
  simp only [ExtTreeSet.isEmpty_iff]
  by_cases hempty : ts.erase u = ∅
  · simp only [hempty, if_true, ExtTreeMap.getElem?_erase, Std.compare_eq_iff_eq]
  · simp only [hempty, if_false, ExtTreeMap.getElem?_insert, Std.compare_eq_iff_eq]

theorem getElem?_redirect : (s.redirect gone keep).transitions[f]? =
    s.transitions[f]?.map fun ts => if gone ∈ ts then (ts.erase gone).insert keep else ts := by
  rw [redirect, ExtTreeMap.getElem?_map]

theorem hasTransition_insertTarget_iff :
    (s.insertTarget e u).HasTransition f v ↔ (f, v) = (e, u) ∨ s.HasTransition f v := by
  rw [HasTransition, getElem?_insertTarget, Prod.mk.injEq]
  by_cases hef : e = f
  · subst hef
    simp only [if_true, Option.some.injEq, exists_eq_left', true_and, mem_insert_iff]
    refine or_congr_right ?_
    cases hts : s.transitions[e]? with
    | none => simp [HasTransition, hts]
    | some ts => simp [HasTransition, hts]
  · rw [if_neg hef]
    exact ⟨Or.inr, fun h => h.resolve_left fun heq => hef heq.1.symm⟩

theorem hasTransition_eraseTarget_iff (hts : s.transitions[e]? = some ts) :
    (s.eraseTarget e ts u).HasTransition f v ↔ s.HasTransition f v ∧ (f, v) ≠ (e, u) := by
  rw [HasTransition, getElem?_eraseTarget, ne_eq, Prod.mk.injEq]
  by_cases hef : e = f
  · subst hef
    rw [if_pos rfl, hasTransition_iff hts]
    have hmem : v ∈ ts.erase u ↔ v ∈ ts ∧ ¬(e = e ∧ v = u) := by
      rw [mem_erase_iff, eq_self, true_and]
    rw [← hmem]
    by_cases hempty : ts.erase u = ∅
    · rw [if_pos hempty, hempty]
      simp
    · simp [hempty]
  · rw [if_neg hef]
    exact ⟨fun h => ⟨h, fun heq => hef heq.1.symm⟩, fun h => h.1⟩

theorem hasTransition_redirect_iff : (s.redirect gone keep).HasTransition f v ↔
    ∃ u, s.HasTransition f u ∧ (if u = gone then keep else u) = v := by
  rw [HasTransition, getElem?_redirect]
  cases hts : s.transitions[f]? with
  | none => simp [HasTransition, hts]
  | some ts =>
    simp only [hasTransition_iff hts, Option.map_some, Option.some.injEq, exists_eq_left']
    by_cases hgone : gone ∈ ts
    · rw [if_pos hgone, mem_insert_iff, mem_erase_iff]
      constructor
      · intro h
        rcases h with h | h
        · exact ⟨gone, hgone, by rw [if_pos rfl, h]⟩
        · exact ⟨v, h.1, if_neg h.2⟩
      · intro h
        obtain ⟨u, hu, huv⟩ := h
        split at huv
        · exact Or.inl huv.symm
        · rename_i hne
          subst huv
          exact Or.inr ⟨hu, hne⟩
    · rw [if_neg hgone]
      constructor
      · intro hv
        exact ⟨v, hv, if_neg (ne_of_mem_of_not_mem hv hgone)⟩
      · intro h
        obtain ⟨u, hu, huv⟩ := h
        rw [if_neg (ne_of_mem_of_not_mem hu hgone)] at huv
        exact huv ▸ hu

theorem Filled.insertTarget (h : s.Filled) : (s.insertTarget e u).Filled := by
  intro f ts hf
  rw [getElem?_insertTarget] at hf
  split at hf
  · injection hf with hf
    rw [← hf]
    exact ExtTreeSet.insert_ne_empty
  · exact h f ts hf

theorem Filled.eraseTarget (h : s.Filled) : (s.eraseTarget e ts u).Filled := by
  intro f ts hf
  rw [getElem?_eraseTarget] at hf
  split at hf
  · split at hf
    · cases hf
    · rename_i hne
      injection hf with hf
      exact hf ▸ hne
  · exact h f ts hf

theorem Filled.redirect (h : s.Filled) : (s.redirect gone keep).Filled := by
  intro f ts hf
  rw [getElem?_redirect, Option.map_eq_some_iff] at hf
  obtain ⟨us, hus, rfl⟩ := hf
  split
  · exact ExtTreeSet.insert_ne_empty
  · exact h f us hus

theorem Filled.mem_iff (h : s.Filled) : e ∈ s.transitions ↔ ∃ u, s.HasTransition e u := by
  rw [ExtTreeMap.mem_iff_isSome_getElem?, Option.isSome_iff_exists]
  constructor
  · intro he
    obtain ⟨ts, hts⟩ := he
    have hne := mt ExtTreeSet.eq_empty_iff_forall_not_mem.mpr (h e ts hts)
    obtain ⟨u, hu⟩ := not_forall_not.mp hne
    exact ⟨u, ts, hts, hu⟩
  · intro he
    obtain ⟨u, ts, hts, -⟩ := he
    exact ⟨ts, hts⟩

theorem mem_targets : u ∈ s.targets ↔ ∃ e, s.HasTransition e u := by
  simp only [targets, HasTransition, List.mem_flatMap, Prod.exists, ExtTreeSet.mem_toList,
    ExtTreeMap.mem_toList_iff_getElem?_eq_some]

/-- A sink is a state without transitions. -/
theorem Filled.isSink_iff (h : s.Filled) : s.isSink = true ↔ ∀ e u, ¬s.HasTransition e u := by
  rw [isSink, ExtTreeMap.isEmpty_iff, ExtTreeMap.eq_empty_iff_forall_not_mem]
  refine forall_congr' fun e => ?_
  rw [h.mem_iff, not_exists]

/-- States have the same table if they have the same transitions. -/
theorem Filled.transitions_eq_iff (h : s.Filled) (h' : s'.Filled) :
    s.transitions = s'.transitions ↔ ∀ e u, s.HasTransition e u ↔ s'.HasTransition e u := by
  constructor
  · intro heq e u
    rw [HasTransition, HasTransition, heq]
  · intro hsame
    refine ExtTreeMap.ext_getElem? fun e => ?_
    have hmem : e ∈ s.transitions ↔ e ∈ s'.transitions := by
      rw [h.mem_iff, h'.mem_iff]
      exact exists_congr (hsame e)
    rw [ExtTreeMap.mem_iff_isSome_getElem?, ExtTreeMap.mem_iff_isSome_getElem?] at hmem
    cases hts : s.transitions[e]? with
    | none =>
      rw [hts] at hmem
      exact (Option.not_isSome_iff_eq_none.mp fun hsome => by cases hmem.mpr hsome).symm
    | some ts =>
      rw [hts] at hmem
      obtain ⟨ts', hts'⟩ := Option.isSome_iff_exists.mp (hmem.mp rfl)
      rw [hts']
      refine congrArg some (ExtTreeSet.ext_mem fun u => ?_)
      rw [← hasTransition_iff hts, ← hasTransition_iff hts', hsame]

theorem Filled.signature_eq_iff (h : s.Filled) (h' : s'.Filled) :
    s.signature = s'.signature ↔ s.initial = s'.initial ∧ s.accept = s'.accept ∧
      ∀ e u, s.HasTransition e u ↔ s'.HasTransition e u := by
  rw [signature, signature, Prod.mk.injEq, Prod.mk.injEq, h.transitions_eq_iff h']

theorem addTransition_eq_ok_iff :
    s.addTransition e u = .ok s' ↔ e.pid = s.pid ∧ s' = s.insertTarget e u := by
  unfold addTransition
  split
  · rename_i hne
    exact iff_of_false (fun h => by cases h) fun h => hne h.1
  · rename_i heq
    rw [not_not] at heq
    rw [Except.ok.injEq, eq_comm]
    exact ⟨fun h => ⟨heq, h⟩, fun h => h.2⟩

theorem addSyntheticTransition_eq_ok_iff : s.addSyntheticTransition e u = .ok s' ↔
    e.isSyntheticSend = true ∧ s' = s.insertTarget e u := by
  unfold addSyntheticTransition
  split
  · rename_i hsynthetic
    rw [Except.ok.injEq, eq_comm]
    exact ⟨fun h => ⟨hsynthetic, h⟩, fun h => h.2⟩
  · rename_i hne
    exact iff_of_false (fun h => by cases h) fun h => hne h.1

theorem removeTransition_eq_ok_iff : s.removeTransition e u = .ok s' ↔
    ∃ ts, s.transitions[e]? = some ts ∧ u ∈ ts ∧ s' = s.eraseTarget e ts u := by
  unfold removeTransition
  cases hts : s.transitions[e]? with
  | none => simp
  | some ts =>
    by_cases hu : u ∈ ts
    · simp [hu, eq_comm]
    · simp [hu]

end KeyedState

/-! ### The states -/

namespace KeyedAutomaton

variable {t t' : KeyedAutomaton} {s r : KeyedState} {id source target keep gone n : UInt32}
  {e : Event} {initial accept : Bool} {counting : Counting}
  {change : KeyedState → Except AutomatonFault KeyedState}

/-- The event may be on a transition of the automaton. -/
def Owns (t : KeyedAutomaton) (e : Event) : Prop := e.pid = t.pid ∨ e.isSyntheticSend = true

/-- The state may lie under the number. -/
structure Admits (t : KeyedAutomaton) (id : UInt32) (s : KeyedState) : Prop where
  key : s.id = id
  pid : s.pid = t.pid
  filled : s.Filled
  targets : ∀ e u, s.HasTransition e u → u ∈ t.states
  owner : ∀ e u, s.HasTransition e u → t.Owns e

/-- Every state may lie where it does. -/
def Sound (t : KeyedAutomaton) : Prop :=
  ∀ (id : UInt32) (s : KeyedState), t.states[id]? = some s → t.Admits id s

theorem Admits.mono (h : t.Admits id s) (hpid : t'.pid = t.pid)
    (htargets : ∀ e u, s.HasTransition e u → u ∈ t'.states) : t'.Admits id s where
  key := h.key
  pid := h.pid.trans hpid.symm
  filled := h.filled
  targets := htargets
  owner := by
    intro e u hu
    rw [Owns, hpid]
    exact h.owner e u hu

theorem mem_states_iff : id ∈ t.states ↔ ∃ s, t.states[id]? = some s := by
  rw [ExtTreeMap.mem_iff_isSome_getElem?, Option.isSome_iff_exists]

theorem mem_entries : s ∈ t.entries ↔ ∃ id : UInt32, t.states[id]? = some s := by
  simp only [entries, List.mem_map, Prod.exists, ExtTreeMap.mem_toList_iff_getElem?_eq_some,
    exists_eq_right]

theorem Sound.mem_entries_iff (h : t.Sound) : s ∈ t.entries ↔ t.states[s.id]? = some s := by
  rw [mem_entries]
  constructor
  · intro hs
    obtain ⟨id, hs⟩ := hs
    rw [(h id s hs).key]
    exact hs
  · exact fun hs => ⟨s.id, hs⟩

theorem Sound.ascending_entries (h : t.Sound) : t.entries.Pairwise fun x y => x.id < y.id := by
  rw [entries, List.pairwise_map]
  refine List.Pairwise.imp_of_mem ?_ ExtTreeMap.ordered_keys_toList
  intro x y hx hy hlt
  rw [(h x.1 x.2 (ExtTreeMap.mem_toList_iff_getElem?_eq_some.mp hx)).key,
    (h y.1 y.2 (ExtTreeMap.mem_toList_iff_getElem?_eq_some.mp hy)).key]
  exact Std.compare_eq_lt.mp hlt

theorem length_entries (t : KeyedAutomaton) : t.entries.length = t.states.size := by
  rw [entries, List.length_map, ExtTreeMap.length_toList]

theorem sound_empty (pid : Nat) : (empty pid).Sound := by
  intro id s hs
  rw [empty, ExtTreeMap.getElem?_empty] at hs
  cases hs

/-! ### Adding and removing -/

theorem getElem?_insert {states : ExtTreeMap UInt32 KeyedState} {k : UInt32} :
    (states.insert id s)[k]? = if id = k then some s else states[k]? := by
  simp only [ExtTreeMap.getElem?_insert, Std.compare_eq_iff_eq]

theorem mem_insert {states : ExtTreeMap UInt32 KeyedState} {k : UInt32} :
    k ∈ states.insert id s ↔ k = id ∨ k ∈ states := by
  rw [ExtTreeMap.mem_insert, Std.compare_eq_iff_eq, eq_comm]

/-- A state may be put under its number. -/
theorem Sound.insert (h : t.Sound) (hs : t.Admits id s) (nextId : UInt32) :
    Sound { t with states := t.states.insert id s, nextId } := by
  intro k r hr
  have hadmits : t.Admits k r := by
    rw [getElem?_insert] at hr
    split at hr
    · rename_i hk
      cases hr
      exact hk ▸ hs
    · exact h k r hr
  exact hadmits.mono rfl fun e u hu => mem_insert.mpr (Or.inr (hadmits.targets e u hu))

theorem addState_eq_ok_iff : t.addState counting initial accept = .ok (t', n) ↔
    n = t.nextId ∧ ∃ next, counting.next t.nextId = some next ∧
      t' = { t with
        states := t.states.insert t.nextId (.new t.nextId t.pid initial accept)
        nextId := next } := by
  unfold addState
  cases hnext : counting.next t.nextId with
  | none => simp
  | some next =>
    simp only [Except.ok.injEq, Prod.mk.injEq, Option.some.injEq, exists_eq_left']
    rw [and_comm, eq_comm, eq_comm (a := t')]

theorem changeState_eq_ok_iff : t.changeState id change = .ok t' ↔
    ∃ s r, t.states[id]? = some s ∧ change s = .ok r ∧
      t' = { t with states := t.states.insert id r } := by
  unfold changeState
  cases hs : t.states[id]? with
  | none => simp
  | some s =>
    cases hr : change s with
    | error cause => simp [hr, Except.map]
    | ok r => simp [hr, Except.map, eq_comm]

theorem extendState_eq_ok_iff : t.extendState source target change = .ok t' ↔
    target ∈ t.states ∧ ∃ s r, t.states[source]? = some s ∧ change s = .ok r ∧
      t' = { t with states := t.states.insert source r } := by
  rw [extendState, ← changeState_eq_ok_iff]
  by_cases htarget : target ∈ t.states
  · simp [htarget]
  · simp [htarget]

theorem admits_new (t : KeyedAutomaton) (id : UInt32) (initial accept : Bool) :
    t.Admits id (.new id t.pid initial accept) where
  key := rfl
  pid := rfl
  filled := KeyedState.filled_new
  targets _ _ hu := absurd hu KeyedState.not_hasTransition_new
  owner _ _ hu := absurd hu KeyedState.not_hasTransition_new

theorem Sound.addState (h : t.Sound) (hadd : t.addState counting initial accept = .ok (t', n)) :
    t'.Sound := by
  obtain ⟨-, next, -, rfl⟩ := addState_eq_ok_iff.mp hadd
  exact h.insert (admits_new t t.nextId initial accept) next

theorem Admits.insertTarget (h : t.Admits id s) (htarget : target ∈ t.states)
    (howner : t.Owns e) : t.Admits id (s.insertTarget e target) := by
  refine ⟨h.key, h.pid, h.filled.insertTarget, fun f u hu => ?_, fun f u hu => ?_⟩
  · rcases KeyedState.hasTransition_insertTarget_iff.mp hu with heq | hold
    · cases heq
      exact htarget
    · exact h.targets f u hold
  · rcases KeyedState.hasTransition_insertTarget_iff.mp hu with heq | hold
    · cases heq
      exact howner
    · exact h.owner f u hold

theorem Admits.eraseTarget (h : t.Admits id s) {ts : ExtTreeSet UInt32}
    (hts : s.transitions[e]? = some ts) : t.Admits id (s.eraseTarget e ts target) := by
  refine ⟨h.key, h.pid, h.filled.eraseTarget, fun f u hu => ?_, fun f u hu => ?_⟩
  · exact h.targets f u ((KeyedState.hasTransition_eraseTarget_iff hts).mp hu).1
  · exact h.owner f u ((KeyedState.hasTransition_eraseTarget_iff hts).mp hu).1

theorem Sound.addTransition (h : t.Sound) (hadd : t.addTransition source e target = .ok t') :
    t'.Sound := by
  obtain ⟨htarget, s, r, hs, hr, rfl⟩ := extendState_eq_ok_iff.mp hadd
  obtain ⟨hpid, rfl⟩ := KeyedState.addTransition_eq_ok_iff.mp hr
  have hadmits := h source s hs
  exact h.insert (hadmits.insertTarget htarget (Or.inl (hpid.trans hadmits.pid))) t.nextId

theorem Sound.addSyntheticTransition (h : t.Sound)
    (hadd : t.addSyntheticTransition source e target = .ok t') : t'.Sound := by
  obtain ⟨htarget, s, r, hs, hr, rfl⟩ := extendState_eq_ok_iff.mp hadd
  obtain ⟨hsynthetic, rfl⟩ := KeyedState.addSyntheticTransition_eq_ok_iff.mp hr
  exact h.insert ((h source s hs).insertTarget htarget (Or.inr hsynthetic)) t.nextId

theorem Sound.removeTransition (h : t.Sound)
    (hremove : t.removeTransition source e target = .ok t') : t'.Sound := by
  obtain ⟨s, r, hs, hr, rfl⟩ := changeState_eq_ok_iff.mp hremove
  obtain ⟨ts, hts, -, rfl⟩ := KeyedState.removeTransition_eq_ok_iff.mp hr
  exact h.insert ((h source s hs).eraseTarget hts) t.nextId

/-! ### Pruning -/

/-- The graph of the transitions leads from an initial state to the number. -/
def Reached (t : KeyedAutomaton) (id : UInt32) : Prop :=
  ∃ r ∈ t.initialStates, t.graph.Reaches r.toNat id.toNat

theorem graph_eq_fill (t : KeyedAutomaton) : t.graph =
    Table.fill (fun x : UInt32 × KeyedState => x.1.toNat) (fun x => x.2.targets.map (·.toNat))
      (Array.replicate ((t.states.keys.getLastD 0).toNat + 1) []) t.states.toList := rfl

theorem lt_size_graph (h : id ∈ t.states) : id.toNat < t.graph.size := by
  have hle : id ≤ t.states.maxKeyD 0 := Std.isLE_compare.mp (ExtTreeMap.le_maxKeyD_of_mem h)
  rw [ExtTreeMap.maxKeyD_eq_getLastD_keys] at hle
  rw [graph_eq_fill, Table.size_fill, Array.size_replicate, Nat.lt_succ_iff]
  exact UInt32.le_iff_toNat_le.mp hle

theorem nodup_keys (t : KeyedAutomaton) : (t.states.toList.map (·.1.toNat)).Nodup := by
  rw [List.Nodup, List.pairwise_map]
  refine ExtTreeMap.distinct_keys_toList.imp fun hne heq => hne ?_
  rw [UInt32.toNat_inj.mp heq, Std.compare_self]

theorem successors_graph (hs : t.states[id]? = some s) :
    t.graph.successors id.toNat = s.targets.map (·.toNat) := by
  have hlt : id.toNat < t.graph.size := lt_size_graph (mem_states_iff.mpr ⟨s, hs⟩)
  rw [graph_eq_fill, Table.size_fill] at hlt
  have hmem : (id, s) ∈ t.states.toList := ExtTreeMap.mem_toList_iff_getElem?_eq_some.mpr hs
  rw [Graph.successors, graph_eq_fill, Table.getElem?_fill_of_mem t.nodup_keys hmem hlt,
    Option.getD_some]

/-- Only what is the number of a state has successors. -/
theorem exists_of_leads_graph {x y : Nat} (h : t.graph.Leads x y) :
    ∃ (id : UInt32) (s : KeyedState), t.states[id]? = some s ∧ id.toNat = x := by
  by_contra hnone
  have hne : ∀ p ∈ t.states.toList, p.1.toNat ≠ x := fun p hp hx =>
    hnone ⟨p.1, p.2, ExtTreeMap.mem_toList_iff_getElem?_eq_some.mp hp, hx⟩
  rw [Graph.Leads, Graph.successors, graph_eq_fill, Table.getElem?_fill_of_forall_ne _ hne,
    Array.getElem?_replicate] at h
  split at h <;> simp at h

theorem leads_graph_iff (hs : t.states[id]? = some s) {y : Nat} :
    t.graph.Leads id.toNat y ↔ ∃ e u, s.HasTransition e u ∧ u.toNat = y := by
  rw [Graph.Leads, successors_graph hs]
  simp only [List.mem_map, KeyedState.mem_targets]
  constructor
  · intro h
    obtain ⟨u, ⟨e, hu⟩, hy⟩ := h
    exact ⟨e, u, hu, hy⟩
  · intro h
    obtain ⟨e, u, hu, hy⟩ := h
    exact ⟨u, ⟨e, hu⟩, hy⟩

theorem getElem?_prune : t.prune.1.states[id]? = some s ↔
    t.states[id]? = some s ∧ t.Reached id := by
  simp only [prune, ExtTreeMap.getElem?_filter', Option.filter_eq_some_iff, Graph.reached_getD]
  constructor
  · intro h
    obtain ⟨hs, -, x, hx, hreach⟩ := h
    obtain ⟨r, hr, rfl⟩ := List.mem_map.mp hx
    exact ⟨hs, r, hr, hreach⟩
  · intro h
    obtain ⟨hs, r, hr, hreach⟩ := h
    exact ⟨hs, lt_size_graph (mem_states_iff.mpr ⟨s, hs⟩), r.toNat, List.mem_map_of_mem hr, hreach⟩

theorem Sound.prune (h : t.Sound) : t.prune.1.Sound := by
  intro id s hs
  obtain ⟨hs, r, hr, hreach⟩ := getElem?_prune.mp hs
  refine (h id s hs).mono rfl fun e u hu => ?_
  obtain ⟨x, hx⟩ := mem_states_iff.mp ((h id s hs).targets e u hu)
  have hleads := (leads_graph_iff hs).mpr ⟨e, u, hu, rfl⟩
  exact mem_states_iff.mpr ⟨x, getElem?_prune.mpr ⟨hx, r, hr, hreach.tail hleads⟩⟩

/-! ### Minimisation -/

/-- The pair that is found has one signature, and the state to be kept comes first. -/
theorem firstPair_eq_some {seen rest : List KeyedState}
    (h : firstPair seen rest = some (keep, gone)) :
    ∃ x y, [x, y].Sublist (seen ++ rest) ∧ x.id = keep ∧ y.id = gone ∧
      x.signature = y.signature := by
  induction rest generalizing seen with
  | nil => cases h
  | cons s rest ih =>
    rw [firstPair] at h
    split at h
    · rename_i first hfirst
      cases h
      have hsame := List.find?_some hfirst
      have hmem : [first].Sublist seen :=
        List.singleton_sublist.mpr (List.mem_of_find?_eq_some hfirst)
      have hrest : [s].Sublist (s :: rest) := (List.nil_sublist rest).cons_cons s
      exact ⟨first, s, hmem.append hrest, rfl, rfl, of_decide_eq_true hsame⟩
    · rw [List.append_cons]
      exact ih h

theorem firstPair_eq_none {seen rest : List KeyedState} (h : firstPair seen rest = none)
    (hseen : seen.Pairwise fun x y => x.signature ≠ y.signature) :
    (seen ++ rest).Pairwise fun x y => x.signature ≠ y.signature := by
  induction rest generalizing seen with
  | nil =>
    rw [List.append_nil]
    exact hseen
  | cons s rest ih =>
    rw [firstPair] at h
    split at h
    · cases h
    · rename_i hnone
      rw [List.append_cons]
      refine ih h (List.pairwise_append.mpr ⟨hseen, List.pairwise_singleton _ _, ?_⟩)
      intro x hx y hy
      rw [List.mem_singleton.mp hy]
      have hne := List.find?_eq_none.mp hnone x hx
      rw [decide_eq_true_eq] at hne
      exact hne

theorem Sound.pair (h : t.Sound) (hpair : firstPair [] t.entries = some (keep, gone)) :
    ∃ x y : KeyedState, t.states[keep]? = some x ∧ t.states[gone]? = some y ∧ keep < gone ∧
      x.signature = y.signature := by
  obtain ⟨x, y, hsub, rfl, rfl, hsame⟩ := firstPair_eq_some hpair
  rw [List.nil_append] at hsub
  have hx : x ∈ t.entries := hsub.subset (List.mem_cons_self ..)
  have hy : y ∈ t.entries := hsub.subset (List.mem_cons_of_mem _ (List.mem_cons_self ..))
  have hlt := List.pairwise_pair.mp (h.ascending_entries.sublist hsub)
  exact ⟨x, y, h.mem_entries_iff.mp hx, h.mem_entries_iff.mp hy, hlt, hsame⟩

theorem getElem?_merge : (t.merge keep gone).states[id]? = some s ↔
    id ≠ gone ∧ ∃ r, t.states[id]? = some r ∧ r.redirect gone keep = s := by
  simp only [merge, ExtTreeMap.getElem?_map, Option.map_eq_some_iff, ExtTreeMap.getElem?_erase,
    Std.compare_eq_iff_eq, ne_comm (a := id)]
  by_cases hid : gone = id
  · simp [hid]
  · simp [hid]

theorem Sound.merge (h : t.Sound) (hkeep : keep ∈ t.states) (hne : keep ≠ gone) :
    (t.merge keep gone).Sound := by
  have hstays : ∀ u ∈ t.states, u ≠ gone → u ∈ (t.merge keep gone).states := by
    intro u hu hug
    obtain ⟨r, hr⟩ := mem_states_iff.mp hu
    exact mem_states_iff.mpr ⟨_, getElem?_merge.mpr ⟨hug, r, hr, rfl⟩⟩
  intro id s hs
  obtain ⟨-, r, hr, rfl⟩ := getElem?_merge.mp hs
  have hadmits := h id r hr
  refine ⟨hadmits.key, hadmits.pid, hadmits.filled.redirect, fun e u hu => ?_, fun e u hu => ?_⟩
  · obtain ⟨v, hv, huv⟩ := KeyedState.hasTransition_redirect_iff.mp hu
    split at huv
    · exact huv ▸ hstays keep hkeep hne
    · rename_i hvg
      exact huv ▸ hstays v (hadmits.targets e v hv) hvg
  · obtain ⟨v, hv, -⟩ := KeyedState.hasTransition_redirect_iff.mp hu
    exact hadmits.owner e v hv

theorem size_merge (t : KeyedAutomaton) (keep : UInt32) (h : gone ∈ t.states) :
    (t.merge keep gone).states.size + 1 = t.states.size := by
  have hsize : t.states.size ≠ 0 :=
    mt ExtTreeMap.eq_empty_iff_size_eq_zero.mpr (ExtTreeMap.ne_empty_of_mem h)
  rw [merge, ExtTreeMap.size_map, ExtTreeMap.size_erase, if_pos (ExtTreeMap.mem_iff_contains.mp h)]
  omega

/-- What is counted from at first and kept by every merge holds in the end. -/
theorem mergeAll_induction {P : KeyedAutomaton → Nat → Prop} (rounds merges : Nat)
    (hmerge : ∀ t merges keep gone, P t merges → firstPair [] t.entries = some (keep, gone) →
      P (t.merge keep gone) (merges + 1)) {t : KeyedAutomaton} (hstart : P t merges) :
    P (mergeAll rounds t).1 (merges + (mergeAll rounds t).2) := by
  induction rounds generalizing t merges with
  | zero => exact hstart
  | succ rounds ih =>
    rw [mergeAll]
    split
    · exact hstart
    · rename_i keep gone hpair
      have hrest := ih (merges + 1) (hmerge t merges keep gone hstart hpair)
      rw [Nat.add_right_comm] at hrest
      exact hrest

theorem Sound.minimize (h : t.Sound) : t.minimize.1.Sound := by
  refine mergeAll_induction (P := fun t _ => t.Sound) t.states.size 0 ?_ h
  intro u merges keep gone hu hpair
  obtain ⟨x, y, hx, -, hlt, -⟩ := hu.pair hpair
  exact hu.merge (mem_states_iff.mpr ⟨x, hx⟩) (UInt32.ne_of_lt hlt)

/-- There are no more merges than states, so at the end no pair is left. -/
theorem Sound.firstPair_mergeAll (h : t.Sound) {rounds : Nat} (hsize : t.states.size ≤ rounds) :
    firstPair [] (mergeAll rounds t).1.entries = none := by
  induction rounds generalizing t with
  | zero =>
    rw [← length_entries, Nat.le_zero, List.length_eq_zero_iff] at hsize
    rw [mergeAll, hsize]
    rfl
  | succ rounds ih =>
    rw [mergeAll]
    split
    · assumption
    · rename_i keep gone hpair
      obtain ⟨x, y, hx, hy, hlt, -⟩ := h.pair hpair
      have hone := t.size_merge keep (mem_states_iff.mpr ⟨y, hy⟩)
      exact ih (h.merge (mem_states_iff.mpr ⟨x, hx⟩) (UInt32.ne_of_lt hlt)) (by omega)

/-! ### Operations -/

theorem Sound.perform (h : t.Sound) {op : Operation} (hop : t.perform counting op = .ok t') :
    t'.Sound := by
  cases op with
  | state initial accept =>
    obtain ⟨x, hadd, rfl⟩ := Checks.map_eq_ok_iff.mp hop
    exact h.addState hadd
  | transition source e target => exact h.addTransition (Checks.mapError_eq_ok_iff.mp hop)
  | synthetic source e target =>
    exact h.addSyntheticTransition (Checks.mapError_eq_ok_iff.mp hop)
  | removal source e target => exact h.removeTransition (Checks.mapError_eq_ok_iff.mp hop)
  | prune =>
    cases hop
    exact h.prune
  | minimize =>
    cases hop
    exact h.minimize

/-! ### The numbers -/

/-- The counter has not wrapped around, and the numbers of the states have been given
away. -/
structure Numbered (t : KeyedAutomaton) : Prop where
  positive : 1 ≤ t.nextId
  bounds : ∀ id ∈ t.states, 1 ≤ id ∧ id < t.nextId

/-- The numbers given away for the one automaton are not given away again for the other: a
state of the second with such a number is still the one that the first has. -/
structure KeepsNumbers (t t' : KeyedAutomaton) : Prop where
  nextId_le : t.nextId ≤ t'.nextId
  mem_of_lt : ∀ id ∈ t'.states, id < t.nextId → id ∈ t.states

theorem numbered_empty (pid : Nat) : (empty pid).Numbered :=
  ⟨UInt32.le_refl 1, fun _ hid => absurd hid ExtTreeMap.not_mem_empty⟩

theorem KeepsNumbers.refl (t : KeyedAutomaton) : t.KeepsNumbers t :=
  ⟨UInt32.le_refl _, fun _ hid _ => hid⟩

theorem KeepsNumbers.trans {u : KeyedAutomaton} (h : t.KeepsNumbers t') (h' : t'.KeepsNumbers u) :
    t.KeepsNumbers u where
  nextId_le := UInt32.le_trans h.nextId_le h'.nextId_le
  mem_of_lt id hid hlt :=
    h.mem_of_lt id (h'.mem_of_lt id hid (UInt32.lt_of_lt_of_le hlt h.nextId_le)) hlt

theorem nextId_minimize (t : KeyedAutomaton) : t.minimize.1.nextId = t.nextId ∧
    ∀ id ∈ t.minimize.1.states, id ∈ t.states := by
  refine mergeAll_induction (P := fun u _ => u.nextId = t.nextId ∧ ∀ id ∈ u.states, id ∈ t.states)
    t.states.size 0 ?_ ⟨rfl, fun _ hid => hid⟩
  intro u merges keep gone hu _
  refine ⟨hu.1, fun id hid => hu.2 id ?_⟩
  obtain ⟨s, hs⟩ := mem_states_iff.mp hid
  obtain ⟨-, r, hr, -⟩ := getElem?_merge.mp hs
  exact mem_states_iff.mpr ⟨r, hr⟩

theorem states_changeState (h : t.changeState id change = .ok t') :
    t'.nextId = t.nextId ∧ ∀ k ∈ t'.states, k ∈ t.states := by
  obtain ⟨s, r, hs, -, rfl⟩ := changeState_eq_ok_iff.mp h
  refine ⟨rfl, fun k hk => ?_⟩
  rcases mem_insert.mp hk with hk | hk
  · exact hk ▸ mem_states_iff.mpr ⟨s, hs⟩
  · exact hk

theorem states_extendState (h : t.extendState source target change = .ok t') :
    t'.nextId = t.nextId ∧ ∀ k ∈ t'.states, k ∈ t.states := by
  rw [extendState] at h
  split at h
  · cases h
  · exact states_changeState h

/-- An operation adds a state under the next number, or it adds none. -/
theorem numbers_of_perform {op : Operation} (hop : t.perform counting op = .ok t') :
    op.addsState = true ∧ counting.next t.nextId = some t'.nextId ∧
        (∀ id ∈ t'.states, id = t.nextId ∨ id ∈ t.states) ∨
      op.addsState = false ∧ t'.nextId = t.nextId ∧ ∀ id ∈ t'.states, id ∈ t.states := by
  cases op with
  | state initial accept =>
    obtain ⟨x, hadd, rfl⟩ := Checks.map_eq_ok_iff.mp hop
    obtain ⟨-, next, hnext, hx⟩ := addState_eq_ok_iff.mp hadd
    rw [hx]
    exact Or.inl ⟨rfl, hnext, fun id hid => mem_insert.mp hid⟩
  | transition source e target =>
    exact Or.inr ⟨rfl, states_extendState (Checks.mapError_eq_ok_iff.mp hop)⟩
  | synthetic source e target =>
    exact Or.inr ⟨rfl, states_extendState (Checks.mapError_eq_ok_iff.mp hop)⟩
  | removal source e target =>
    exact Or.inr ⟨rfl, states_changeState (Checks.mapError_eq_ok_iff.mp hop)⟩
  | prune =>
    cases hop
    refine Or.inr ⟨rfl, rfl, fun id hid => ?_⟩
    obtain ⟨s, hs⟩ := mem_states_iff.mp hid
    exact mem_states_iff.mpr ⟨s, (getElem?_prune.mp hs).1⟩
  | minimize =>
    cases hop
    exact Or.inr ⟨rfl, nextId_minimize t⟩

end KeyedAutomaton

/-! ### The counter -/

namespace Counting

variable {counting : Counting} {m n : UInt32}

theorem toNat_add_one (h : n.toNat + 1 < UInt32.size) : (n + 1).toNat = n.toNat + 1 := by
  rw [UInt32.toNat_add]
  exact Nat.mod_eq_of_lt h

theorem next_of_lt (h : n.toNat + 1 < UInt32.size) : counting.next n = some (n + 1) := by
  cases counting with
  | checked => exact if_pos h
  | wrapping => rfl

theorem eq_add_one_of_next (h : counting.next n = some m) : m = n + 1 := by
  cases counting with
  | checked =>
    rw [next] at h
    split at h
    · exact (Option.some.inj h).symm
    · cases h
  | wrapping => exact (Option.some.inj h).symm

theorem lt_of_next (h : checked.next n = some m) : n.toNat + 1 < UInt32.size := by
  rw [next] at h
  split at h
  · assumption
  · cases h

end Counting

end ProtocolInference
