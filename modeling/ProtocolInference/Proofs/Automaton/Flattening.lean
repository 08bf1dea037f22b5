import Mathlib.Data.List.Pairwise
import ProtocolInference.Proofs.Automaton.Canonical
import ProtocolInference.Proofs.Automaton.Editing
import ProtocolInference.Proofs.Automaton.Keyed

/-!
# Tables and lists

A keyed automaton and the automaton that lists the same states and transitions go through
the same operations with the same outcome, faults included, as long as the counter does not
come to its end. Main statement: `flatten_perform`, from which runs follow.
-/

namespace ProtocolInference

open Std (ExtTreeMap ExtTreeSet)

/-! ### The transitions of a state -/

namespace KeyedState

variable {s r : KeyedState} {e : Event} {x : Nat} {u gone keep : UInt32} {ts : ExtTreeSet UInt32}

theorem mem_flatten :
    (e, x) ∈ s.flatten.transitions ↔ ∃ u, s.HasTransition e u ∧ u.toNat = x := by
  simp only [flatten, List.mem_flatMap, List.mem_map, Prod.exists, Prod.mk.injEq,
    ExtTreeSet.mem_toList, ExtTreeMap.mem_toList_iff_getElem?_eq_some]
  constructor
  · intro h
    obtain ⟨f, ts, hts, u, hu, rfl, hx⟩ := h
    exact ⟨u, ⟨ts, hts, hu⟩, hx⟩
  · intro h
    obtain ⟨u, ⟨ts, hts, hu⟩, hx⟩ := h
    exact ⟨e, ts, hts, u, hu, rfl, hx⟩

theorem mem_flatten_toNat : (e, u.toNat) ∈ s.flatten.transitions ↔ s.HasTransition e u := by
  rw [mem_flatten]
  constructor
  · intro h
    obtain ⟨v, hv, hvu⟩ := h
    exact UInt32.toNat_inj.mp hvu ▸ hv
  · exact fun h => ⟨u, h, rfl⟩

theorem compare_pair {f : Event} {y : Nat} :
    compare (e, x) (f, y) = (compare e f).then (compare x y) := rfl

theorem sorted_flatten (s : KeyedState) : Ascending.Sorted s.flatten.transitions := by
  refine List.pairwise_flatMap.mpr ⟨fun p _ => ?_, ?_⟩
  · refine List.pairwise_map.mpr (ExtTreeSet.ordered_toList.imp fun {u v} hlt => ?_)
    rw [compare_pair, Std.compare_self, Ordering.eq_then]
    exact Std.compare_eq_lt.mpr (UInt32.lt_iff_toNat_lt.mp (Std.compare_eq_lt.mp hlt))
  · refine ExtTreeMap.ordered_keys_toList.imp fun {p q} hlt => ?_
    intro y hy z hz
    obtain ⟨u, -, rfl⟩ := List.mem_map.mp hy
    obtain ⟨v, -, rfl⟩ := List.mem_map.mp hz
    rw [compare_pair, hlt, Ordering.lt_then]

/-- Two lists of transitions are one if they have the same members. -/
theorem flatten_transitions_eq {us : Transitions} (hus : Ascending.Sorted us)
    (h : ∀ e x, (∃ u, s.HasTransition e u ∧ u.toNat = x) ↔ (e, x) ∈ us) :
    s.flatten.transitions = us := by
  refine (sorted_flatten s).ext hus fun p => ?_
  obtain ⟨e, x⟩ := p
  rw [mem_flatten, h]

theorem flatten_insertTarget : (s.insertTarget e u).flatten =
    { s.flatten with transitions := Ascending.insert (e, u.toNat) s.flatten.transitions } := by
  have htransitions : (s.insertTarget e u).flatten.transitions =
      Ascending.insert (e, u.toNat) s.flatten.transitions := by
    refine flatten_transitions_eq (Ascending.sorted_insert _ (sorted_flatten s)) fun f x => ?_
    simp only [hasTransition_insertTarget_iff, Ascending.mem_insert, mem_flatten, Prod.mk.injEq]
    constructor
    · intro h
      obtain ⟨v, hv, rfl⟩ := h
      rcases hv with ⟨rfl, rfl⟩ | hv
      · exact Or.inl ⟨rfl, rfl⟩
      · exact Or.inr ⟨v, hv, rfl⟩
    · intro h
      rcases h with ⟨rfl, rfl⟩ | ⟨v, hv, rfl⟩
      · exact ⟨u, Or.inl ⟨rfl, rfl⟩, rfl⟩
      · exact ⟨v, Or.inr hv, rfl⟩
  rw [← htransitions]
  rfl

theorem flatten_eraseTarget (hts : s.transitions[e]? = some ts) : (s.eraseTarget e ts u).flatten =
    { s.flatten with
      transitions := s.flatten.transitions.filter (· ≠ (e, u.toNat)) } := by
  have htransitions : (s.eraseTarget e ts u).flatten.transitions =
      s.flatten.transitions.filter (· ≠ (e, u.toNat)) := by
    refine flatten_transitions_eq ((sorted_flatten s).sublist List.filter_sublist) fun f x => ?_
    simp only [hasTransition_eraseTarget_iff hts, List.mem_filter, mem_flatten, ne_eq,
      decide_eq_true_eq, Prod.mk.injEq]
    constructor
    · intro h
      obtain ⟨v, ⟨hv, hne⟩, rfl⟩ := h
      exact ⟨⟨v, hv, rfl⟩, fun heq => hne ⟨heq.1, UInt32.toNat_inj.mp heq.2⟩⟩
    · intro h
      obtain ⟨⟨v, hv, rfl⟩, hne⟩ := h
      exact ⟨v, ⟨hv, fun heq => hne ⟨heq.1, congrArg UInt32.toNat heq.2⟩⟩, rfl⟩
  rw [← htransitions]
  rfl

theorem flatten_redirect : (s.redirect gone keep).flatten =
    { s.flatten with transitions :=
      Automaton.redirect [(gone.toNat, keep.toNat)] s.flatten.transitions } := by
  have hsubstitute : ∀ v : UInt32, Automaton.substitute keep.toNat gone.toNat v.toNat =
      (if v = gone then keep else v).toNat := by
    intro v
    simp only [Automaton.substitute, UInt32.toNat_inj, apply_ite UInt32.toNat]
  have htransitions : (s.redirect gone keep).flatten.transitions =
      Automaton.redirect [(gone.toNat, keep.toNat)] s.flatten.transitions := by
    refine flatten_transitions_eq (Ascending.sorted_ofList _) fun f x => ?_
    simp only [hasTransition_redirect_iff, Automaton.mem_redirect_pair, mem_flatten]
    constructor
    · intro h
      obtain ⟨v, ⟨w, hw, rfl⟩, rfl⟩ := h
      exact ⟨w.toNat, ⟨w, hw, rfl⟩, hsubstitute w⟩
    · intro h
      obtain ⟨y, ⟨w, hw, rfl⟩, rfl⟩ := h
      exact ⟨_, ⟨w, hw, rfl⟩, (hsubstitute w).symm⟩
  rw [← htransitions]
  rfl

/-- The lists of two states agree if and only if their signatures do. -/
theorem Filled.agree_flatten_iff (hs : s.Filled) (hr : r.Filled) :
    Automaton.agree s.flatten r.flatten = true ↔ s.signature = r.signature := by
  rw [Automaton.agree_iff, hs.signature_eq_iff hr]
  refine and_congr_right fun _ => and_congr_right fun _ => ?_
  constructor
  · intro heq e u
    rw [← mem_flatten_toNat, ← mem_flatten_toNat, heq]
  · intro hsame
    refine flatten_transitions_eq (sorted_flatten r) fun e x => ?_
    simp only [hsame, mem_flatten]

/-- An event that has an entry is one that some transition is labelled with. -/
theorem Filled.targets_eq_nil_iff (h : s.Filled) :
    s.flatten.transitions.targets e = [] ↔ s.transitions[e]? = none := by
  rw [← Option.not_isSome_iff_eq_none, ← ExtTreeMap.mem_iff_isSome_getElem?, h.mem_iff,
    List.eq_nil_iff_forall_not_mem, not_exists]
  constructor
  · exact fun hnone u hu => hnone u.toNat (Transitions.mem_targets.mpr (mem_flatten_toNat.mpr hu))
  · intro hnone x hx
    obtain ⟨u, hu, -⟩ := mem_flatten.mp (Transitions.mem_targets.mp hx)
    exact hnone u hu

end KeyedState

/-! ### The states -/

namespace KeyedAutomaton

variable {t : KeyedAutomaton} {s r : KeyedState} {id source target keep gone : UInt32} {e : Event}
  {initial accept : Bool} {counting : Counting} {x : State}

theorem mem_states_flatten : x ∈ t.flatten.states ↔
    ∃ (id : UInt32) (s : KeyedState), t.states[id]? = some s ∧ s.flatten = x := by
  simp only [flatten, List.mem_map, mem_entries]
  constructor
  · intro h
    obtain ⟨s, ⟨id, hs⟩, hx⟩ := h
    exact ⟨id, s, hs, hx⟩
  · intro h
    obtain ⟨id, s, hs, hx⟩ := h
    exact ⟨s, ⟨id, hs⟩, hx⟩

/-- A state is listed under the number that it lies under. -/
theorem Admits.id_flatten (h : t.Admits id s) : s.flatten.id = id.toNat :=
  congrArg UInt32.toNat h.key

theorem Admits.id_flatten_eq_iff {k : UInt32} (h : t.Admits k s) :
    s.flatten.id = id.toNat ↔ k = id := by
  rw [h.id_flatten, UInt32.toNat_inj]

theorem mem_flatten_of_getElem? (hs : t.states[id]? = some s) : s.flatten ∈ t.flatten.states :=
  mem_states_flatten.mpr ⟨id, s, hs, rfl⟩

theorem Sound.exists_flatten_iff (h : t.Sound) :
    (∃ x ∈ t.flatten.states, x.id = id.toNat) ↔ id ∈ t.states := by
  rw [mem_states_iff]
  constructor
  · intro hx
    obtain ⟨x, hx, hid⟩ := hx
    obtain ⟨k, s, hs, rfl⟩ := mem_states_flatten.mp hx
    exact ⟨s, (h k s hs).id_flatten_eq_iff.mp hid ▸ hs⟩
  · intro hs
    obtain ⟨s, hs⟩ := hs
    exact ⟨s.flatten, mem_flatten_of_getElem? hs, (h id s hs).id_flatten⟩

theorem Sound.ascending_flatten (h : t.Sound) :
    (t.flatten.states.map (·.id)).Pairwise (· < ·) := by
  rw [flatten, List.map_map, List.pairwise_map]
  exact h.ascending_entries.imp fun hlt => UInt32.lt_iff_toNat_lt.mp hlt

theorem ordered_flatten (t : KeyedAutomaton) : Automaton.Ordered t.flatten.states := by
  intro x hx
  obtain ⟨id, s, -, rfl⟩ := mem_states_flatten.mp hx
  exact s.sorted_flatten

theorem Sound.wellFormed_flatten (h : t.Sound) (hnumbered : t.Numbered) :
    t.flatten.WellFormed where
  ascending := h.ascending_flatten
  bounds := by
    intro x hx
    obtain ⟨id, s, hs, rfl⟩ := mem_states_flatten.mp hx
    have hbounds := hnumbered.bounds id (mem_states_iff.mpr ⟨s, hs⟩)
    rw [← (h id s hs).key] at hbounds
    exact ⟨UInt32.le_iff_toNat_le.mp hbounds.1, UInt32.lt_iff_toNat_lt.mp hbounds.2⟩
  targets := by
    intro x hx e y hy
    obtain ⟨id, s, hs, rfl⟩ := mem_states_flatten.mp hx
    obtain ⟨u, hu, rfl⟩ := KeyedState.mem_flatten.mp hy
    exact h.exists_flatten_iff.mpr ((h id s hs).targets e u hu)

theorem Sound.state?_flatten (h : t.Sound) (hnumbered : t.Numbered) :
    t.flatten.state? id.toNat = t.states[id]?.map (·.flatten) := by
  cases hs : t.states[id]? with
  | none =>
    have hnone : ¬∃ x ∈ t.flatten.states, x.id = id.toNat := by
      rw [h.exists_flatten_iff, mem_states_iff, hs]
      simp
    exact Option.isNone_iff_eq_none.mp (Automaton.state?_isNone_iff.mpr hnone)
  | some s =>
    have hfound := (h.wellFormed_flatten hnumbered).state?_id (mem_flatten_of_getElem? hs)
    rw [← (h id s hs).key]
    exact hfound

/-- Lists with the same states are one, since they are in the order of the numbers. -/
theorem Sound.flatten_eq (h : t.Sound) {a : Automaton}
    (ha : (a.states.map (·.id)).Pairwise (· < ·)) (hpid : t.pid = a.pid)
    (hnext : t.nextId.toNat = a.nextId)
    (hmem : ∀ x, (∃ (id : UInt32) (s : KeyedState), t.states[id]? = some s ∧ s.flatten = x) ↔
      x ∈ a.states) : t.flatten = a :=
  Automaton.eq_of_mem_states_iff h.ascending_flatten ha hpid hnext fun x => by
    rw [mem_states_flatten, hmem]

theorem flatten_empty (pid : Nat) : (empty pid).flatten = Automaton.empty pid := by
  simp [flatten, entries, empty, Automaton.empty]

/-! ### Adding and removing -/

/-- A state that is put in the place of another is the other one changed. -/
theorem Sound.flatten_insert (h : t.Sound) (hs : t.states[id]? = some s) (hr : t.Admits id r)
    {change : State → State} (hchange : r.flatten = change s.flatten)
    (hid : ∀ x, (change x).id = x.id) :
    flatten { t with states := t.states.insert id r } = t.flatten.updateState id.toNat change := by
  have hascending : ((t.flatten.updateState id.toNat change).states.map (·.id)).Pairwise
      (· < ·) := by
    rw [Automaton.map_id_updateState hid]
    exact h.ascending_flatten
  refine (h.insert hr t.nextId).flatten_eq hascending rfl rfl fun x => ?_
  simp only [Automaton.updateState, List.mem_map, mem_states_flatten]
  constructor
  · intro hx
    obtain ⟨k, q, hq, rfl⟩ := hx
    rw [getElem?_insert] at hq
    split at hq
    · cases hq
      refine ⟨s.flatten, ⟨id, s, hs, rfl⟩, ?_⟩
      rw [if_pos (h id s hs).id_flatten, hchange]
    · rename_i hne
      refine ⟨q.flatten, ⟨k, q, hq, rfl⟩, ?_⟩
      rw [if_neg fun heq => hne ((h k q hq).id_flatten_eq_iff.mp heq).symm]
  · intro hx
    obtain ⟨y, ⟨k, q, hq, rfl⟩, rfl⟩ := hx
    by_cases hk : k = id
    · have hqs : q = s := by
        rw [hk, hs] at hq
        exact (Option.some.inj hq).symm
      refine ⟨id, r, by rw [getElem?_insert, if_pos rfl], ?_⟩
      rw [if_pos ((h k q hq).id_flatten_eq_iff.mpr hk), hchange, hqs]
    · refine ⟨k, q, by rw [getElem?_insert, if_neg (Ne.symm hk), hq], ?_⟩
      rw [if_neg fun heq => hk ((h k q hq).id_flatten_eq_iff.mp heq)]

theorem Sound.flatten_insertTarget (h : t.Sound) (hs : t.states[source]? = some s)
    (htarget : target ∈ t.states) (howner : t.Owns e) :
    flatten { t with states := t.states.insert source (s.insertTarget e target) } =
      t.flatten.insertTransition source.toNat e target.toNat :=
  h.flatten_insert hs ((h source s hs).insertTarget htarget howner)
    KeyedState.flatten_insertTarget fun _ => rfl

theorem Sound.checkEnds_flatten (h : t.Sound) :
    t.flatten.checkEnds source.toNat target.toNat =
      if target ∉ t.states then .error (.noState t.pid target.toNat)
      else if source ∉ t.states then .error (.noState t.pid source.toNat) else .ok () := by
  simp only [Automaton.checkEnds, Automaton.state?_isNone_iff, h.exists_flatten_iff]
  rfl

/-- The states at both ends are looked for in the same order. -/
theorem Sound.flatten_extendState (h : t.Sound)
    {change : KeyedState → Except AutomatonFault KeyedState}
    {rest : Except AutomatonFault Automaton}
    (hrest : ∀ s, t.states[source]? = some s → target ∈ t.states →
      (change s).map (fun s => flatten { t with states := t.states.insert source s }) = rest) :
    (t.extendState source target change).map flatten =
      (t.flatten.checkEnds source.toNat target.toNat >>= fun _ => rest) := by
  rw [h.checkEnds_flatten, extendState]
  by_cases htarget : target ∈ t.states
  · rw [if_neg (not_not_intro htarget), if_neg (not_not_intro htarget), changeState]
    cases hs : t.states[source]? with
    | none =>
      have hsource : source ∉ t.states := by simp [mem_states_iff, hs]
      rw [if_pos hsource]
      rfl
    | some s =>
      rw [if_neg (not_not_intro (mem_states_iff.mpr ⟨s, hs⟩))]
      refine Eq.trans ?_ (hrest s hs htarget)
      dsimp only
      cases change s with
      | error cause => rfl
      | ok r => rfl
  · rw [if_pos htarget, if_pos htarget]
    rfl

theorem Sound.flatten_addTransition (h : t.Sound) :
    (t.addTransition source e target).map flatten =
      t.flatten.addTransition source.toNat e target.toNat := by
  refine h.flatten_extendState fun s hs htarget => ?_
  rw [KeyedState.addTransition, (h source s hs).pid]
  show _ = if e.pid ≠ t.pid then _ else _
  by_cases hpid : e.pid = t.pid
  · rw [if_neg (not_not_intro hpid), if_neg (not_not_intro hpid)]
    exact congrArg Except.ok (h.flatten_insertTarget hs htarget (Or.inl hpid))
  · rw [if_pos hpid, if_pos hpid]
    rfl

theorem Sound.flatten_addSyntheticTransition (h : t.Sound) :
    (t.addSyntheticTransition source e target).map flatten =
      t.flatten.addSyntheticTransition source.toNat e target.toNat := by
  refine h.flatten_extendState fun s hs htarget => ?_
  rw [KeyedState.addSyntheticTransition]
  by_cases hsynthetic : e.isSyntheticSend = true
  · rw [if_pos hsynthetic, if_pos hsynthetic]
    exact congrArg Except.ok (h.flatten_insertTarget hs htarget (Or.inr hsynthetic))
  · rw [if_neg hsynthetic, if_neg hsynthetic]
    rfl

theorem Sound.flatten_removeTransition (h : t.Sound) (hnumbered : t.Numbered) :
    (t.removeTransition source e target).map flatten =
      t.flatten.removeTransition source.toNat e target.toNat := by
  rw [KeyedAutomaton.removeTransition, Automaton.removeTransition, changeState,
    h.state?_flatten hnumbered]
  cases hs : t.states[source]? with
  | none => rfl
  | some s =>
    have hadmits := h source s hs
    simp only [Option.map_some, List.isEmpty_iff, hadmits.filled.targets_eq_nil_iff,
      KeyedState.removeTransition, hadmits.key]
    cases hts : s.transitions[e]? with
    | none => rfl
    | some ts =>
      have hlisted : (e, target.toNat) ∈ s.flatten.transitions ↔ target ∈ ts :=
        KeyedState.mem_flatten_toNat.trans (KeyedState.hasTransition_iff hts)
      rw [if_neg (Option.some_ne_none ts)]
      by_cases hmem : target ∈ ts
      · simp only [hlisted, hmem, not_true_eq_false, if_false]
        exact congrArg Except.ok (h.flatten_insert hs (hadmits.eraseTarget hts)
          (KeyedState.flatten_eraseTarget hts) fun _ => rfl)
      · simp only [hlisted, hmem, not_false_eq_true, if_true]
        rfl

theorem flatten_new {id : UInt32} {pid : Nat} :
    (KeyedState.new id pid initial accept).flatten = ⟨id.toNat, initial, accept, []⟩ := by
  have hnone : (KeyedState.new id pid initial accept).flatten.transitions = [] :=
    KeyedState.flatten_transitions_eq .nil fun e x => by
      simp [KeyedState.not_hasTransition_new]
  rw [← hnone]
  rfl

theorem Sound.flatten_addState (h : t.Sound) (hnumbered : t.Numbered)
    (hfits : t.nextId.toNat + 1 < UInt32.size) :
    (t.addState counting initial accept).map (fun x => (x.1.flatten, x.2.toNat)) =
      .ok (t.flatten.addState initial accept) := by
  have hpos : 1 ≤ t.flatten.nextId := UInt32.le_iff_toNat_le.mp hnumbered.positive
  have hwellFormed := (h.wellFormed_flatten hnumbered).addState initial accept hpos
  rw [KeyedAutomaton.addState, Counting.next_of_lt hfits]
  refine congrArg Except.ok (Prod.ext ?_ rfl)
  refine (h.insert (admits_new t t.nextId initial accept) (t.nextId + 1)).flatten_eq
    hwellFormed.ascending rfl (Counting.toNat_add_one hfits) fun x => ?_
  have hnew : (KeyedState.new t.nextId t.pid initial accept).flatten =
      ⟨t.flatten.nextId, initial, accept, []⟩ := flatten_new
  rw [Automaton.mem_addState, mem_states_flatten, ← hnew]
  simp only [getElem?_insert]
  constructor
  · intro hx
    obtain ⟨k, q, hq, rfl⟩ := hx
    split at hq
    · cases hq
      exact Or.inr rfl
    · exact Or.inl ⟨k, q, hq, rfl⟩
  · intro hx
    rcases hx with hx | hx
    · obtain ⟨k, q, hq, rfl⟩ := hx
      -- The number of the new state is none of those that have been given away.
      have hne : t.nextId ≠ k := fun heq =>
        absurd (hnumbered.bounds k (mem_states_iff.mpr ⟨q, hq⟩)).2 (heq ▸ UInt32.lt_irrefl k)
      exact ⟨k, q, by rw [if_neg hne, hq], rfl⟩
    · exact ⟨t.nextId, _, if_pos rfl, hx.symm⟩

/-! ### Pruning -/

theorem mem_initialStates_flatten {y : Nat} :
    y ∈ t.flatten.initialStates ↔ ∃ r ∈ t.initialStates, r.toNat = y := by
  simp only [Automaton.initialStates, initialStates, flatten, List.mem_map, List.mem_filter]
  constructor
  · intro hy
    obtain ⟨x, ⟨⟨s, hs, rfl⟩, hinitial⟩, rfl⟩ := hy
    exact ⟨s.id, ⟨s, ⟨hs, hinitial⟩, rfl⟩, rfl⟩
  · intro hy
    obtain ⟨r, ⟨s, ⟨hs, hinitial⟩, rfl⟩, rfl⟩ := hy
    exact ⟨s.flatten, ⟨⟨s, hs, rfl⟩, hinitial⟩, rfl⟩

theorem Sound.leads_graph (h : t.Sound) : t.graph.Leads = t.flatten.Leads := by
  funext x y
  refine propext ⟨fun hleads => ?_, fun hleads => ?_⟩
  · obtain ⟨id, s, hs, rfl⟩ := exists_of_leads_graph hleads
    obtain ⟨e, u, hu, rfl⟩ := (leads_graph_iff hs).mp hleads
    refine ⟨e, s.flatten, mem_flatten_of_getElem? hs, ?_, KeyedState.mem_flatten_toNat.mpr hu⟩
    exact (h id s hs).id_flatten
  · obtain ⟨e, x', hx, rfl, hm⟩ := hleads
    obtain ⟨id, s, hs, rfl⟩ := mem_states_flatten.mp hx
    obtain ⟨u, hu, rfl⟩ := KeyedState.mem_flatten.mp hm
    rw [(h id s hs).id_flatten]
    exact (leads_graph_iff hs).mpr ⟨e, u, hu, rfl⟩

theorem Sound.reached_iff (h : t.Sound) : t.Reached id ↔ t.flatten.Reachable id.toNat := by
  simp only [Reached, Automaton.Reachable, Graph.Reaches, h.leads_graph,
    mem_initialStates_flatten]
  constructor
  · intro hr
    obtain ⟨r, hr, hreach⟩ := hr
    exact ⟨r.toNat, ⟨r, hr, rfl⟩, hreach⟩
  · intro hr
    obtain ⟨y, ⟨r, hr, rfl⟩, hreach⟩ := hr
    exact ⟨r, hr, hreach⟩

theorem length_states_flatten (t : KeyedAutomaton) :
    t.flatten.states.length = t.states.size := by
  rw [flatten, List.length_map, length_entries]

theorem Sound.flatten_prune (h : t.Sound) (hnumbered : t.Numbered) :
    (t.prune.1.flatten, t.prune.2) = t.flatten.prune := by
  have hwellFormed := h.wellFormed_flatten hnumbered
  have hstates : t.prune.1.flatten = t.flatten.prune.1 := by
    refine h.prune.flatten_eq hwellFormed.prune.ascending rfl rfl fun x => ?_
    rw [Automaton.mem_prune hwellFormed, mem_states_flatten]
    simp only [getElem?_prune]
    constructor
    · intro hx
      obtain ⟨id, s, ⟨hs, hreached⟩, rfl⟩ := hx
      rw [(h id s hs).id_flatten]
      exact ⟨⟨id, s, hs, rfl⟩, h.reached_iff.mp hreached⟩
    · intro hx
      obtain ⟨⟨id, s, hs, rfl⟩, hreachable⟩ := hx
      rw [(h id s hs).id_flatten] at hreachable
      exact ⟨id, s, ⟨hs, h.reached_iff.mpr hreachable⟩, rfl⟩
  refine Prod.ext hstates ?_
  show t.states.size - t.prune.1.states.size =
    t.flatten.states.length - t.flatten.prune.1.states.length
  rw [← hstates, length_states_flatten, length_states_flatten]

/-! ### Minimisation -/

theorem Sound.flatten_merge (h : t.Sound) (hkeep : keep ∈ t.states) (hne : keep ≠ gone) :
    (t.merge keep gone).flatten = t.flatten.mergeInto keep.toNat gone.toNat := by
  refine (h.merge hkeep hne).flatten_eq ?_ rfl rfl fun x => ?_
  · rw [Automaton.map_id_mergeInto]
    exact h.ascending_flatten.filter _
  rw [Automaton.mem_mergeInto]
  simp only [getElem?_merge, mem_states_flatten]
  constructor
  · intro hx
    obtain ⟨k, s, ⟨hk, r, hr, rfl⟩, rfl⟩ := hx
    exact ⟨r.flatten, ⟨k, r, hr, rfl⟩, mt (h k r hr).id_flatten_eq_iff.mp hk,
      KeyedState.flatten_redirect⟩
  · intro hx
    obtain ⟨y, ⟨k, r, hr, rfl⟩, hk, rfl⟩ := hx
    exact ⟨k, _, ⟨mt (h k r hr).id_flatten_eq_iff.mpr hk, r, hr, rfl⟩,
      KeyedState.flatten_redirect⟩

/-- Merging pair after pair on the tables is merging pair after pair on the lists. -/
theorem Sound.mergesTo_minimize (h : t.Sound) :
    t.flatten.MergesTo t.minimize.2 t.minimize.1.flatten := by
  have hall := mergeAll_induction
    (P := fun u merges => u.Sound ∧ t.flatten.MergesTo merges u.flatten) t.states.size 0 ?_
    ⟨h, .nil t.flatten⟩
  · rw [Nat.zero_add] at hall
    exact hall.2
  intro u merges keep gone hu hpair
  obtain ⟨x, y, hx, hy, hlt, hsame⟩ := hu.1.pair hpair
  have hkeep : keep ∈ u.states := mem_states_iff.mpr ⟨x, hx⟩
  have hxid : x.flatten.id = keep.toNat := (hu.1 keep x hx).id_flatten
  have hyid : y.flatten.id = gone.toNat := (hu.1 gone y hy).id_flatten
  have hagree := ((hu.1 keep x hx).filled.agree_flatten_iff (hu.1 gone y hy).filled).mpr hsame
  have hmerge := hu.1.flatten_merge hkeep (UInt32.ne_of_lt hlt)
  rw [← hxid, ← hyid] at hmerge
  refine ⟨hu.1.merge hkeep (UInt32.ne_of_lt hlt), hu.2.trans (.cons (mem_flatten_of_getElem? hx)
    (mem_flatten_of_getElem? hy) ?_ hagree ?_)⟩
  · rw [hxid, hyid]
    exact UInt32.lt_iff_toNat_lt.mp hlt
  · rw [← hmerge]
    exact .nil _

/-- At the end no two states agree, so no merge goes on from there. -/
theorem Sound.eq_of_mergesTo (h : t.Sound) {m : Nat} {a : Automaton}
    (hmerges : t.minimize.1.flatten.MergesTo m a) : a = t.minimize.1.flatten ∧ m = 0 := by
  have hdistinct := firstPair_eq_none (h.firstPair_mergeAll le_rfl) .nil
  have hsymm : Std.Symm fun x y : KeyedState => x.signature ≠ y.signature :=
    ⟨fun _ _ hne => hne.symm⟩
  cases hmerges with
  | nil => exact ⟨rfl, rfl⟩
  | @cons _ b n x y hx hy hlt hagree _ =>
    obtain ⟨k, s, hs, rfl⟩ := mem_states_flatten.mp hx
    obtain ⟨l, r, hr, rfl⟩ := mem_states_flatten.mp hy
    have hsr : s ≠ r := by
      intro heq
      rw [heq] at hlt
      exact Nat.lt_irrefl _ hlt
    have hne := hdistinct.forall (mem_entries.mpr ⟨k, hs⟩) (mem_entries.mpr ⟨l, hr⟩) hsr
    have hsfilled := (h.minimize k s hs).filled
    have hrfilled := (h.minimize l r hr).filled
    exact absurd ((hsfilled.agree_flatten_iff hrfilled).mp hagree) hne

theorem Sound.flatten_minimize (h : t.Sound) (hnumbered : t.Numbered) :
    (t.minimize.1.flatten, t.minimize.2) = t.flatten.minimize := by
  obtain ⟨m, hrest, hlength⟩ := h.mergesTo_minimize.mergesTo_minimize
    (h.wellFormed_flatten hnumbered) t.ordered_flatten
  obtain ⟨heq, rfl⟩ := h.eq_of_mergesTo hrest
  refine Prod.ext heq.symm ?_
  show t.minimize.2 = t.flatten.states.length - t.flatten.minimize.1.states.length
  omega

/-! ### Operations -/

/-- As long as the counter has not come to its end, an operation on the tables is the same
operation on the lists: both meet it, with the same outcome, or both have the same fault. -/
theorem flatten_perform (counting : Counting) {op : Operation} (h : t.Sound)
    (hnumbered : t.Numbered)
    (hfits : op.addsState = true → t.nextId.toNat + 1 < UInt32.size) :
    (t.perform counting op).map flatten = (t.flatten.perform op).mapError .automaton := by
  have hfault : ∀ x : Except AutomatonFault KeyedAutomaton,
      (x.mapError OperationFault.automaton).map flatten =
        (x.map flatten).mapError OperationFault.automaton := by
    intro x
    cases x <;> rfl
  cases op with
  | state initial accept =>
    have hadd : (t.addState counting initial accept).map (fun x => (x.1.flatten, x.2.toNat)) =
        .ok (t.flatten.addState initial accept) := h.flatten_addState hnumbered (hfits rfl)
    rw [perform]
    cases hx : t.addState counting initial accept with
    | error cause =>
      rw [hx] at hadd
      cases hadd
    | ok x =>
      rw [hx] at hadd
      exact congrArg Except.ok (congrArg Prod.fst (Except.ok.inj hadd))
  | transition source e target =>
    exact (hfault _).trans (congrArg (Except.mapError _) h.flatten_addTransition)
  | synthetic source e target =>
    exact (hfault _).trans (congrArg (Except.mapError _) h.flatten_addSyntheticTransition)
  | removal source e target =>
    exact (hfault _).trans (congrArg (Except.mapError _) (h.flatten_removeTransition hnumbered))
  | prune => exact congrArg Except.ok (congrArg Prod.fst (h.flatten_prune hnumbered))
  | minimize => exact congrArg Except.ok (congrArg Prod.fst (h.flatten_minimize hnumbered))

end KeyedAutomaton

end ProtocolInference
