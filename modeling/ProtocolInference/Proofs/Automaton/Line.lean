import Mathlib.Data.List.Perm.Basic
import ProtocolInference.Proofs.Automaton.Bisimulation
import ProtocolInference.Proofs.Automaton.Minimality
import ProtocolInference.Proofs.Automaton.Pruning

/-!
# Automata of one word

If an automaton accepts one word only, and each of its states lies on some path that spells
the word, then a state stands at one place of the word: so many events lead to it, and the
others lead on from it. If no two states agree either, two states at the same place are the
same, from the last place backwards. So the states are one line along the word. Main
statement: `OneWord.exists_line`.
-/

namespace ProtocolInference.Automaton

variable {a : Automaton} {w : List Event} {ids : List Nat} {i j s t : Nat} {e : Event}

/-- The word leads along the given states from the only initial one to the only accepting one,
and there are no other states and no other transitions. -/
structure Line (a : Automaton) (w : List Event) (ids : List Nat) : Prop where
  length_eq : ids.length = w.length + 1
  nodup : ids.Nodup
  state_iff : ∀ id, id ∈ a.states.map (·.id) ↔ id ∈ ids
  initial_iff : ∀ id, id ∈ a.initialStates ↔ ids[0]? = some id
  accept_iff : ∀ id, id ∈ a.acceptStates ↔ ids[w.length]? = some id
  edge_iff : ∀ s e t, a.Edge s e t ↔
    ∃ i, ids[i]? = some s ∧ w[i]? = some e ∧ ids[i + 1]? = some t

/-! ### How many there are -/

theorem Line.place_unique (h : a.Line w ids) (hi : ids[i]? = some s) (hj : ids[j]? = some s) :
    i = j :=
  (List.getElem?_inj (List.getElem?_eq_some_iff.mp hi).1 h.nodup).mp (hi.trans hj.symm)

theorem Line.mem_transitions_iff (h : a.Line w ids) (hwf : a.WellFormed) {x : State}
    (hx : x ∈ a.states) (hi : ids[i]? = some x.id) :
    (e, t) ∈ x.transitions ↔ w[i]? = some e ∧ ids[i + 1]? = some t := by
  rw [← hwf.edge_iff hx, h.edge_iff]
  constructor
  · intro hedge
    obtain ⟨j, hj, hrest⟩ := hedge
    rw [h.place_unique hi hj]
    exact hrest
  · exact fun hrest => ⟨i, hi, hrest⟩

theorem Line.accept_eq_true_iff (h : a.Line w ids) (hwf : a.WellFormed) {x : State}
    (hx : x ∈ a.states) (hi : ids[i]? = some x.id) : x.accept = true ↔ i = w.length := by
  rw [← hwf.id_mem_acceptStates_iff hx, h.accept_iff]
  constructor
  · exact fun hlast => h.place_unique hi hlast
  · intro heq
    rw [← heq]
    exact hi

/-- Every state but the accepting one has one transition. -/
theorem Line.length_transitions (h : a.Line w ids) (hwf : a.WellFormed) (ho : Ordered a.states)
    {x : State} (hx : x ∈ a.states) :
    x.transitions.length = if x.accept = true then 0 else 1 := by
  obtain ⟨i, hi⟩ := List.mem_iff_getElem?.mp ((h.state_iff x.id).mp (List.mem_map_of_mem hx))
  have hlt := (List.getElem?_eq_some_iff.mp hi).1
  have hlength := h.length_eq
  have hlast := h.accept_eq_true_iff hwf hx hi
  by_cases heq : i = w.length
  · have hnone : x.transitions = [] := by
      refine List.eq_nil_iff_forall_not_mem.mpr fun y hy => ?_
      have hevent := ((h.mem_transitions_iff hwf hx hi).mp hy).1
      have hbound := (List.getElem?_eq_some_iff.mp hevent).1
      omega
    rw [if_pos (hlast.mpr heq), hnone, List.length_nil]
  · have hbound : i < w.length := by omega
    have hnext : i + 1 < ids.length := by omega
    have hone : x.transitions = [(w[i], ids[i + 1])] := by
      refine (ho x hx).ext (List.pairwise_singleton _ _) fun y => ?_
      have hy := h.mem_transitions_iff hwf hx hi (e := y.1) (t := y.2)
      rw [List.getElem?_eq_getElem hbound, List.getElem?_eq_getElem hnext, Option.some.injEq,
        Option.some.injEq] at hy
      rw [List.mem_singleton, hy, Prod.ext_iff]
      exact and_congr eq_comm eq_comm
    rw [if_neg (fun hx => heq (hlast.mp hx)), hone, List.length_singleton]

theorem Line.length_states (h : a.Line w ids) (hwf : a.WellFormed) :
    a.states.length = w.length + 1 := by
  have hperm : (a.states.map (·.id)).Perm ids :=
    (List.perm_ext_iff_of_nodup hwf.nodup h.nodup).mpr h.state_iff
  have hlength := hperm.length_eq
  rw [List.length_map, h.length_eq] at hlength
  exact hlength

theorem Line.length_acceptStates (h : a.Line w ids) (hwf : a.WellFormed) :
    a.acceptStates.length = 1 := by
  obtain ⟨last, hlast⟩ : ∃ last, ids[w.length]? = some last :=
    ⟨_, List.getElem?_eq_getElem (by rw [h.length_eq]; exact Nat.lt_succ_self _)⟩
  have hnodup : a.acceptStates.Nodup := hwf.nodup.sublist (List.filter_sublist.map _)
  have hperm : a.acceptStates.Perm [last] := by
    refine (List.perm_ext_iff_of_nodup hnodup (List.nodup_singleton last)).mpr fun id => ?_
    rw [h.accept_iff, hlast, List.mem_singleton, Option.some.injEq]
    exact eq_comm
  exact hperm.length_eq

theorem length_flatMap_transitions {states : List State}
    (h : ∀ x ∈ states, x.transitions.length = if x.accept = true then 0 else 1) :
    (states.flatMap (·.transitions)).length + (states.filter (·.accept)).length =
      states.length := by
  induction states with
  | nil => rfl
  | cons x states ih =>
    have hrest := ih fun y hy => h y (List.mem_cons_of_mem _ hy)
    have hx := h x (List.mem_cons_self ..)
    rw [List.flatMap_cons, List.length_append, List.length_cons, List.filter_cons]
    split at hx
    · rename_i haccept
      rw [if_pos haccept, List.length_cons]
      omega
    · rename_i haccept
      rw [if_neg haccept]
      omega

theorem Line.transitionCount_eq (h : a.Line w ids) (hwf : a.WellFormed)
    (ho : Ordered a.states) : a.transitionCount = w.length := by
  have hcount := length_flatMap_transitions fun x hx => h.length_transitions hwf ho hx
  have haccept := h.length_acceptStates hwf
  rw [acceptStates, List.length_map] at haccept
  have hstates := h.length_states hwf
  rw [transitionCount]
  omega

/-! ### States that can accept -/

/-- Some path from each state leads to an accepting state. -/
def Useful (a : Automaton) : Prop :=
  ∀ x ∈ a.states, ∃ v, a.AcceptsFrom x.id v

theorem AcceptsFrom.prune (hwf : a.WellFormed) (h : a.AcceptsFrom s w)
    (hs : a.Reachable s) : a.prune.1.AcceptsFrom s w := by
  obtain ⟨t, ht, hrun⟩ := h
  obtain ⟨x, hx, haccept, rfl⟩ := mem_acceptStates.mp ht
  have hkept : x ∈ a.prune.1.states := (mem_prune hwf).mpr ⟨hx, hs.run hrun⟩
  exact ⟨x.id, mem_acceptStates.mpr ⟨x, hkept, haccept, rfl⟩, run_prune_of_run hwf hrun hs⟩

theorem Useful.prune (hwf : a.WellFormed) (h : a.Useful) : a.prune.1.Useful := by
  intro x hx
  obtain ⟨hmem, hreached⟩ := (mem_prune hwf).mp hx
  obtain ⟨v, hv⟩ := h x hmem
  exact ⟨v, hv.prune hwf hreached⟩

theorem Merged.useful {f : Nat → Nat} {b : Automaton} (h : Merged f a b) (ha : a.Useful) :
    b.Useful := by
  intro y hy
  obtain ⟨hstays, x, hx, hid⟩ := h.survivor y hy
  obtain ⟨v, t, ht, hrun⟩ := ha x hx
  have himage := h.run hrun
  rw [hid, hstays] at himage
  exact ⟨v, f t, h.mem_map_filter (fun _ accept => accept) ht, himage⟩

/-! ### Places of the word -/

/-- One word is accepted, each state can be reached and can still accept, and no two states
agree. -/
structure OneWord (a : Automaton) (w : List Event) : Prop where
  wellFormed : a.WellFormed
  minimal : a.Minimal
  trim : a.Trim
  useful : a.Useful
  accepts_iff : ∀ v, a.Accepts v ↔ v = w

/-- The first `i` events of the word lead to the state, and the others lead on from it. -/
structure At (a : Automaton) (w : List Event) (i s : Nat) : Prop where
  le : i ≤ w.length
  before : ∃ r ∈ a.initialStates, a.Run r (w.take i) s
  after : a.AcceptsFrom s (w.drop i)

theorem OneWord.append_eq (h : a.OneWord w) {r : Nat} {u v : List Event}
    (hr : r ∈ a.initialStates) (hu : a.Run r u s) (hv : a.AcceptsFrom s v) : u ++ v = w := by
  obtain ⟨t, ht, hv⟩ := hv
  exact (h.accepts_iff _).mp ⟨r, hr, t, ht, hu.append hv⟩

/-- What leads to a state is the beginning of the word, and its length is the place. -/
theorem OneWord.exists_append_eq (h : a.OneWord w) {r : Nat} {u : List Event}
    (hr : r ∈ a.initialStates) (hu : a.Run r u s) (hs : ∃ x ∈ a.states, x.id = s) :
    ∃ v, u ++ v = w ∧ a.At w u.length s := by
  obtain ⟨x, hx, rfl⟩ := hs
  obtain ⟨v, hv⟩ := h.useful x hx
  have hword := h.append_eq hr hu hv
  refine ⟨v, hword, ?_, ⟨r, hr, ?_⟩, ?_⟩
  · rw [← hword, List.length_append]
    omega
  · rw [← hword, List.take_left]
    exact hu
  · rw [← hword, List.drop_left]
    exact hv

theorem OneWord.exists_at (h : a.OneWord w) {x : State} (hx : x ∈ a.states) :
    ∃ i, a.At w i x.id := by
  obtain ⟨r, hr, u, hu⟩ := h.trim x hx
  obtain ⟨-, -, hat⟩ := h.exists_append_eq hr hu ⟨x, hx, rfl⟩
  exact ⟨u.length, hat⟩

theorem At.exists_state (h : a.At w i s) (hwf : a.WellFormed) : ∃ x ∈ a.states, x.id = s := by
  obtain ⟨r, hr, hrun⟩ := h.before
  obtain ⟨y, hy, -, hid⟩ := mem_initialStates.mp hr
  exact hwf.exists_end hrun ⟨y, hy, hid⟩

/-- A state stands at one place only. -/
theorem OneWord.at_unique (h : a.OneWord w) (hi : a.At w i s) (hj : a.At w j s) : i = j := by
  obtain ⟨r, hr, hrun⟩ := hi.before
  have hword := congrArg List.length (h.append_eq hr hrun hj.after)
  rw [List.length_append, List.length_take, List.length_drop] at hword
  have hile := hi.le
  have hjle := hj.le
  omega

theorem OneWord.at_iff (h : a.OneWord w) (hi : a.At w i s) : a.At w j s ↔ i = j :=
  ⟨h.at_unique hi, fun heq => heq ▸ hi⟩

/-! ### Transitions and ends at a place -/

theorem OneWord.at_edge (h : a.OneWord w) (hi : a.At w i s) (he : a.Edge s e t) :
    w[i]? = some e ∧ a.At w (i + 1) t := by
  obtain ⟨r, hr, hrun⟩ := hi.before
  obtain ⟨v, hword, hat⟩ := h.exists_append_eq hr (hrun.append (.cons he (.nil t)))
    (h.wellFormed.exists_target he)
  have hlength : (w.take i ++ [e]).length = i + 1 := by
    rw [List.length_append, List.length_take_of_le hi.le, List.length_singleton]
  rw [hlength] at hat
  refine ⟨?_, hat⟩
  -- The event stands after the first `i` ones.
  have hplace : (w.take i ++ [e])[i]? = some e := by
    rw [List.getElem?_append_right (by rw [List.length_take_of_le hi.le]),
      List.length_take_of_le hi.le, Nat.sub_self]
    rfl
  rw [← hword, List.getElem?_append_left (by omega), hplace]

theorem OneWord.exists_edge (h : a.OneWord w) (hi : a.At w i s) (he : w[i]? = some e) :
    ∃ t, a.Edge s e t ∧ a.At w (i + 1) t := by
  obtain ⟨u, hu, hrun⟩ := hi.after
  rw [List.drop_eq_getElem?_toList_append, he] at hrun
  cases hrun with
  | cons hedge _ => exact ⟨_, hedge, (h.at_edge hi hedge).2⟩

theorem OneWord.mem_initialStates_iff (h : a.OneWord w) : s ∈ a.initialStates ↔ a.At w 0 s := by
  constructor
  · intro hs
    obtain ⟨x, hx, -, hid⟩ := mem_initialStates.mp hs
    obtain ⟨-, -, hat⟩ := h.exists_append_eq hs (.nil s) ⟨x, hx, hid⟩
    exact hat
  · intro hzero
    obtain ⟨r, hr, hrun⟩ := hzero.before
    rw [List.take_zero] at hrun
    rw [← run_nil_iff.mp hrun]
    exact hr

theorem OneWord.mem_acceptStates_iff (h : a.OneWord w) :
    s ∈ a.acceptStates ↔ a.At w w.length s := by
  constructor
  · intro hs
    obtain ⟨x, hx, -, rfl⟩ := mem_acceptStates.mp hs
    obtain ⟨i, hi⟩ := h.exists_at hx
    obtain ⟨r, hr, hrun⟩ := hi.before
    have hword := congrArg List.length (h.append_eq hr hrun ⟨x.id, hs, .nil x.id⟩)
    rw [List.length_append, List.length_take_of_le hi.le, List.length_nil] at hword
    rw [← hword]
    exact hi
  · intro hlast
    obtain ⟨t, ht, hrun⟩ := hlast.after
    rw [List.drop_length] at hrun
    rw [run_nil_iff.mp hrun]
    exact ht

theorem OneWord.edge_of_next (h : a.OneWord w) (hs : a.At w i s) (ht : a.At w i t)
    (hnext : ∀ u v, a.At w (i + 1) u → a.At w (i + 1) v → u = v) {u : Nat}
    (he : a.Edge s e u) : a.Edge t e u := by
  obtain ⟨hevent, hu⟩ := h.at_edge hs he
  obtain ⟨v, hedge, hv⟩ := h.exists_edge ht hevent
  rw [hnext u v hu hv]
  exact hedge

/-- Two states at one place have the same flags, so they are the same if there is only one
state at the next place. -/
theorem OneWord.eq_of_next (h : a.OneWord w) (hs : a.At w i s) (ht : a.At w i t)
    (hnext : ∀ u v, a.At w (i + 1) u → a.At w (i + 1) v → u = v) : s = t := by
  have hwf := h.wellFormed
  refine h.minimal.eq_of_edges hwf (hs.exists_state hwf) (ht.exists_state hwf) ?_ ?_ fun e u =>
    ⟨h.edge_of_next hs ht hnext, h.edge_of_next ht hs hnext⟩
  · rw [h.mem_initialStates_iff, h.mem_initialStates_iff, h.at_iff hs, h.at_iff ht]
  · rw [h.mem_acceptStates_iff, h.mem_acceptStates_iff, h.at_iff hs, h.at_iff ht]

/-- There is one state at a place, from the last place backwards. -/
theorem OneWord.at_inj (h : a.OneWord w) (hs : a.At w i s) (ht : a.At w i t) : s = t := by
  have hle := hs.le
  obtain ⟨n, hn⟩ : ∃ n, n + i = w.length := ⟨w.length - i, by omega⟩
  induction n generalizing i s t with
  | zero =>
    refine h.eq_of_next hs ht fun u v hu _ => ?_
    have hbeyond := hu.le
    omega
  | succ n ih =>
    exact h.eq_of_next hs ht fun u v hu hv => ih hu hv hu.le (by omega)

theorem OneWord.exists_state_at (h : a.OneWord w) (hi : i ≤ w.length) : ∃ s, a.At w i s := by
  induction i with
  | zero =>
    obtain ⟨r, hr, t, ht, hrun⟩ := (h.accepts_iff w).mpr rfl
    exact ⟨r, hi, ⟨r, hr, .nil r⟩, t, ht, hrun⟩
  | succ i ih =>
    obtain ⟨s, hs⟩ := ih (by omega)
    obtain ⟨t, -, ht⟩ := h.exists_edge hs (List.getElem?_eq_getElem (by omega))
    exact ⟨t, ht⟩

/-! ### The line -/

theorem OneWord.exists_places (h : a.OneWord w) :
    ∃ ids : List Nat, ids.length = w.length + 1 ∧ ∀ i s, ids[i]? = some s ↔ a.At w i s := by
  choose! f hf using fun i (hi : i ≤ w.length) => h.exists_state_at hi
  refine ⟨(List.range (w.length + 1)).map f, by rw [List.length_map, List.length_range], ?_⟩
  intro i s
  rw [List.getElem?_map, Option.map_eq_some_iff]
  constructor
  · intro hi
    obtain ⟨j, hj, rfl⟩ := hi
    obtain ⟨hlt, heq⟩ := List.getElem?_eq_some_iff.mp hj
    rw [List.getElem_range] at heq
    rw [List.length_range] at hlt
    rw [← heq]
    exact hf i (by omega)
  · intro hs
    have hle := hs.le
    exact ⟨i, List.getElem?_range (by omega), h.at_inj (hf i hle) hs⟩

/-- An automaton that accepts one word only, without useless states and without states that
agree, is a line along the word. -/
theorem OneWord.exists_line (h : a.OneWord w) : ∃ ids, a.Line w ids := by
  obtain ⟨ids, hlength, hids⟩ := h.exists_places
  refine ⟨ids, hlength, ?_, fun id => ?_, fun id => ?_, fun id => ?_, fun s e t => ?_⟩
  · refine List.nodup_iff_getElem?_ne_getElem?.mpr fun i j hij hj heq => ?_
    have hplace := (hids j ids[j]).mp (List.getElem?_eq_getElem hj)
    rw [List.getElem?_eq_getElem hj, hids] at heq
    exact absurd (h.at_unique heq hplace) (Nat.ne_of_lt hij)
  · rw [List.mem_map, List.mem_iff_getElem?]
    constructor
    · intro hid
      obtain ⟨x, hx, rfl⟩ := hid
      obtain ⟨i, hi⟩ := h.exists_at hx
      exact ⟨i, (hids i x.id).mpr hi⟩
    · intro hid
      obtain ⟨i, hi⟩ := hid
      exact ((hids i id).mp hi).exists_state h.wellFormed
  · rw [hids, h.mem_initialStates_iff]
  · rw [hids, h.mem_acceptStates_iff]
  · constructor
    · intro he
      obtain ⟨x, hx, rfl, -⟩ := id he
      obtain ⟨i, hi⟩ := h.exists_at hx
      obtain ⟨hevent, ht⟩ := h.at_edge hi he
      exact ⟨i, (hids _ _).mpr hi, hevent, (hids _ _).mpr ht⟩
    · intro hi
      obtain ⟨i, hs, hevent, ht⟩ := hi
      obtain ⟨u, he, hu⟩ := h.exists_edge ((hids _ _).mp hs) hevent
      rw [h.at_inj ((hids _ _).mp ht) hu]
      exact he

end ProtocolInference.Automaton
