import ProtocolInference.Proofs.Automaton.Flattening

/-!
# What every automaton keeps to

An automaton changes by operations only, each of which keeps its tables sound. The counter is
one more than the number of the additions, in 32 bits. Where it is checked, or has not come to
its end, no operation takes it back and none brings back a state that has been removed, so a
number stands for one state throughout the history of an automaton.
-/

namespace ProtocolInference.KeyedAutomaton

open Operation
open Std (ExtTreeMap ExtTreeSet)

variable {t r u : KeyedAutomaton} {counting : Counting} {op : Operation} {ops more : List Operation}

/-! ### Runs -/

theorem run_cons_eq_ok_iff : t.run counting (op :: ops) = .ok u ↔
    ∃ r, t.perform counting op = .ok r ∧ r.run counting ops = .ok u := by
  rw [run, List.foldlM_cons]
  exact Checks.bind_eq_ok_iff

theorem run_append_eq_ok_iff : t.run counting (ops ++ more) = .ok u ↔
    ∃ r, t.run counting ops = .ok r ∧ r.run counting more = .ok u := by
  rw [run, List.foldlM_append]
  exact Checks.bind_eq_ok_iff

theorem additions_cons : additions (op :: ops) =
    additions ops + if op.addsState = true then 1 else 0 :=
  List.countP_cons

theorem Sound.run (h : t.Sound) (hrun : t.run counting ops = .ok u) : u.Sound := by
  induction ops generalizing t with
  | nil =>
    cases hrun
    exact h
  | cons op ops ih =>
    obtain ⟨r, hop, hrest⟩ := run_cons_eq_ok_iff.mp hrun
    exact ih (h.perform hop) hrest

/-! ### Numbers -/

/-- The counter counts the additions, and wraps around if it may. -/
theorem nextId_of_run (hrun : t.run counting ops = .ok u) :
    u.nextId = t.nextId + UInt32.ofNat (additions ops) := by
  induction ops generalizing t with
  | nil =>
    cases hrun
    exact (UInt32.add_zero _).symm
  | cons op ops ih =>
    obtain ⟨r, hop, hrest⟩ := run_cons_eq_ok_iff.mp hrun
    rw [ih hrest, additions_cons]
    rcases numbers_of_perform hop with ⟨hadds, hnext, -⟩ | ⟨hnone, hnext, -⟩
    · rw [Counting.eq_add_one_of_next hnext, if_pos hadds, UInt32.ofNat_add, UInt32.add_assoc,
        UInt32.add_comm 1]
      rfl
    · rw [hnext, if_neg (by simp [hnone]), Nat.add_zero]

/-- The counter does not come to its end by the additions among the operations. -/
def Room (t : KeyedAutomaton) (ops : List Operation) : Prop :=
  t.nextId.toNat + additions ops < UInt32.size

theorem Room.first (h : t.Room (op :: ops)) (hadds : op.addsState = true) :
    t.nextId.toNat + 1 < UInt32.size := by
  rw [Room, additions_cons, if_pos hadds] at h
  omega

theorem nextId_of_perform (hop : t.perform counting op = .ok r)
    (hfits : op.addsState = true → t.nextId.toNat + 1 < UInt32.size) :
    r.nextId.toNat = t.nextId.toNat + if op.addsState = true then 1 else 0 := by
  rcases numbers_of_perform hop with ⟨hadds, hnext, -⟩ | ⟨hnone, hnext, -⟩
  · rw [Counting.eq_add_one_of_next hnext, Counting.toNat_add_one (hfits hadds), if_pos hadds]
  · rw [hnext, if_neg (by simp [hnone])]
    rfl

theorem Room.rest (h : t.Room (op :: ops)) (hop : t.perform counting op = .ok r) : r.Room ops := by
  have hnext := nextId_of_perform hop h.first
  rw [Room, additions_cons] at h
  rw [Room]
  omega

theorem Room.of_append (h : t.Room (ops ++ more)) (hrun : t.run counting ops = .ok r) :
    t.Room ops ∧ r.Room more := by
  induction ops generalizing t with
  | nil =>
    cases hrun
    exact ⟨(UInt32.toNat_lt _), h⟩
  | cons op ops ih =>
    obtain ⟨s, hop, hrest⟩ := run_cons_eq_ok_iff.mp hrun
    obtain ⟨hfirst, hlast⟩ := ih (h.rest hop) hrest
    refine ⟨?_, hlast⟩
    have hnext := nextId_of_perform hop h.first
    rw [Room] at hfirst
    rw [Room, additions_cons]
    omega

/-- Where a run has been met with a checked counter, there has been room for it. -/
theorem room_of_checked (hrun : t.run .checked ops = .ok u) : t.Room ops := by
  induction ops generalizing t with
  | nil => exact t.nextId.toNat_lt
  | cons op ops ih =>
    obtain ⟨r, hop, hrest⟩ := run_cons_eq_ok_iff.mp hrun
    have hroom := ih hrest
    have hfits : op.addsState = true → t.nextId.toNat + 1 < UInt32.size := by
      intro hadds
      rcases numbers_of_perform hop with ⟨-, hnext, -⟩ | ⟨hnone, -⟩
      · exact Counting.lt_of_next hnext
      · rw [hadds] at hnone
        cases hnone
    have hnext := nextId_of_perform hop hfits
    rw [Room] at hroom
    rw [Room, additions_cons]
    omega

/-- An operation gives away the next number or none, and brings no state back. -/
theorem Numbered.perform (h : t.Numbered) (hop : t.perform counting op = .ok r)
    (hfits : op.addsState = true → t.nextId.toNat + 1 < UInt32.size) :
    r.Numbered ∧ t.KeepsNumbers r := by
  rcases numbers_of_perform hop with ⟨hadds, hnext, hstates⟩ | ⟨-, hnext, hstates⟩
  · have hsucc := Counting.toNat_add_one (hfits hadds)
    rw [← Counting.eq_add_one_of_next hnext] at hsucc
    have hlt : t.nextId < r.nextId := UInt32.lt_iff_toNat_lt.mpr (by omega)
    have hle := UInt32.le_of_lt hlt
    refine ⟨⟨UInt32.le_trans h.positive hle, fun id hid => ?_⟩, hle, fun id hid hbefore => ?_⟩
    · rcases hstates id hid with hid | hid
      · rw [hid]
        exact ⟨h.positive, hlt⟩
      · exact ⟨(h.bounds id hid).1, UInt32.lt_trans (h.bounds id hid).2 hlt⟩
    · rcases hstates id hid with hid | hid
      · rw [hid] at hbefore
        exact absurd hbefore (UInt32.lt_irrefl t.nextId)
      · exact hid
  · have hle : t.nextId ≤ r.nextId := hnext ▸ UInt32.le_refl t.nextId
    refine ⟨⟨UInt32.le_trans h.positive hle, fun id hid => ?_⟩, hle, fun id hid _ => hstates id hid⟩
    rw [hnext]
    exact h.bounds id (hstates id hid)

theorem Numbered.run (h : t.Numbered) (hrun : t.run counting ops = .ok u) (hroom : t.Room ops) :
    u.Numbered ∧ t.KeepsNumbers u := by
  induction ops generalizing t with
  | nil =>
    cases hrun
    exact ⟨h, .refl _⟩
  | cons op ops ih =>
    obtain ⟨r, hop, hrest⟩ := run_cons_eq_ok_iff.mp hrun
    obtain ⟨hr, hkept⟩ := h.perform hop hroom.first
    obtain ⟨hu, hkept'⟩ := ih hr hrest (hroom.rest hop)
    exact ⟨hu, hkept.trans hkept'⟩

/-! ### The same run on lists -/

/-- While there is room, a run on the tables is the same run on the lists, faults included. -/
theorem flatten_run (counting : Counting) (h : t.Sound) (hnumbered : t.Numbered)
    (hroom : t.Room ops) :
    (t.run counting ops).map flatten = (t.flatten.run ops).mapError .automaton := by
  induction ops generalizing t with
  | nil => rfl
  | cons op ops ih =>
    have hstep := flatten_perform counting h hnumbered hroom.first
    rw [KeyedAutomaton.run, Automaton.run, List.foldlM_cons, List.foldlM_cons]
    cases hop : t.perform counting op with
    | error cause =>
      rw [hop] at hstep
      cases hflat : t.flatten.perform op with
      | error cause' =>
        rw [hflat] at hstep
        exact hstep
      | ok a =>
        rw [hflat] at hstep
        cases hstep
    | ok r =>
      rw [hop] at hstep
      cases hflat : t.flatten.perform op with
      | error cause' =>
        rw [hflat] at hstep
        cases hstep
      | ok a =>
        rw [hflat] at hstep
        cases hstep
        exact ih (h.perform hop) (hnumbered.perform hop hroom.first).1 (hroom.rest hop)

/-! ### The representation -/

/-- What the tables of an automaton keep to: transitions lead to states, an event has an
entry only if it has targets, so that a state without entries is one without transitions and
states with the same signature are those with the same flags and transitions, a state lies
under its own number, and the events are those that may be there. -/
structure Represents (t : KeyedAutomaton) : Prop where
  targets : ∀ (id : UInt32) (s : KeyedState), t.states[id]? = some s →
    ∀ (e : Event) (ts : ExtTreeSet UInt32), s.transitions[e]? = some ts → ∀ u ∈ ts, u ∈ t.states
  nonempty : ∀ (id : UInt32) (s : KeyedState), t.states[id]? = some s →
    ∀ (e : Event) (ts : ExtTreeSet UInt32), s.transitions[e]? = some ts → ts ≠ ∅
  sink : ∀ (id : UInt32) (s : KeyedState), t.states[id]? = some s →
    (s.isSink = true ↔ ∀ e u, ¬s.HasTransition e u)
  signature : ∀ (id : UInt32) (s : KeyedState), t.states[id]? = some s →
    ∀ (id' : UInt32) (s' : KeyedState), t.states[id']? = some s' →
      (s.signature = s'.signature ↔ s.initial = s'.initial ∧ s.accept = s'.accept ∧
        ∀ e u, s.HasTransition e u ↔ s'.HasTransition e u)
  key : ∀ (id : UInt32) (s : KeyedState), t.states[id]? = some s → s.id = id
  owner : ∀ (id : UInt32) (s : KeyedState), t.states[id]? = some s →
    ∀ e ∈ s.transitions, e.pid = t.pid ∨ e.isSyntheticSend = true

theorem Sound.represents (h : t.Sound) : t.Represents where
  targets id s hs e ts hts u hu := (h id s hs).targets e u ⟨ts, hts, hu⟩
  nonempty id s hs := (h id s hs).filled
  sink id s hs := (h id s hs).filled.isSink_iff
  signature id s hs id' s' hs' := (h id s hs).filled.signature_eq_iff (h id' s' hs').filled
  key id s hs := (h id s hs).key
  owner id s hs e he := by
    obtain ⟨u, hu⟩ := (h id s hs).filled.mem_iff.mp he
    exact (h id s hs).owner e u hu

/-- Whatever operations have been met, the tables are as they should be, and the counter is one
more than the number of the additions, in 32 bits. Where the counter is checked, or the additions
have not brought it to its end, the numbers of the states are positive and below it, a number that
has been given away stands later for the state that it stood for or for none, the next number is
one that has never been given away, and the same operations lead to the automaton that lists
the same states and transitions. -/
theorem represents_of_run {pid : Nat} (h : (empty pid).run counting ops = .ok t)
    (hmore : t.run counting more = .ok u) :
    u.Represents ∧ u.nextId = UInt32.ofNat (additions (ops ++ more) + 1) ∧
      (counting = .checked ∨ additions (ops ++ more) + 1 < UInt32.size →
        (∀ id ∈ u.states, 1 ≤ id ∧ id < u.nextId) ∧
        (∀ id ∈ u.states, id < t.nextId → id ∈ t.states) ∧
        (∀ initial accept v n, u.addState counting initial accept = .ok (v, n) →
          ∀ id ∈ t.states, id < n) ∧
        (Automaton.empty pid).run (ops ++ more) = .ok u.flatten) := by
  have hall : (empty pid).run counting (ops ++ more) = .ok u :=
    run_append_eq_ok_iff.mpr ⟨t, h, hmore⟩
  have hnext : u.nextId = UInt32.ofNat (additions (ops ++ more) + 1) := by
    rw [nextId_of_run hall, UInt32.ofNat_add, UInt32.add_comm]
    rfl
  refine ⟨((sound_empty pid).run hall).represents, hnext, fun hfits => ?_⟩
  have hroom : (empty pid).Room (ops ++ more) := by
    rcases hfits with hchecked | hlt
    · rw [hchecked] at hall
      exact room_of_checked hall
    · rw [Room, Nat.add_comm]
      exact hlt
  obtain ⟨hfirst, hlast⟩ := hroom.of_append h
  obtain ⟨ht, -⟩ := (numbered_empty pid).run h hfirst
  obtain ⟨hu, hkept⟩ := ht.run hmore hlast
  have hflat := flatten_run counting (sound_empty pid) (numbered_empty pid) hroom
  rw [hall, flatten_empty] at hflat
  refine ⟨hu.bounds, hkept.mem_of_lt, ?_, Checks.mapError_eq_ok_iff.mp hflat.symm⟩
  intro initial accept v n hadd id hid
  rw [(addState_eq_ok_iff.mp hadd).1]
  exact UInt32.lt_of_lt_of_le (ht.bounds id hid).2 hkept.nextId_le

/-- Two branches whose ends agree. The second transition to the end of the first branch is taken
away again, and its entry with it. -/
def forkOperations : List Operation :=
  [.state true false, .state false false, .state false false, .state false true,
    .state false true, .transition 1 (.internal "work" 0) 2, .transition 1 (.internal "work" 0) 3,
    .transition 2 (.internal "rest" 0) 4, .transition 3 (.internal "rest" 0) 5,
    .transition 1 (.internal "rest" 0) 4, .removal 1 (.internal "rest" 0) 4]

/-- States 3 and 5 are merged away, state 6 is never reached, and the next state is number 7. -/
theorem represents_of_run_fork : ∃ t u : KeyedAutomaton,
    (empty 0).run .checked forkOperations = .ok t ∧
    t.run .checked [.minimize, .state false false, .prune, .state false true] = .ok u ∧
    u.states.keys = [1, 2, 4, 7] ∧ u.nextId = 8 ∧ u.Represents ∧
    ∀ id ∈ u.states, id < t.nextId → id ∈ t.states := by
  have hdone : ((empty 0).run .checked
      (forkOperations ++ [.minimize, .state false false, .prune, .state false true])).toOption.any
        (fun u => u.states.keys = [1, 2, 4, 7] && u.nextId = 8) = true := by
    decide +kernel
  obtain ⟨u, hall, hkeys⟩ := Checks.exists_eq_ok_of_any hdone
  obtain ⟨t, ht, hu⟩ := run_append_eq_ok_iff.mp hall
  obtain ⟨hrepresents, -, hnumbers⟩ := represents_of_run ht hu
  rw [Bool.and_eq_true, decide_eq_true_eq, decide_eq_true_eq] at hkeys
  exact ⟨t, u, ht, hu, hkeys.1, hkeys.2, hrepresents, (hnumbers (Or.inl rfl)).2.1⟩

end ProtocolInference.KeyedAutomaton
