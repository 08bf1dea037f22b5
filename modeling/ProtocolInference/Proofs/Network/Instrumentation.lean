import ProtocolInference.Network.Instrumentation
import ProtocolInference.Proofs.Automaton.Editing

/-!
# Instrumented networks

A transition on an event of the invariant is replaced by a detour: the event leads to a fresh
state, and from there the recording of the event leads to the old target. All of them are
noted before the first is replaced, and replacing one leaves the others where they are, since
a detour has a fresh state at one of its ends. So the instrumented automaton accepts the words
of the old one, with every event of the invariant followed by its recording, and nothing else.
Main statement: `instrument_faithful`.
-/

namespace ProtocolInference

/-- An event of the invariant is followed by the send that records it for the process. -/
def Invariant.recorded (invariant : Invariant) (channel : Channel) (pid : Nat) (e : Event) :
    List Event :=
  if invariant.involves e then [e, .sendFrom e.token channel pid] else [e]

theorem Event.isSyntheticSend_sendFrom {channel : Channel} (label : String) (pid : Nat)
    (h : channel.synthetic = true) : (Event.sendFrom label channel pid).isSyntheticSend = true :=
  h

namespace Automaton

variable {a b c : Automaton} {invariant : Invariant} {channel : Channel}
  {done more : List (Nat × Event × Nat)} {pid first s t x : Nat} {e f : Event}
  {v w : List Event}

/-! ### The transitions that are replaced -/

theorem involved_eq_filter (a : Automaton) (invariant : Invariant) :
    a.involved invariant = a.edges.filter fun p => invariant.involves p.2.1 := by
  rw [involved, edges, List.filter_flatMap]
  refine List.flatMap_congr fun s _ => ?_
  rw [List.filter_map]
  rfl

theorem mem_involved : (s, e, t) ∈ a.involved invariant ↔
    a.Edge s e t ∧ invariant.involves e = true := by
  rw [involved_eq_filter, List.mem_filter, mem_edges]

theorem nodup_involved (h : a.Built) (invariant : Invariant) :
    (a.involved invariant).Nodup := by
  rw [involved_eq_filter]
  exact (nodup_edges h.wellFormed h.ordered).filter _

/-! ### Detours -/

/-- One half of the detour for a transition of the list. The fresh states have the numbers
from `first` on, in the order of the list. -/
def Detour (channel : Channel) (pid first : Nat) (done : List (Nat × Event × Nat)) (s : Nat)
    (f : Event) (t : Nat) : Prop :=
  ∃ i source e target, done[i]? = some (source, e, target) ∧
    ((s, f, t) = (source, e, first + i) ∨
      (s, f, t) = (first + i, .sendFrom e.token channel pid, target))

theorem detour_append_iff : Detour channel pid first (done ++ more) s f t ↔
    Detour channel pid first done s f t ∨
      Detour channel pid (first + done.length) more s f t := by
  constructor
  · intro h
    obtain ⟨i, source, e, target, hi, hhalf⟩ := h
    rw [List.getElem?_append] at hi
    split at hi
    · exact Or.inl ⟨i, source, e, target, hi, hhalf⟩
    · refine Or.inr ⟨i - done.length, source, e, target, hi, ?_⟩
      rw [show first + done.length + (i - done.length) = first + i by omega]
      exact hhalf
  · intro h
    rcases h with h | h
    · obtain ⟨i, source, e, target, hi, hhalf⟩ := h
      have hlt := (List.getElem?_eq_some_iff.mp hi).1
      exact ⟨i, source, e, target, by rw [List.getElem?_append_left hlt]; exact hi, hhalf⟩
    · obtain ⟨i, source, e, target, hi, hhalf⟩ := h
      refine ⟨done.length + i, source, e, target, ?_, ?_⟩
      · rw [List.getElem?_append_right (by omega), Nat.add_sub_cancel_left]
        exact hi
      · rw [← Nat.add_assoc]
        exact hhalf

theorem detour_singleton_iff {u : Nat} : Detour channel pid first [(s, e, x)] t f u ↔
    (t, f, u) = (s, e, first) ∨ (t, f, u) = (first, .sendFrom e.token channel pid, x) := by
  constructor
  · intro h
    obtain ⟨i, source, g, target, hi, hhalf⟩ := h
    obtain ⟨hzero, heq⟩ := List.getElem?_eq_some_iff.mp hi
    rw [List.length_singleton, Nat.lt_one_iff] at hzero
    subst hzero
    cases heq
    exact hhalf
  · exact fun hhalf => ⟨0, s, e, x, rfl, hhalf⟩

/-- A detour has a fresh state at one of its ends. -/
theorem Detour.fresh (h : Detour channel pid first done s f t) : first ≤ s ∨ first ≤ t := by
  obtain ⟨i, source, e, target, -, hhalf | hhalf⟩ := h
  · cases hhalf
    exact Or.inr (Nat.le_add_right _ _)
  · cases hhalf
    exact Or.inl (Nat.le_add_right _ _)

/-! ### Replacing transitions -/

/-- The transitions of the list are replaced by detours over fresh states. The other
transitions and the old states are as they were. -/
structure Recorded (channel : Channel) (a : Automaton) (done : List (Nat × Event × Nat))
    (b : Automaton) : Prop where
  built : b.Built
  pid_eq : b.pid = a.pid
  nextId_eq : b.nextId = a.nextId + done.length
  initial_eq : b.initialStates = a.initialStates
  accept_eq : b.acceptStates = a.acceptStates
  edge_iff : ∀ s f t, b.Edge s f t ↔
    a.Edge s f t ∧ (s, f, t) ∉ done ∨ Detour channel a.pid a.nextId done s f t
  length_states : b.states.length = a.states.length + done.length
  transitionCount_eq : b.transitionCount = a.transitionCount + done.length

theorem Recorded.nil (h : a.Built) (channel : Channel) : Recorded channel a [] a where
  built := h
  pid_eq := rfl
  nextId_eq := rfl
  initial_eq := rfl
  accept_eq := rfl
  edge_iff := by
    intro s f t
    constructor
    · exact fun he => Or.inl ⟨he, List.not_mem_nil⟩
    · intro he
      rcases he with he | he
      · exact he.1
      · obtain ⟨i, source, e, target, hi, -⟩ := he
        cases hi
  length_states := rfl
  transitionCount_eq := rfl

theorem Recorded.append (hwf : a.WellFormed) (h : Recorded channel a done b)
    (h' : Recorded channel b more c) (hmore : ∀ s e t, (s, e, t) ∈ more → a.Edge s e t) :
    Recorded channel a (done ++ more) c where
  built := h'.built
  pid_eq := h'.pid_eq.trans h.pid_eq
  nextId_eq := by rw [h'.nextId_eq, h.nextId_eq, List.length_append, Nat.add_assoc]
  initial_eq := h'.initial_eq.trans h.initial_eq
  accept_eq := h'.accept_eq.trans h.accept_eq
  edge_iff := by
    intro s f t
    -- What is still to be replaced ends in old states, so it is no detour.
    have hkept : Detour channel a.pid a.nextId done s f t → (s, f, t) ∉ more := by
      intro hdetour hmem
      have hold := hwf.edge_lt (hmore s f t hmem)
      have hfresh := hdetour.fresh
      omega
    rw [h'.edge_iff, h.edge_iff, h.pid_eq, h.nextId_eq, detour_append_iff, List.mem_append,
      not_or]
    constructor
    · intro he
      rcases he with ⟨⟨he, hdone⟩ | hdetour, hnot⟩ | hdetour
      · exact Or.inl ⟨he, hdone, hnot⟩
      · exact Or.inr (Or.inl hdetour)
      · exact Or.inr (Or.inr hdetour)
    · intro he
      rcases he with ⟨he, hdone, hnot⟩ | hdetour | hdetour
      · exact Or.inl ⟨Or.inl ⟨he, hdone⟩, hnot⟩
      · exact Or.inl ⟨Or.inr hdetour, hkept hdetour⟩
      · exact Or.inr hdetour
  length_states := by
    rw [h'.length_states, h.length_states, List.length_append, Nat.add_assoc]
  transitionCount_eq := by
    rw [h'.transitionCount_eq, h.transitionCount_eq, List.length_append, Nat.add_assoc]

/-! ### Replacing one transition -/

theorem recordTransition_eq_ok_iff : recordTransition channel a (s, e, x) = .ok b ↔
    ∃ d, (a.addState false false).1.removeTransition s e x = .ok d ∧
      ∃ c, d.addTransition s e a.nextId = .ok c ∧
        c.addSyntheticTransition a.nextId (.sendFrom e.token channel a.pid) x = .ok b := by
  have hpid : ∀ c d, (a.addState false false).1.removeTransition s e x = .ok d →
      d.addTransition s e a.nextId = .ok c → c.pid = a.pid := by
    intro c d hremove hadd
    exact (pid_eq_of_sameOutline (sameOutline_trans (sameOutline_of_removeTransition hremove)
      (sameOutline_of_addTransition hadd))).trans rfl
  unfold recordTransition
  simp only [Checks.bind_eq_ok_iff]
  constructor
  · intro h
    obtain ⟨d, hremove, c, hadd, hsend⟩ := h
    rw [hpid c d hremove hadd] at hsend
    exact ⟨d, hremove, c, hadd, hsend⟩
  · intro h
    obtain ⟨d, hremove, c, hadd, hsend⟩ := h
    rw [← hpid c d hremove hadd] at hsend
    exact ⟨d, hremove, c, hadd, hsend⟩

/-- Replacing a transition that is there never fails. -/
theorem exists_recordTransition (h : a.Built) (hchannel : channel.synthetic = true)
    (he : a.Edge s e x) (hpid : e.pid = a.pid) :
    ∃ b, recordTransition channel a (s, e, x) = .ok b := by
  have hstart : (a.addState false false).1.Built := .state false false h
  have hedge : (a.addState false false).1.Edge s e x := edge_addState_iff.mpr he
  obtain ⟨d, hremove⟩ := hstart.wellFormed.exists_removeTransition hedge
  have houtline := sameOutline_of_removeTransition hremove
  have hsource : ∃ y ∈ d.states, y.id = s := by
    obtain ⟨y, hy, hid, -⟩ := hedge
    exact (exists_state_of_sameOutline houtline).mpr ⟨y, hy, hid⟩
  have hmiddle : ∃ y ∈ d.states, y.id = a.nextId :=
    (exists_state_of_sameOutline houtline).mpr ⟨_, mem_addState.mpr (Or.inr rfl), rfl⟩
  have htarget : ∃ y ∈ d.states, y.id = x :=
    (exists_state_of_sameOutline houtline).mpr (hstart.wellFormed.exists_target hedge)
  have hown : e.pid = d.pid := hpid.trans (pid_eq_of_sameOutline houtline).symm
  have hadd := addTransition_eq_ok_iff.mpr ⟨⟨hsource, hmiddle⟩, hown, rfl⟩
  have houtline' := sameOutline_of_addTransition hadd
  have hsynthetic := Event.isSyntheticSend_sendFrom e.token a.pid hchannel
  have hsend := addSyntheticTransition_eq_ok_iff.mpr
    ⟨⟨(exists_state_of_sameOutline houtline').mpr hmiddle,
      (exists_state_of_sameOutline houtline').mpr htarget⟩, hsynthetic, rfl⟩
  exact ⟨_, recordTransition_eq_ok_iff.mpr ⟨d, hremove, _, hadd, hsend⟩⟩

theorem transitionCount_of_recordTransition (h : a.Built) (he : a.Edge s e x)
    (hb : recordTransition channel a (s, e, x) = .ok b) :
    b.transitionCount = a.transitionCount + 1 := by
  obtain ⟨d, hremove, c, hadd, hsend⟩ := recordTransition_eq_ok_iff.mp hb
  have hstart : (a.addState false false).1.Built := .state false false h
  have hd : d.Built := .removal hstart hremove
  have hc : c.Built := .transition hd hadd
  -- The fresh number is not that of a state yet.
  have hfresh : ∀ u f v, d.Edge u f v → u < a.nextId ∧ v < a.nextId := fun u f v hedge =>
    h.wellFormed.edge_lt (edge_addState_iff.mp ((edge_of_removeTransition hremove).mp hedge).1)
  have hlt := h.wellFormed.edge_lt he
  have hremoved := transitionCount_of_removeTransition hstart (edge_addState_iff.mpr he) hremove
  have hadded : c.transitionCount = d.transitionCount + 1 := by
    refine transitionCount_eq_add_one hd hc (fun hedge => ?_) fun u f v =>
      edge_of_addTransition hadd
    have hbelow := (hfresh _ _ _ hedge).2
    omega
  have hsent : b.transitionCount = c.transitionCount + 1 := by
    refine transitionCount_eq_add_one hc (.synthetic hc hsend) (fun hedge => ?_) fun u f v =>
      edge_of_addSyntheticTransition hsend
    rcases (edge_of_addTransition hadd).mp hedge with heq | hedge
    · injection heq with hs
      omega
    · have hbelow := (hfresh _ _ _ hedge).1
      omega
  rw [transitionCount_addState] at hremoved
  omega

theorem recorded_of_recordTransition (h : a.Built) (he : a.Edge s e x)
    (hb : recordTransition channel a (s, e, x) = .ok b) : Recorded channel a [(s, e, x)] b := by
  obtain ⟨d, hremove, c, hadd, hsend⟩ := recordTransition_eq_ok_iff.mp hb
  have houtline : (a.addState false false).1.sameOutline b = true :=
    sameOutline_trans (sameOutline_of_removeTransition hremove)
      (sameOutline_trans (sameOutline_of_addTransition hadd)
        (sameOutline_of_addSyntheticTransition hsend))
  constructor
  case built =>
    exact .synthetic (.transition (.removal (.state false false h) hremove) hadd) hsend
  case pid_eq => exact (pid_eq_of_sameOutline houtline).trans rfl
  case nextId_eq => exact (nextId_eq_of_sameOutline houtline).trans rfl
  case initial_eq =>
    rw [initialStates_of_sameOutline houtline]
    simp [addState, initialStates]
  case accept_eq =>
    rw [acceptStates_of_sameOutline houtline]
    simp [addState, acceptStates]
  case edge_iff =>
    intro u f v
    rw [edge_of_addSyntheticTransition hsend, edge_of_addTransition hadd,
      edge_of_removeTransition hremove, edge_addState_iff, detour_singleton_iff,
      List.mem_singleton]
    tauto
  case length_states =>
    rw [length_states_of_sameOutline houtline]
    simp [addState]
  case transitionCount_eq => exact transitionCount_of_recordTransition h he hb

/-! ### Replacing all of them -/

theorem foldlM_recordTransition (hchannel : channel.synthetic = true)
    {all : List (Nat × Event × Nat)} (h : a.Built) (hnodup : all.Nodup)
    (hall : ∀ s e t, (s, e, t) ∈ all → a.Edge s e t ∧ e.pid = a.pid) :
    ∃ b, all.foldlM (recordTransition channel) a = .ok b ∧ Recorded channel a all b := by
  induction all generalizing a with
  | nil => exact ⟨a, rfl, .nil h channel⟩
  | cons p all ih =>
    obtain ⟨s, e, x⟩ := p
    obtain ⟨he, hpid⟩ := hall s e x (List.mem_cons_self ..)
    obtain ⟨hnot, hnodup⟩ := List.nodup_cons.mp hnodup
    obtain ⟨d, hd⟩ := exists_recordTransition h hchannel he hpid
    have hone := recorded_of_recordTransition h he hd
    have hrest : ∀ s e t, (s, e, t) ∈ all → a.Edge s e t ∧ e.pid = a.pid :=
      fun s e t hmem => hall s e t (List.mem_cons_of_mem _ hmem)
    have hstay : ∀ s e t, (s, e, t) ∈ all → d.Edge s e t ∧ e.pid = d.pid := by
      intro t f u hmem
      obtain ⟨hedge, hown⟩ := hrest t f u hmem
      refine ⟨(hone.edge_iff t f u).mpr (Or.inl ⟨hedge, fun heq => hnot ?_⟩), ?_⟩
      · rw [← List.mem_singleton.mp heq]
        exact hmem
      · rw [hone.pid_eq]
        exact hown
    obtain ⟨b, hb, hmany⟩ := ih hone.built hnodup hstay
    refine ⟨b, ?_, hone.append h.wellFormed hmany fun s e t hmem => (hrest s e t hmem).1⟩
    rw [List.foldlM_cons, hd]
    exact hb

/-! ### Words -/

theorem Recorded.run (h : Recorded channel a (a.involved invariant) b) (hw : a.Run s w t) :
    b.Run s (w.flatMap (invariant.recorded channel a.pid)) t := by
  induction hw with
  | nil s => exact .nil s
  | @cons s m t e w he _ ih =>
    rw [List.flatMap_cons, Invariant.recorded]
    split
    · rename_i hinvolved
      obtain ⟨i, hi⟩ := List.mem_iff_getElem?.mp (mem_involved.mpr ⟨he, hinvolved⟩)
      have hin : b.Edge s e (a.nextId + i) :=
        (h.edge_iff _ _ _).mpr (Or.inr ⟨i, s, e, m, hi, Or.inl rfl⟩)
      have hout : b.Edge (a.nextId + i) (.sendFrom e.token channel a.pid) m :=
        (h.edge_iff _ _ _).mpr (Or.inr ⟨i, s, e, m, hi, Or.inr rfl⟩)
      exact .cons hin (.cons hout ih)
    · rename_i hinvolved
      have hkept : b.Edge s e m :=
        (h.edge_iff _ _ _).mpr (Or.inl ⟨he, fun hmem => hinvolved (mem_involved.mp hmem).2⟩)
      exact .cons hkept ih

theorem Recorded.edge_of_old (h : Recorded channel a (a.involved invariant) b)
    (hs : s < a.nextId) (he : b.Edge s f t) :
    a.Edge s f t ∧ invariant.involves f = false ∨
      ∃ i target, (a.involved invariant)[i]? = some (s, f, target) ∧ t = a.nextId + i := by
  rcases (h.edge_iff s f t).mp he with ⟨he, hnot⟩ | ⟨i, source, e, target, hi, hhalf | hhalf⟩
  · have hinvolved : invariant.involves f = false := by
      rw [Bool.eq_false_iff]
      exact fun hinvolved => hnot (mem_involved.mpr ⟨he, hinvolved⟩)
    exact Or.inl ⟨he, hinvolved⟩
  · cases hhalf
    exact Or.inr ⟨i, target, hi, rfl⟩
  · injection hhalf with hsource
    omega

theorem Recorded.edge_of_fresh (hwf : a.WellFormed)
    (h : Recorded channel a (a.involved invariant) b) {i source target : Nat}
    (hi : (a.involved invariant)[i]? = some (source, e, target))
    (he : b.Edge (a.nextId + i) f t) :
    f = .sendFrom e.token channel a.pid ∧ t = target := by
  rcases (h.edge_iff _ f t).mp he with ⟨he, -⟩ | ⟨j, source', e', target', hj, hhalf | hhalf⟩
  · have hlt := (hwf.edge_lt he).1
    omega
  · injection hhalf with hsource
    have hlt := (hwf.edge_lt (mem_involved.mp (List.mem_of_getElem? hj)).1).1
    omega
  · injection hhalf with hmiddle hrest
    rw [show j = i by omega, hi] at hj
    cases hj
    cases hrest
    exact ⟨rfl, rfl⟩

/-- A run that ends in an old state comes from one of the old automaton. If it starts in a
fresh state it begins with the recording that is due there. -/
theorem Recorded.exists_run (hwf : a.WellFormed)
    (h : Recorded channel a (a.involved invariant) b) (hv : b.Run s v t) (ht : t < a.nextId) :
    (s < a.nextId → ∃ w, v = w.flatMap (invariant.recorded channel a.pid) ∧ a.Run s w t) ∧
    ∀ i source e target, (a.involved invariant)[i]? = some (source, e, target) →
      s = a.nextId + i → ∃ w, v = .sendFrom e.token channel a.pid ::
        w.flatMap (invariant.recorded channel a.pid) ∧ a.Run target w t := by
  induction hv with
  | nil s =>
    refine ⟨fun _ => ⟨[], rfl, .nil s⟩, fun i source e target _ hs => ?_⟩
    omega
  | @cons s m t f v hstep _ ih =>
    obtain ⟨hold, hfresh⟩ := ih ht
    constructor
    · intro hs
      rcases h.edge_of_old hs hstep with ⟨he, hinvolved⟩ | ⟨i, target, hi, hm⟩
      · obtain ⟨w, rfl, hw⟩ := hold (hwf.edge_lt he).2
        refine ⟨f :: w, ?_, .cons he hw⟩
        rw [List.flatMap_cons, Invariant.recorded, hinvolved]
        rfl
      · obtain ⟨w, rfl, hw⟩ := hfresh i s f target hi hm
        obtain ⟨he, hinvolved⟩ := mem_involved.mp (List.mem_of_getElem? hi)
        refine ⟨f :: w, ?_, .cons he hw⟩
        rw [List.flatMap_cons, Invariant.recorded, hinvolved]
        rfl
    · intro i source e target hi hs
      subst hs
      obtain ⟨rfl, rfl⟩ := h.edge_of_fresh hwf hi hstep
      have he := (mem_involved.mp (List.mem_of_getElem? hi)).1
      obtain ⟨w, rfl, hw⟩ := hold (hwf.edge_lt he).2
      exact ⟨w, rfl, hw⟩

theorem Recorded.accepts_iff (hwf : a.WellFormed)
    (h : Recorded channel a (a.involved invariant) b) :
    b.Accepts w ↔ ∃ v, a.Accepts v ∧ w = v.flatMap (invariant.recorded channel a.pid) := by
  constructor
  · intro hw
    obtain ⟨s, hs, t, ht, hrun⟩ := hw
    rw [h.initial_eq] at hs
    rw [h.accept_eq] at ht
    obtain ⟨x, hx, -, hid⟩ := mem_initialStates.mp hs
    obtain ⟨y, hy, -, hid'⟩ := mem_acceptStates.mp ht
    have hslt : s < a.nextId := hid ▸ (hwf.bounds x hx).2
    have htlt : t < a.nextId := hid' ▸ (hwf.bounds y hy).2
    obtain ⟨v, rfl, hv⟩ := (h.exists_run hwf hrun htlt).1 hslt
    exact ⟨v, ⟨s, hs, t, ht, hv⟩, rfl⟩
  · intro hw
    obtain ⟨v, ⟨s, hs, t, ht, hrun⟩, rfl⟩ := hw
    rw [← h.initial_eq] at hs
    rw [← h.accept_eq] at ht
    exact ⟨s, hs, t, ht, h.run hrun⟩

/-- The transitions are on events of the process, and none of these is a synthetic send. -/
def Plain (a : Automaton) : Prop :=
  ∀ s e t, a.Edge s e t → e.pid = a.pid ∧ e.isSyntheticSend = false

theorem Plain.of_accepts (h : a.Plain) (hw : a.Accepts w) :
    ∀ e ∈ w, e.isSyntheticSend = false := by
  obtain ⟨s, -, t, -, hrun⟩ := hw
  induction hrun with
  | nil s => exact fun e he => absurd he List.not_mem_nil
  | cons he _ ih => exact List.forall_mem_cons.mpr ⟨(h _ _ _ he).2, ih⟩

theorem filter_flatMap_recorded (hchannel : channel.synthetic = true)
    (hw : ∀ e ∈ w, e.isSyntheticSend = false) :
    (w.flatMap (invariant.recorded channel pid)).filter (!·.isSyntheticSend) = w := by
  induction w with
  | nil => rfl
  | cons e w ih =>
    obtain ⟨he, hw⟩ := List.forall_mem_cons.mp hw
    have hsynthetic := Event.isSyntheticSend_sendFrom e.token pid hchannel
    rw [List.flatMap_cons, List.filter_append, ih hw, Invariant.recorded]
    split <;> simp [he, hsynthetic]

/-- Without the recordings the language is the old one. -/
theorem Recorded.accepts_erased_iff (hwf : a.WellFormed) (hplain : a.Plain)
    (hchannel : channel.synthetic = true) (h : Recorded channel a (a.involved invariant) b) :
    a.Accepts w ↔ ∃ v, b.Accepts v ∧ v.filter (!·.isSyntheticSend) = w := by
  constructor
  · intro hw
    exact ⟨_, (h.accepts_iff hwf).mpr ⟨w, hw, rfl⟩,
      filter_flatMap_recorded hchannel (hplain.of_accepts hw)⟩
  · intro hw
    obtain ⟨v, hv, rfl⟩ := hw
    obtain ⟨u, hu, rfl⟩ := (h.accepts_iff hwf).mp hv
    rw [filter_flatMap_recorded hchannel (hplain.of_accepts hu)]
    exact hu

end Automaton

namespace Network

open Automaton (Recorded)

/-- The channel that an invariant is recorded on. -/
def recordingChannel (n : Network) (invariant : Invariant) : Channel :=
  ⟨invariant.first.pid, invariant.first.pid, n.channels.length, true⟩

theorem instrument_eq_ok_iff {n m : Network} {invariant : Invariant} :
    n.instrument invariant = .ok m ↔
      m.channels = n.channels ++ [n.recordingChannel invariant] ∧
      List.Forall₂ (fun a b => (a.involved invariant).foldlM
        (Automaton.recordTransition (n.recordingChannel invariant)) a = .ok b)
        n.automata m.automata := by
  rw [← Checks.mapM_eq_ok_iff]
  unfold instrument
  simp only [Checks.bind_eq_ok_iff]
  constructor
  · intro h
    obtain ⟨automata, hall, hm⟩ := h
    injection hm with hm
    rw [← hm]
    exact ⟨rfl, hall⟩
  · intro h
    obtain ⟨hchannels, hall⟩ := h
    refine ⟨m.automata, hall, ?_⟩
    show Except.ok (⟨n.channels ++ [n.recordingChannel invariant], m.automata⟩ : Network) = .ok m
    rw [← hchannels]

/-- A network whose transitions are on events of their own processes, none of them a recording,
can be instrumented for every invariant. The new channel comes after the others. Each of the
transitions on an event of the invariant costs one state and one transition. An instrumented
automaton accepts the words of the old one, with every event of the invariant followed by its
recording, and nothing else; without the recordings these are the words of the old one. -/
theorem instrument_faithful (n : Network) (invariant : Invariant)
    (hbuilt : ∀ a ∈ n.automata, a.Built) (hplain : ∀ a ∈ n.automata, a.Plain) :
    ∃ m, n.instrument invariant = .ok m ∧
      m.channels = n.channels ++ [n.recordingChannel invariant] ∧
      m.automata.length = n.automata.length ∧
      ∀ (pid : Nat) (a : Automaton), n.automata[pid]? = some a →
        (a.involved invariant).Nodup ∧
        (∀ s e t, (s, e, t) ∈ a.involved invariant ↔
          a.Edge s e t ∧ invariant.involves e = true) ∧
        ∃ b, m.automata[pid]? = some b ∧
          Recorded (n.recordingChannel invariant) a (a.involved invariant) b ∧
          (∀ w, b.Accepts w ↔ ∃ v, a.Accepts v ∧
            w = v.flatMap (invariant.recorded (n.recordingChannel invariant) a.pid)) ∧
          ∀ w, a.Accepts w ↔ ∃ v, b.Accepts v ∧ v.filter (!·.isSyntheticSend) = w := by
  have hall : ∀ a ∈ n.automata, ∃ b, (a.involved invariant).foldlM
      (Automaton.recordTransition (n.recordingChannel invariant)) a = .ok b ∧
      Recorded (n.recordingChannel invariant) a (a.involved invariant) b := by
    intro a ha
    refine Automaton.foldlM_recordTransition rfl (hbuilt a ha)
      (Automaton.nodup_involved (hbuilt a ha) invariant) fun s e t hmem => ?_
    have he := (Automaton.mem_involved.mp hmem).1
    exact ⟨he, (hplain a ha s e t he).1⟩
  choose! f hf using hall
  refine ⟨⟨n.channels ++ [n.recordingChannel invariant], n.automata.map f⟩, ?_, rfl,
    List.length_map _, fun pid a ha => ?_⟩
  · exact instrument_eq_ok_iff.mpr
      ⟨rfl, List.forall₂_map_right_iff.mpr (List.forall₂_same.mpr fun a ha => (hf a ha).1)⟩
  · have hmem := List.mem_of_getElem? ha
    have hwf := (hbuilt a hmem).wellFormed
    have hrecorded := (hf a hmem).2
    refine ⟨Automaton.nodup_involved (hbuilt a hmem) invariant,
      fun s e t => Automaton.mem_involved, f a, ?_, hrecorded,
      fun w => hrecorded.accepts_iff hwf, fun w => hrecorded.accepts_erased_iff hwf
        (hplain a hmem) rfl⟩
    rw [List.getElem?_map, ha]
    rfl

/-- The process of `fork` has two targets for its first event and later goes on in a circle. -/
theorem instrument_faithful_fork : ∃ m b,
    (⟨[], [Automaton.fork]⟩ : Network).instrument (.eventually (.internal "work" 0)) = .ok m ∧
    m.channels = [⟨0, 0, 0, true⟩] ∧ m.automata[0]? = some b ∧ b.states.length = 9 ∧
    b.transitionCount = 10 ∧ b.Accepts [.internal "work" 0,
      .sendFrom "p0_local_work" ⟨0, 0, 0, true⟩ 0, .internal "rest" 0] := by
  have hbuilt : ∀ a ∈ [Automaton.fork], a.Built :=
    List.forall_mem_singleton.mpr Automaton.built_fork
  have hplain : ∀ a ∈ [Automaton.fork], a.Plain := by
    refine List.forall_mem_singleton.mpr fun s e t he => ?_
    have hall : ∀ p ∈ Automaton.fork.edges, p.2.1.pid = 0 ∧ p.2.1.isSyntheticSend = false := by
      decide
    exact hall _ (Automaton.mem_edges.mpr he)
  obtain ⟨m, hm, hchannels, -, hall⟩ := instrument_faithful ⟨[], [Automaton.fork]⟩
    (.eventually (.internal "work" 0)) hbuilt hplain
  obtain ⟨-, -, b, hb, hrecorded, hwords, -⟩ := hall 0 Automaton.fork rfl
  have hinvolved : (Automaton.fork.involved (.eventually (.internal "work" 0))).length = 4 := by
    decide
  have hstates := hrecorded.length_states
  have htransitions := hrecorded.transitionCount_eq
  rw [hinvolved] at hstates htransitions
  have haccepts : Automaton.fork.Accepts [.internal "work" 0, .internal "rest" 0] := by
    have hwork : Automaton.fork.Edge 1 (.internal "work" 0) 2 :=
      Automaton.mem_edges.mp (by decide)
    have hrest : Automaton.fork.Edge 2 (.internal "rest" 0) 4 :=
      Automaton.mem_edges.mp (by decide)
    exact ⟨1, by decide, 4, by decide, .cons hwork (.cons hrest (.nil 4))⟩
  exact ⟨m, b, hm, hchannels, hb, hstates, htransitions,
    (hwords _).mpr ⟨_, haccepts, by decide⟩⟩

end Network

end ProtocolInference
