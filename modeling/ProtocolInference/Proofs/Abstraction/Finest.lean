import ProtocolInference.Proofs.Abstraction.Strictness
import ProtocolInference.Proofs.Trace.Finish

/-!
# The finest abstraction

If every block has one member, the paths of blocks are the paths of the observations, and
each of them stays in one trace. A path from where a process has not started to where all
have finished spells the whole sequence of the process. So the automaton of a process
accepts the sequences that were recorded of it and nothing else.
-/

namespace ProtocolInference.Abstraction

variable {g : Abstraction} {t : Trace} {traces : List Trace} {grouping : Grouping}
  {strict : Bool} {k o p q : Nat} {b : Block} {es : List Event}

/-! ### Blocks of one member -/

theorem Grouped.eq_of_isSingle (hg : g.Grouped) (hs : g.isSingle = true) {x y : Nat}
    (hx : g.parentOf x = some p) (hy : g.parentOf y = some p) : x = y := by
  obtain ⟨b, hb⟩ := hg.live hx
  have hone := List.all_eq_true.mp hs b (mem_live.mpr ⟨p, hb⟩)
  obtain ⟨z, hz⟩ := List.length_eq_one_iff.mp (beq_iff_eq.mp hone)
  have hmem : ∀ {x}, g.parentOf x = some p → x = z := by
    intro x hx
    rw [← hg.mem_iff hb, hz] at hx
    exact List.mem_singleton.mp hx
  rw [hmem hx, hmem hy]

theorem Grouped.exists_of_someMember (hg : g.Grouped) (hb : g.block? p = some b)
    {kind : Observation → Bool} (h : g.SomeMember b kind) :
    ∃ o x, g.parentOf o = some p ∧ g.observation? o = some x ∧ kind x = true := by
  obtain ⟨o, ho, x, hx, hkind⟩ := h
  exact ⟨o, x, (hg.mem_iff hb).mp ho, hx, hkind⟩

theorem isSingle_assemble {first : Trace} :
    (assemble first traces .single strict).isSingle = true := by
  refine List.all_eq_true.mpr fun b hb => ?_
  obtain ⟨id, hid⟩ := mem_live.mp hb
  rw [block?_assemble] at hid
  obtain ⟨members, hmembers, rfl⟩ := Option.map_eq_some_iff.mp hid
  obtain ⟨o, -, rfl⟩ := List.mem_map.mp (List.mem_of_getElem? hmembers)
  rfl

/-! ### Every observation is one of a trace -/

theorem exists_laysOut_of_lt (number offset : Nat)
    (ho : o < (outgoingFrom number offset traces).length) :
    ∃ t ∈ traces, ∃ k node, node < t.size ∧ k + node = o ∧
      LaysOut (outgoingFrom number offset traces) offset t k := by
  induction traces generalizing number offset o with
  | nil => exact absurd ho (Nat.not_lt_zero _)
  | cons u traces ih =>
    rw [outgoingFrom_cons, List.length_append, length_nodesOf] at ho
    by_cases hlt : o < u.size
    · exact ⟨u, List.mem_cons_self .., 0, o, hlt, Nat.zero_add o,
        laysOut_head number offset u traces⟩
    · obtain ⟨t, ht, k, node, hnode, heq, hk⟩ :=
        ih (number + 1) (offset + u.size) (show o - u.size < _ by omega)
      exact ⟨t, List.mem_cons_of_mem _ ht, u.size + k, node, hnode, by omega, hk.cons⟩

theorem exists_beginsAt_of_lt (ho : o < (withIncoming (outgoing traces)).size) :
    ∃ t ∈ traces, ∃ k node, node < t.size ∧ k + node = o ∧ BeginsAt traces t k := by
  have hn := Array.getElem?_eq_getElem ho
  rw [getElem?_withIncoming] at hn
  obtain ⟨m, hm, -⟩ := Option.map_eq_some_iff.mp hn
  have hlt : o < (outgoingFrom 0 0 traces).length := (List.getElem?_eq_some_iff.mp hm).1
  obtain ⟨t, ht, k, node, hnode, heq, hk⟩ := exists_laysOut_of_lt 0 0 hlt
  exact ⟨t, ht, k, node, hnode, heq, hk.beginsAt⟩

theorem Reached.exists_beginsAt {removed : List Block}
    (h : Reached traces grouping strict removed g) (ho : g.parentOf o = some p) :
    ∃ t ∈ traces, ∃ k node, node < t.size ∧ k + node = o ∧ BeginsAt traces t k := by
  obtain ⟨first, -, -, hnodes, -, -⟩ := h.frame
  refine exists_beginsAt_of_lt ?_
  rw [← hnodes, ← h.coherent.parent_size]
  exact lt_size_of_parentOf ho

theorem Holds.of_observation (h : g.Holds t k) {node : Nat} {x : Observation}
    (hlt : node < t.size) (hx : g.observation? (k + node) = some x) :
    t.observation? node = some x := by
  have hnode : t.observation? node = some _ := List.getElem?_eq_getElem hlt
  have hsame := h.observation hnode
  rw [hx] at hsame
  rw [hnode, hsame]

/-- The trace is held, and its observations have no other edges. -/
structure HoldsExactly (g : Abstraction) (t : Trace) (k : Nat) : Prop extends Holds g t k where
  of_mem_edges : ∀ {a x e}, a < t.size → (e, x) ∈ g.edges (k + a) →
    ∃ b, x = k + b ∧ (e, b) ∈ t.next a

theorem Reached.exists_next_of_edge {removed : List Block}
    (h : Reached traces grouping strict removed g) (hk : BeginsAt traces t k) {a x : Nat}
    {e : Event} (ha : a < t.size) (hm : (e, x) ∈ g.edges (k + a)) :
    ∃ b, x = k + b ∧ (e, b) ∈ t.next a := by
  obtain ⟨first, -, -, hnodes, -, -⟩ := h.frame
  obtain ⟨n, hn, -, hnext⟩ := hk a _ (List.getElem?_eq_getElem ha)
  unfold edges at hm
  rw [hnodes, hn] at hm
  dsimp only at hm
  rw [hnext] at hm
  obtain ⟨⟨f, b⟩, hb, heq⟩ := List.mem_map.mp hm
  injection heq with hf hx
  subst hf
  exact ⟨b, hx.symm, hb⟩

theorem Reached.holdsExactly (h : Reached traces grouping strict [] g)
    (hk : BeginsAt traces t k) (hclosed : t.Closed) : g.HoldsExactly t k where
  toHolds := h.holds hk fun hm => hclosed.of_mem_next hm
  of_mem_edges := fun ha hm => h.exists_next_of_edge hk ha hm

/-! ### Paths of single blocks -/

/-- A path of blocks of one member each is a path of the trace that it starts in. -/
theorem HoldsExactly.exists_path (hg : g.Coherent) (hs : g.isSingle = true)
    (hk : g.HoldsExactly t k) (hp : g.Path p es q) {a : Nat} (ha : a < t.size)
    (hparent : g.parentOf (k + a) = some p) :
    ∃ b, b < t.size ∧ t.Path a es b ∧ g.parentOf (k + b) = some q := by
  induction hp generalizing a with
  | nil p => exact ⟨a, ha, .nil a, hparent⟩
  | cons hn _ ih =>
    obtain ⟨o, x, ho, hedge, hx⟩ := hg.mem_next_iff.mp hn
    rw [hg.toGrouped.eq_of_isSingle hs ho hparent] at hedge
    obtain ⟨c, rfl, hnext⟩ := hk.of_mem_edges ha hedge
    obtain ⟨b, hb, hpath, hq⟩ := ih (hk.closed hnext).2 hx
    exact ⟨b, hb, .cons hnext hpath, hq⟩

variable {r : Recording} {pid : Nat}

/-- What a process does on a path of single blocks is its sequence in one of the traces. -/
theorem Reached.exists_of_spells {processes : Nat} {channels : List Channel}
    (hall : ∀ t ∈ traces, ∃ events, Trace.ofSequences processes channels events = .ok t)
    (h : Reached traces grouping strict [] g) (hs : g.isSingle = true) {w : List Event}
    (hw : g.Spells pid w) : ∃ t ∈ traces, ∀ events,
      Trace.ofSequences processes channels events = .ok t → events[pid]? = some w := by
  have hg := h.coherent
  obtain ⟨p, b, q, c, es, hb, hinit, hc, hacc, hpath, rfl⟩ := hw
  have hpid := hg.toGrouped.pid_lt_of_isInitialFor hb hinit
  obtain ⟨o, x, ho, hx, hxinit⟩ := hg.toGrouped.exists_of_someMember hb
    (((hg.toGrouped.flags_iff hb).2.2 pid hpid).1.mp hinit)
  obtain ⟨o', y, ho', hy, hyacc⟩ := hg.toGrouped.exists_of_someMember hc
    ((hg.toGrouped.flags_iff hc).2.1.mp hacc)
  obtain ⟨t, ht, k, node, hnode, rfl, hbegins⟩ := h.exists_beginsAt ho
  obtain ⟨events, hbuild⟩ := hall t ht
  have hk := h.holdsExactly hbegins (Trace.closed_of_ofSequences hbuild)
  obtain ⟨last, hlast, hpath', hq⟩ := hk.exists_path hg hs hpath hnode ho
  -- The observations that the flags tell of are those at the ends of the path.
  rw [hg.toGrouped.eq_of_isSingle hs ho' hq] at hy
  have hstart := hk.of_observation hnode hx
  have hend := hk.of_observation hlast hy
  exact ⟨t, ht, fun events hbuild =>
    Interleaving.filter_of_path hbuild hpath' hstart hxinit hend hyacc⟩

theorem Reached.recorded_of_spells (hr : r.build = .ok traces)
    (h : Reached traces grouping strict [] g) (hs : g.isSingle = true) {w : List Event}
    (hw : g.Spells pid w) :
    ∃ events ∈ r.traces, events[pid]? = some w := by
  obtain ⟨t, ht, hsequence⟩ :=
    h.exists_of_spells (fun _ ht => (Recording.of_mem_build hr ht).1) hs hw
  obtain ⟨events, hevents, hbuild, -⟩ := Recording.exists_of_mem_build hr ht
  exact ⟨events, hevents, hsequence events hbuild⟩

/-- However the observations are grouped, each process does its sequence in every trace. -/
theorem Reached.spells_of_ofSequences {processes : Nat} {channels : List Channel}
    {events : List (List Event)} (ht : t ∈ traces)
    (hbuild : Trace.ofSequences processes channels events = .ok t)
    (h : Reached traces grouping strict [] g) (hpid : pid < g.processes) {w : List Event}
    (hw : events[pid]? = some w) : g.Spells pid w := by
  obtain ⟨first, -, hall, -, hproc, -⟩ := h.frame
  obtain ⟨k, hk⟩ := h.exists_holds ht fun hm => Interleaving.lt_size_of_mem_next hbuild hm
  obtain ⟨hroot, es, node, y, hp, hy, hacc⟩ :=
    Trace.validate_spec (Interleaving.validate_of_ofSequences hbuild)
  have hinit : t.root.isInitialFor pid = true := by
    refine isInitialFor_of_isInitial hroot (?_ : pid < t.processes)
    rw [(hall t ht).1, ← hproc]
    exact hpid
  have hwhole := Interleaving.filter_of_path hbuild hp rfl hinit hy hacc
  rw [hw] at hwhole
  rw [Option.some.inj hwhole]
  exact hk.spells h.coherent ((hall t ht).1.trans hproc.symm) hroot hp hy hacc hpid

theorem Reached.spells_of_recorded (hr : r.build = .ok traces)
    (h : Reached traces grouping strict [] g) (hpid : pid < g.processes)
    {events : List (List Event)} (hevents : events ∈ r.traces) {w : List Event}
    (hw : events[pid]? = some w) : g.Spells pid w := by
  obtain ⟨t, ht, hbuild, -⟩ := Recording.exists_mem_of_build hr hevents
  exact h.spells_of_ofSequences ht hbuild hpid hw

/-- In an abstraction of recorded traces whose blocks have one member each, the automaton
of a process accepts the sequences that were recorded of it and nothing else. The first
grouping by single observations gives such an abstraction. -/
theorem accepts_single_iff (r : Recording) (traces : List Trace) (hr : r.build = .ok traces) :
    (∀ strict, ∃ g, ofTraces traces .single strict = .ok g ∧ g.isSingle = true) ∧
    ∀ grouping strict g, Reached traces grouping strict [] g → g.isSingle = true → ∀ pid,
      ((∃ a, g.project pid = .ok a) ↔ pid < r.processes) ∧
      ∀ a, g.project pid = .ok a → ∀ w,
        (a.Accepts w ↔ ∃ events ∈ r.traces, events[pid]? = some w) := by
  constructor
  · intro strict
    obtain ⟨g, hg⟩ := exists_ofTraces hr .single strict
    obtain ⟨first, -, -, rfl⟩ := eq_assemble_of_ofTraces hg
    exact ⟨_, hg, isSingle_assemble⟩
  · intro grouping strict g h hs pid
    have hg := h.coherent
    have hlt : ∀ {a}, g.project pid = .ok a → pid < g.processes := by
      intro a ha
      obtain ⟨-, w, p, b, -, -, -, hb, hinit, -⟩ := hg.project_eq_ok_iff.mp ha
      exact hg.toGrouped.pid_lt_of_isInitialFor hb hinit
    refine ⟨?_, fun a ha w => ?_⟩
    · rw [← h.processes_eq hr]
      constructor
      · rintro ⟨a, ha⟩
        exact hlt ha
      · intro hpid
        obtain ⟨w, hw⟩ := h.exists_spells (Recording.closed_of_build hr) hpid
        exact ⟨_, hg.project_eq_ok_iff.mpr ⟨rfl, w, hw⟩⟩
    · rw [accepts_project_iff h ha]
      constructor
      · exact h.recorded_of_spells hr hs
      · rintro ⟨events, hevents, hw⟩
        exact h.spells_of_recorded hr (hlt ha) hevents hw

/-- The sender accepts the one message that it was seen to send, and not the empty word. -/
theorem accepts_single_handover : ∃ g a, handover.build = .ok [handoverTrace] ∧
    ofTraces [handoverTrace] .single false = .ok g ∧ g.project 0 = .ok a ∧
    a.Accepts [.send "m" ⟨0, 1, 0, false⟩] ∧ ¬a.Accepts [] := by
  have hbuild : handover.build = .ok [handoverTrace] := by rfl
  obtain ⟨hfirst, hall⟩ := accepts_single_iff handover [handoverTrace] hbuild
  obtain ⟨g, hg, hs⟩ := hfirst false
  obtain ⟨hproject, hwords⟩ := hall .single false g (.start hg) hs 0
  obtain ⟨a, ha⟩ := hproject.mpr (by decide)
  have haccepts := hwords a ha
  refine ⟨g, a, hbuild, hg, ha, (haccepts _).mpr ⟨_, List.mem_singleton_self _, rfl⟩, ?_⟩
  rw [haccepts]
  rintro ⟨events, hevents, hw⟩
  rw [List.mem_singleton.mp hevents] at hw
  cases hw

end ProtocolInference.Abstraction
