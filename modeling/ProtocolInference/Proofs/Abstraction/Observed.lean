import ProtocolInference.Proofs.Abstraction.Network
import ProtocolInference.Proofs.Trace.Executions

/-!
# Observed executions in the network

The observations of a trace keep their edges in an abstraction, so an execution of the
trace is a path of blocks as long as no block is removed. Its first block is initial
for every process, and its last block is accepting if the execution ends accepting. So
every process does its part of the execution. The channels allow the execution already
in the trace. Therefore it is a complete run of the network, however the blocks have
been split.
-/

namespace ProtocolInference.Abstraction

/-! ### Traces among the observations -/

/-- The nodes of traces that come after others. -/
def outgoingFrom (number offset : Nat) (traces : List Trace) : List Node :=
  ((traces.zip (offsets offset traces)).zipIdx number).flatMap fun ((t, offset), number) =>
    nodesOf number offset t

theorem outgoingFrom_cons (number offset : Nat) (t : Trace) (traces : List Trace) :
    outgoingFrom number offset (t :: traces) =
      nodesOf number offset t ++ outgoingFrom (number + 1) (offset + t.size) traces := rfl

theorem length_nodesOf (number offset : Nat) (t : Trace) :
    (nodesOf number offset t).length = t.size := by
  simp [nodesOf, Trace.size]

/-- The list has the nodes of the trace from place `k` on. -/
def LaysOut (nodes : List Node) (offset : Nat) (t : Trace) (k : Nat) : Prop :=
  ∃ number, ∀ node < t.size, nodes[k + node]? = (nodesOf number (offset + k) t)[node]?

theorem laysOut_head (number offset : Nat) (t : Trace) (traces : List Trace) :
    LaysOut (outgoingFrom number offset (t :: traces)) offset t 0 := by
  refine ⟨number, fun node hnode => ?_⟩
  rw [outgoingFrom_cons, Nat.zero_add,
    List.getElem?_append_left (by rw [length_nodesOf]; exact hnode)]
  rfl

theorem LaysOut.cons {number offset k : Nat} {t u : Trace} {traces : List Trace}
    (h : LaysOut (outgoingFrom (number + 1) (offset + u.size) traces) (offset + u.size) t k) :
    LaysOut (outgoingFrom number offset (u :: traces)) offset t (u.size + k) := by
  obtain ⟨m, hk⟩ := h
  refine ⟨m, fun node hnode => ?_⟩
  rw [outgoingFrom_cons, Nat.add_assoc,
    List.getElem?_append_right (by rw [length_nodesOf]; omega), length_nodesOf,
    Nat.add_sub_cancel_left, hk node hnode, Nat.add_assoc]

theorem exists_laysOut {t : Trace} {traces : List Trace} (ht : t ∈ traces)
    (number offset : Nat) : ∃ k, LaysOut (outgoingFrom number offset traces) offset t k := by
  induction traces generalizing number offset with
  | nil => exact absurd ht List.not_mem_nil
  | cons u traces ih =>
    rcases List.mem_cons.mp ht with rfl | ht
    · exact ⟨0, laysOut_head number offset t traces⟩
    · obtain ⟨k, hk⟩ := ih ht (number + 1) (offset + u.size)
      exact ⟨u.size + k, hk.cons⟩

/-- From number `k` on, the nodes are the observations of the trace, with their edges. -/
def BeginsAt (traces : List Trace) (t : Trace) (k : Nat) : Prop :=
  ∀ node o, t.observation? node = some o → ∃ n,
    (withIncoming (outgoing traces))[k + node]? = some n ∧ n.observation = o ∧
      n.next = (t.next node).map fun (e, target) => (e, k + target)

theorem LaysOut.beginsAt {t : Trace} {traces : List Trace} {k : Nat}
    (h : LaysOut (outgoingFrom 0 0 traces) 0 t k) : BeginsAt traces t k := by
  obtain ⟨m, hk⟩ := h
  intro node o ho
  have hlt : node < t.size := (List.getElem?_eq_some_iff.mp ho).1
  have hnode : (outgoing traces)[k + node]? =
      some ⟨m, o, (t.next node).map fun (e, target) => (e, k + target), []⟩ := by
    refine (hk node hlt).trans ?_
    rw [Nat.zero_add, nodesOf, List.getElem?_map, List.getElem?_zipIdx]
    rw [Trace.observation?] at ho
    rw [ho, Nat.zero_add]
    rfl
  rw [getElem?_withIncoming, hnode]
  exact ⟨_, rfl, rfl, rfl⟩

/-! ### Executions as paths of blocks -/

section

variable {g : Abstraction} {t : Trace} {k : Nat}

/-- The abstraction holds the observations of the trace from number `k` on, each of them
in a block. -/
structure Holds (g : Abstraction) (t : Trace) (k : Nat) : Prop where
  closed : ∀ {a b e}, (e, b) ∈ t.next a → a < t.size ∧ b < t.size
  observation : ∀ {node o}, t.observation? node = some o → g.observation? (k + node) = some o
  edges : ∀ {a b e}, (e, b) ∈ t.next a → (e, k + b) ∈ g.edges (k + a)
  parent : ∀ {node}, node < t.size → ∃ id, g.parentOf (k + node) = some id

theorem Holds.path (hg : g.Coherent) (h : g.Holds t k) {a b : Nat} {es : List Event}
    (hp : t.Path a es b) (ha : a < t.size) :
    ∃ p q, g.parentOf (k + a) = some p ∧ g.parentOf (k + b) = some q ∧ g.Path p es q := by
  induction hp with
  | nil node =>
    obtain ⟨p, hp⟩ := h.parent ha
    exact ⟨p, p, hp, hp, .nil p⟩
  | cons hnext _ ih =>
    obtain ⟨q, r, hq, hr, hpath⟩ := ih (h.closed hnext).2
    obtain ⟨p, hp⟩ := h.parent ha
    exact ⟨p, r, hp, hr, .cons (hg.mem_next_iff.mpr ⟨_, _, hp, h.edges hnext, hq⟩) hpath⟩

theorem Grouped.someMember_of_parentOf (hg : g.Grouped) {o id : Nat} {x : Observation}
    {kind : Observation → Bool} (ho : g.parentOf o = some id) (hx : g.observation? o = some x)
    (hkind : kind x = true) : ∃ b, g.block? id = some b ∧ g.SomeMember b kind := by
  obtain ⟨b, hb⟩ := hg.live ho
  exact ⟨b, hb, o, (hg.mem_iff hb).mpr ho, x, hx, hkind⟩

theorem isInitialFor_of_isInitial {o : Observation} {pid : Nat} (h : o.isInitial = true)
    (hpid : pid < o.locals.length) : o.isInitialFor pid = true := by
  rw [Observation.isInitial, Bool.and_eq_true, List.all_eq_true] at h
  rw [Observation.isInitialFor, List.getElem?_eq_getElem hpid]
  exact h.1 _ (List.getElem_mem hpid)

/-- Every process does its part of an execution that ends accepting. -/
theorem Holds.spells (hg : g.Coherent) (h : g.Holds t k) (hproc : t.processes = g.processes)
    (hroot : t.root.isInitial = true) {node : Nat} {es : List Event} {o : Observation}
    (hp : t.Path 0 es node) (ho : t.observation? node = some o) (hacc : o.isAccept = true)
    {pid : Nat} (hpid : pid < g.processes) : g.Spells pid (es.filter (·.pid == pid)) := by
  obtain ⟨p, q, hparent, hparent', hpath⟩ := h.path hg hp (Nat.succ_pos _)
  have hinit : t.root.isInitialFor pid = true :=
    isInitialFor_of_isInitial hroot (hproc ▸ hpid : pid < t.processes)
  have hfirst : g.observation? (k + 0) = some t.root := h.observation rfl
  obtain ⟨b, hb, hsome⟩ : ∃ b, g.block? p = some b ∧ g.SomeMember b (·.isInitialFor pid) :=
    hg.toGrouped.someMember_of_parentOf hparent hfirst hinit
  obtain ⟨c, hc, hsome'⟩ := hg.toGrouped.someMember_of_parentOf hparent' (h.observation ho) hacc
  exact ⟨p, b, q, c, es, hb, ((hg.toGrouped.flags_iff hb).2.2 pid hpid).1.mpr hsome, hc,
    (hg.toGrouped.flags_iff hc).2.1.mpr hsome', hpath, rfl⟩

/-- As long as no block is removed, a trace whose edges lead to its observations is held. -/
theorem Reached.holds {traces : List Trace} {grouping : Grouping} {strict : Bool}
    (h : Reached traces grouping strict [] g) (hk : BeginsAt traces t k)
    (hclosed : ∀ {a b e}, (e, b) ∈ t.next a → a < t.size ∧ b < t.size) : g.Holds t k := by
  obtain ⟨first, -, -, hnodes, -, -⟩ := h.frame
  unfold BeginsAt at hk
  rw [← hnodes] at hk
  refine ⟨fun hm => hclosed hm, ?_, ?_, ?_⟩
  · intro node o ho
    obtain ⟨n, hn, hobs, -⟩ := hk node o ho
    rw [observation?, hn, Option.map_some, hobs]
  · intro a b e hm
    have ha := List.getElem?_eq_getElem (hclosed hm).1
    obtain ⟨n, hn, -, hnext⟩ := hk a _ ha
    unfold edges
    rw [hn]
    dsimp only
    rw [hnext]
    exact List.mem_map.mpr ⟨(e, b), hm, rfl⟩
  · intro node hnode
    obtain ⟨n, hn, -, -⟩ := hk node _ (List.getElem?_eq_getElem hnode)
    have hlt := (Array.getElem?_eq_some_iff.mp hn).1
    rw [← Option.ne_none_iff_exists']
    intro hnone
    obtain ⟨b, hb, -⟩ := (h.parentOf_eq_none_iff hlt).mp hnone
    cases hb

theorem Reached.exists_holds {traces : List Trace} {grouping : Grouping} {strict : Bool}
    (h : Reached traces grouping strict [] g) (ht : t ∈ traces)
    (hclosed : ∀ {a b e}, (e, b) ∈ t.next a → a < t.size ∧ b < t.size) : ∃ k, g.Holds t k := by
  obtain ⟨k, hk⟩ := exists_laysOut ht 0 0
  exact ⟨k, h.holds hk.beginsAt fun hm => hclosed hm⟩

end

/-- Whatever the first grouping, and however blocks are split, every execution of a
recording that ends accepting is a complete run of the network. -/
theorem completeRun_of_execution {r : Recording} {traces : List Trace} {grouping : Grouping}
    {strict : Bool} {g : Abstraction} (hr : r.build = .ok traces)
    (h : Reached traces grouping strict [] g) :
    ∃ n, g.network = .ok n ∧ ∀ t ∈ traces, ∀ es node o, t.Path 0 es node →
      t.observation? node = some o → o.isAccept = true → n.CompleteRun es := by
  have hg := h.coherent
  obtain ⟨first, hfirst, hall, -, hproc, hchan⟩ := h.frame
  have hspells : ∀ t ∈ traces, ∀ es node o, t.Path 0 es node → t.observation? node = some o →
      o.isAccept = true → ∀ pid < g.processes, g.Spells pid (es.filter (·.pid == pid)) := by
    intro t ht es node o hp ho hacc pid hpid
    obtain ⟨⟨events, hevents⟩, hvalid⟩ := Recording.of_mem_build hr ht
    obtain ⟨k, hk⟩ := h.exists_holds ht fun hm => Interleaving.lt_size_of_mem_next hevents hm
    exact hk.spells hg ((hall t ht).1.trans hproc.symm) (Trace.validate_spec hvalid).1 hp ho hacc
      hpid
  -- Some execution ends accepting, so every process does a word.
  obtain ⟨n, hn⟩ : ∃ n, g.network = .ok n := by
    refine ⟨_, hg.network_eq_ok_iff.mpr ⟨rfl, fun pid hpid => ?_⟩⟩
    obtain ⟨-, es, node, o, hp, ho, hacc⟩ :=
      Trace.validate_spec (Recording.of_mem_build hr hfirst).2
    exact ⟨_, hspells first hfirst es node o hp ho hacc pid hpid⟩
  refine ⟨n, hn, fun t ht es node o hp ho hacc => ?_⟩
  obtain ⟨⟨events, hevents⟩, -⟩ := Recording.of_mem_build hr ht
  obtain ⟨hpids, x, hx, hrun⟩ := Interleaving.execution_run hevents hp
  rw [ho] at hx
  injection hx with hx
  subst hx
  have hchannels : g.channels = r.channels := by
    rw [hchan, ← (hall t ht).2]
    exact (Interleaving.ofSequences_spec hevents).2.1
  have hprocesses : g.processes = r.processes := by
    rw [hproc, ← (hall t ht).1]
    exact Interleaving.processes_of_ofSequences hevents
  have hempty : o.queues.isEmpty = true := ((Bool.and_eq_true ..).mp hacc).2
  rw [hg.completeRun_iff hn, hchannels]
  exact ⟨hprocesses ▸ hpids, hspells t ht es node o hp ho hacc, o.queues, hrun, hempty⟩

/-- One process hands a message over to another. -/
def handover : Recording where
  processes := 2
  channels := [⟨0, 1, 0, false⟩]
  traces := [[[.send "m" ⟨0, 1, 0, false⟩], [.receive "m" ⟨0, 1, 0, false⟩]]]

def handoverTrace : Trace where
  channels := [⟨0, 1, 0, false⟩]
  root := ⟨[⟨"0", true, false⟩, ⟨"0", true, false⟩], ⟨[[]]⟩⟩
  later := [⟨[⟨"1", false, true⟩, ⟨"0", true, false⟩], ⟨[["m"]]⟩⟩,
    ⟨[⟨"1", false, true⟩, ⟨"1", false, true⟩], ⟨[[]]⟩⟩]
  edges := [⟨0, .send "m" ⟨0, 1, 0, false⟩, 1⟩, ⟨1, .receive "m" ⟨0, 1, 0, false⟩, 2⟩]

/-- The observations before and after the handover are told apart. -/
theorem completeRun_of_execution_handover : ∃ g h fresh n,
    handover.build = .ok [handoverTrace] ∧
    ofTraces [handoverTrace] .queueTops false = .ok g ∧
    g.split ⟨0, [0], [2]⟩ (fun _ _ => false) = .ok (h, fresh) ∧ h.network = .ok n ∧
    n.CompleteRun [.send "m" ⟨0, 1, 0, false⟩, .receive "m" ⟨0, 1, 0, false⟩] := by
  have hbuild : handover.build = .ok [handoverTrace] := by rfl
  have hstart : ofTraces [handoverTrace] .queueTops false =
      .ok (assemble handoverTrace [handoverTrace] .queueTops false) := rfl
  obtain ⟨⟨h, fresh⟩, hsplit⟩ := Checks.exists_eq_ok (show Except.isOk
    ((assemble handoverTrace [handoverTrace] .queueTops false).split ⟨0, [0], [2]⟩
      fun _ _ => false) = true by decide +kernel)
  obtain ⟨n, hn, hall⟩ := completeRun_of_execution hbuild (.split (.start hstart) hsplit)
  have hpath : handoverTrace.Path 0
      [.send "m" ⟨0, 1, 0, false⟩, .receive "m" ⟨0, 1, 0, false⟩] 2 :=
    .cons (show _ ∈ handoverTrace.next 0 by decide)
      (.cons (show (_, 2) ∈ handoverTrace.next 1 by decide) (.nil 2))
  exact ⟨_, h, fresh, n, hbuild, hstart, hsplit, hn,
    hall _ (List.mem_singleton_self _) _ 2 _ hpath rfl (by decide)⟩

end ProtocolInference.Abstraction
