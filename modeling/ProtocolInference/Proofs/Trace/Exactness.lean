import ProtocolInference.Proofs.Trace.Executions
import ProtocolInference.Proofs.Trace.Exploration

/-!
# The graph of a recording is the graph of its schedules

The recorded sequences give a graph if and only if their events fit the system and some
order of all of them runs from empty channels to empty channels. The nodes of the graph
are then the progress vectors that schedules reach, and its edges are the events that the
contents of the channels enable. What a node shows of the channels is left there by every
schedule that reaches it, although the search keeps what the first one left.
-/

namespace ProtocolInference

/-- An enabled event that fits the channels can be executed. -/
theorem Queues.exists_apply {q : Queues} {e : Event} {processes : Nat} {channels : List Channel}
    (hvalid : e.validate processes channels = .ok ()) (hsize : q.size = channels.length)
    (hen : q.enables e = true) : ∃ r, q.apply e = .ok r := by
  rcases Event.cases_of_validate hvalid with hk | ⟨c, hc, hdecl, hkind⟩
  · exact ⟨q, (Queues.apply_internal hk).mpr rfl⟩
  · have hlt : ¬q.size ≤ c.index := by
      rw [hsize, not_le]
      exact (List.getElem?_eq_some_iff.mp hdecl).1
    rcases hkind with ⟨hk, -⟩ | ⟨hk, -⟩
    · refine ⟨q.push c.index e.label, ?_⟩
      unfold apply
      rw [hk, hc]
      exact if_neg hlt
    · refine ⟨q.pop c.index, ?_⟩
      unfold apply
      rw [hk, hc]
      dsimp only
      rw [if_neg hlt, if_pos hen]

namespace Interleaving

variable {processes : Nat} {channels : List Channel} {events : List (List Event)} {t : Trace}
  {c d : Configuration} {pid : Nat} {e : Event} {es : List Event}

/-! ### The steps of one process -/

theorem exists_step (hfit : Fit channels events) (hc : Balanced channels events c)
    {sequence : List Event} {n : Nat} (hseq : events[pid]? = some sequence)
    (hn : c.progress[pid]? = some n) (he : sequence[n]? = some e)
    (hen : c.queues.enables e = true) : ∃ d, step? events c pid = some (e, d) := by
  obtain ⟨-, m, hvalid⟩ := hfit pid sequence hseq e (List.mem_of_getElem? he)
  obtain ⟨queues, happly⟩ := Queues.exists_apply hvalid hc.size hen
  exact ⟨⟨c.progress.modify pid (· + 1), queues⟩,
    step?_eq_some_iff.mpr ⟨sequence, n, hseq, hn, he, hen, happly, rfl⟩⟩

theorem filter_steps (hfit : Fit channels events) (hpid : pid < events.length) :
    (steps events c).filter (·.1.pid == pid) = (step? events c pid).toList := by
  have hown : ∀ p, (step? events c p).filter (·.1.pid == pid) =
      if p == pid then step? events c p else none := by
    intro p
    cases hs : step? events c p with
    | none => simp
    | some x =>
      obtain ⟨sequence, n, hseq, -, he, -⟩ := step?_eq_some_iff.mp hs
      have hp := (hfit p sequence hseq x.1 (List.mem_of_getElem? he)).1
      simp [Option.filter, hp]
  have hone : (List.range events.length).filter (· == pid) = [pid] := by
    have hcount := List.count_eq_one_of_mem List.nodup_range (List.mem_range.mpr hpid)
    rw [List.filter_beq, hcount]
    rfl
  calc (steps events c).filter (·.1.pid == pid)
      = (List.range events.length).filterMap fun p =>
          (step? events c p).filter (·.1.pid == pid) := List.filter_filterMap ..
    _ = ((List.range events.length).filter (· == pid)).filterMap (step? events c) := by
        rw [List.filterMap_filter]
        exact List.filterMap_congr fun p _ => hown p
    _ = (step? events c pid).toList := by
        rw [hone]
        cases hs : step? events c pid <;> simp [hs]

/-! ### When there is a graph -/

theorem checkEvents_eq_ok_iff : checkEvents processes channels events = .ok () ↔
    ∀ (pid : Nat) (sequence : List Event), events[pid]? = some sequence → ∀ e ∈ sequence,
      e.validate processes channels = .ok () ∧ e.pid = pid := by
  have hone : ∀ (e : Event) (pid : Nat), (do
      e.validate processes channels
      if e.pid ≠ pid then throw (.misplaced e pid) : Except TraceError Unit) = .ok () ↔
        e.validate processes channels = .ok () ∧ e.pid = pid := by
    intro e pid
    rw [Checks.bind_eq_ok_iff]
    constructor
    · rintro ⟨⟨⟩, hvalid, howner⟩
      refine ⟨hvalid, ?_⟩
      by_contra hne
      rw [if_pos hne] at howner
      cases howner
    · rintro ⟨hvalid, howner⟩
      refine ⟨(), hvalid, ?_⟩
      rw [if_neg (not_not.mpr howner)]
      rfl
  unfold checkEvents
  rw [Checks.forM_eq_ok_iff]
  constructor
  · intro h pid sequence hseq e he
    have hpair := h (sequence, pid) (List.mem_zipIdx_iff_getElem?.mpr hseq)
    exact (hone e pid).mp (Checks.forM_eq_ok_iff.mp hpair e he)
  · intro h ⟨sequence, pid⟩ hmem
    refine Checks.forM_eq_ok_iff.mpr fun e he => (hone e pid).mpr ?_
    exact h pid sequence (List.mem_zipIdx_iff_getElem?.mp hmem) e he

/-- The configurations that the search finds and the edges between them. -/
def search (channels : List Channel) (events : List (List Event)) :
    List Configuration × List Edge :=
  layers events events.flatten.length 0 [start channels events]

theorem explored_search (hfit : Fit channels events) :
    Explored channels events 0 0 (search channels events).1 (search channels events).2 :=
  (isLayer_start channels events).explored hfit _ 0 (by omega)

theorem search_eq_cons (hfit : Fit channels events) :
    ∃ later, (search channels events).1 = start channels events :: later :=
  (layers_spec hfit events.flatten.length 0
    (List.forall_mem_singleton.mpr (balanced_start channels events))).1

theorem ofSequences_eq_ok_iff : Trace.ofSequences processes channels events = .ok t ↔
    events.length = processes ∧ checkEvents processes channels events = .ok () ∧
      ∃ last, (search channels events).1.find? (·.progress == finish events) = some last ∧
        last.queues.isEmpty = true ∧ t = ⟨channels, observe events (start channels events),
          (search channels events).1.tail.map (observe events), (search channels events).2⟩ := by
  unfold Trace.ofSequences
  dsimp only
  simp only [Checks.guard_eq_ok_iff, not_not]
  refine and_congr_right fun _ => ?_
  rw [Checks.bind_eq_ok_iff]
  constructor
  · rintro ⟨⟨⟩, hcheck, h⟩
    refine ⟨hcheck, ?_⟩
    split at h
    · cases h
    · rename_i last hlast
      obtain ⟨hempty, ht⟩ := Checks.require_eq_ok_iff.mp h
      injection ht with ht
      exact ⟨last, hlast, hempty, ht.symm⟩
  · rintro ⟨hcheck, last, hlast, hempty, ht⟩
    refine ⟨(), hcheck, ?_⟩
    have hfound : (layers events events.flatten.length 0 [start channels events]).1.find?
        (·.progress == finish events) = some last := hlast
    rw [hfound]
    dsimp only
    rw [ht]
    exact Checks.require_eq_ok_iff.mpr ⟨hempty, rfl⟩

theorem schedule_finish_iff : Schedule events (finish events) es ↔
    (∀ e ∈ es, e.pid < events.length) ∧ ∀ (pid : Nat) (sequence : List Event),
      events[pid]? = some sequence → es.filter (·.pid == pid) = sequence := by
  constructor
  · intro h
    refine ⟨h.pid_lt, fun pid sequence hseq => ?_⟩
    have hn : (finish events)[pid]? = some sequence.length := by
      rw [finish, List.getElem?_map, hseq]
      rfl
    rw [(h.part hseq hn).2, List.take_length]
  · rintro ⟨hlt, hpart⟩
    refine ⟨List.length_map .., hlt, fun {pid sequence n} hseq hn => ?_⟩
    rw [finish, List.getElem?_map, hseq] at hn
    injection hn with hn
    rw [← hn, List.take_length]
    exact ⟨le_rfl, hpart pid sequence hseq⟩

theorem find_finish_iff (hfit : Fit channels events) :
    (search channels events).1.find? (·.progress == finish events) = some c ↔
      c.progress = finish events ∧ ∃ es, Scheduled channels events c es := by
  have hmem : ∀ d, d ∈ (search channels events).1 ↔ ∃ es, Scheduled channels events d es := by
    intro d
    rw [(explored_search hfit).mem_iff]
    constructor
    · rintro ⟨es, -, hes⟩
      exact ⟨es, hes⟩
    · rintro ⟨es, hes⟩
      exact ⟨es, Nat.zero_le _, hes⟩
  constructor
  · intro h
    have hfinish := List.find?_some h
    exact ⟨eq_of_beq hfinish, (hmem c).mp (List.mem_of_find?_eq_some h)⟩
  · rintro ⟨hfinish, es, hes⟩
    obtain ⟨d, hd⟩ : ∃ d, (search channels events).1.find? (·.progress == finish events) =
        some d := by
      refine Option.isSome_iff_exists.mp (List.find?_isSome.mpr ⟨c, (hmem c).mpr ⟨es, hes⟩, ?_⟩)
      exact beq_iff_eq.mpr hfinish
    obtain ⟨fs, hfs⟩ := (hmem d).mp (List.mem_of_find?_eq_some hd)
    have hprogress := List.find?_some hd
    rw [hd, hfs.eq_of_progress hfit hes ((eq_of_beq hprogress).trans hfinish.symm)]

/-! ### What the graph is -/

/-- What the node of some progress shows, and its edges. -/
structure Shows (t : Trace) (channels : List Channel) (events : List (List Event))
    (vectors : List (List Nat)) (node : Nat) (progress : List Nat) (o : Observation) : Prop where
  length_eq : o.locals.length = events.length
  locals : ∀ {pid n : Nat} {sequence : List Event}, progress[pid]? = some n →
    events[pid]? = some sequence → o.locals[pid]? = some ⟨toString n, n == 0, n == sequence.length⟩
  queues : ∀ {es q}, Schedule events progress es → (Queues.empty channels.length).Run es q →
    o.queues = q
  moves : ∀ {pid n : Nat} {sequence : List Event} {e : Event}, events[pid]? = some sequence →
    progress[pid]? = some n → sequence[n]? = some e → o.queues.enables e = true →
      ∃ target, vectors[target]? = some (progress.set pid (n + 1)) ∧
        (t.next node).filter (·.1.pid == pid) = [(e, target)]
  waits : ∀ {pid n : Nat} {sequence : List Event}, events[pid]? = some sequence →
    progress[pid]? = some n → (∀ e, sequence[n]? = some e → o.queues.enables e = false) →
      (t.next node).filter (·.1.pid == pid) = []

/-- The trace has a node for every progress that a schedule reaches. A node shows what
every such schedule leaves, and each process with an enabled event has one edge there. -/
structure Unfolds (t : Trace) (channels : List Channel) (events : List (List Event))
    (vectors : List (List Nat)) : Prop where
  channels_eq : t.channels = channels
  nodup : vectors.Nodup
  size_eq : t.size = vectors.length
  mem_iff : ∀ progress, progress ∈ vectors ↔
    ∃ es q, Schedule events progress es ∧ (Queues.empty channels.length).Run es q
  root : vectors[0]? = some (events.map fun _ => 0)
  next_lt : ∀ {node e target}, (e, target) ∈ t.next node → node < t.size ∧ e.pid < events.length
  shows : ∀ {node : Nat} {progress : List Nat}, vectors[node]? = some progress →
    ∃ o, t.observation? node = some o ∧ Shows t channels events vectors node progress o

theorem locals_observe {n : Nat} {sequence : List Event} (hn : c.progress[pid]? = some n)
    (hseq : events[pid]? = some sequence) :
    (observe events c).locals[pid]? = some ⟨toString n, n == 0, n == sequence.length⟩ := by
  simp [observe, finish, List.getElem?_zip_eq_some, hn, hseq]

theorem next_eq (hfit : Fit channels events) (hedges : t.edges = (search channels events).2)
    {node : Nat} (hc : (search channels events).1[node]? = some c) :
    t.next node = (steps events c).map fun x =>
      (x.1, (search channels events).1.findIdx (·.progress == x.2.progress)) := by
  have hout := (explored_search hfit).edges_eq hc
  simp only [Nat.zero_add] at hout
  rw [Trace.next, hedges, hout, List.map_map]
  rfl

theorem filter_next (hfit : Fit channels events) (hedges : t.edges = (search channels events).2)
    {node : Nat} (hc : (search channels events).1[node]? = some c) (hpid : pid < events.length) :
    (t.next node).filter (·.1.pid == pid) = (step? events c pid).toList.map fun x =>
      (x.1, (search channels events).1.findIdx (·.progress == x.2.progress)) := by
  rw [next_eq hfit hedges hc, List.filter_map, ← filter_steps hfit hpid]
  rfl

theorem shows_observe (hfit : Fit channels events)
    (hedges : t.edges = (search channels events).2) {node : Nat}
    (hc : (search channels events).1[node]? = some c) :
    Shows t channels events ((search channels events).1.map (·.progress)) node c.progress
      (observe events c) := by
  have hexplored := explored_search hfit
  obtain ⟨es, -, hes⟩ := (hexplored.mem_iff c).mp (List.mem_of_getElem? hc)
  constructor
  case length_eq => simp [observe, finish, hes.1.length_eq]
  case locals =>
    intro pid n sequence hn hseq
    exact locals_observe hn hseq
  case queues =>
    intro fs q hfs hrun
    have hother : Scheduled channels events ⟨c.progress, q⟩ fs := ⟨hfs, hrun⟩
    exact congrArg (·.queues) (hes.eq_of_progress hfit hother rfl)
  case moves =>
    intro pid n sequence e hseq hn he hen
    have hlt := (List.getElem?_eq_some_iff.mp hseq).1
    obtain ⟨d, hs⟩ := exists_step hfit (hes.balanced hfit) hseq hn he hen
    have hd : d ∈ (search channels events).1 := (hexplored.mem_iff d).mpr
      ⟨_, Nat.zero_le _, (scheduled_snoc_iff hfit).mpr ⟨c, pid, hes, hs⟩⟩
    refine ⟨_, ?_, by rw [filter_next hfit hedges hc hlt, hs]; rfl⟩
    have hfound := List.findIdx_lt_length_of_exists (p := (·.progress == d.progress))
      ⟨d, hd, beq_self_eq_true _⟩
    have hsame := eq_of_beq (List.findIdx_getElem (w := hfound))
    obtain ⟨-, n', -, hn', -, -, -, hprogress⟩ := step?_eq_some_iff.mp hs
    rw [List.getElem?_map, List.getElem?_eq_getElem hfound, Option.map_some, hsame, hprogress]
    rw [List.modify_eq_set_getElem?, hn]
    rfl
  case waits =>
    intro pid n sequence hseq hn hwait
    rw [filter_next hfit hedges hc (List.getElem?_eq_some_iff.mp hseq).1]
    cases hs : step? events c pid with
    | none => rfl
    | some x =>
      obtain ⟨sequence', n', hseq', hn', he, hen, -⟩ := step?_eq_some_iff.mp hs
      rw [hseq] at hseq'
      injection hseq' with hseq'
      rw [hn] at hn'
      injection hn' with hn'
      subst hseq' hn'
      have hnot := hwait x.1 he
      rw [observe, hen] at hnot
      cases hnot

theorem unfolds_of_ofSequences (h : Trace.ofSequences processes channels events = .ok t) :
    Unfolds t channels events ((search channels events).1.map (·.progress)) := by
  obtain ⟨hlen, hcheck, last, hlast, hempty, ht⟩ := ofSequences_eq_ok_iff.mp h
  have hfit := fit_of_checkEvents hcheck
  have hexplored := explored_search hfit
  obtain ⟨later, hlater⟩ := search_eq_cons hfit
  have hobs : t.observations = (search channels events).1.map (observe events) := by
    rw [ht, hlater]
    rfl
  have hedges : t.edges = (search channels events).2 := by rw [ht]
  constructor
  case channels_eq => rw [ht]
  case nodup => exact hexplored.nodup
  case size_eq => rw [Trace.size, hobs, List.length_map, List.length_map]
  case mem_iff =>
    intro progress
    rw [List.mem_map]
    constructor
    · rintro ⟨c, hc, hprogress⟩
      obtain ⟨es, -, hes⟩ := (hexplored.mem_iff c).mp hc
      rw [← hprogress]
      exact ⟨es, c.queues, hes⟩
    · rintro ⟨es, q, hes⟩
      exact ⟨⟨progress, q⟩, (hexplored.mem_iff _).mpr ⟨es, Nat.zero_le _, hes⟩, rfl⟩
  case root => rw [hlater]; rfl
  case next_lt =>
    intro node e target hnext
    refine ⟨(lt_size_of_mem_next h hnext).1, ?_⟩
    obtain ⟨-, -, -, configurations, -, -, hsteps⟩ := ofSequences_spec h
    obtain ⟨c, d, pid, -, -, hs⟩ := exists_step_of_mem_next hsteps hnext
    obtain ⟨sequence, n, hseq, -, he, -⟩ := step?_eq_some_iff.mp hs
    rw [(hfit pid sequence hseq e (List.mem_of_getElem? he)).1]
    exact (List.getElem?_eq_some_iff.mp hseq).1
  case shows =>
    intro node progress hnode
    rw [List.getElem?_map] at hnode
    obtain ⟨c, hc, hprogress⟩ := Option.map_eq_some_iff.mp hnode
    rw [← hprogress]
    refine ⟨observe events c, ?_, shows_observe hfit hedges hc⟩
    rw [Trace.observation?, hobs, List.getElem?_map, hc]
    rfl

/-- The sequences give a graph if and only if they fit the system and some order of all
events runs from empty channels to empty channels, and then the graph is that of all
schedules. -/
theorem ofSequences_exact (processes : Nat) (channels : List Channel)
    (events : List (List Event)) :
    ((∃ t, Trace.ofSequences processes channels events = .ok t) ↔
      events.length = processes ∧
      (∀ (pid : Nat) (sequence : List Event), events[pid]? = some sequence → ∀ e ∈ sequence,
        e.validate processes channels = .ok () ∧ e.pid = pid) ∧
      ∃ es q, (∀ e ∈ es, e.pid < events.length) ∧
        (∀ (pid : Nat) (sequence : List Event), events[pid]? = some sequence →
          es.filter (·.pid == pid) = sequence) ∧
        (Queues.empty channels.length).Run es q ∧ q.isEmpty = true) ∧
    ∀ t, Trace.ofSequences processes channels events = .ok t →
      ∃ vectors, Unfolds t channels events vectors := by
  refine ⟨?_, fun t ht => ⟨_, unfolds_of_ofSequences ht⟩⟩
  constructor
  · rintro ⟨t, ht⟩
    obtain ⟨hlen, hcheck, last, hlast, hempty, -⟩ := ofSequences_eq_ok_iff.mp ht
    obtain ⟨hfinish, es, hes⟩ := (find_finish_iff (fit_of_checkEvents hcheck)).mp hlast
    have hsched := hes.1
    rw [hfinish] at hsched
    obtain ⟨hlt, hpart⟩ := schedule_finish_iff.mp hsched
    exact ⟨hlen, checkEvents_eq_ok_iff.mp hcheck, es, last.queues, hlt, hpart, hes.2, hempty⟩
  · rintro ⟨hlen, hall, es, q, hlt, hpart, hrun, hempty⟩
    have hcheck := checkEvents_eq_ok_iff.mpr hall
    have hlast := (find_finish_iff (fit_of_checkEvents hcheck)).mpr
      (show (⟨finish events, q⟩ : Configuration).progress = finish events ∧ _ from
        ⟨rfl, es, schedule_finish_iff.mpr ⟨hlt, hpart⟩, hrun⟩)
    exact ⟨_, ofSequences_eq_ok_iff.mpr ⟨hlen, hcheck, _, hlast, hempty, rfl⟩⟩

theorem ofSequences_exact_handover : ∃ t vectors,
    Trace.ofSequences 2 [⟨0, 1, 0, false⟩] [[.send "m" ⟨0, 1, 0, false⟩],
      [.receive "m" ⟨0, 1, 0, false⟩]] = .ok t ∧
    Unfolds t [⟨0, 1, 0, false⟩] [[.send "m" ⟨0, 1, 0, false⟩],
      [.receive "m" ⟨0, 1, 0, false⟩]] vectors := by
  obtain ⟨t, ht⟩ := Checks.exists_eq_ok (show (Trace.ofSequences 2 [⟨0, 1, 0, false⟩]
    [[.send "m" ⟨0, 1, 0, false⟩], [.receive "m" ⟨0, 1, 0, false⟩]]).isOk = true by
      decide +kernel)
  obtain ⟨vectors, h⟩ := (ofSequences_exact 2 [⟨0, 1, 0, false⟩]
    [[.send "m" ⟨0, 1, 0, false⟩], [.receive "m" ⟨0, 1, 0, false⟩]]).2 t ht
  exact ⟨t, vectors, ht, h⟩

end Interleaving

end ProtocolInference
