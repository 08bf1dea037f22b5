import ProtocolInference.Proofs.Trace.Completion

/-!
# The end of a recorded execution

The graph of a recorded execution is well formed. It has one accepting node, where every
process has finished and nothing is in flight, and each node has a path to it. On a path to
it from where a process has not yet started, the process executes its whole sequence.
-/

namespace ProtocolInference

namespace Interleaving

variable {processes : Nat} {channels : List Channel} {events : List (List Event)} {t : Trace}
  {c : Configuration} {node : Nat} {es : List Event}

/-! ### What configurations show -/

theorem length_locals_observe (h : c.progress.length = events.length) :
    (observe events c).locals.length = events.length := by
  simp [observe, finish, h]

theorem isAccept_observe_iff (h : c.progress.length = events.length) :
    (observe events c).isAccept = true ↔
      c.progress = finish events ∧ c.queues.isEmpty = true := by
  have hlen : c.progress.length = (finish events).length := by
    rw [finish, List.length_map, h]
  have hdone : (observe events c).locals.all (·.accept) = true ↔ c.progress = finish events := by
    rw [← List.forall₂_eq_eq_eq, List.forall₂_iff_zip]
    simp [observe, hlen]
  rw [Observation.isAccept, Bool.and_eq_true, hdone]
  rfl

theorem isInitial_observe_start (channels : List Channel) (events : List (List Event)) :
    (observe events (start channels events)).isInitial = true := by
  have hlocals : (observe events (start channels events)).locals.all (·.initial) = true := by
    rw [List.all_eq_true]
    intro l hl
    obtain ⟨⟨done, all⟩, hpair, rfl⟩ := List.mem_map.mp hl
    obtain ⟨sequence, -, hzero⟩ := List.mem_map.mp (List.of_mem_zip hpair).1
    rw [← hzero]
    rfl
  have hempty : (Queues.empty channels.length).isEmpty = true := by
    simp [Queues.isEmpty, Queues.empty]
  rw [Observation.isInitial, hlocals]
  exact hempty

/-! ### The graph of a recorded execution -/

theorem exists_last (h : Trace.ofSequences processes channels events = .ok t) :
    ∃ last es, Scheduled channels events last es ∧ last.progress = finish events ∧
      last.queues.isEmpty = true := by
  obtain ⟨-, hcheck, last, hlast, hempty, -⟩ := ofSequences_eq_ok_iff.mp h
  obtain ⟨hfinish, es, hes⟩ := (find_finish_iff (fit_of_checkEvents hcheck)).mp hlast
  exact ⟨last, es, hes, hfinish, hempty⟩

theorem wellFormed_of_ofSequences (h : Trace.ofSequences processes channels events = .ok t) :
    t.WellFormed := by
  have hshows := showsSearch_of_ofSequences h
  have hfit := hshows.fit
  have hnode : ∀ {node o}, t.observation? node = some o → ∃ c es, o = observe events c ∧
      (search channels events).1[node]? = some c ∧ Scheduled channels events c es := by
    intro node o ho
    obtain ⟨c, hc, hco⟩ := hshows.observation?_eq_some_iff.mp ho
    obtain ⟨es, hes⟩ := hshows.exists_scheduled hc
    exact ⟨c, es, hco.symm, hc, hes⟩
  have hroot : t.root = observe events (start channels events) :=
    Option.some.inj (hshows.observation?_eq_some_iff.mpr ⟨_, hshows.getElem?_zero, rfl⟩)
  constructor
  case acyclic =>
    intro node e es hp
    -- A path lengthens the schedules that lead to its first node.
    have hlt : node < t.size := by
      cases hp with
      | cons hnext _ => exact (lt_size_of_mem_next h hnext).1
    rw [hshows.size_eq] at hlt
    have hc := List.getElem?_eq_getElem hlt
    obtain ⟨fs, hfs⟩ := hshows.exists_scheduled hc
    obtain ⟨d, hd, hsched⟩ := hshows.scheduled_of_path hp hc hfs
    rw [hc] at hd
    injection hd with hd
    have hsum := hsched.sum_progress hfit
    rw [← hd, hfs.sum_progress hfit, List.length_append, List.length_cons] at hsum
    omega
  case locals =>
    intro o ho
    obtain ⟨node, hnode'⟩ := List.mem_iff_getElem?.mp ho
    obtain ⟨c, es, rfl, -, hes⟩ := hnode hnode'
    rw [length_locals_observe hes.1.length_eq, Trace.processes, hroot,
      length_locals_observe (List.length_map _)]
  case queues =>
    intro o ho
    obtain ⟨node, hnode'⟩ := List.mem_iff_getElem?.mp ho
    obtain ⟨c, es, rfl, -, hes⟩ := hnode hnode'
    rw [hshows.channels_eq]
    exact (hes.balanced hfit).size
  case reached =>
    intro node hlt
    obtain ⟨c, es, -, hc, hes⟩ := hnode (List.getElem?_eq_getElem hlt)
    exact ⟨es, hshows.path_of_scheduled hc hes⟩
  case initial => rw [hroot, isInitial_observe_start]
  case accepting =>
    obtain ⟨last, es, hes, hfinish, hempty⟩ := exists_last h
    refine ⟨observe events last, ?_, (isAccept_observe_iff hes.1.length_eq).mpr ⟨hfinish, hempty⟩⟩
    rw [hshows.observations_eq]
    exact List.mem_map_of_mem (List.mem_of_getElem? (getElem?_findIdx_search hfit hes))

theorem validate_of_ofSequences (h : Trace.ofSequences processes channels events = .ok t) :
    t.validate = .ok () :=
  (Trace.validate_eq_ok_iff (Trace.closed_of_ofSequences h)).mpr (wellFormed_of_ofSequences h)

/-- All paths can be prolonged to one node, which is the only accepting one. -/
theorem exists_finish (h : Trace.ofSequences processes channels events = .ok t) :
    ∃ target q, q.isEmpty = true ∧
      t.observation? target = some (observe events ⟨finish events, q⟩) ∧
      (∀ node o, t.observation? node = some o → (o.isAccept = true ↔ node = target)) ∧
      ∀ node < t.size, ∃ es, t.Path node es target := by
  have hshows := showsSearch_of_ofSequences h
  obtain ⟨last, es, hes, hfinish, hempty⟩ := exists_last h
  have hlast := getElem?_findIdx_search hshows.fit hes
  refine ⟨(search channels events).1.findIdx (·.progress == last.progress), last.queues, hempty,
    ?_, fun node o ho => ?_, fun node hlt => ?_⟩
  · rw [hshows.observation?_eq_some_iff.mpr ⟨last, hlast, rfl⟩, ← hfinish]
  · obtain ⟨c, hc, rfl⟩ := hshows.observation?_eq_some_iff.mp ho
    obtain ⟨fs, hfs⟩ := hshows.exists_scheduled hc
    rw [isAccept_observe_iff hfs.1.length_eq]
    constructor
    · rintro ⟨hdone, -⟩
      exact hshows.eq_of_progress hc hlast (hdone.trans hfinish.symm)
    · rintro rfl
      rw [hlast] at hc
      injection hc with hc
      exact hc ▸ ⟨hfinish, hempty⟩
  · rw [hshows.size_eq] at hlt
    have hc := List.getElem?_eq_getElem hlt
    obtain ⟨fs, hfs⟩ := hshows.exists_scheduled hc
    exact hshows.exists_path_finish hes hfinish hlast hc hfs

/-- A schedule that the channels allow can go on until all events have been executed. -/
theorem exists_completion (h : Trace.ofSequences processes channels events = .ok t)
    {progress : List Nat} {q : Queues} (hes : Schedule events progress es)
    (hrun : (Queues.empty channels.length).Run es q) :
    ∃ fs r, Schedule events (finish events) (es ++ fs) ∧
      (Queues.empty channels.length).Run (es ++ fs) r ∧ r.isEmpty = true := by
  have hshows := showsSearch_of_ofSequences h
  obtain ⟨last, gs, hgs, hfinish, hempty⟩ := exists_last h
  have hlast := getElem?_findIdx_search hshows.fit hgs
  have hsched : Scheduled channels events ⟨progress, q⟩ es := ⟨hes, hrun⟩
  have hnode := getElem?_findIdx_search hshows.fit hsched
  obtain ⟨fs, hpath⟩ := hshows.exists_path_finish hgs hfinish hlast hnode hsched
  obtain ⟨d, hd, hdone, hall⟩ := hshows.scheduled_of_path hpath hnode hsched
  rw [hlast] at hd
  injection hd with hd
  subst hd
  rw [hfinish] at hdone
  exact ⟨fs, last.queues, hdone, hall, hempty⟩

theorem progress_eq_zero_of_isInitialFor {pid : Nat} (h : c.progress.length = events.length)
    (hinit : (observe events c).isInitialFor pid = true) : c.progress[pid]? = some 0 := by
  obtain ⟨l, hl, hinitial⟩ := (Option.any_eq_true ..).mp hinit
  have hlt := (List.getElem?_eq_some_iff.mp hl).1
  rw [length_locals_observe h] at hlt
  have hn := List.getElem?_eq_getElem (h ▸ hlt : pid < c.progress.length)
  rw [locals_observe hn (List.getElem?_eq_getElem hlt)] at hl
  injection hl with hl
  subst hl
  rw [hn, beq_iff_eq.mp hinitial]

/-- From where a process has not started to where all have finished, it executes its whole
sequence. -/
theorem filter_of_path (h : Trace.ofSequences processes channels events = .ok t) {a b pid : Nat}
    {x y : Observation} (hp : t.Path a es b) (hx : t.observation? a = some x)
    (hinit : x.isInitialFor pid = true) (hy : t.observation? b = some y)
    (hacc : y.isAccept = true) : events[pid]? = some (es.filter (·.pid == pid)) := by
  have hshows := showsSearch_of_ofSequences h
  obtain ⟨c, hc, rfl⟩ := hshows.observation?_eq_some_iff.mp hx
  obtain ⟨fs, hfs⟩ := hshows.exists_scheduled hc
  obtain ⟨d, hd, hsched⟩ := hshows.scheduled_of_path hp hc hfs
  obtain rfl : observe events d = y := by
    rw [hshows.observation?_eq_some_iff.mpr ⟨d, hd, rfl⟩] at hy
    exact Option.some.inj hy
  obtain ⟨hfinish, -⟩ := (isAccept_observe_iff hsched.1.length_eq).mp hacc
  have hzero := progress_eq_zero_of_isInitialFor hfs.1.length_eq hinit
  have hlt : pid < events.length := by
    rw [← hfs.1.length_eq]
    exact (List.getElem?_eq_some_iff.mp hzero).1
  have hseq := List.getElem?_eq_getElem hlt
  have hdone : d.progress[pid]? = some events[pid].length := by
    rw [hfinish, finish, List.getElem?_map, hseq]
    rfl
  -- Before it starts it has executed nothing, and in the end everything.
  have hbefore := (hfs.1.part hseq hzero).2
  have hall := (hsched.1.part hseq hdone).2
  rw [List.filter_append, hbefore, List.take_zero, List.nil_append, List.take_length] at hall
  rw [hseq, hall]

end Interleaving

end ProtocolInference
