import ProtocolInference.Proofs.Trace.Exactness
import ProtocolInference.Proofs.Trace.WellFormed

/-!
# Schedules can be completed

The paths of the graph of all schedules from its root are the schedules themselves. If
some schedule runs all events, every other one can go on until it has run them too: of
the events of the complete schedule, the first that the other has not executed finds the
same head of its channel there. So every node of the graph has a path to the node where
all processes have finished.
-/

namespace ProtocolInference.Interleaving

variable {processes : Nat} {channels : List Channel} {events : List (List Event)} {t : Trace}
  {b c d last : Configuration} {node target pid : Nat} {e : Event} {es fs : List Event}

/-! ### Configurations in the graph -/

/-- The observations and edges of the trace are the configurations and edges that the
search finds. -/
structure ShowsSearch (t : Trace) (channels : List Channel) (events : List (List Event)) :
    Prop where
  fit : Fit channels events
  channels_eq : t.channels = channels
  observations_eq : t.observations = (search channels events).1.map (observe events)
  edges_eq : t.edges = (search channels events).2

theorem showsSearch_of_ofSequences (h : Trace.ofSequences processes channels events = .ok t) :
    ShowsSearch t channels events := by
  obtain ⟨-, hcheck, -, -, -, rfl⟩ := ofSequences_eq_ok_iff.mp h
  have hfit := fit_of_checkEvents hcheck
  obtain ⟨later, hlater⟩ := search_eq_cons hfit
  refine ⟨hfit, rfl, ?_, rfl⟩
  rw [hlater]
  rfl

theorem ShowsSearch.size_eq (h : ShowsSearch t channels events) :
    t.size = (search channels events).1.length := by
  rw [Trace.size, h.observations_eq, List.length_map]

theorem ShowsSearch.observation?_eq_some_iff (h : ShowsSearch t channels events)
    {o : Observation} : t.observation? node = some o ↔
      ∃ c, (search channels events).1[node]? = some c ∧ observe events c = o := by
  rw [Trace.observation?, h.observations_eq, List.getElem?_map, Option.map_eq_some_iff]

theorem ShowsSearch.exists_scheduled (h : ShowsSearch t channels events)
    (hc : (search channels events).1[node]? = some c) : ∃ es, Scheduled channels events c es := by
  obtain ⟨es, -, hes⟩ := ((explored_search h.fit).mem_iff c).mp (List.mem_of_getElem? hc)
  exact ⟨es, hes⟩

theorem getElem?_findIdx_search (hfit : Fit channels events)
    (hd : Scheduled channels events d es) : (search channels events).1[
      (search channels events).1.findIdx (·.progress == d.progress)]? = some d := by
  have hmem := ((explored_search hfit).mem_iff d).mpr ⟨es, Nat.zero_le _, hd⟩
  have hlt := List.findIdx_lt_length_of_exists (p := (·.progress == d.progress))
    ⟨d, hmem, beq_self_eq_true _⟩
  have hsame := eq_of_beq (List.findIdx_getElem (w := hlt))
  obtain ⟨fs, -, hfs⟩ := ((explored_search hfit).mem_iff _).mp (List.getElem_mem hlt)
  rw [List.getElem?_eq_getElem hlt, hfs.eq_of_progress hfit hd hsame]

theorem ShowsSearch.eq_of_progress (h : ShowsSearch t channels events) {i j : Nat}
    (hc : (search channels events).1[i]? = some c) (hd : (search channels events).1[j]? = some d)
    (hp : c.progress = d.progress) : i = j := by
  have hi : ((search channels events).1.map (·.progress))[i]? = some c.progress := by
    rw [List.getElem?_map, hc]
    rfl
  have hj : ((search channels events).1.map (·.progress))[j]? = some c.progress := by
    rw [List.getElem?_map, hd, hp]
    rfl
  exact (List.getElem?_inj (List.getElem?_eq_some_iff.mp hi).1
    (explored_search h.fit).nodup).mp (hi.trans hj.symm)

theorem ShowsSearch.mem_next_iff (h : ShowsSearch t channels events)
    (hc : (search channels events).1[node]? = some c) : (e, target) ∈ t.next node ↔
      ∃ pid d, step? events c pid = some (e, d) ∧ (search channels events).1[target]? = some d := by
  obtain ⟨es, hes⟩ := h.exists_scheduled hc
  have hfound : ∀ {pid e d}, step? events c pid = some (e, d) → (search channels events).1[
      (search channels events).1.findIdx (·.progress == d.progress)]? = some d :=
    fun hs => getElem?_findIdx_search h.fit ((scheduled_snoc_iff h.fit).mpr ⟨c, _, hes, hs⟩)
  rw [next_eq h.fit h.edges_eq hc, List.mem_map]
  constructor
  · rintro ⟨⟨f, d⟩, hm, heq⟩
    injection heq with hf htarget
    subst hf htarget
    obtain ⟨pid, hs⟩ := mem_steps.mp hm
    exact ⟨pid, d, hs, hfound hs⟩
  · rintro ⟨pid, d, hs, htarget⟩
    refine ⟨(e, d), mem_steps.mpr ⟨pid, hs⟩, ?_⟩
    rw [h.eq_of_progress (hfound hs) htarget rfl]

/-! ### Paths and schedules -/

/-- A path goes on with the schedules that lead to its first node. -/
theorem ShowsSearch.scheduled_of_path (h : ShowsSearch t channels events)
    (hp : t.Path node es target) (hc : (search channels events).1[node]? = some c)
    (hfs : Scheduled channels events c fs) :
    ∃ d, (search channels events).1[target]? = some d ∧ Scheduled channels events d (fs ++ es) := by
  induction hp generalizing c fs with
  | nil node => exact ⟨c, hc, by rw [List.append_nil]; exact hfs⟩
  | @cons _ _ _ e es hnext _ ih =>
    obtain ⟨pid, d, hs, hd⟩ := (h.mem_next_iff hc).mp hnext
    obtain ⟨f, hf, hsched⟩ := ih hd ((scheduled_snoc_iff h.fit).mpr ⟨c, pid, hfs, hs⟩)
    rw [List.append_assoc] at hsched
    exact ⟨f, hf, hsched⟩

theorem ShowsSearch.getElem?_zero (h : ShowsSearch t channels events) :
    (search channels events).1[0]? = some (start channels events) := by
  obtain ⟨later, hlater⟩ := search_eq_cons h.fit
  rw [hlater]
  rfl

theorem ShowsSearch.path_of_scheduled (h : ShowsSearch t channels events)
    (hc : (search channels events).1[node]? = some c) (hes : Scheduled channels events c es) :
    t.Path 0 es node := by
  induction es using List.reverseRecOn generalizing c node with
  | nil =>
    rw [scheduled_nil_iff.mp hes] at hc
    rw [h.eq_of_progress hc h.getElem?_zero rfl]
    exact .nil 0
  | append_singleton es e ih =>
    obtain ⟨b, pid, hb, hs⟩ := (scheduled_snoc_iff h.fit).mp hes
    have hfound := getElem?_findIdx_search h.fit hb
    exact (ih hfound hb).append (.cons ((h.mem_next_iff hfound).mpr ⟨pid, c, hs, hc⟩) (.nil node))

/-! ### One schedule behind another -/

/-- No process has come farther on the left than on the right. -/
def Behind (k l : List Nat) : Prop := ∀ pid : Nat, k[pid]?.getD 0 ≤ l[pid]?.getD 0

theorem exists_done_append (events : List (List Event)) {k l : List Nat} (h : Behind k l)
    (pid : Nat) : ∃ more, done events l pid = done events k pid ++ more := by
  have hprefix := List.take_prefix_take_left (l := events[pid]?.getD []) (h pid)
  obtain ⟨more, hmore⟩ := hprefix
  exact ⟨more, hmore.symm⟩

/-- What a process that has come equally far may do behind, it may do ahead: a message that
is at the head of its channel stays there until it is received. -/
theorem enables_of_behind (hfit : Fit channels events) (hb : Balanced channels events b)
    (hc : Balanced channels events c) (h : Behind b.progress c.progress)
    (hs : step? events b pid = some (e, d)) (hn : c.progress[pid]? = b.progress[pid]?) :
    c.queues.enables e = true := by
  obtain ⟨sequence, n, hseq, -, he, -, happly, -⟩ := step?_eq_some_iff.mp hs
  obtain ⟨hpid, m, hvalid⟩ := hfit pid sequence hseq e (List.mem_of_getElem? he)
  rcases Event.cases_of_validate hvalid with hk | ⟨ch, hch, hdecl, ⟨hk, -⟩ | ⟨hk, hdst⟩⟩
  · simp [Queues.enables, hk]
  · simp [Queues.enables, hk]
  · obtain ⟨hhead, -⟩ := Queues.apply_receive hk hch happly
    obtain ⟨queue, hqueue, hhead⟩ := Option.bind_eq_some_iff.mp hhead
    have hlt := (List.getElem?_eq_some_iff.mp hdecl).1
    rw [← hc.size] at hlt
    have hqueue' := List.getElem?_eq_getElem (l := c.queues.contents) hlt
    have hbal := hb.balance ch.index ch queue hdecl hqueue
    have hbal' := hc.balance ch.index ch _ hdecl hqueue'
    -- The receiver has received the same messages, and the sender has sent no fewer.
    have hreceived : done events c.progress ch.dst = done events b.progress ch.dst := by
      rw [done, done, hdst, hpid, hn]
    obtain ⟨more, hsent⟩ := exists_done_append events h ch.src
    rw [hreceived, hsent, labels_append, hbal, List.append_assoc] at hbal'
    have hcontents := List.append_cancel_left hbal'
    obtain ⟨rest, rfl⟩ := List.head?_eq_some_iff.mp hhead
    simp [Queues.enables, Queues.queue?, hk, hch, hqueue', ← hcontents]

/-- A schedule that is not behind another has a first event that the other has not
executed. -/
theorem exists_first_ahead (hfit : Fit channels events) {l : List Nat}
    (hes : Scheduled channels events d es) (h : ¬Behind d.progress l) :
    ∃ b pid e d fs, Scheduled channels events b fs ∧ Behind b.progress l ∧
      step? events b pid = some (e, d) ∧ ¬Behind d.progress l := by
  induction es using List.reverseRecOn generalizing d with
  | nil =>
    refine absurd (fun pid => ?_) h
    rw [scheduled_nil_iff.mp hes]
    cases hp : (start channels events).progress[pid]? with
    | none => exact Nat.zero_le _
    | some n =>
      obtain ⟨sequence, -, hzero⟩ := List.mem_map.mp (List.mem_of_getElem? hp)
      rw [Option.getD_some, ← hzero]
      exact Nat.zero_le _
  | append_singleton es e ih =>
    obtain ⟨b, pid, hb, hs⟩ := (scheduled_snoc_iff hfit).mp hes
    by_cases hbl : Behind b.progress l
    · exact ⟨b, pid, e, d, es, hb, hbl, hs, h⟩
    · exact ih hb hbl

theorem Schedule.le_length {progress : List Nat} (h : Schedule events progress es) (pid : Nat) :
    progress[pid]?.getD 0 ≤ (finish events)[pid]?.getD 0 := by
  cases hn : progress[pid]? with
  | none => exact Nat.zero_le _
  | some n =>
    have hlt := (List.getElem?_eq_some_iff.mp hn).1
    rw [h.length_eq] at hlt
    have hseq := List.getElem?_eq_getElem hlt
    rw [finish, List.getElem?_map, hseq]
    exact (h.part hseq hn).1

theorem Schedule.eq_of_behind {k l : List Nat} (hk : Schedule events k es)
    (hl : Schedule events l fs) (h : Behind k l) (h' : Behind l k) : k = l := by
  refine List.ext_getElem (hk.length_eq.trans hl.length_eq.symm) fun pid hi hj => ?_
  have h1 := h pid
  have h2 := h' pid
  rw [List.getElem?_eq_getElem hi, List.getElem?_eq_getElem hj] at h1 h2
  exact Nat.le_antisymm h1 h2

/-! ### Going on -/

/-- As long as some schedule runs all events, one that has not done so can go on. -/
theorem exists_step_of_ne_finish (hfit : Fit channels events)
    (hlast : Scheduled channels events last es) (hfinish : last.progress = finish events)
    (hc : Scheduled channels events c fs) (hne : c.progress ≠ finish events) :
    ∃ pid e d, step? events c pid = some (e, d) := by
  have hahead : ¬Behind last.progress c.progress := by
    intro h
    refine hne (Eq.trans ?_ hfinish)
    refine hc.1.eq_of_behind hlast.1 ?_ h
    rw [hfinish]
    exact hc.1.le_length
  obtain ⟨b, pid, e, d, gs, hb, hbc, hs, hdc⟩ := exists_first_ahead hfit hlast hahead
  obtain ⟨sequence, n, hseq, hn, he, -, -, hd⟩ := step?_eq_some_iff.mp hs
  -- Only the process that steps gets ahead, so up to there it has come equally far.
  have hsame : c.progress[pid]? = some n := by
    have hlt : pid < c.progress.length := by
      rw [hc.1.length_eq]
      exact (List.getElem?_eq_some_iff.mp hseq).1
    have hle := hbc pid
    rw [hn, List.getElem?_eq_getElem hlt, Option.getD_some, Option.getD_some] at hle
    by_contra hother
    refine hdc fun p => ?_
    by_cases hp : pid = p
    · subst hp
      rw [List.getElem?_eq_getElem hlt] at hother ⊢
      have hgt : c.progress[pid] ≠ n := fun heq => hother (by rw [heq])
      rw [hd, List.getElem?_modify_eq, hn]
      show n + 1 ≤ c.progress[pid]
      omega
    · rw [hd, List.getElem?_modify_ne _ _ hp]
      exact hbc p
  have hen := enables_of_behind hfit (hb.balanced hfit) (hc.balanced hfit) hbc hs
    (hsame.trans hn.symm)
  obtain ⟨f, hf⟩ := exists_step hfit (hc.balanced hfit) hseq hsame he hen
  exact ⟨pid, e, f, hf⟩

theorem ShowsSearch.exists_path_finish (h : ShowsSearch t channels events)
    (hlast : Scheduled channels events last es) (hfinish : last.progress = finish events)
    (htarget : (search channels events).1[target]? = some last)
    (hc : (search channels events).1[node]? = some c) (hfs : Scheduled channels events c fs) :
    ∃ gs, t.Path node gs target := by
  -- The measure is the number of events that are left to execute.
  induction hk : events.flatten.length - fs.length using Nat.strong_induction_on
    generalizing node c fs with
  | _ k ih =>
    by_cases hdone : c.progress = finish events
    · rw [h.eq_of_progress hc htarget (hdone.trans hfinish.symm)]
      exact ⟨[], .nil target⟩
    · obtain ⟨pid, e, d, hs⟩ := exists_step_of_ne_finish h.fit hlast hfinish hfs hdone
      have hd := (scheduled_snoc_iff h.fit).mpr ⟨c, pid, hfs, hs⟩
      have hlonger : (fs ++ [e]).length = fs.length + 1 := List.length_append
      have hle := hd.length_le h.fit
      have hfound := getElem?_findIdx_search h.fit hd
      obtain ⟨gs, hgs⟩ := ih _ (by omega) hfound hd rfl
      exact ⟨e :: gs, .cons ((h.mem_next_iff hc).mpr ⟨pid, d, hs, hfound⟩) hgs⟩

end ProtocolInference.Interleaving
