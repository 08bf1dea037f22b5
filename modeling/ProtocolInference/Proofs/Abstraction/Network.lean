import ProtocolInference.Proofs.Abstraction.Projection
import ProtocolInference.Proofs.Network.Runs

/-!
# The network of an abstraction

The network exists if every process does some word. Its complete runs are the sequences
of events of which every process does its part on some accepting path, and which the
channels allow as a whole. A split leaves the blocks of the observations apart that lay
apart before, so every path after it was a path before, and no complete run is new.
-/

namespace ProtocolInference.Abstraction

variable {g : Abstraction}

/-! ### Complete runs -/

theorem Coherent.network_eq_ok_iff (hg : g.Coherent) {n : Network} :
    g.network = .ok n ↔ n = ⟨g.channels, (List.range g.processes).map g.reduced⟩ ∧
      ∀ pid < g.processes, ∃ w, g.Spells pid w := by
  have hone : ∀ pid a, g.project pid = .ok a ↔ (∃ w, g.Spells pid w) ∧ g.reduced pid = a := by
    intro pid a
    rw [hg.project_eq_ok_iff, and_comm, eq_comm]
  have hall : ∀ automata, (List.range g.processes).mapM g.project = .ok automata ↔
      (∀ pid < g.processes, ∃ w, g.Spells pid w) ∧
        (List.range g.processes).map g.reduced = automata := by
    intro automata
    rw [Checks.mapM_eq_ok_iff]
    simp only [hone, List.forall₂_and_left, List.mem_range]
    rw [← List.forall₂_map_left_iff (R := Eq), List.forall₂_eq_eq_eq]
  unfold network
  constructor
  · intro h
    cases hm : (List.range g.processes).mapM g.project with
    | error f =>
      rw [hm] at h
      cases h
    | ok automata =>
      rw [hm] at h
      injection h with h
      obtain ⟨hw, rfl⟩ := (hall automata).mp hm
      exact ⟨h.symm, hw⟩
  · rintro ⟨rfl, hw⟩
    rw [(hall _).mpr ⟨hw, rfl⟩]
    rfl

/-- Which sequences of events are complete runs of the network. -/
theorem Coherent.completeRun_iff (hg : g.Coherent) {n : Network} (hn : g.network = .ok n)
    {es : List Event} : n.CompleteRun es ↔
      (∀ e ∈ es, e.pid < g.processes) ∧
      (∀ pid < g.processes, g.Spells pid (es.filter (·.pid == pid))) ∧
      ∃ q, (Queues.empty g.channels.length).Run es q ∧ q.isEmpty = true := by
  obtain ⟨rfl, -⟩ := hg.network_eq_ok_iff.mp hn
  rw [Network.completeRun_iff]
  simp only [List.length_map, List.length_range]
  refine and_congr_right fun _ => and_congr_left fun _ => ?_
  constructor
  · intro h pid hpid
    rw [← hg.accepts_reduced_iff]
    refine h pid _ ?_
    rw [List.getElem?_map, List.getElem?_range hpid]
    rfl
  · intro h pid a ha
    obtain ⟨hlt, rfl⟩ := List.getElem?_eq_some_iff.mp ha
    rw [List.length_map, List.length_range] at hlt
    rw [List.getElem_map, List.getElem_range, hg.accepts_reduced_iff]
    exact h pid hlt

/-! ### Splits -/

section

variable {h : Abstraction} {s : Split} {place : Placement} {fresh : Nat}

theorem Coherent.mem_next_of_split (hg : g.Coherent) (hs : g.split s place = .ok (h, fresh))
    {p q : Nat} {e : Event} (hn : q ∈ h.next p e) :
    origin s fresh q ∈ g.next (origin s fresh p) e := by
  obtain ⟨hnodes, -, -, hparent⟩ := hg.toGrouped.parentOf_split hs
  obtain ⟨o, t, ho, hm, ht⟩ := (hg.split hs).mem_next_iff.mp hn
  rw [edges_congr hnodes] at hm
  refine hg.mem_next_iff.mpr ⟨o, t, ?_, hm, ?_⟩
  · rw [hparent, ho, Option.map_some]
  · rw [hparent, ht, Option.map_some]

theorem Coherent.path_of_split (hg : g.Coherent) (hs : g.split s place = .ok (h, fresh))
    {p q : Nat} {es : List Event} (hp : h.Path p es q) :
    g.Path (origin s fresh p) es (origin s fresh q) := by
  induction hp with
  | nil p => exact .nil _
  | cons hn _ ih => exact .cons (hg.mem_next_of_split hs hn) ih

theorem Coherent.someMember_of_split (hg : g.Coherent) (hs : g.split s place = .ok (h, fresh))
    {p : Nat} {b : Block} (hb : h.block? p = some b) {kind : Observation → Bool}
    (hk : h.SomeMember b kind) :
    ∃ c, g.block? (origin s fresh p) = some c ∧ g.SomeMember c kind := by
  obtain ⟨hnodes, -, -, hparent⟩ := hg.toGrouped.parentOf_split hs
  obtain ⟨o, ho, x, hx, hkind⟩ := hk
  have hpo : g.parentOf o = some (origin s fresh p) := by
    rw [hparent, ((hg.split hs).toGrouped.mem_iff hb).mp ho, Option.map_some]
  obtain ⟨c, hc⟩ := hg.live hpo
  refine ⟨c, hc, o, (hg.toGrouped.mem_iff hc).mpr hpo, x, ?_, hkind⟩
  unfold observation? at hx ⊢
  rw [← hnodes]
  exact hx

theorem Grouped.pid_lt_of_isInitialFor (hg : g.Grouped) {id pid : Nat} {b : Block}
    (hb : g.block? id = some b) (hi : b.isInitialFor pid = true) : pid < g.processes := by
  by_contra hn
  rw [Block.isInitialFor, ← congrArg Block.initialFor (hg.fits hb).flags] at hi
  simp [Block.withFlags, hn] at hi

theorem Coherent.spells_of_split (hg : g.Coherent) (hs : g.split s place = .ok (h, fresh))
    {pid : Nat} {w : List Event} (hw : h.Spells pid w) : g.Spells pid w := by
  obtain ⟨p, b, q, c, es, hb, hinit, hc, hacc, hpath, rfl⟩ := hw
  have hh := (hg.split hs).toGrouped
  obtain ⟨-, hproc, -, -⟩ := hg.toGrouped.parentOf_split hs
  have hpid := hh.pid_lt_of_isInitialFor hb hinit
  obtain ⟨b', hb', hinit'⟩ := hg.someMember_of_split hs hb
    (((hh.flags_iff hb).2.2 pid hpid).1.mp hinit)
  obtain ⟨c', hc', hacc'⟩ := hg.someMember_of_split hs hc ((hh.flags_iff hc).2.1.mp hacc)
  rw [hproc] at hpid
  exact ⟨_, b', _, c', es, hb', ((hg.toGrouped.flags_iff hb').2.2 pid hpid).1.mpr hinit', hc',
    (hg.toGrouped.flags_iff hc').2.1.mpr hacc', hg.path_of_split hs hpath, rfl⟩

end

/-- A split only takes words from the processes and complete runs from the network. -/
theorem split_narrows {traces : List Trace} {grouping : Grouping} {strict : Bool}
    {removed : List Block} {h : Abstraction} {s : Split} {place : Placement} {fresh : Nat}
    (hr : Reached traces grouping strict removed g) (hs : g.split s place = .ok (h, fresh)) :
    (∀ pid b, h.project pid = .ok b → ∃ a, g.project pid = .ok a ∧
      ∀ w, b.Accepts w → a.Accepts w) ∧
    ∀ m, h.network = .ok m → ∃ n, g.network = .ok n ∧
      ∀ es, m.CompleteRun es → n.CompleteRun es := by
  have hg := hr.coherent
  have hh := hg.split hs
  obtain ⟨-, hproc, hchan, -⟩ := hg.toGrouped.parentOf_split hs
  constructor
  · intro pid b hb
    obtain ⟨rfl, w, hw⟩ := hh.project_eq_ok_iff.mp hb
    refine ⟨_, hg.project_eq_ok_iff.mpr ⟨rfl, w, hg.spells_of_split hs hw⟩, fun v hv => ?_⟩
    rw [hh.accepts_reduced_iff] at hv
    exact hg.accepts_reduced_iff.mpr (hg.spells_of_split hs hv)
  · intro m hm
    obtain ⟨-, hall⟩ := hh.network_eq_ok_iff.mp hm
    rw [hproc] at hall
    have hn := hg.network_eq_ok_iff.mpr ⟨rfl, fun pid hpid =>
      (hall pid hpid).imp fun w hw => hg.spells_of_split hs hw⟩
    refine ⟨_, hn, fun es hes => ?_⟩
    rw [hh.completeRun_iff hm, hproc, hchan] at hes
    rw [hg.completeRun_iff hn]
    exact ⟨hes.1, fun pid hpid => hg.spells_of_split hs (hes.2.1 pid hpid), hes.2.2⟩

theorem split_narrows_workTwice : ∃ g h fresh m n,
    ofTraces [workTwice] .queueTops false = .ok g ∧
    g.split ⟨0, [0], [2]⟩ (fun _ _ => false) = .ok (h, fresh) ∧
    h.network = .ok m ∧ g.network = .ok n ∧ ∀ es, m.CompleteRun es → n.CompleteRun es := by
  have hstart : ofTraces [workTwice] .queueTops false =
      .ok (assemble workTwice [workTwice] .queueTops false) := rfl
  obtain ⟨m, hboth⟩ := Checks.exists_eq_ok (show Except.isOk
    ((assemble workTwice [workTwice] .queueTops false).split ⟨0, [0], [2]⟩ (fun _ _ => false) >>=
      fun r => r.1.network) = true by decide +kernel)
  obtain ⟨⟨h, fresh⟩, hsplit, hm⟩ := Checks.bind_eq_ok_iff.mp hboth
  obtain ⟨-, hruns⟩ := split_narrows (.start hstart) hsplit
  obtain ⟨n, hn, hall⟩ := hruns m hm
  exact ⟨_, h, fresh, m, n, hstart, hsplit, hm, hn, hall⟩

end ProtocolInference.Abstraction
