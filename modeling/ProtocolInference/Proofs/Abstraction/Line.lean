import ProtocolInference.Proofs.Abstraction.Finest
import ProtocolInference.Proofs.Automaton.Line

/-!
# One trace, one observation to a block

If every block has one observation of one trace, the automaton of a process accepts the
sequence of the process and nothing else. From each block some path leads to where all
processes have finished, so no state of the automaton is useless. However many schedules
there are, the automaton is therefore one line along the sequence of its process. Main
statement: `project_single_line`.
-/

namespace ProtocolInference.Abstraction

variable {g : Abstraction} {traces : List Trace} {grouping : Grouping} {strict : Bool}
  {processes pid p : Nat} {channels : List Channel} {events : List (List Event)} {t : Trace}
  {b : Block}

/-- From each block the traces can be finished. -/
def CanFinish (g : Abstraction) : Prop :=
  ∀ p b, g.block? p = some b → ∃ es q c, g.Path p es q ∧ g.block? q = some c ∧ c.accept = true

theorem Coherent.useful_unfold (hg : g.Coherent) (h : g.CanFinish) : (g.unfold pid).Useful := by
  intro x hx
  obtain ⟨p, b, hb, rfl⟩ := mem_states_unfold.mp hx
  obtain ⟨es, q, c, hpath, hc, haccept⟩ := h p b hb
  obtain ⟨r, hown, hr⟩ := exists_path_iff.mp ⟨es, hpath, rfl⟩
  obtain ⟨d, hd⟩ := hg.exists_of_ownRun hown ⟨b, hb⟩
  rw [hg.toGrouped.id_stateOf hb]
  exact ⟨_, g.number r,
    (hg.toGrouped.number_mem_acceptStates_iff hd).mpr ⟨q, c, hr, hc, haccept⟩,
    (hg.run_unfold_iff hb).mpr ⟨r, hown, rfl⟩⟩

theorem Coherent.useful_reduced (hg : g.Coherent) (h : g.CanFinish) : (g.reduced pid).Useful := by
  have hwf : (g.unfold pid).WellFormed := hg.wellFormed_unfold
  obtain ⟨f, hf⟩ := Automaton.exists_merged_minimize hwf.prune
  exact hf.useful ((hg.useful_unfold h).prune hwf)

/-- A schedule that has begun can be finished, and the path of blocks along it ends accepting. -/
theorem Reached.canFinish
    (hall : ∀ t ∈ traces, ∃ events, Trace.ofSequences processes channels events = .ok t)
    (h : Reached traces grouping strict [] g) : g.CanFinish := by
  intro p b hb
  have hg := h.coherent
  obtain ⟨o, ho⟩ := List.exists_mem_of_ne_nil _ (hg.toGrouped.fits hb).nonempty
  have hparent := (hg.toGrouped.mem_iff hb).mp ho
  obtain ⟨t, ht, k, node, hnode, rfl, hbegins⟩ := h.exists_beginsAt hparent
  obtain ⟨events, hbuild⟩ := hall t ht
  have hk := h.holds hbegins fun hm => Interleaving.lt_size_of_mem_next hbuild hm
  obtain ⟨target, q, -, htarget, haccept, hreach⟩ := Interleaving.exists_finish hbuild
  obtain ⟨es, hes⟩ := hreach node hnode
  obtain ⟨p', last, hp', hlast, hpath⟩ := hk.path hg hes hnode
  rw [hparent] at hp'
  injection hp' with hp'
  subst hp'
  obtain ⟨c, hc, hsome⟩ := hg.toGrouped.someMember_of_parentOf hlast (hk.observation htarget)
    ((haccept target _ htarget).mpr rfl)
  exact ⟨es, last, c, hpath, hc, (hg.toGrouped.flags_iff hc).2.1.mpr hsome⟩

theorem exists_of_mem_singleton (h : Trace.ofSequences processes channels events = .ok t) :
    ∀ u ∈ [t], ∃ events, Trace.ofSequences processes channels events = .ok u := by
  intro u hu
  rw [List.mem_singleton.mp hu]
  exact ⟨events, h⟩

theorem Reached.oneWord (hbuild : Trace.ofSequences processes channels events = .ok t)
    (h : Reached [t] grouping strict [] g) (hs : g.isSingle = true) {w : List Event}
    (hw : events[pid]? = some w) : g.Spells pid w ∧ (g.reduced pid).OneWord w := by
  have hg := h.coherent
  obtain ⟨first, hfirst, -, -, hproc, -⟩ := h.frame
  have hpid : pid < g.processes := by
    rw [hproc, List.mem_singleton.mp hfirst, Interleaving.processes_of_ofSequences hbuild,
      ← (Interleaving.ofSequences_spec hbuild).1]
    exact (List.getElem?_eq_some_iff.mp hw).1
  have hspells : g.Spells pid w :=
    h.spells_of_ofSequences (List.mem_singleton_self t) hbuild hpid hw
  have hsynthesized := hg.synthesized_reduced hspells
  refine ⟨hspells, hsynthesized.wellFormed, hsynthesized.minimal, hsynthesized.trim,
    hg.useful_reduced (h.canFinish (exists_of_mem_singleton hbuild)), fun v => ?_⟩
  rw [hg.accepts_reduced_iff]
  constructor
  · intro hv
    obtain ⟨u, hu, hsequence⟩ := h.exists_of_spells (exists_of_mem_singleton hbuild) hs hv
    rw [List.mem_singleton.mp hu] at hsequence
    have hsame := hsequence events hbuild
    rw [hw] at hsame
    exact (Option.some.inj hsame).symm
  · intro hv
    rw [hv]
    exact hspells

theorem ordered_reduced (g : Abstraction) (pid : Nat) :
    Automaton.Ordered (g.reduced pid).states :=
  Automaton.ordered_collapseAll _ (ordered_unfold g pid).prune

/-- The abstraction of the graph of all schedules that groups by single observations projects
onto each process as one line: from the only initial state the events of the process lead, in
their order, to the only accepting state, and there is nothing else. -/
theorem project_single_line (h : Trace.ofSequences processes channels events = .ok t)
    (strict : Bool) : ∃ g, ofTraces [t] .single strict = .ok g ∧
      ∀ pid w, events[pid]? = some w → ∃ a ids, g.project pid = .ok a ∧ a.Line w ids ∧
        a.states.length = w.length + 1 ∧ a.transitionCount = w.length := by
  obtain ⟨g, hg⟩ := exists_ofTraces_of_ofSequences (List.cons_ne_nil t [])
    (exists_of_mem_singleton h) .single strict
  obtain ⟨first, -, -, hassemble⟩ := eq_assemble_of_ofTraces hg
  have hs : g.isSingle = true := hassemble ▸ isSingle_assemble
  refine ⟨g, hg, fun pid w hw => ?_⟩
  have hreached := Reached.start hg
  obtain ⟨hspells, hone⟩ := hreached.oneWord h hs hw
  obtain ⟨ids, hline⟩ := hone.exists_line
  exact ⟨g.reduced pid, ids, hreached.coherent.project_eq_ok_iff.mpr ⟨rfl, w, hspells⟩, hline,
    hline.length_states hone.wellFormed,
    hline.transitionCount_eq hone.wellFormed (ordered_reduced g pid)⟩

/-- One process works twice and another one once, in three orders. -/
theorem project_single_line_twice : ∃ t g a ids,
    Trace.ofSequences 2 [] [[.internal "work" 0, .internal "work" 0], [.internal "work" 1]] =
      .ok t ∧
    t.size = 6 ∧ ofTraces [t] .single false = .ok g ∧ g.project 0 = .ok a ∧
    a.Line [.internal "work" 0, .internal "work" 0] ids ∧ a.states.length = 3 ∧
    a.transitionCount = 2 := by
  obtain ⟨t, ht⟩ := Checks.exists_eq_ok (show (Trace.ofSequences 2 []
    [[.internal "work" 0, .internal "work" 0], [.internal "work" 1]]).isOk = true by
      decide +kernel)
  have hsize : ((Trace.ofSequences 2 []
      [[.internal "work" 0, .internal "work" 0], [.internal "work" 1]]).toOption.map Trace.size) =
      some 6 := by decide +kernel
  rw [ht] at hsize
  obtain ⟨g, hg, hall⟩ := project_single_line ht false
  obtain ⟨a, ids, ha, hline, hstates, htransitions⟩ := hall 0 _ rfl
  exact ⟨t, g, a, ids, ht, Option.some.inj hsize, hg, ha, hline, hstates, htransitions⟩

end ProtocolInference.Abstraction
