import ProtocolInference.Proofs.Trace.WellFormed

/-!
# What validation accepts

Validation searches the graph of a trace, whose edges may be parallel, lead back to their
own source or lie on cycles that the root does not reach. It succeeds for exactly the
acyclic traces that are rooted at an initial observation, whose observations have one shape
and of which some observation is accepting. Cycles and reachability are those of the
relation that the edges span, whatever the events on them.
-/

namespace ProtocolInference

/-! ### Initial and accepting observations -/

theorem Queues.isEmpty_iff {q : Queues} : q.isEmpty = true ↔ ∀ messages ∈ q.contents, messages = [] := by
  simp [Queues.isEmpty, List.all_eq_true]

theorem Observation.isInitial_iff {o : Observation} : o.isInitial = true ↔
    (∀ l ∈ o.locals, l.initial = true) ∧ ∀ messages ∈ o.queues.contents, messages = [] := by
  rw [Observation.isInitial, Bool.and_eq_true, List.all_eq_true, Queues.isEmpty_iff]

theorem Observation.isAccept_iff {o : Observation} : o.isAccept = true ↔
    (∀ l ∈ o.locals, l.accept = true) ∧ ∀ messages ∈ o.queues.contents, messages = [] := by
  rw [Observation.isAccept, Bool.and_eq_true, List.all_eq_true, Queues.isEmpty_iff]

namespace Trace

variable {t : Trace} {a b : Nat}

/-! ### The relation that the edges span -/

def Joins (t : Trace) (a b : Nat) : Prop := ∃ e, ⟨a, e, b⟩ ∈ t.edges

theorem exists_path_iff : (∃ es, t.Path a es b) ↔ Relation.ReflTransGen t.Joins a b := by
  constructor
  · intro h
    obtain ⟨es, hp⟩ := h
    induction hp with
    | nil node => exact .refl
    | cons hnext _ ih => exact .head ⟨_, mem_next_iff.mp hnext⟩ ih
  · intro h
    induction h using Relation.ReflTransGen.head_induction_on with
    | refl => exact ⟨[], .nil b⟩
    | head hjoin _ ih =>
      obtain ⟨e, hedge⟩ := hjoin
      obtain ⟨es, hp⟩ := ih
      exact ⟨e :: es, .cons (mem_next_iff.mpr hedge) hp⟩

theorem exists_path_cons_iff :
    (∃ e es, t.Path a (e :: es) b) ↔ Relation.TransGen t.Joins a b := by
  rw [Relation.TransGen.head'_iff]
  constructor
  · intro h
    obtain ⟨e, es, hp⟩ := h
    cases hp with
    | cons hnext hrest => exact ⟨_, ⟨e, mem_next_iff.mp hnext⟩, exists_path_iff.mp ⟨es, hrest⟩⟩
  · intro h
    obtain ⟨c, ⟨e, hedge⟩, hrest⟩ := h
    obtain ⟨es, hp⟩ := exists_path_iff.mpr hrest
    exact ⟨e, es, .cons (mem_next_iff.mpr hedge) hp⟩

/-! ### Rooted acyclic traces -/

structure RootedDag (t : Trace) : Prop where
  acyclic : ∀ node, ¬Relation.TransGen t.Joins node node
  locals : ∀ o ∈ t.observations, o.locals.length = t.root.locals.length
  queues : ∀ o ∈ t.observations, o.queues.contents.length = t.channels.length
  reached : ∀ node < t.size, Relation.ReflTransGen t.Joins 0 node
  initial : (∀ l ∈ t.root.locals, l.initial = true) ∧
    ∀ messages ∈ t.root.queues.contents, messages = []
  accepting : ∃ o ∈ t.observations, (∀ l ∈ o.locals, l.accept = true) ∧
    ∀ messages ∈ o.queues.contents, messages = []

theorem wellFormed_iff_rootedDag : t.WellFormed ↔ t.RootedDag := by
  constructor
  · intro h
    obtain ⟨o, ho, haccept⟩ := h.accepting
    refine ⟨fun node hcycle => ?_, h.locals, h.queues, ?_, Observation.isInitial_iff.mp h.initial,
      o, ho, Observation.isAccept_iff.mp haccept⟩
    · obtain ⟨e, es, hp⟩ := exists_path_cons_iff.mpr hcycle
      exact h.acyclic node e es hp
    · exact fun node hlt => exists_path_iff.mp (h.reached node hlt)
  · intro h
    obtain ⟨o, ho, haccept⟩ := h.accepting
    exact ⟨fun node e es hp => h.acyclic node (exists_path_cons_iff.mp ⟨e, es, hp⟩), h.locals,
      h.queues, fun node hlt => exists_path_iff.mpr (h.reached node hlt),
      Observation.isInitial_iff.mpr h.initial, o, ho, Observation.isAccept_iff.mpr haccept⟩

/-- However a trace has been built, validation accepts it if and only if it is a rooted
acyclic graph of observations of one shape. -/
theorem Built.validate_iff_rootedDag (h : t.Built) : t.validate = .ok () ↔ t.RootedDag :=
  (validate_eq_ok_iff h.closed).trans wellFormed_iff_rootedDag

/-- A process works in either of two ways and then hands a message over to another. -/
def parallel : Trace where
  channels := [⟨0, 1, 0, false⟩]
  root := ⟨[⟨"0", true, false⟩, ⟨"0", true, false⟩], ⟨[[]]⟩⟩
  later := [⟨[⟨"1", false, false⟩, ⟨"0", true, false⟩], ⟨[[]]⟩⟩,
    ⟨[⟨"2", false, true⟩, ⟨"0", true, false⟩], ⟨[["m"]]⟩⟩,
    ⟨[⟨"2", false, true⟩, ⟨"1", false, true⟩], ⟨[[]]⟩⟩]
  edges := [⟨0, .internal "work" 0, 1⟩, ⟨0, .internal "rest" 0, 1⟩,
    ⟨1, .send "m" ⟨0, 1, 0, false⟩, 2⟩, ⟨2, .receive "m" ⟨0, 1, 0, false⟩, 3⟩]

theorem built_parallel : parallel.Built := by
  have hnodes := ((Built.start [⟨0, 1, 0, false⟩] parallel.root).observation
    ⟨[⟨"1", false, false⟩, ⟨"0", true, false⟩], ⟨[[]]⟩⟩).observation
    ⟨[⟨"2", false, true⟩, ⟨"0", true, false⟩], ⟨[["m"]]⟩⟩ |>.observation
    ⟨[⟨"2", false, true⟩, ⟨"1", false, true⟩], ⟨[[]]⟩⟩
  have hwork := hnodes.edge (show addEdge _ 0 (.internal "work" 0) 1 = .ok _ from rfl)
  have hrest := hwork.edge (show addEdge _ 0 (.internal "rest" 0) 1 = .ok _ from rfl)
  have hsend := hrest.edge
    (show addEdge _ 1 (.send "m" ⟨0, 1, 0, false⟩) 2 = .ok _ from rfl)
  have hreceive := hsend.edge
    (show addEdge _ 2 (.receive "m" ⟨0, 1, 0, false⟩) 3 = .ok _ from rfl)
  exact hreceive

theorem validate_iff_rootedDag_parallel :
    parallel.Built ∧ parallel.validate = .ok () ∧ parallel.RootedDag := by
  have hvalid : parallel.validate = .ok () := by rfl
  exact ⟨built_parallel, hvalid, built_parallel.validate_iff_rootedDag.mp hvalid⟩

end Trace

end ProtocolInference
