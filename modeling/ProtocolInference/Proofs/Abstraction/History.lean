import ProtocolInference.Proofs.Abstraction.Construction
import ProtocolInference.Proofs.Abstraction.Splitting

/-!
# Histories of abstractions

An abstraction comes from the first grouping of the traces by splitting blocks and
removing blocks. In between the transitions of any block may be read, which keeps them.
Whatever the order of these steps, the abstraction is coherent, its observations are
those of the traces, and an observation lies in no block only because its block has
been removed.
-/

namespace ProtocolInference.Abstraction

/-- The abstraction is reached from the first grouping of the traces. The blocks are those
that have been removed on the way. -/
inductive Reached (traces : List Trace) (grouping : Grouping) (strict : Bool) :
    List Block → Abstraction → Prop where
  | start {g : Abstraction} : ofTraces traces grouping strict = .ok g →
      Reached traces grouping strict [] g
  | split {removed : List Block} {g h : Abstraction} {s : Split} {place : Placement} {id : Nat} :
      Reached traces grouping strict removed g → g.split s place = .ok (h, id) →
      Reached traces grouping strict removed h
  | remove {removed : List Block} {g : Abstraction} (id : Nat) :
      Reached traces grouping strict removed g →
      Reached traces grouping strict ((g.block? id).toList ++ removed) (g.remove id)
  | read {removed : List Block} {g : Abstraction} (id : Nat) :
      Reached traces grouping strict removed g →
      Reached traces grouping strict removed (g.remember id)

variable {traces : List Trace} {grouping : Grouping} {strict : Bool} {removed : List Block}
  {g : Abstraction}

theorem Reached.coherent (h : Reached traces grouping strict removed g) : g.Coherent := by
  induction h with
  | start h =>
    obtain ⟨first, -, -, rfl⟩ := eq_assemble_of_ofTraces h
    exact coherent_assemble
  | split _ hs ih => exact ih.split hs
  | remove id _ ih => exact ih.remove id
  | read id _ ih => exact ih.remember id

/-- No step changes the observations, the processes or the channels. -/
theorem Reached.frame (h : Reached traces grouping strict removed g) :
    ∃ first ∈ traces, (∀ t ∈ traces, t.processes = first.processes ∧
        t.channels = first.channels) ∧
      g.nodes = withIncoming (outgoing traces) ∧ g.processes = first.processes ∧
      g.channels = first.channels := by
  induction h with
  | start h =>
    obtain ⟨first, hf, hall, rfl⟩ := eq_assemble_of_ofTraces h
    exact ⟨first, hf, hall, rfl, rfl, rfl⟩
  | split hr hs ih =>
    obtain ⟨hn, hp, hc, -⟩ := hr.coherent.toGrouped.parentOf_split hs
    rw [hn, hp, hc]
    exact ih
  | @remove removed g id _ ih =>
    obtain ⟨hn, hp, hc⟩ := remove_frame g id
    rw [hn, hp, hc]
    exact ih
  | @read removed g id _ ih =>
    obtain ⟨hn, hp, hc, -⟩ := remember_frame g id
    rw [hn, hp, hc]
    exact ih

theorem Reached.strict_eq (h : Reached traces grouping strict removed g) : g.strict = strict := by
  induction h with
  | start h =>
    obtain ⟨first, -, -, rfl⟩ := eq_assemble_of_ofTraces h
    rfl
  | split _ hs ih =>
    obtain ⟨b, -, -, rfl, -⟩ := split_eq_ok_iff.mp hs
    exact ih
  | @remove removed g id _ ih =>
    refine Eq.trans ?_ ih
    unfold Abstraction.remove
    split <;> rfl
  | @read removed g id _ ih =>
    refine Eq.trans ?_ ih
    unfold remember
    split <;> rfl

theorem Grouped.parentOf_remove_eq_none_iff (hg : g.Grouped) (id o : Nat) :
    (g.remove id).parentOf o = none ↔
      (∃ b, g.block? id = some b ∧ o ∈ b.members) ∨ g.parentOf o = none := by
  cases hb : g.block? id with
  | none =>
    rw [remove_eq_self hb]
    simp
  | some b =>
    rw [remove_eq hb, parentOf_advance, hg.parentOf_takeOut hb]
    split
    · rename_i ho
      exact iff_of_true rfl (Or.inl ⟨b, rfl, ho⟩)
    · rename_i ho
      refine ⟨Or.inr, ?_⟩
      rintro (⟨c, hc, hm⟩ | hn)
      · injection hc with hc
        subst hc
        exact absurd hm ho
      · exact hn

/-- An observation lies in no block if it was a member of a block that was removed. -/
theorem Reached.parentOf_eq_none_iff (h : Reached traces grouping strict removed g) {o : Nat}
    (ho : o < g.nodes.size) : g.parentOf o = none ↔ ∃ b ∈ removed, o ∈ b.members := by
  induction h with
  | start h =>
    obtain ⟨first, -, -, rfl⟩ := eq_assemble_of_ofTraces h
    obtain ⟨id, hid⟩ := exists_parentOf_assemble ho
    simp [hid]
  | split hr hs ih =>
    obtain ⟨hn, -, -, hp⟩ := hr.coherent.toGrouped.parentOf_split hs
    rw [← ih (by rwa [hn] at ho), hp o, Option.map_eq_none_iff]
  | @remove removed g id hr ih =>
    rw [(remove_frame g id).1] at ho
    rw [hr.coherent.toGrouped.parentOf_remove_eq_none_iff, ih ho]
    simp only [List.mem_append, Option.mem_toList, or_and_right, exists_or]
  | @read removed g id _ ih =>
    rw [(remember_frame g id).1] at ho
    rw [parentOf_remember, ih ho]

/-! ### The invariant of all histories -/

/-- Some member of the block is an observation of the kind. -/
def SomeMember (g : Abstraction) (b : Block) (kind : Observation → Bool) : Prop :=
  ∃ o ∈ b.members, ∃ x, g.observation? o = some x ∧ kind x = true

theorem any_members_iff (g : Abstraction) (b : Block) (kind : Observation → Bool) :
    (b.members.any fun o => g.nodes[o]?.any fun n => kind n.observation) = true ↔
      g.SomeMember b kind := by
  rw [List.any_eq_true, SomeMember]
  refine exists_congr fun o => and_congr_right fun _ => ?_
  unfold observation?
  cases g.nodes[o]? <;> simp

/-- The flags of a block are those of its members. -/
theorem Grouped.flags_iff (hg : g.Grouped) {id : Nat} {b : Block} (hb : g.block? id = some b) :
    (b.initial = true ↔ g.SomeMember b (·.isInitial)) ∧
    (b.accept = true ↔ g.SomeMember b (·.isAccept)) ∧
    ∀ pid < g.processes,
      (b.isInitialFor pid = true ↔ g.SomeMember b (·.isInitialFor pid)) ∧
      (b.isAcceptFor pid = true ↔ g.SomeMember b (·.isAcceptFor pid)) := by
  have hflags := (hg.fits hb).flags
  refine ⟨?_, ?_, fun pid hpid => ⟨?_, ?_⟩⟩
  · rw [← any_members_iff, ← congrArg Block.initial hflags]
    rfl
  · rw [← any_members_iff, ← congrArg Block.accept hflags]
    rfl
  · rw [← any_members_iff, Block.isInitialFor, ← congrArg Block.initialFor hflags]
    simp [Block.withFlags, hpid]
  · rw [← any_members_iff, Block.isAcceptFor, ← congrArg Block.acceptFor hflags]
    simp [Block.withFlags, hpid]

theorem Coherent.transitions_eq_ok (hg : g.Coherent) {id : Nat} {b : Block}
    (hb : g.block? id = some b) : g.transitions id = .ok (g.computeTransitions b) := by
  rw [transitions, block_eq_ok_iff.mpr hb, ← hg.transitionsOf_eq hb]
  rfl

/-- In every abstraction that is reached, the blocks hold the observations that lie in
them, an observation lies in no block only if its block was removed, the flags are those
of the members, the edges into the observations are the converse of those out of them,
and the transitions that are read are those of the members. -/
theorem reached_agrees (h : Reached traces grouping strict removed g) :
    ((∀ id b, g.block? id = some b → b.id = id ∧ b.members ≠ [] ∧
        ∀ o, o ∈ b.members ↔ g.parentOf o = some id) ∧
      (∀ o id, g.parentOf o = some id → ∃ b, g.block? id = some b) ∧
      ∀ o < g.nodes.size, g.parentOf o = none ↔ ∃ b ∈ removed, o ∈ b.members) ∧
    (∀ id b, g.block? id = some b →
      (b.initial = true ↔ g.SomeMember b (·.isInitial)) ∧
      (b.accept = true ↔ g.SomeMember b (·.isAccept)) ∧
      ∀ pid < g.processes,
        (b.isInitialFor pid = true ↔ g.SomeMember b (·.isInitialFor pid)) ∧
        (b.isAcceptFor pid = true ↔ g.SomeMember b (·.isAcceptFor pid))) ∧
    (∀ p n, g.nodes[p]? = some n → ∀ o,
      n.prev.count o = (g.edges o).countP (·.2 == p)) ∧
    ∀ id b, g.block? id = some b → ∃ ts, g.transitions id = .ok ts ∧ Ascending.Sorted ts ∧
      ∀ e c, (e, c) ∈ ts ↔ ∃ o ∈ b.members, ∃ t,
        (e, t) ∈ g.edges o ∧ g.parentOf t = some c ∧ ∃ d, g.block? c = some d := by
  have hg := h.coherent
  refine ⟨⟨fun id b hb => ?_, fun o id ho => hg.live ho, fun o ho => h.parentOf_eq_none_iff ho⟩,
    fun id b hb => hg.flags_iff hb, fun p n hn o => hg.converse hn o, fun id b hb => ?_⟩
  · have hfits := hg.fits hb
    exact ⟨hfits.id_eq, hfits.nonempty, hfits.mem_iff⟩
  · refine ⟨_, hg.transitions_eq_ok hb, Ascending.sorted_ofList _, fun e c => ?_⟩
    rw [mem_computeTransitions]
    constructor
    · rintro ⟨o, ho, t, hm, hc⟩
      exact ⟨o, ho, t, hm, hc, hg.live hc⟩
    · rintro ⟨o, ho, t, hm, hc, -⟩
      exact ⟨o, ho, t, hm, hc⟩

/-- One process that works twice. -/
def workTwice : Trace where
  channels := []
  root := ⟨[⟨"0", true, false⟩], ⟨[]⟩⟩
  later := [⟨[⟨"1", false, false⟩], ⟨[]⟩⟩, ⟨[⟨"2", false, true⟩], ⟨[]⟩⟩]
  edges := [⟨0, .internal "work" 0, 1⟩, ⟨1, .internal "work" 0, 2⟩]

/-- The block of all observations is read and split, and the new block is removed. -/
theorem reached_agrees_workTwice : ∃ g h id,
    ofTraces [workTwice] .queueTops false = .ok g ∧
    (g.remember 0).split ⟨0, [0], [2]⟩ (fun _ _ => false) = .ok (h, id) ∧
    (∀ o < (h.remove id).nodes.size,
      (h.remove id).parentOf o = none ↔ ∃ b ∈ (h.block? id).toList ++ [], o ∈ b.members) ∧
    ∀ c b, (h.remove id).block? c = some b → ∃ ts, (h.remove id).transitions c = .ok ts := by
  have hstart : ofTraces [workTwice] .queueTops false =
      .ok (assemble workTwice [workTwice] .queueTops false) := rfl
  obtain ⟨⟨h, id⟩, hsplit⟩ := Checks.exists_eq_ok (show Except.isOk
    (((assemble workTwice [workTwice] .queueTops false).remember 0).split ⟨0, [0], [2]⟩
      fun _ _ => false) = true by decide +kernel)
  obtain ⟨⟨-, -, hnone⟩, -, -, hread⟩ :=
    reached_agrees (.remove id (.split (.read 0 (.start hstart)) hsplit))
  refine ⟨_, h, id, hstart, hsplit, hnone, fun c b hb => ?_⟩
  obtain ⟨ts, hts, -⟩ := hread c b hb
  exact ⟨ts, hts⟩

/-- The process that works twice, after the end has been split off. -/
def endApart : Abstraction :=
  match (assemble workTwice [workTwice] .queueTops false).split ⟨0, [0], [2]⟩ fun _ _ => false with
  | .ok (g, _) => g
  | .error _ => default

theorem reached_endApart : Reached [workTwice] .queueTops false [] endApart := by
  have hstart : ofTraces [workTwice] .queueTops false =
      .ok (assemble workTwice [workTwice] .queueTops false) := rfl
  obtain ⟨⟨g, fresh⟩, hsplit⟩ := Checks.exists_eq_ok (show Except.isOk
    ((assemble workTwice [workTwice] .queueTops false).split ⟨0, [0], [2]⟩
      fun _ _ => false) = true by decide +kernel)
  have heq : endApart = g := by
    unfold endApart
    rw [hsplit]
  rw [heq]
  exact .split (.start hstart) hsplit

end ProtocolInference.Abstraction
