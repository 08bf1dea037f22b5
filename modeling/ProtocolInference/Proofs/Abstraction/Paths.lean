import ProtocolInference.Abstraction.Projection
import ProtocolInference.Proofs.Abstraction.Coherence
import ProtocolInference.Proofs.Graph.Reachability

/-!
# Paths of blocks

A path goes from block to block by their transitions. A process takes part in its own
events only, so what it does on a path is the subsequence of these. The same is got by
silent stretches, on which the process does nothing, before every own event and at the
end.
-/

namespace ProtocolInference.Abstraction

/-- A path of blocks and the events on it. -/
inductive Path (g : Abstraction) : Nat → List Event → Nat → Prop where
  | nil (p : Nat) : Path g p [] p
  | cons {p q r : Nat} {e : Event} {es : List Event} :
      q ∈ g.next p e → Path g q es r → Path g p (e :: es) r

/-- The process does the word on some path from a block that is initial for it to an
accepting block. -/
def Spells (g : Abstraction) (pid : Nat) (w : List Event) : Prop :=
  ∃ p b q c es, g.block? p = some b ∧ b.isInitialFor pid = true ∧
    g.block? q = some c ∧ c.accept = true ∧ g.Path p es q ∧ w = es.filter (·.pid == pid)

variable {g : Abstraction} {pid p q r : Nat}

theorem Path.append {es fs : List Event} (h : g.Path p es q) (h' : g.Path q fs r) :
    g.Path p (es ++ fs) r := by
  induction h with
  | nil p => exact h'
  | cons hn _ ih => exact .cons hn (ih h')

theorem Coherent.exists_of_mem_next (hg : g.Coherent) {e : Event} (h : q ∈ g.next p e) :
    ∃ b, g.block? q = some b := by
  obtain ⟨o, t, -, -, ht⟩ := hg.mem_next_iff.mp h
  exact hg.live ht

/-! ### Silent stretches -/

theorem leads_silentGraph_iff : (g.silentGraph pid).Leads p q ↔
    ∃ e : Event, e.pid ≠ pid ∧ q ∈ g.next p e := by
  have hsucc : (g.silentGraph pid).successors p = (g.block? p).elim [] fun b =>
      ((g.transitionsOf b).filter (·.1.pid ≠ pid)).map (·.2) := by
    unfold Graph.successors silentGraph block?
    rw [Array.getElem?_map]
    cases g.blocks[p]? with
    | none => rfl
    | some x => cases x <;> rfl
  rw [Graph.Leads, hsucc]
  unfold next
  cases g.block? p with
  | none => simp
  | some b =>
    simp only [Option.elim_some, Transitions.mem_targets, List.mem_map, List.mem_filter,
      decide_eq_true_eq]
    constructor
    · rintro ⟨⟨e, t⟩, ⟨hm, he⟩, rfl⟩
      exact ⟨e, he, hm⟩
    · rintro ⟨e, he, hm⟩
      exact ⟨(e, q), ⟨hm, he⟩, rfl⟩

theorem exists_path_of_reaches (h : (g.silentGraph pid).Reaches p q) :
    ∃ es, g.Path p es q ∧ es.filter (·.pid == pid) = [] := by
  induction h using Relation.ReflTransGen.head_induction_on with
  | refl => exact ⟨[], .nil q, rfl⟩
  | head hl _ ih =>
    obtain ⟨e, he, hn⟩ := leads_silentGraph_iff.mp hl
    obtain ⟨es, hp, hf⟩ := ih
    refine ⟨e :: es, .cons hn hp, ?_⟩
    rw [List.filter_cons_of_neg (by simpa using he), hf]

/-- What a process does from block to block: before every own event there is a silent
stretch. -/
inductive OwnRun (g : Abstraction) (pid : Nat) : Nat → List Event → Nat → Prop where
  | nil (p : Nat) : OwnRun g pid p [] p
  | cons {p m q r : Nat} {e : Event} {w : List Event} :
      (g.silentGraph pid).Reaches p m → e.pid = pid → q ∈ g.next m e →
      OwnRun g pid q w r → OwnRun g pid p (e :: w) r

theorem OwnRun.head {w : List Event} {m : Nat} (hpm : (g.silentGraph pid).Leads p m)
    (h : g.OwnRun pid m w r) (hr : (g.silentGraph pid).Reaches r q) :
    ∃ r', g.OwnRun pid p w r' ∧ (g.silentGraph pid).Reaches r' q := by
  cases h with
  | nil => exact ⟨p, .nil p, .head hpm hr⟩
  | cons hm he hn hrun => exact ⟨r, .cons (.head hpm hm) he hn hrun, hr⟩

/-- What a process does on the paths between two blocks. -/
theorem exists_path_iff {w : List Event} :
    (∃ es, g.Path p es q ∧ w = es.filter (·.pid == pid)) ↔
      ∃ r, g.OwnRun pid p w r ∧ (g.silentGraph pid).Reaches r q := by
  constructor
  · rintro ⟨es, hp, rfl⟩
    induction hp with
    | nil p => exact ⟨p, .nil p, .refl⟩
    | @cons p m q e es hn _ ih =>
      obtain ⟨r, hrun, hr⟩ := ih
      by_cases he : e.pid = pid
      · rw [List.filter_cons_of_pos (by simpa using he)]
        exact ⟨r, .cons .refl he hn hrun, hr⟩
      · -- The silent step belongs to the stretch before the next own event.
        rw [List.filter_cons_of_neg (by simpa using he)]
        exact hrun.head (leads_silentGraph_iff.mpr ⟨e, he, hn⟩) hr
  · rintro ⟨r, hrun, hr⟩
    induction hrun with
    | nil p =>
      obtain ⟨es, hp, hf⟩ := exists_path_of_reaches hr
      exact ⟨es, hp, hf.symm⟩
    | @cons p m s r e w hm he hn _ ih =>
      obtain ⟨silent, hsilent, hnone⟩ := exists_path_of_reaches hm
      obtain ⟨es, hp, rfl⟩ := ih hr
      refine ⟨silent ++ e :: es, hsilent.append (.cons hn hp), ?_⟩
      rw [List.filter_append, hnone, List.filter_cons_of_pos (by simpa using he)]
      rfl

end ProtocolInference.Abstraction
