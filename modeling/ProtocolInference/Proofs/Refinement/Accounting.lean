import Mathlib.Algebra.GroupWithZero.Nat
import ProtocolInference.Proofs.Refinement.Soundness

/-!
# What a report accounts for

A refinement checks the invariants by their places in the list it is given, so that an
invariant listed twice is checked twice. The course of a refinement holds the checks of
every round. Each round checks the invariants that no earlier round has verified, and
those that no round has verified are left unresolved. The counts of the report are those
of the course. None of this depends on how the abstraction was made.
-/

namespace ProtocolInference.Refinement

open Abstraction

variable {σ ε : Type} {checker : Checker σ ε} {place : Placement} {g h i : Abstraction}

/-! ### Checks -/

/-- A check that was made: an invariant with its place in the list of all of them, and
the answer of the checker. -/
structure Check where
  invariant : Invariant
  position : Nat
  outcome : Outcome

def Check.key (c : Check) : Invariant × Nat := (c.invariant, c.position)

theorem map_fst_key (checks : List Check) :
    (checks.map Check.key).map (·.1) = checks.map (·.invariant) :=
  List.map_map ..

/-- Some check of the invariant at the given place was answered by `verified`. -/
def Verified (log : List (List Check)) (position : Nat) : Prop :=
  ∃ checks ∈ log, ∃ c ∈ checks, c.position = position ∧ c.outcome = .verified

instance (log : List (List Check)) (position : Nat) : Decidable (Verified log position) :=
  inferInstanceAs (Decidable
    (∃ checks ∈ log, ∃ c ∈ checks, c.position = position ∧ c.outcome = .verified))

/-- The invariants that have not been verified, in their order and with their places. -/
def awaiting (invariants : List Invariant) (log : List (List Check)) : List (Invariant × Nat) :=
  invariants.zipIdx.filter fun x => ¬Verified log x.2

theorem verified_append {log log' : List (List Check)} {position : Nat} :
    Verified (log ++ log') position ↔ Verified log position ∨ Verified log' position := by
  simp only [Verified, List.mem_append, or_and_right, exists_or]

theorem awaiting_nil (invariants : List Invariant) : awaiting invariants [] = invariants.zipIdx := by
  have hall : ∀ x ∈ invariants.zipIdx, decide ¬Verified [] x.2 = true := by simp [Verified]
  exact List.filter_eq_self.mpr hall

theorem awaiting_append (invariants : List Invariant) (log log' : List (List Check)) :
    awaiting invariants (log ++ log') =
      (awaiting invariants log).filter fun x => ¬Verified log' x.2 := by
  unfold awaiting
  rw [List.filter_filter]
  refine List.filter_congr fun x _ => ?_
  simp [verified_append, Bool.and_comm]

theorem nodup_positions (invariants : List Invariant) (log : List (List Check)) :
    ((awaiting invariants log).map (·.2)).Nodup := by
  have hall : (invariants.zipIdx.map (·.2)).Nodup := by
    rw [List.zipIdx_map_snd]
    exact List.nodup_range'
  exact hall.sublist (List.filter_sublist.map _)

/-- A round leaves those of its checks that did not verify. -/
theorem stillPending_checks (checks : List Check) :
    stillPending (checks.map (·.invariant)) (checks.map (·.outcome)) =
      (checks.filter fun c => c.outcome ≠ .verified).map (·.invariant) := by
  induction checks with
  | nil => rfl
  | cons c checks ih =>
    rw [List.map_cons, List.map_cons, stillPending_cons, ih]
    by_cases hv : c.outcome = .verified
    · simp [hv]
    · simp [hv]

/-- Of the invariants that a round checks, those remain that it has not verified. The
places are different, so an invariant is not taken for another one that is equal. -/
theorem stillPending_awaiting {invariants : List Invariant} {past : List (List Check)}
    {checks : List Check} (hchecks : checks.map Check.key = awaiting invariants past) :
    stillPending (checks.map (·.invariant)) (checks.map (·.outcome)) =
      (awaiting invariants (past ++ [checks])).map (·.1) := by
  have hnodup : (checks.map (·.position)).Nodup := by
    have hpositions := nodup_positions invariants past
    rw [← hchecks, List.map_map] at hpositions
    exact hpositions
  have hkept : ∀ c ∈ checks,
      decide (c.outcome ≠ .verified) = decide ¬Verified [checks] c.key.2 := by
    intro c hc
    have hiff : Verified [checks] c.position ↔ c.outcome = .verified := by
      constructor
      · rintro ⟨cs, hcs, d, hd, hposition, hverified⟩
        rw [List.mem_singleton.mp hcs] at hd
        rw [← List.inj_on_of_nodup_map hnodup hd hc hposition]
        exact hverified
      · intro hverified
        exact ⟨checks, List.mem_singleton_self _, c, hc, rfl, hverified⟩
    exact decide_eq_decide.mpr (not_congr hiff.symm)
  calc stillPending (checks.map (·.invariant)) (checks.map (·.outcome))
      = (checks.filter fun c => c.outcome ≠ .verified).map (·.invariant) :=
        stillPending_checks checks
    _ = (checks.filter fun c => ¬Verified [checks] c.key.2).map (·.invariant) := by
        rw [List.filter_congr hkept]
    _ = ((checks.map Check.key).filter fun x => ¬Verified [checks] x.2).map (·.1) := by
        rw [List.filter_map, List.map_map]
        rfl
    _ = (awaiting invariants (past ++ [checks])).map (·.1) := by
        rw [hchecks, awaiting_append]

/-! ### The course of a refinement -/

/-- The rounds of a refinement. Each of them reads the transitions of all blocks, makes
its checks of the network and applies the splits for the counterexamples. -/
inductive Course (checker : Checker σ ε) (place : Placement) :
    List (List Check) → Abstraction → σ → Abstraction → σ → Prop where
  | nil (g : Abstraction) (s : σ) : Course checker place [] g s g s
  | cons {checks : List Check} {log : List (List Check)} {g h i : Abstraction} {s s₁ s₂ : σ}
      {network : Network} {splits : Nat} :
      g.rememberAll.network = .ok network →
      checker.checkAll network (checks.map (·.invariant)) s = (.ok (checks.map (·.outcome)), s₁) →
      applyAll place g.rememberAll (findings g.rememberAll (checks.map (·.outcome))) =
        .ok (h, splits) →
      Course checker place log h s₁ i s₂ → Course checker place (checks :: log) g s i s₂

theorem size_of_applyAll {fs : List Finding} {n : Nat}
    (hall : applyAll place g fs = .ok (h, n)) : h.size = g.size + n := by
  induction fs generalizing g n with
  | nil =>
    injection hall with hall
    injection hall with hh hn
    rw [← hh, ← hn, Nat.add_zero]
  | cons f rest ih =>
    obtain ⟨x, -, hall⟩ := Checks.bind_eq_ok_iff.mp hall
    cases x with
    | none => exact ih hall
    | some s =>
      obtain ⟨⟨i, fresh⟩, -, hall⟩ := Checks.bind_eq_ok_iff.mp hall
      obtain ⟨hadded, hall⟩ := Checks.guard_eq_ok_iff.mp hall
      obtain ⟨⟨j, m⟩, hrest, hpure⟩ := Checks.bind_eq_ok_iff.mp hall
      injection hpure with hpure
      injection hpure with hj hm
      subst hj
      have hsize := ih hrest
      have hone : i.size = g.size + 1 := not_not.mp hadded
      omega

/-- The checks of a round, and what they leave to the next one. -/
theorem exists_checks_of_round {pending : List (Invariant × Nat)} {r : Round} {s s' : σ}
    (hr : round checker place g (pending.map (·.1)) s = (.ok r, s')) :
    ∃ checks : List Check, checks.map Check.key = pending ∧ r.calls = checks.length ∧
      r.after.size = g.size + r.splits ∧
      r.left = stillPending (checks.map (·.invariant)) (checks.map (·.outcome)) ∧
      ∀ {log i s₂}, Course checker place log r.after s' i s₂ →
        Course checker place (checks :: log) g s i s₂ := by
  obtain ⟨network, outcomes, hnetwork, hcheck, happly, hcalls, hleft⟩ := of_round_eq_ok hr
  have hlength : pending.length = outcomes.length := by
    have heq := (Checker.checkAll_spec hcheck).length_eq
    rwa [List.length_map] at heq
  let checks := (pending.zip outcomes).map fun x => Check.mk x.1.1 x.1.2 x.2
  have hkeys : checks.map Check.key = pending := by
    rw [List.map_map]
    exact List.map_fst_zip hlength.le
  have houtcomes : checks.map (·.outcome) = outcomes := by
    rw [List.map_map]
    exact List.map_snd_zip hlength.ge
  have hinvariants : checks.map (·.invariant) = pending.map (·.1) := by
    rw [← map_fst_key, hkeys]
  have hsize := size_of_applyAll happly
  rw [g.size_rememberAll] at hsize
  refine ⟨checks, hkeys, ?_, hsize, ?_, fun hcourse => ?_⟩
  · rw [hcalls, ← houtcomes, List.length_map]
  · rw [hleft, hinvariants, houtcomes]
  · rw [← hinvariants, ← houtcomes] at hcheck
    rw [← houtcomes] at happly
    exact .cons hnetwork hcheck happly hcourse

/-! ### The report of the loop -/

theorem converged_conclude {report : Report} (hopen : report.converged = false)
    (left : List Invariant) :
    (conclude report left).converged = true ↔ (conclude report left).unresolved = [] := by
  simp [conclude, hopen]

theorem loop_converged_iff {n : Nat} {pending : List Invariant} {report report' : Report}
    {s s' : σ} (hopen : report.converged = false)
    (hl : loop checker place n g pending report s = (.ok (report', h), s')) :
    report'.converged = true ↔ report'.unresolved = [] := by
  induction n generalizing g pending report s with
  | zero =>
    rcases loop_cases hl with ⟨hreport, -⟩ | ⟨m, -, -, hm, -⟩
    · rw [hreport]
      exact converged_conclude hopen pending
    · omega
  | succ n ih =>
    rcases loop_cases hl with ⟨hreport, -⟩ | ⟨m, r, s₁, hm, -, -, hlast | ⟨-, -, hmore⟩⟩
    · rw [hreport]
      exact converged_conclude hopen pending
    · have hopen' : (extend report r).converged = false := hopen
      rw [hlast.1]
      exact converged_conclude hopen' r.left
    · have hopen' : (extend report r).converged = false := hopen
      obtain rfl : n = m := by omega
      exact ih hopen' hmore

/-- What the rounds of a course add to a report, when the given checks were made before
them: one round each, its checks and its splits. -/
structure Accounts (invariants : List Invariant) (past log : List (List Check))
    (report report' : Report) (g h : Abstraction) : Prop where
  rounds : report'.rounds = report.rounds + log.length
  calls : report'.checkerCalls = report.checkerCalls + (log.map List.length).sum
  splits : report'.refinements + g.size = report.refinements + h.size
  checked : ∀ k checks, log[k]? = some checks →
    checks.map Check.key = awaiting invariants (past ++ log.take k)
  unresolved : report'.unresolved = (awaiting invariants (past ++ log)).map (·.1)

section
variable {invariants : List Invariant} {past log : List (List Check)} {report report' : Report}

theorem accounts_nil (hrounds : report'.rounds = report.rounds)
    (hcalls : report'.checkerCalls = report.checkerCalls)
    (hsplits : report'.refinements = report.refinements)
    (hleft : report'.unresolved = (awaiting invariants past).map (·.1)) :
    Accounts invariants past [] report report' g g where
  rounds := hrounds
  calls := hcalls
  splits := by rw [hsplits]
  checked := fun k checks hk => by simp at hk
  unresolved := by rw [hleft, List.append_nil]

theorem Accounts.cons {checks : List Check} {r : Round}
    (hchecks : checks.map Check.key = awaiting invariants past)
    (hcalls : r.calls = checks.length) (hsize : r.after.size = g.size + r.splits)
    (h' : Accounts invariants (past ++ [checks]) log (extend report r) report' r.after h) :
    Accounts invariants past (checks :: log) report report' g h := by
  have hrounds := h'.rounds
  have hcalls' := h'.calls
  have hsplits := h'.splits
  rw [rounds_extend] at hrounds
  rw [checkerCalls_extend] at hcalls'
  rw [refinements_extend] at hsplits
  constructor
  case rounds =>
    rw [List.length_cons]
    omega
  case calls =>
    rw [List.map_cons, List.sum_cons]
    omega
  case splits => omega
  case checked =>
    intro k cs hk
    cases k with
    | zero =>
      rw [List.getElem?_cons_zero] at hk
      injection hk with hk
      rw [← hk, hchecks, List.take_zero, List.append_nil]
    | succ k =>
      have hlater := h'.checked k cs hk
      rw [hlater, List.take_succ_cons, List.append_assoc, List.singleton_append]
  case unresolved => rw [h'.unresolved, List.append_assoc, List.singleton_append]

theorem loop_accounts {n : Nat} {s s' : σ}
    (hl : loop checker place n g ((awaiting invariants past).map (·.1)) report s =
      (.ok (report', h), s')) :
    ∃ log, Course checker place log g s h s' ∧ Accounts invariants past log report report' g h := by
  induction n generalizing g past report s with
  | zero =>
    rcases loop_cases hl with ⟨hreport, hh, hs⟩ | ⟨m, -, -, hm, -⟩
    · rw [hreport, hh, hs]
      exact ⟨[], .nil g s, accounts_nil rfl rfl rfl rfl⟩
    · omega
  | succ n ih =>
    rcases loop_cases hl with ⟨hreport, hh, hs⟩ | ⟨m, r, s₁, hm, -, hr, hnext⟩
    · rw [hreport, hh, hs]
      exact ⟨[], .nil g s, accounts_nil rfl rfl rfl rfl⟩
    obtain ⟨checks, hchecks, hcalls, hsize, hleft, hcourse⟩ := exists_checks_of_round hr
    rw [stillPending_awaiting hchecks] at hleft
    rcases hnext with ⟨hreport, hh, hs⟩ | ⟨-, -, hmore⟩
    · rw [hreport, hh, hs]
      exact ⟨[checks], hcourse (.nil r.after s₁),
        .cons hchecks hcalls hsize (accounts_nil rfl rfl rfl hleft)⟩
    · obtain rfl : n = m := by omega
      rw [hleft] at hmore
      obtain ⟨log, hlog, haccounts⟩ := ih hmore
      exact ⟨checks :: log, hcourse hlog, .cons hchecks hcalls hsize haccounts⟩

end

/-! ### Reports -/

/-- What a report counts. The splits are the blocks that were added, the calls are the
checks of all rounds, every round checks what no earlier round has verified, and what no
round has verified is unresolved, in its order and as often as it was listed. -/
theorem run_accounts {maxRounds : Option Nat} {invariants : List Invariant} {report : Report}
    {s s' : σ} (hrun : run checker place maxRounds g invariants s = (.ok (report, h), s')) :
    report.refinements + g.size = h.size ∧
    ∃ log, Course checker place log g s h s' ∧
      report.rounds = log.length ∧
      report.checkerCalls = (log.map List.length).sum ∧
      (∀ k checks, log[k]? = some checks →
        checks.map (fun c => (c.invariant, c.position)) = awaiting invariants (log.take k)) ∧
      report.unresolved = (awaiting invariants log).map (·.1) := by
  have hall : (awaiting invariants []).map (·.1) = invariants := by
    rw [awaiting_nil, List.zipIdx_map_fst]
  obtain ⟨log, hcourse, haccounts⟩ : ∃ log, Course checker place log g s h s' ∧
      Accounts invariants [] log {} report g h := by
    unfold run at hrun
    split at hrun
    · obtain ⟨hreport, hh, hs⟩ := ended_inj hrun
      rw [← hreport, ← hh, ← hs]
      exact ⟨[], .nil g s, accounts_nil rfl rfl rfl hall.symm⟩
    · rw [← hall] at hrun
      exact loop_accounts hrun
  have hrounds := haccounts.rounds
  have hcalls := haccounts.calls
  have hsplits := haccounts.splits
  rw [Nat.zero_add] at hrounds hcalls hsplits
  exact ⟨hsplits, log, hcourse, hrounds, hcalls, haccounts.checked, haccounts.unresolved⟩

/-- One invariant is listed twice. It is verified at its first place only, and the block
is split for its second place before the checker gives up there. -/
theorem run_accounts_workTwice : ∃ g report h s' log,
    ofTraces [workTwice] .queueTops false = .ok g ∧
    run (Checker.scripted : Checker _ Unit) (fun _ _ => false) none g
      [.eventually (.internal "work" 0), .eventually (.internal "work" 0)]
      ([.verified, .counterexample [.internal "work" 0], .inconclusive], 0) =
        (.ok (report, h), s') ∧
    Course (Checker.scripted : Checker _ Unit) (fun _ _ => false) log g
      ([.verified, .counterexample [.internal "work" 0], .inconclusive], 0) h s' ∧
    log.length = 2 ∧ (log.map List.length).sum = 3 ∧ h.size = g.size + 1 ∧
    (awaiting [.eventually (.internal "work" 0), .eventually (.internal "work" 0)] log).map (·.1) =
      [.eventually (.internal "work" 0)] := by
  have hstart : ofTraces [workTwice] .queueTops false =
      .ok (assemble workTwice [workTwice] .queueTops false) := rfl
  have hreport : (run (Checker.scripted : Checker _ Unit) (fun _ _ => false) none
      (assemble workTwice [workTwice] .queueTops false)
      [.eventually (.internal "work" 0), .eventually (.internal "work" 0)]
      ([.verified, .counterexample [.internal "work" 0], .inconclusive], 0)).1.map (·.1) =
        .ok ⟨1, 2, 3, false, [.eventually (.internal "work" 0)]⟩ := by decide +kernel
  obtain ⟨⟨report, h⟩, s', hrun⟩ := Checks.exists_eq_ok_fst (show Except.isOk
    (run (Checker.scripted : Checker _ Unit) (fun _ _ => false) none
      (assemble workTwice [workTwice] .queueTops false)
      [.eventually (.internal "work" 0), .eventually (.internal "work" 0)]
      ([.verified, .counterexample [.internal "work" 0], .inconclusive], 0)).1 = true by
        decide +kernel)
  rw [hrun] at hreport
  injection hreport with hreport
  obtain ⟨hsplits, log, hcourse, hrounds, hcalls, -, hleft⟩ := run_accounts hrun
  rw [show report = _ from hreport] at hsplits hrounds hcalls hleft
  exact ⟨_, report, h, s', log, hstart, hrun, hcourse, hrounds.symm, hcalls.symm,
    by rw [← hsplits, Nat.add_comm], hleft.symm⟩

/-- A refinement has converged if and only if nothing is unresolved, unless it was asked
for nothing of an abstraction whose blocks all have one member. It does not look at such
an abstraction, so it has not converged then, although nothing is unresolved. -/
theorem run_converged_iff {maxRounds : Option Nat} {invariants : List Invariant}
    {report : Report} {s s' : σ}
    (hrun : run checker place maxRounds g invariants s = (.ok (report, h), s')) :
    (¬(g.isSingle = true ∧ invariants = []) →
      (report.converged = true ↔ report.unresolved = [])) ∧
    (g.isSingle = true ∧ invariants = [] →
      report.converged = false ∧ report.unresolved = []) := by
  unfold run at hrun
  split at hrun
  · rename_i hsingle
    obtain ⟨hreport, -⟩ := ended_inj hrun
    rw [← hreport]
    constructor
    · intro hsome
      have hne : invariants ≠ [] := fun hnone => hsome ⟨hsingle, hnone⟩
      exact iff_of_false Bool.false_ne_true hne
    · rintro ⟨-, hnone⟩
      exact ⟨rfl, hnone⟩
  · rename_i hmany
    exact ⟨fun _ => loop_converged_iff rfl hrun, fun hsingle => absurd hsingle.1 hmany⟩

/-- Nothing is asked of an abstraction of single observations. -/
theorem run_converged_workTwice : ∃ g report h s',
    ofTraces [workTwice] .single false = .ok g ∧
    run (Checker.scripted : Checker _ Unit) (fun _ _ => false) none g [] ([], 0) =
      (.ok (report, h), s') ∧
    report.converged = false ∧ report.unresolved = [] := by
  have hstart : ofTraces [workTwice] .single false =
      .ok (assemble workTwice [workTwice] .single false) := rfl
  have hsingle : (assemble workTwice [workTwice] .single false).isSingle = true := by
    decide +kernel
  obtain ⟨⟨report, h⟩, s', hrun⟩ := Checks.exists_eq_ok_fst (show Except.isOk
    (run (Checker.scripted : Checker _ Unit) (fun _ _ => false) none
      (assemble workTwice [workTwice] .single false) [] ([], 0)).1 = true by
        decide +kernel)
  obtain ⟨-, hnothing⟩ := run_converged_iff hrun
  obtain ⟨hconverged, hunresolved⟩ := hnothing ⟨hsingle, rfl⟩
  exact ⟨_, report, h, s', hstart, hrun, hconverged, hunresolved⟩

end ProtocolInference.Refinement
