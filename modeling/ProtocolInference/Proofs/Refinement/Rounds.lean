import Mathlib.Algebra.GroupWithZero.Nat
import ProtocolInference.Proofs.Abstraction.Counting
import ProtocolInference.Refinement.Loop

/-!
# The rounds of a refinement

A round reads the transitions of all blocks, checks what is pending and applies the
splits for the counterexamples. Every split adds a block with members, and every round
but the last splits. So the number of splits is at most the number of observations in
blocks less the number of blocks, whatever the checker answers, and there is at most one
round more than there are splits.
-/

namespace ProtocolInference.Refinement

variable {σ ε : Type} {checker : Checker σ ε} {place : Placement} {g h i : Abstraction}

/-! ### One round -/

/-- What a round leaves behind. -/
structure Round where
  after : Abstraction
  left : List Invariant
  calls : Nat
  splits : Nat

def round (checker : Checker σ ε) (place : Placement) (g : Abstraction)
    (pending : List Invariant) (s : σ) : Except (RefinementError ε) Round × σ :=
  match g.rememberAll.network with
  | .error cause => (.error (.fault cause), s)
  | .ok network =>
    match checker.checkAll network pending s with
    | (.error cause, s) => (.error (.checker cause), s)
    | (.ok outcomes, s) =>
      match applyAll place g.rememberAll (findings g.rememberAll outcomes) with
      | .error cause => (.error (.fault cause), s)
      | .ok (h, splits) =>
        (.ok ⟨h, stillPending pending outcomes, outcomes.length, splits⟩, s)

def extend (report : Report) (r : Round) : Report :=
  { report with
    rounds := report.rounds + 1
    checkerCalls := report.checkerCalls + r.calls
    refinements := report.refinements + r.splits }

@[simp]
theorem rounds_extend (report : Report) (r : Round) :
    (extend report r).rounds = report.rounds + 1 := rfl

@[simp]
theorem checkerCalls_extend (report : Report) (r : Round) :
    (extend report r).checkerCalls = report.checkerCalls + r.calls := rfl

@[simp]
theorem refinements_extend (report : Report) (r : Round) :
    (extend report r).refinements = report.refinements + r.splits := rfl

theorem ended_inj {report report' : Report} {s s' : σ}
    (hend : ((.ok (report, g), s) : Except (RefinementError ε) (Report × Abstraction) × σ) =
      (.ok (report', h), s')) : report = report' ∧ g = h ∧ s = s' := by
  injection hend with hend hs
  injection hend with hend
  injection hend with hreport hh
  exact ⟨hreport, hh, hs⟩

theorem loop_nil (rounds : Nat) (report : Report) (s : σ) :
    loop checker place rounds g [] report s =
      (.ok ({ report with converged := true, unresolved := [] }, g), s) := by
  cases rounds <;> rfl

theorem loop_zero {pending : List Invariant} (hp : pending ≠ []) (report : Report) (s : σ) :
    loop checker place 0 g pending report s =
      (.ok ({ report with unresolved := pending }, g), s) := by
  cases pending with
  | nil => exact absurd rfl hp
  | cons i rest => rfl

/-- The loop makes a round, and ends with it or goes on from what it leaves. -/
theorem loop_succ {pending : List Invariant} (hp : pending ≠ []) (rounds : Nat)
    (report : Report) (s : σ) : loop checker place (rounds + 1) g pending report s =
      match round checker place g pending s with
      | (.error cause, s) => (.error cause, s)
      | (.ok r, s) =>
        if r.splits = 0 ∧ r.left ≠ [] then
          (.ok ({ extend report r with unresolved := r.left }, r.after), s)
        else loop checker place rounds r.after r.left (extend report r) s := by
  cases pending with
  | nil => exact absurd rfl hp
  | cons i rest =>
    rw [loop.eq_3 _ _ _ _ _ _ _ (fun hn => by cases hn)]
    unfold round
    cases g.rememberAll.network with
    | error cause => rfl
    | ok network =>
      dsimp only
      rcases checker.checkAll network (i :: rest) s with ⟨cause | outcomes, s⟩
      · rfl
      · dsimp only
        rcases applyAll place g.rememberAll (findings g.rememberAll outcomes) with
          cause | ⟨h, splits⟩
        · rfl
        · rfl

theorem of_round_eq_ok {pending : List Invariant} {r : Round} {s s' : σ}
    (hr : round checker place g pending s = (.ok r, s')) : ∃ network outcomes,
      g.rememberAll.network = .ok network ∧
      checker.checkAll network pending s = (.ok outcomes, s') ∧
      applyAll place g.rememberAll (findings g.rememberAll outcomes) = .ok (r.after, r.splits) ∧
      r.calls = outcomes.length ∧ r.left = stillPending pending outcomes := by
  unfold round at hr
  split at hr
  · cases hr
  · rename_i network hnetwork
    split at hr
    · cases hr
    · rename_i outcomes s₁ hcheck
      split at hr
      · cases hr
      · rename_i h splits happly
        injection hr with hr hs
        injection hr with hr
        subst hr hs
        exact ⟨network, outcomes, hnetwork, hcheck, happly, rfl, rfl⟩

/-- The report when a refinement ends with the given invariants unresolved. -/
def conclude (report : Report) (left : List Invariant) : Report :=
  { report with
    converged := report.converged || left.isEmpty
    unresolved := left }

/-- The loop ends where it is, or makes a round and ends after it, or goes on after it
because the round has split something and left something pending. -/
theorem loop_cases {n : Nat} {pending : List Invariant} {report report' : Report} {s s' : σ}
    (hl : loop checker place n g pending report s = (.ok (report', h), s')) :
    (report' = conclude report pending ∧ h = g ∧ s' = s) ∨
    ∃ m r s₁, n = m + 1 ∧ pending ≠ [] ∧ round checker place g pending s = (.ok r, s₁) ∧
      ((report' = conclude (extend report r) r.left ∧ h = r.after ∧ s' = s₁) ∨
        (0 < r.splits ∧ r.left ≠ [] ∧
          loop checker place m r.after r.left (extend report r) s₁ = (.ok (report', h), s'))) := by
  have hconverged (report : Report) :
      { report with converged := true, unresolved := [] } = conclude report [] := by
    simp [conclude]
  have hopen (report : Report) {left : List Invariant} (hleft : left ≠ []) :
      { report with unresolved := left } = conclude report left := by
    simp [conclude, hleft]
  by_cases hp : pending = []
  · left
    rw [hp, loop_nil, hconverged] at hl
    obtain ⟨hreport, hh, hs⟩ := ended_inj hl
    rw [hp]
    exact ⟨hreport.symm, hh.symm, hs.symm⟩
  cases n with
  | zero =>
    left
    rw [loop_zero hp, hopen report hp] at hl
    obtain ⟨hreport, hh, hs⟩ := ended_inj hl
    exact ⟨hreport.symm, hh.symm, hs.symm⟩
  | succ m =>
    right
    rw [loop_succ hp] at hl
    split at hl
    · cases hl
    rename_i r s₁ hr
    refine ⟨m, r, s₁, rfl, hp, hr, ?_⟩
    split at hl
    · rename_i hend
      left
      rw [hopen _ hend.2] at hl
      obtain ⟨hreport, hh, hs⟩ := ended_inj hl
      exact ⟨hreport.symm, hh.symm, hs.symm⟩
    · rename_i hmore
      by_cases hleft : r.left = []
      · left
        rw [hleft, loop_nil, hconverged] at hl
        obtain ⟨hreport, hh, hs⟩ := ended_inj hl
        rw [hleft]
        exact ⟨hreport.symm, hh.symm, hs.symm⟩
      · right
        have hsplits : r.splits ≠ 0 := fun hzero => hmore ⟨hzero, hleft⟩
        exact ⟨Nat.pos_of_ne_zero hsplits, hleft, hl⟩

/-! ### The splits of a round -/

/-- A number of splits, each of which adds a block. -/
inductive Splits (place : Placement) : Nat → Abstraction → Abstraction → Prop where
  | nil (g : Abstraction) : Splits place 0 g g
  | cons {g h i : Abstraction} {s : Split} {fresh n : Nat} :
      g.split s place = .ok (h, fresh) → g.AddsBlock h fresh → Splits place n h i →
      Splits place (n + 1) g i

theorem applyAll_cons_eq_ok {f : Finding} {rest : List Finding} {n : Nat}
    (hall : applyAll place g (f :: rest) = .ok (h, n)) :
    (resolve g f = .ok none ∧ applyAll place g rest = .ok (h, n)) ∨
    ∃ s i fresh m, resolve g f = .ok (some s) ∧ g.split s place = .ok (i, fresh) ∧
      applyAll place i rest = .ok (h, m) ∧ n = m + 1 := by
  obtain ⟨x, hx, hall⟩ := Checks.bind_eq_ok_iff.mp hall
  cases x with
  | none => exact Or.inl ⟨hx, hall⟩
  | some s =>
    obtain ⟨⟨i, fresh⟩, hs, hall⟩ := Checks.bind_eq_ok_iff.mp hall
    obtain ⟨-, hall⟩ := Checks.guard_eq_ok_iff.mp hall
    obtain ⟨⟨j, m⟩, hrest, hpure⟩ := Checks.bind_eq_ok_iff.mp hall
    injection hpure with hpure
    injection hpure with hj hm
    subst hj
    exact Or.inr ⟨s, i, fresh, m, hx, hs, hrest, hm.symm⟩

theorem splits_of_applyAll {fs : List Finding} {n : Nat} (hg : g.Coherent)
    (hall : applyAll place g fs = .ok (h, n)) : Splits place n g h := by
  induction fs generalizing g n with
  | nil =>
    injection hall with hall
    injection hall with hh hn
    subst hh hn
    exact .nil g
  | cons f rest ih =>
    rcases applyAll_cons_eq_ok hall with ⟨-, hrest⟩ | ⟨s, i, fresh, m, -, hs, hrest, hn⟩
    · exact ih hg hrest
    · subst hn
      exact .cons hs (hg.addsBlock_of_split hs) (ih (hg.split hs) hrest)

theorem Splits.spec {n : Nat} (hs : Splits place n g h) (hg : g.Coherent) :
    h.Coherent ∧ h.size = g.size + n ∧ h.observed = g.observed := by
  induction hs with
  | nil g => exact ⟨hg, rfl, rfl⟩
  | cons hsplit hadds _ ih =>
    obtain ⟨hcoherent, hsize, hobserved⟩ := ih (hg.split hsplit)
    have hone := hadds.size_eq
    exact ⟨hcoherent, by omega, hobserved.trans (hg.observed_of_split hsplit)⟩

/-! ### All rounds -/

/-- Rounds with the given numbers of splits. -/
inductive Rounds (place : Placement) : List Nat → Abstraction → Abstraction → Prop where
  | nil (g : Abstraction) : Rounds place [] g g
  | cons {g h i : Abstraction} {n : Nat} {counts : List Nat} :
      Splits place n g.rememberAll h → Rounds place counts h i →
      Rounds place (n :: counts) g i

theorem Rounds.spec {counts : List Nat} (hr : Rounds place counts g h) (hg : g.Coherent) :
    h.Coherent ∧ h.size = g.size + counts.sum ∧ h.observed = g.observed := by
  induction hr with
  | nil g => exact ⟨hg, rfl, rfl⟩
  | @cons g h i n counts hsplits _ ih =>
    have hsize := g.size_rememberAll
    have hobserved := g.observed_rememberAll
    obtain ⟨hh, hsize', hobserved'⟩ := hsplits.spec hg.rememberAll
    obtain ⟨hi, hsize'', hobserved''⟩ := ih hh
    rw [List.sum_cons]
    exact ⟨hi, by omega, hobserved''.trans (hobserved'.trans hobserved)⟩

theorem splits_of_round {pending : List Invariant} {r : Round} {s s' : σ} (hg : g.Coherent)
    (hr : round checker place g pending s = (.ok r, s')) :
    Splits place r.splits g.rememberAll r.after := by
  obtain ⟨-, outcomes, -, -, happly, -⟩ := of_round_eq_ok hr
  exact splits_of_applyAll hg.rememberAll happly

theorem room_of_round {pending : List Invariant} {r : Round} {s s' : σ} (hg : g.Coherent)
    (hr : round checker place g pending s = (.ok r, s')) : r.after.Coherent ∧
      r.after.observed - r.after.size + r.splits = g.observed - g.size := by
  have hsize := g.size_rememberAll
  have hobserved := g.observed_rememberAll
  obtain ⟨hh, hsize', hobserved'⟩ := (splits_of_round hg hr).spec hg.rememberAll
  have hle := hh.toGrouped.size_le_observed
  exact ⟨hh, by omega⟩

/-- With enough rounds allowed, the number allowed does not matter. -/
theorem loop_congr {m n : Nat} (hg : g.Coherent) (hm : g.observed - g.size < m)
    (hn : g.observed - g.size < n) (pending : List Invariant) (report : Report) (s : σ) :
    loop checker place m g pending report s = loop checker place n g pending report s := by
  induction m generalizing n g pending report s with
  | zero => omega
  | succ m ih =>
    obtain ⟨n, hn'⟩ : ∃ k, n = k + 1 := ⟨n - 1, by omega⟩
    subst hn'
    by_cases hp : pending = []
    · rw [hp, loop_nil, loop_nil]
    rw [loop_succ hp, loop_succ hp]
    split
    · rfl
    · rename_i r s₁ hr
      split
      · rfl
      · rename_i hend
        by_cases hleft : r.left = []
        · rw [hleft, loop_nil, loop_nil]
        · -- The loop goes on only after a split, so there is less room for the next round.
          obtain ⟨hh, hroom⟩ := room_of_round hg hr
          have hsplits : r.splits ≠ 0 := fun hzero => hend ⟨hzero, hleft⟩
          exact ih hh (by omega) (by omega) _ _ _

/-- The rounds that the loop makes. All but the last of them split. -/
theorem loop_rounds {n : Nat} (hg : g.Coherent) {pending : List Invariant}
    {report report' : Report} {s s' : σ}
    (hl : loop checker place n g pending report s = (.ok (report', h), s')) :
    ∃ counts, Rounds place counts g h ∧ counts.length ≤ n ∧
      report'.rounds = report.rounds + counts.length ∧
      report'.refinements = report.refinements + counts.sum ∧
      ∀ c ∈ counts.dropLast, 0 < c := by
  induction n generalizing g pending report s with
  | zero =>
    rcases loop_cases hl with ⟨hreport, hh, -⟩ | ⟨m, r, s₁, hm, -⟩
    · rw [hreport, hh]
      exact ⟨[], .nil g, le_rfl, rfl, rfl, fun c hc => absurd hc List.not_mem_nil⟩
    · omega
  | succ n ih =>
    rcases loop_cases hl with ⟨hreport, hh, -⟩ | ⟨m, r, s₁, hm, -, hr, hnext⟩
    · rw [hreport, hh]
      exact ⟨[], .nil g, Nat.zero_le _, rfl, rfl, fun c hc => absurd hc List.not_mem_nil⟩
    have hsplits := splits_of_round hg hr
    rcases hnext with ⟨hreport, hh, -⟩ | ⟨hpos, -, hmore⟩
    · rw [hreport, hh]
      exact ⟨[r.splits], .cons hsplits (.nil _), by simp, rfl, rfl, by simp⟩
    · obtain rfl : n = m := by omega
      obtain ⟨counts, hrounds, hlen, hnumber, hsum, hall⟩ := ih (room_of_round hg hr).1 hmore
      rw [rounds_extend] at hnumber
      rw [refinements_extend] at hsum
      refine ⟨r.splits :: counts, .cons hsplits hrounds, Nat.succ_le_succ hlen, ?_, ?_, ?_⟩
      · rw [hnumber, List.length_cons]
        omega
      · rw [hsum, List.sum_cons, Nat.add_assoc]
      · intro c hc
        cases counts with
        | nil => simp at hc
        | cons d counts =>
          rw [List.dropLast_cons_of_ne_nil (List.cons_ne_nil d counts)] at hc
          rcases List.mem_cons.mp hc with hc | hc
          · rw [hc]
            exact hpos
          · exact hall c hc

theorem length_le_sum_add_one {counts : List Nat} (h : ∀ c ∈ counts.dropLast, 0 < c) :
    counts.length ≤ counts.sum + 1 := by
  induction counts with
  | nil => exact Nat.zero_le _
  | cons c counts ih =>
    cases counts with
    | nil => simp
    | cons d counts =>
      rw [List.dropLast_cons_of_ne_nil (List.cons_ne_nil d counts)] at h
      have hc := h c (List.mem_cons_self ..)
      have hrest := ih fun x hx => h x (List.mem_cons_of_mem _ hx)
      rw [List.length_cons, List.sum_cons]
      omega

end ProtocolInference.Refinement
