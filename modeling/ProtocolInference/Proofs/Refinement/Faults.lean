import ProtocolInference.Proofs.Abstraction.Following
import ProtocolInference.Proofs.Abstraction.Strictness
import ProtocolInference.Proofs.Refinement.Soundness

/-!
# Where a refinement may fail

The paths for a counterexample are complete in the abstraction that a round begins with.
By the time they are resolved, the splits for earlier counterexamples of the round may
have taken the accepting members out of the last block of a path, or the initial members
out of its only one. The path may still be feasible then, because only its blocks and
events are looked at again, and the split for it has nothing to extract or nothing to
keep. Of recorded traces this is the one way in which a refinement fails, and it takes
two counterexamples in one round.
-/

namespace ProtocolInference.Refinement

open Abstraction

variable {σ ε : Type} {checker : Checker σ ε} {place : Placement} {g g₀ h : Abstraction}

/-! ### The split for one finding -/

theorem spans_of_feasible {p : BlockPath} {i : Nat} {rest : List Nat} (hp : g₀.Spans p i rest)
    (hfeasible : g.feasible p = true) : g.Spans p i rest where
  blocks_eq := hp.blocks_eq
  length_le := hp.length_le
  exists_block := by
    intro j hj
    rw [feasible, Bool.and_eq_true, List.all_eq_true] at hfeasible
    exact Option.isSome_iff_exists.mp (hfeasible.1 j hj)

theorem firstSplit_spec (hg : g.Grouped) (paths : List BlockPath)
    (hall : ∀ p ∈ paths, ∃ i rest, g.Spans p i rest) :
    ∃ x, firstSplit g paths = .ok x ∧ ∀ s, x = some s → g.Permits s ∨
      ∃ p ∈ paths, ∃ cause, g.Overtaken p cause ∧ ∀ place, g.split s place = .error cause := by
  induction paths with
  | nil => exact ⟨none, rfl, fun s hs => by cases hs⟩
  | cons p paths ih =>
    obtain ⟨i, rest, hp⟩ := hall p (List.mem_cons_self ..)
    obtain ⟨x, hx, hspec⟩ := hp.resolveComplete hg
    unfold firstSplit
    rw [hx]
    cases x with
    | some s =>
      refine ⟨some s, rfl, fun s' hs => (hspec s' hs).imp_right ?_⟩
      rintro ⟨cause, hover, hsplit⟩
      exact ⟨p, List.mem_cons_self .., cause, hover, hsplit⟩
    | none =>
      obtain ⟨y, hy, hspec'⟩ := ih fun q hq => hall q (List.mem_cons_of_mem _ hq)
      refine ⟨y, hy, fun s hs => (hspec' s hs).imp_right ?_⟩
      rintro ⟨q, hq, hrest⟩
      exact ⟨q, List.mem_cons_of_mem _ hq, hrest⟩

/-- A finding is resolved without a fault. The split for it is legal, unless a path that
is still feasible has been overtaken. -/
theorem resolve_spec (hg : g.Coherent) (hg₀ : g₀.Coherent) {f : Finding}
    (hf : f.paths = g₀.completePaths f.events) :
    ∃ x, resolve g f = .ok x ∧ ∀ s, x = some s → g.Permits s ∨
      ∃ p ∈ f.paths, g.feasible p = true ∧ ∃ cause, g.Overtaken p cause ∧
        ∀ place, g.split s place = .error cause := by
  unfold resolve
  split
  · split
    · rename_i p hp
      obtain ⟨x, hx, hlegal⟩ := hg.resolvePartial hp
      exact ⟨x, hx, fun s hs => Or.inl (hlegal s hs)⟩
    · refine ⟨_, rfl, fun s hs => Or.inl ?_⟩
      obtain ⟨e, -, he⟩ := Option.bind_eq_some_iff.mp hs
      exact hg.toGrouped.resolveNoMatch he
  · have hspans : ∀ p ∈ f.paths.filter g.feasible, ∃ i rest, g.Spans p i rest := by
      intro p hp
      obtain ⟨hmem, hfeasible⟩ := List.mem_filter.mp hp
      rw [hf] at hmem
      obtain ⟨-, i, rest, hp₀, -⟩ := hg₀.completePaths hmem
      exact ⟨i, rest, spans_of_feasible hp₀.toSpans hfeasible⟩
    obtain ⟨x, hx, hspec⟩ := firstSplit_spec hg.toGrouped _ hspans
    refine ⟨x, hx, fun s hs => (hspec s hs).imp_right ?_⟩
    rintro ⟨p, hp, hrest⟩
    obtain ⟨hmem, hfeasible⟩ := List.mem_filter.mp hp
    exact ⟨p, hmem, hfeasible, hrest⟩

/-! ### The splits of a round -/

theorem Splits.snoc {n : Nat} (hs : Splits place n g h) {i : Abstraction} {s : Split}
    {fresh : Nat} (hsplit : h.split s place = .ok (i, fresh)) (hadds : h.AddsBlock i fresh) :
    Splits place (n + 1) g i := by
  induction hs with
  | nil g => exact .cons hsplit hadds (.nil i)
  | cons hone hadds' _ ih => exact .cons hone hadds' (ih hsplit hadds)

section

variable {r : Recording} {traces : List Trace} {grouping : Grouping} {strict : Bool}

theorem Splits.reached {n : Nat} (hs : Splits place n g h)
    (hg : Reached traces grouping strict [] g) : Reached traces grouping strict [] h := by
  induction hs with
  | nil g => exact hg
  | cons hsplit _ _ ih => exact ih (.split hg hsplit)

theorem reached_rememberAll (hg : Reached traces grouping strict [] g) :
    Reached traces grouping strict [] g.rememberAll :=
  rememberAll_induction hg fun hh id => .read id hh

/-- A path that was complete when the round began is still feasible after some splits of
the round, but it has been overtaken by them. -/
structure Overtaking (place : Placement) (g h : Abstraction) (p : BlockPath) (n : Nat)
    (cause : Fault) : Prop where
  complete : p ∈ g.completePaths p.events
  splits : Splits place n g h
  pos : 0 < n
  feasible : h.feasible p = true
  overtaken : h.Overtaken p cause

theorem applyAll_cons_eq_error {f : Finding} {rest : List Finding} {x : Option Split}
    {cause : Fault} (hx : resolve g f = .ok x)
    (herr : applyAll place g (f :: rest) = .error cause) :
    (x = none ∧ applyAll place g rest = .error cause) ∨
    ∃ s, x = some s ∧ (g.split s place = .error cause ∨
      ∃ i fresh, g.split s place = .ok (i, fresh) ∧
        (i.size ≠ g.size + 1 ∨ applyAll place i rest = .error cause)) := by
  unfold applyAll at herr
  rw [hx] at herr
  cases x with
  | none => exact Or.inl ⟨rfl, herr⟩
  | some s =>
    refine Or.inr ⟨s, rfl, ?_⟩
    dsimp only [bind, Except.bind] at herr
    rcases hs : g.split s place with cause' | ⟨i, fresh⟩
    · rw [hs] at herr
      injection herr with herr
      exact Or.inl (congrArg _ herr)
    · rw [hs] at herr
      dsimp only at herr
      refine Or.inr ⟨i, fresh, rfl, ?_⟩
      by_cases hsize : i.size = g.size + 1
      · right
        rw [if_neg (not_not.mpr hsize)] at herr
        cases hall : applyAll place i rest with
        | error cause' =>
          rw [hall] at herr
          exact herr
        | ok y =>
          rw [hall] at herr
          cases herr
      · exact Or.inl hsize

theorem applyAll_error (hr : r.build = .ok traces) (hg : Reached traces grouping strict [] g)
    (hg₀ : g₀.Coherent) {n : Nat} (hs : Splits place n g₀ g) {fs : List Finding}
    (hfs : ∀ f ∈ fs, f.paths = g₀.completePaths f.events) {cause : Fault}
    (herr : applyAll place g fs = .error cause) :
    (∃ h p m, Overtaking place g₀ h p m cause) ∧ (n = 0 → 2 ≤ fs.length) := by
  induction fs generalizing g n with
  | nil => cases herr
  | cons f rest ih =>
    have hrest := fun f' hf' => hfs f' (List.mem_cons_of_mem _ hf')
    have hf := hfs f (List.mem_cons_self ..)
    obtain ⟨x, hx, hspec⟩ := resolve_spec hg.coherent hg₀ hf
    rcases applyAll_cons_eq_error hx herr with ⟨-, hlater⟩ | ⟨s, hsome, hfail⟩
    · obtain ⟨hover, hlen⟩ := ih hg hs hrest hlater
      exact ⟨hover, fun hzero => Nat.le_succ_of_le (hlen hzero)⟩
    -- A legal split is always met, so the fault comes later or the path has been overtaken.
    rcases hspec s hsome with ⟨b, hb, hlegal⟩ | ⟨p, hp, hfeasible, cause', hover, hsplit⟩
    · obtain ⟨i, fresh, hi⟩ :=
        exists_split_of_tellsApart (hg.tellsApart hr) hb hlegal place
      have hadds := hg.coherent.addsBlock_of_split hi
      have hlater : applyAll place i rest = .error cause := by
        rcases hfail with hrefused | ⟨i', fresh', hi', hlater⟩
        · rw [hi] at hrefused
          cases hrefused
        · rw [hi] at hi'
          cases hi'
          exact hlater.resolve_left (not_not.mpr hadds.size_eq)
      obtain ⟨hover, -⟩ := ih (.split hg hi) (hs.snoc hi hadds) hrest hlater
      refine ⟨hover, fun _ => ?_⟩
      cases rest with
      | nil => cases hlater
      | cons f' rest => simp
    · have hcause : cause' = cause := by
        rcases hfail with hrefused | ⟨i', fresh', hi', -⟩
        · rw [hsplit place] at hrefused
          injection hrefused
        · rw [hsplit place] at hi'
          cases hi'
      subst hcause
      have hcomplete : p ∈ g₀.completePaths f.events := hf ▸ hp
      obtain ⟨hevents, _, _, hcurrent, -, hend⟩ := hg₀.completePaths hcomplete
      -- Before any split of the round the path is not overtaken.
      have hpos : 0 < n := by
        refine Nat.pos_of_ne_zero fun hzero => ?_
        subst hzero
        cases hs
        exact hcurrent.not_overtaken hend _ hover
      rw [← hevents] at hcomplete
      exact ⟨⟨g, p, n, hcomplete, hs, hpos, hfeasible, hover⟩, fun hzero => by omega⟩

/-! ### Rounds -/

theorem paths_of_mem_findings {outcomes : List Outcome} {f : Finding}
    (hf : f ∈ findings g outcomes) : f.paths = g.completePaths f.events := by
  obtain ⟨outcome, -, hsome⟩ := List.mem_filterMap.mp hf
  cases outcome with
  | verified => cases hsome
  | inconclusive => cases hsome
  | counterexample events =>
    injection hsome with hsome
    rw [← hsome]

theorem round_fault (hr : r.build = .ok traces) (hg : Reached traces grouping strict [] g)
    {pending : List Invariant} {s s' : σ} {cause : Fault}
    (herr : round checker place g pending s = (.error (.fault cause), s')) :
    2 ≤ pending.length ∧ ∃ h p n, Overtaking place g.rememberAll h p n cause := by
  have hg' := reached_rememberAll hg
  obtain ⟨network, hnetwork⟩ := hg'.exists_network hr
  unfold round at herr
  rw [hnetwork] at herr
  dsimp only at herr
  split at herr
  · cases herr
  · rename_i outcomes s₁ hcheck
    split at herr
    · rename_i cause' happly
      injection herr with herr
      injection herr with herr
      injection herr with herr
      subst herr
      obtain ⟨hover, hlen⟩ := applyAll_error hr hg' hg'.coherent (.nil _)
        (fun f hf => paths_of_mem_findings hf) happly
      have hfound : (findings g.rememberAll outcomes).length ≤ outcomes.length :=
        List.length_filterMap_le ..
      have hanswers := (Checker.checkAll_spec hcheck).length_eq
      have htwo := hlen rfl
      exact ⟨by omega, hover⟩
    · cases herr

theorem length_stillPending (pending : List Invariant) (outcomes : List Outcome) :
    (stillPending pending outcomes).length ≤ pending.length := by
  unfold stillPending
  rw [List.length_map]
  refine (List.length_filter_le ..).trans ?_
  rw [List.length_zip]
  exact Nat.min_le_left ..

theorem loop_fault (hr : r.build = .ok traces) {n : Nat}
    (hg : Reached traces grouping strict [] g) {pending : List Invariant} {report : Report}
    {s s' : σ} {cause : Fault}
    (herr : loop checker place n g pending report s = (.error (.fault cause), s')) :
    2 ≤ pending.length ∧ ∃ g' h p m, Reached traces grouping strict [] g' ∧
      Overtaking place g'.rememberAll h p m cause := by
  induction n generalizing g pending report s with
  | zero =>
    by_cases hp : pending = []
    · rw [hp, loop_nil] at herr
      cases herr
    · rw [loop_zero hp] at herr
      cases herr
  | succ n ih =>
    by_cases hp : pending = []
    · rw [hp, loop_nil] at herr
      cases herr
    rw [loop_succ hp] at herr
    split at herr
    · rename_i cause' s₁ hround
      injection herr with herr
      injection herr with herr
      subst herr
      obtain ⟨hlen, h, p, m, hover⟩ := round_fault hr hg hround
      exact ⟨hlen, g, h, p, m, hg, hover⟩
    · rename_i x s₁ hround
      split at herr
      · cases herr
      · obtain ⟨-, outcomes, -, -, -, -, hleft⟩ := of_round_eq_ok hround
        have hsplits := splits_of_round hg.coherent hround
        obtain ⟨hlen, hover⟩ := ih (hsplits.reached (reached_rememberAll hg)) herr
        have hle := length_stillPending pending outcomes
        rw [← hleft] at hle
        exact ⟨by omega, hover⟩

/-- Recorded traces have an abstraction, and its refinement fails only where a path that
was complete when its round began has been overtaken by a split of the round. So with one
invariant it never fails. -/
theorem run_fault (hr : r.build = .ok traces) (grouping : Grouping) (strict : Bool) :
    ∃ g, ofTraces traces grouping strict = .ok g ∧
      ∀ {σ ε : Type} (checker : Checker σ ε) (place : Placement) (maxRounds : Option Nat)
        (invariants : List Invariant) (s s' : σ) (cause : Fault),
        run checker place maxRounds g invariants s = (.error (.fault cause), s') →
          2 ≤ invariants.length ∧ ∃ g' h p n, Reached traces grouping strict [] g' ∧
            Overtaking place g'.rememberAll h p n cause := by
  obtain ⟨g, hg⟩ := exists_ofTraces hr grouping strict
  refine ⟨g, hg, ?_⟩
  intro σ ε checker place maxRounds invariants s s' cause herr
  unfold run at herr
  split at herr
  · cases herr
  · exact loop_fault hr (.start hg) herr

end

/-- The split for the first of two executions without an event takes the accepting
observation out of the block that both of them begin and end in. -/
theorem run_fault_handover : ∃ g s' g' h p n,
    handover.build = .ok [handoverTrace] ∧
    ofTraces [handoverTrace] .queueTops false = .ok g ∧
    run (Checker.scripted : Checker _ Unit) (fun _ _ => false) none g
      [.eventually (.send "m" ⟨0, 1, 0, false⟩), .eventually (.receive "m" ⟨0, 1, 0, false⟩)]
      ([.counterexample [], .counterexample []], 0) =
        (.error (.fault (.emptyExtract 0)), s') ∧
    Reached [handoverTrace] .queueTops false [] g' ∧
    Overtaking (fun _ _ => false) g'.rememberAll h p n (.emptyExtract 0) := by
  have hbuild : handover.build = .ok [handoverTrace] := by rfl
  have hstart : ofTraces [handoverTrace] .queueTops false =
      .ok (assemble handoverTrace [handoverTrace] .queueTops false) := rfl
  have herr : (run (Checker.scripted : Checker _ Unit) (fun _ _ => false) none
      (assemble handoverTrace [handoverTrace] .queueTops false)
      [.eventually (.send "m" ⟨0, 1, 0, false⟩), .eventually (.receive "m" ⟨0, 1, 0, false⟩)]
      ([.counterexample [], .counterexample []], 0)).1.map (fun _ => ()) =
        .error (.fault (.emptyExtract 0)) := by decide +kernel
  obtain ⟨s', hrun⟩ := Checks.exists_eq_error_fst herr
  obtain ⟨g, hg, hall⟩ := run_fault hbuild .queueTops false
  rw [hstart] at hg
  injection hg with hg
  subst hg
  obtain ⟨-, g', h, p, n, hreached, hover⟩ := hall _ _ _ _ _ _ _ hrun
  exact ⟨_, s', g', h, p, n, hbuild, hstart, hrun, hreached, hover⟩

end ProtocolInference.Refinement
