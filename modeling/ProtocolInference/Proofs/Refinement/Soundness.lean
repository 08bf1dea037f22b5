import ProtocolInference.Proofs.Refinement.Rounds

/-!
# What a refinement that converges has shown

An invariant that has been verified is not checked again. This loses nothing, because
the network only loses complete runs: every run after a split was a run before. So what
the checker verified of the network of some round holds of the network of the last one.
-/

namespace ProtocolInference

/-! ### Complete runs are not gained -/

namespace Abstraction

/-- Every process does its part of the events, and the channels allow them as a whole. -/
def Completes (g : Abstraction) (es : List Event) : Prop :=
  (∀ e ∈ es, e.pid < g.processes) ∧
  (∀ pid < g.processes, g.Spells pid (es.filter (·.pid == pid))) ∧
  ∃ q, (Queues.empty g.channels.length).Run es q ∧ q.isEmpty = true

variable {g h : Abstraction} {es : List Event}

theorem Coherent.completes_of_split (hg : g.Coherent) {s : Split} {place : Placement}
    {fresh : Nat} (hs : g.split s place = .ok (h, fresh)) (hes : h.Completes es) :
    g.Completes es := by
  obtain ⟨-, hproc, hchan, -⟩ := hg.toGrouped.parentOf_split hs
  obtain ⟨hpids, hspells, hqueues⟩ := hes
  rw [hproc] at hpids hspells
  rw [hchan] at hqueues
  exact ⟨hpids, fun pid hpid => hg.spells_of_split hs (hspells pid hpid), hqueues⟩

theorem Coherent.mem_next_remember (hg : g.Coherent) (id : Nat) {p q : Nat} {e : Event} :
    q ∈ (g.remember id).next p e ↔ q ∈ g.next p e := by
  rw [(hg.remember id).mem_next_iff, hg.mem_next_iff]
  simp only [parentOf_remember, edges_congr (remember_frame g id).1]

theorem Coherent.path_of_remember (hg : g.Coherent) (id : Nat) {p q : Nat}
    (hp : (g.remember id).Path p es q) : g.Path p es q := by
  induction hp with
  | nil p => exact .nil p
  | cons hn _ ih => exact .cons ((hg.mem_next_remember id).mp hn) ih

theorem exists_block_of_remember {id p : Nat} {b : Block} (hb : (g.remember id).block? p = some b) :
    ∃ c, g.block? p = some c ∧ b.members = c.members ∧ b.accept = c.accept ∧
      b.initialFor = c.initialFor := by
  cases hid : g.block? id with
  | none =>
    rw [remember_eq_self hid] at hb
    exact ⟨b, hb, rfl, rfl, rfl⟩
  | some x =>
    rw [block?_remember hid] at hb
    split at hb
    · rename_i hp
      injection hb with hb
      subst hp hb
      exact ⟨x, hid, rfl, rfl, rfl⟩
    · exact ⟨b, hb, rfl, rfl, rfl⟩

theorem Coherent.completes_of_remember (hg : g.Coherent) (id : Nat)
    (hes : (g.remember id).Completes es) : g.Completes es := by
  obtain ⟨-, hproc, hchan, -⟩ := remember_frame g id
  obtain ⟨hpids, hspells, hqueues⟩ := hes
  rw [hproc] at hpids hspells
  rw [hchan] at hqueues
  refine ⟨hpids, fun pid hpid => ?_, hqueues⟩
  obtain ⟨p, b, q, c, fs, hb, hinit, hc, hacc, hpath, hw⟩ := hspells pid hpid
  obtain ⟨b', hb', -, -, hfor⟩ := exists_block_of_remember hb
  obtain ⟨c', hc', -, haccept, -⟩ := exists_block_of_remember hc
  rw [Block.isInitialFor, hfor] at hinit
  rw [haccept] at hacc
  exact ⟨p, b', q, c', fs, hb', hinit, hc', hacc, hg.path_of_remember id hpath, hw⟩

theorem Coherent.completes_of_rememberAll (hg : g.Coherent)
    (hes : g.rememberAll.Completes es) : g.Completes es := by
  have hall := rememberAll_induction
    (P := fun h => h.Coherent ∧ ∀ es, h.Completes es → g.Completes es) ⟨hg, fun _ h => h⟩
    fun hh id => ⟨hh.1.remember id, fun es h => hh.2 es (hh.1.completes_of_remember id h)⟩
  exact hall.2 es hes

end Abstraction

/-! ### The answers of a checker -/

namespace Checker

variable {σ ε : Type} {checker : Checker σ ε} {n : Network}

/-- Where the checker verifies an invariant, every complete run of the network is as the
invariant demands. -/
def Sound (checker : Checker σ ε) (demand : Invariant → List Event → Prop) : Prop :=
  ∀ n i s s', checker.check n i s = (.ok .verified, s') → ∀ es, n.CompleteRun es → demand i es

theorem checkAll_spec {is : List Invariant} {outcomes : List Outcome} {s s' : σ}
    (h : checker.checkAll n is s = (.ok outcomes, s')) :
    List.Forall₂ (fun i outcome => ∃ s s', checker.check n i s = (.ok outcome, s'))
      is outcomes := by
  induction is generalizing outcomes s with
  | nil =>
    injection h with h
    injection h with h
    subst h
    exact .nil
  | cons i rest ih =>
    unfold checkAll at h
    split at h
    · cases h
    · rename_i outcome s₁ hone
      split at h
      · rename_i outcomes' s₂ hrest
        injection h with h hs
        injection h with h
        subst h hs
        exact .cons ⟨s, s₁, hone⟩ (ih hrest)
      · cases h

end Checker

namespace Refinement

variable {σ ε : Type} {checker : Checker σ ε} {place : Placement} {g h : Abstraction}
  {demand : Invariant → List Event → Prop}

theorem stillPending_cons (i : Invariant) (is : List Invariant) (outcome : Outcome)
    (outcomes : List Outcome) : stillPending (i :: is) (outcome :: outcomes) =
      if outcome = .verified then stillPending is outcomes
      else i :: stillPending is outcomes := by
  unfold stillPending
  rw [List.zip_cons_cons, List.filter_cons]
  by_cases hv : outcome = .verified
  · simp [hv]
  · simp [hv]

/-- An invariant is pending after a round unless it has been verified. -/
theorem mem_stillPending {R : Invariant → Outcome → Prop} {is : List Invariant}
    {outcomes : List Outcome} (hall : List.Forall₂ R is outcomes) {i : Invariant}
    (hi : i ∈ is) : R i .verified ∨ i ∈ stillPending is outcomes := by
  induction hall with
  | nil => exact absurd hi List.not_mem_nil
  | @cons j outcome is outcomes hone _ ih =>
    rw [stillPending_cons]
    by_cases hv : outcome = .verified
    · rw [if_pos hv]
      rcases List.mem_cons.mp hi with hij | hi
      · rw [hij, ← hv]
        exact Or.inl hone
      · exact ih hi
    · rw [if_neg hv, List.mem_cons]
      rcases List.mem_cons.mp hi with hij | hi
      · exact Or.inr (Or.inl hij)
      · exact (ih hi).imp_right Or.inr

theorem findings_eq_nil {R : Invariant → Outcome → Prop} {is : List Invariant}
    {outcomes : List Outcome} (hall : List.Forall₂ R is outcomes)
    (hnone : stillPending is outcomes = []) (g : Abstraction) : findings g outcomes = [] := by
  induction hall with
  | nil => rfl
  | @cons j outcome is outcomes hone _ ih =>
    rw [stillPending_cons] at hnone
    by_cases hv : outcome = .verified
    · rw [if_pos hv] at hnone
      rw [hv]
      exact ih hnone
    · rw [if_neg hv] at hnone
      cases hnone

/-! ### Rounds -/

theorem Splits.completes {n : Nat} (hs : Splits place n g h) (hg : g.Coherent)
    {es : List Event} (hes : h.Completes es) : g.Completes es := by
  induction hs with
  | nil g => exact hes
  | cons hsplit _ _ ih => exact hg.completes_of_split hsplit (ih (hg.split hsplit) hes)

/-- After a round an invariant is pending or holds of all complete runs. -/
theorem round_sound (hsound : checker.Sound demand) (hg : g.Coherent)
    {invariants pending : List Invariant} {r : Round} {s s' : σ}
    (hretired : ∀ i ∈ invariants, i ∈ pending ∨ ∀ es, g.Completes es → demand i es)
    (hr : round checker place g pending s = (.ok r, s')) :
    ∀ i ∈ invariants, i ∈ r.left ∨ ∀ es, r.after.Completes es → demand i es := by
  obtain ⟨network, outcomes, hnetwork, hcheck, -, -, hleft⟩ := of_round_eq_ok hr
  have hall := Checker.checkAll_spec hcheck
  have hback : ∀ es, r.after.Completes es → g.rememberAll.Completes es :=
    fun es hes => (splits_of_round hg hr).completes hg.rememberAll hes
  intro i hi
  rcases hretired i hi with hpending | hdone
  · rcases mem_stillPending hall hpending with ⟨s₁, s₂, hverified⟩ | hstill
    · right
      intro es hes
      refine hsound network i s₁ s₂ hverified es ?_
      exact (hg.rememberAll.completeRun_iff hnetwork).mpr (hback es hes)
    · left
      rw [hleft]
      exact hstill
  · exact Or.inr fun es hes => hdone es (hg.completes_of_rememberAll (hback es hes))

theorem network_of_round {pending : List Invariant} {r : Round} {s s' : σ}
    (hr : round checker place g pending s = (.ok r, s')) (hleft : r.left = []) :
    ∃ n, r.after.network = .ok n := by
  obtain ⟨network, outcomes, hnetwork, hcheck, happly, -, hstill⟩ := of_round_eq_ok hr
  -- Without a finding nothing is split, so the network is the one that was checked.
  rw [findings_eq_nil (Checker.checkAll_spec hcheck) (hstill.symm.trans hleft)] at happly
  injection happly with happly
  injection happly with hafter
  rw [← hafter]
  exact ⟨network, hnetwork⟩

theorem loop_sound (hsound : checker.Sound demand) {n : Nat} (hg : g.Coherent)
    {invariants pending : List Invariant} {report report' : Report} {s s' : σ}
    (hretired : ∀ i ∈ invariants, i ∈ pending ∨ ∀ es, g.Completes es → demand i es)
    (hopen : report.converged = false)
    (hl : loop checker place n g pending report s = (.ok (report', h), s'))
    (hconv : report'.converged = true) : h.Coherent ∧
      (∀ i ∈ invariants, ∀ es, h.Completes es → demand i es) ∧
      (pending ≠ [] → ∃ n, h.network = .ok n) := by
  -- Convergence means that nothing was left, so everything has been verified.
  have hnone {report : Report} {left : List Invariant} (hopen : report.converged = false)
      (hreport : report' = conclude report left) : left = [] := by
    rw [hreport, conclude, hopen] at hconv
    simpa using hconv
  have hall {f : Abstraction} {left : List Invariant} (hleft : left = [])
      (hdone : ∀ i ∈ invariants, i ∈ left ∨ ∀ es, f.Completes es → demand i es) :
      ∀ i ∈ invariants, ∀ es, f.Completes es → demand i es := by
    subst hleft
    exact fun i hi => (hdone i hi).resolve_left List.not_mem_nil
  induction n generalizing g pending report s with
  | zero =>
    rcases loop_cases hl with ⟨hreport, hh, -⟩ | ⟨m, r, s₁, hm, -⟩
    · have hp := hnone hopen hreport
      rw [hh]
      exact ⟨hg, hall hp hretired, fun hne => absurd hp hne⟩
    · omega
  | succ n ih =>
    rcases loop_cases hl with ⟨hreport, hh, -⟩ | ⟨m, r, s₁, hm, -, hr, hnext⟩
    · have hp := hnone hopen hreport
      rw [hh]
      exact ⟨hg, hall hp hretired, fun hne => absurd hp hne⟩
    have hopen' : (extend report r).converged = false := hopen
    have hretired' := round_sound hsound hg hretired hr
    have hg' := (room_of_round hg hr).1
    rcases hnext with ⟨hreport, hh, -⟩ | ⟨-, hleft, hmore⟩
    · have hleft := hnone hopen' hreport
      rw [hh]
      exact ⟨hg', hall hleft hretired', fun _ => network_of_round hr hleft⟩
    · obtain rfl : n = m := by omega
      obtain ⟨hh, hdemand, hnetwork⟩ := ih hg' hretired' hopen' hmore
      exact ⟨hh, hdemand, fun _ => hnetwork hleft⟩

open Abstraction in
/-- If a refinement converges, then every complete run of the last network is as every
invariant demands, also where the invariant was verified before later splits. -/
theorem run_sound {traces : List Trace} {grouping : Grouping} {strict : Bool}
    {removed : List Block} (hr : Reached traces grouping strict removed g)
    (hsound : checker.Sound demand) {maxRounds : Option Nat} {invariants : List Invariant}
    {report : Report} {s s' : σ}
    (hrun : run checker place maxRounds g invariants s = (.ok (report, h), s'))
    (hconv : report.converged = true) :
    ∀ i ∈ invariants, ∃ n, h.network = .ok n ∧ ∀ es, n.CompleteRun es → demand i es := by
  unfold run at hrun
  split at hrun
  · obtain ⟨hreport, -⟩ := ended_inj hrun
    rw [← hreport] at hconv
    cases hconv
  · obtain ⟨hh, hall, hnetwork⟩ :=
      loop_sound hsound hr.coherent (fun i hi => Or.inl hi) rfl hrun hconv
    intro i hi
    obtain ⟨n, hn⟩ := hnetwork (List.ne_nil_of_mem hi)
    exact ⟨n, hn, fun es hes => hall i hi es ((hh.completeRun_iff hn).mp hes)⟩

/-- A checker that verifies a network of one process, but has an execution against the
invariant that it is asked about second. -/
def doubtful : Checker Nat Unit where
  check := fun n _ calls =>
    (.ok (if calls = 1 then .counterexample [.internal "work" 0]
      else if n.automata.length = 1 then .verified else .inconclusive), calls + 1)

open Abstraction in
/-- The first of two invariants is verified before the block is split for the second. -/
theorem run_sound_workTwice : ∃ g report h s' n,
    ofTraces [workTwice] .queueTops false = .ok g ∧
    run doubtful (fun _ _ => false) none g
      [.eventually (.internal "rest" 0), .eventually (.internal "work" 0)] 0 =
        (.ok (report, h), s') ∧
    report.refinements = 1 ∧ report.converged = true ∧ h.network = .ok n ∧
    ∀ es, n.CompleteRun es → ∀ e ∈ es, e.pid < 1 := by
  have hstart : ofTraces [workTwice] .queueTops false =
      .ok (assemble workTwice [workTwice] .queueTops false) := rfl
  have hsound : doubtful.Sound fun _ es => ∀ e ∈ es, e.pid < 1 := by
    intro n i s s' hcheck es hes e he
    have hpid := (Network.completeRun_iff.mp hes).1 e he
    by_contra hbig
    have hlength : n.automata.length ≠ 1 := by omega
    simp only [doubtful, if_neg hlength] at hcheck
    injection hcheck with hcheck
    injection hcheck with hcheck
    split at hcheck <;> cases hcheck
  obtain ⟨⟨report, h⟩, s', hrun⟩ := Checks.exists_eq_ok_fst (show Except.isOk
    (run doubtful (fun _ _ => false) none (assemble workTwice [workTwice] .queueTops false)
      [.eventually (.internal "rest" 0), .eventually (.internal "work" 0)] 0).1 = true by
        decide +kernel)
  have hreport : (run doubtful (fun _ _ => false) none
      (assemble workTwice [workTwice] .queueTops false)
      [.eventually (.internal "rest" 0), .eventually (.internal "work" 0)] 0).1.map
        (fun x => (x.1.refinements, x.1.converged)) = .ok (1, true) := by decide +kernel
  rw [hrun] at hreport
  injection hreport with hreport
  injection hreport with hsplits hconv
  obtain ⟨n, hn, hall⟩ := run_sound (.start hstart) hsound hrun hconv
    (.eventually (.internal "rest" 0)) (List.mem_cons_self ..)
  exact ⟨_, report, h, s', n, hstart, hrun, hsplits, hconv, hn, hall⟩

end Refinement

end ProtocolInference
