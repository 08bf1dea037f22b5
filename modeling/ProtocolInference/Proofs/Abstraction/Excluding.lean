import ProtocolInference.Proofs.Abstraction.Following
import ProtocolInference.Proofs.Abstraction.Strictness

/-!
# Splits that are derived from a counterexample

Whatever split an abstraction derives from a counterexample, it is a legal request, so it is
met unless the abstraction is strict and the split parts observations that are alike. Once it
is met, the path it was derived from is gone, wherever the members went that it leaves open:
the observations with an edge into the next block have left the block where runs stopped, or
the accepting ones have left the last block. Main statements: `derived_split_legal`,
`split_excludes_path`.
-/

namespace ProtocolInference.Abstraction

variable {g h : Abstraction} {p : BlockPath} {es : List Event} {s : Split} {place : Placement}
  {fresh i o id : Nat} {ids : List Nat} {b : Block}

/-! ### Legal requests -/

/-- The split is one that the abstraction derives from the events: from a path that it has
for them, or from the first of them. -/
inductive Derives (g : Abstraction) (es : List Event) (s : Split) : Prop where
  | complete {p : BlockPath} : p ∈ g.completePaths es → g.resolveComplete p = .ok (some s) →
      Derives g es s
  | longest {p : BlockPath} : g.longestPath? es = some p → g.resolvePartial p = .ok (some s) →
      Derives g es s
  | first {e : Event} : es.head? = some e → g.resolveNoMatch e = some s → Derives g es s

theorem Coherent.permits_of_derives (hg : g.Coherent) (hs : g.Derives es s) : g.Permits s := by
  cases hs with
  | complete hp hresolve =>
    obtain ⟨x, hx, hlegal⟩ := hg.resolveComplete hp
    rw [hx] at hresolve
    injection hresolve with hresolve
    exact hlegal s hresolve
  | longest hp hresolve =>
    obtain ⟨x, hx, hlegal⟩ := hg.resolvePartial hp
    rw [hx] at hresolve
    injection hresolve with hresolve
    exact hlegal s hresolve
  | first _ hresolve => exact hg.toGrouped.resolveNoMatch hresolve

/-- The split takes one of two alike observations out of the block and leaves the other. -/
def Parts (g : Abstraction) (b : Block) (s : Split) (place : Placement) : Prop :=
  ∃ o q, g.Alike o q ∧ o ∈ moved b s (place g.blocks.size) ∧ q ∈ b.members ∧
    q ∉ moved b s (place g.blocks.size)

section

variable {traces : List Trace} {grouping : Grouping} {strict : Bool} {removed : List Block}

theorem Reached.exists_split_iff (hr : Reached traces grouping strict removed g)
    (hb : g.block? s.block = some b) (hl : s.Legal b) (place : Placement) :
    (∃ h fresh, g.split s place = .ok (h, fresh)) ↔ ¬(strict = true ∧ g.Parts b s place) := by
  have hstrict := hr.strict_eq
  cases strict with
  | false =>
    refine iff_of_true ⟨_, _, split_eq_ok_iff.mpr ⟨b, hb, hl, rfl, rfl, fun hs => ?_⟩⟩
      fun hs => by cases hs.1
    have hsame : g.strict = true := hs
    rw [hstrict] at hsame
    cases hsame
  | true =>
    have hrefused := hr.split_eq_separated_iff hb hl place
    rw [and_iff_right rfl, Parts, ← hrefused, split_eq_of_legal hb hl hstrict]
    cases hcheck : (g.separate b (moved b s (place g.blocks.size))).checkTogether b.members with
    | ok _ =>
      refine iff_of_true ⟨_, _, rfl⟩ fun hfail => ?_
      obtain ⟨o, q, x, y, state, heq⟩ := hfail
      cases heq
    | error f =>
      obtain ⟨o, q, -, -, rfl⟩ := separated_of_checkFrom hcheck
      refine iff_of_false (fun hok => ?_) fun hfail => hfail ⟨o, q, _, _, _, rfl⟩
      obtain ⟨k, fresh, heq⟩ := hok
      cases heq

/-- The paths that an abstraction has for a counterexample are resolved without a fault. A
split that is derived from the counterexample is of a block that is there, both of its sets
have members, none in common and all of the block, so it passes the checks of a request. It
is then met, unless the abstraction is strict and the split parts alike observations. For
recorded traces it is always met. -/
theorem derived_split_legal (hr : Reached traces grouping strict removed g) (es : List Event) :
    (∀ p ∈ g.completePaths es, ∃ x, g.resolveComplete p = .ok x) ∧
    (∀ p, g.longestPath? es = some p → ∃ x, g.resolvePartial p = .ok x) ∧
    ∀ s, g.Derives es s → ∃ b, g.block? s.block = some b ∧ s.Legal b ∧
      g.checkSplit s = .ok b ∧
      (∀ place, (∃ h fresh, g.split s place = .ok (h, fresh)) ↔
        ¬(strict = true ∧ g.Parts b s place)) ∧
      ∀ r : Recording, r.build = .ok traces → ∀ place, ∃ h fresh,
        g.split s place = .ok (h, fresh) := by
  have hg := hr.coherent
  refine ⟨fun p hp => ?_, fun p hp => ?_, fun s hs => ?_⟩
  · obtain ⟨x, hx, -⟩ := hg.resolveComplete hp
    exact ⟨x, hx⟩
  · obtain ⟨x, hx, -⟩ := hg.resolvePartial hp
    exact ⟨x, hx⟩
  · obtain ⟨b, hb, hl⟩ := hg.permits_of_derives hs
    exact ⟨b, hb, hl, checkSplit_eq_ok_iff.mpr ⟨hb, hl⟩, hr.exists_split_iff hb hl,
      fun r hbuild => exists_split_of_tellsApart (hr.tellsApart hbuild) hb hl⟩

/-- With the end apart, the split that excludes working three times is met wherever the
placement sends other members. -/
theorem derived_split_legal_workTwice :
    Reached [workTwice] .queueTops false [] endApart ∧
    endApart.Derives workThrice.events ⟨0, [1], [0]⟩ ∧
    ∀ place, ∃ h fresh, endApart.split ⟨0, [1], [0]⟩ place = .ok (h, fresh) := by
  have hderives : endApart.Derives workThrice.events ⟨0, [1], [0]⟩ :=
    .complete workThrice_mem resolveComplete_workThrice
  obtain ⟨-, -, hlegal⟩ := derived_split_legal reached_endApart workThrice.events
  obtain ⟨b, -, -, -, hmet, -⟩ := hlegal _ hderives
  exact ⟨reached_endApart, hderives,
    fun place => (hmet place).mpr fun hstrict => by cases hstrict.1⟩

/-- One process that waits, which leaves its local state as it is. -/
def waitOnce : Trace where
  channels := []
  root := ⟨[⟨"0", true, true⟩], ⟨[]⟩⟩
  later := [⟨[⟨"0", true, true⟩], ⟨[]⟩⟩]
  edges := [⟨0, .internal "wait" 0, 1⟩]

/-- A strict abstraction refuses the split that excludes waiting twice, which is a legal
request: it parts the observations before and after the wait. -/
theorem derived_split_refused_waitOnce : ∃ g s b,
    ofTraces [waitOnce] .queueTops true = .ok g ∧
    g.Derives [.internal "wait" 0, .internal "wait" 0] s ∧ s = ⟨0, [1], [0]⟩ ∧
    g.checkSplit s = .ok b ∧ ∀ place, ∃ cause, g.split s place = .error cause := by
  obtain ⟨g, hstart⟩ := Checks.exists_eq_ok
    (show Except.isOk (ofTraces [waitOnce] .queueTops true) = true by decide +kernel)
  obtain ⟨first, hfirst, -, rfl⟩ := eq_assemble_of_ofTraces hstart
  rw [List.mem_singleton.mp hfirst] at hstart
  have hmem : ⟨[.internal "wait" 0, .internal "wait" 0], [0, 0, 0]⟩ ∈
      (assemble waitOnce [waitOnce] .queueTops true).completePaths
        [.internal "wait" 0, .internal "wait" 0] := by decide +kernel
  have hresolve : (assemble waitOnce [waitOnce] .queueTops true).resolveComplete
      ⟨[.internal "wait" 0, .internal "wait" 0], [0, 0, 0]⟩ = .ok (some ⟨0, [1], [0]⟩) := by
    decide +kernel
  obtain ⟨b, hb, hmembers⟩ := (Option.any_eq_true ..).mp
    (show ((assemble waitOnce [waitOnce] .queueTops true).block? 0).any
      (fun b => decide (b.members = [0, 1])) = true by decide +kernel)
  rw [decide_eq_true_eq] at hmembers
  have hlegal : (⟨0, [1], [0]⟩ : Split).Legal b := by
    constructor <;> simp [hmembers]
  refine ⟨_, _, b, hstart, .complete hmem hresolve, rfl, checkSplit_eq_ok_iff.mpr ⟨hb, hlegal⟩,
    fun place => ?_⟩
  have halike : (assemble waitOnce [waitOnce] .queueTops true).Alike 0 1 :=
    ⟨_, _, rfl, rfl, rfl, rfl⟩
  obtain ⟨o, q, x, y, state, hrefused⟩ :=
    ((Reached.start hstart).split_eq_separated_iff hb hlegal place).mpr
      ⟨0, 1, halike, by simp [mem_moved, hmembers], by simp [hmembers], by simp [mem_moved]⟩
  exact ⟨_, hrefused⟩

end

/-! ### Paths that are gone -/

/-- What a block that was there has after a split, it had before, and none of it was to be
extracted. -/
theorem Grouped.parentOf_of_split (hg : g.Grouped) (hs : g.split s place = .ok (h, fresh))
    (hb : g.block? id = some b) (ho : h.parentOf o = some id) :
    g.parentOf o = some id ∧ o ∉ s.extract := by
  obtain ⟨c, hc, hl, rfl, rfl, -⟩ := split_eq_ok_iff.mp hs
  rw [hg.parentOf_separate hc fun o ho => (mem_moved.mp ho).1] at ho
  split at ho
  · injection ho with ho
    exact absurd (lt_size_of_block? hb) (by omega)
  · rename_i hstays
    exact ⟨ho, fun he => hstays (mem_moved.mpr ⟨hl.extract_subset o he, Or.inl he⟩)⟩

/-- The split where runs stop takes away what the step to the next block needs, also if this
is the block that is split. -/
theorem Coherent.not_connected_of_split (hg : g.Coherent) (hp : g.Spans p id ids)
    (hi : i < ids.length) (hdivides : g.Divides p i (g.Departs p i) s)
    (hs : g.split s place = .ok (h, fresh)) : ¬h.Connected p.events p.blocks := by
  intro hconnected
  obtain ⟨q, b, hq, hb⟩ := hp.exists_at hi.le
  obtain ⟨r, d, hr, hd⟩ := hp.exists_at (Nat.succ_le_of_lt hi)
  obtain ⟨e, he, hnext⟩ := hconnected i q r hq hr
  obtain ⟨o, t, ho, hedge, ht⟩ := (hg.split hs).mem_next_iff.mp hnext
  rw [edges_congr (hg.toGrouped.parentOf_split hs).1] at hedge
  obtain ⟨ho, hstays⟩ := hg.toGrouped.parentOf_of_split hs hb ho
  obtain ⟨ht, -⟩ := hg.toGrouped.parentOf_of_split hs hd ht
  have hdeparts : g.Departs p i o := by
    refine ⟨hg.toGrouped.inside_iff_parentOf.mpr ⟨q, hq, ho⟩, e, t, he, hedge, ?_⟩
    exact hg.toGrouped.inside_iff_parentOf.mpr ⟨r, hr, ht⟩
  exact hstays ((hdivides.extract.mem_iff o).mpr hdeparts)

theorem Coherent.not_accepts_of_split (hg : g.Coherent) (hp : g.Spans p id ids)
    (hdivides : g.Divides p ids.length (g.Finishes p ids.length) s)
    (hs : g.split s place = .ok (h, fresh)) : ¬h.FollowsToEnd es p.blocks := by
  intro hfollows
  obtain ⟨q, c, hlast, hc, hacc⟩ := hfollows.ends
  have hh := (hg.split hs).toGrouped
  obtain ⟨o, ho, x, hx, hkind⟩ := (hh.flags_iff hc).2.1.mp hacc
  rw [List.getLast?_eq_getElem?, hp.length_blocks, Nat.add_sub_cancel] at hlast
  obtain ⟨b, hb⟩ := hp.exists_block q (List.mem_of_getElem? hlast)
  obtain ⟨ho, hstays⟩ := hg.toGrouped.parentOf_of_split hs hb ((hh.mem_iff hc).mp ho)
  rw [observation?, (hg.toGrouped.parentOf_split hs).1] at hx
  have hfinishes : g.Finishes p ids.length o :=
    ⟨hg.toGrouped.inside_iff_parentOf.mpr ⟨q, hlast, ho⟩, x, hx, hkind⟩
  exact hstays ((hdivides.extract.mem_iff o).mpr hfinishes)

section

variable {traces : List Trace} {grouping : Grouping} {strict : Bool} {removed : List Block}

/-- Once the split for a complete path has been met, that path is no longer complete. The
longest path is split if no run keeps to it as far as it goes, and once that has been met,
its blocks are no longer connected by the events. -/
theorem split_excludes_path (hr : Reached traces grouping strict removed g) (es : List Event) :
    (∀ p ∈ g.completePaths es, ∀ s, g.resolveComplete p = .ok (some s) →
      ∀ place h fresh, g.split s place = .ok (h, fresh) → p ∉ h.completePaths es) ∧
    ∀ p, g.longestPath? es = some p →
      (¬∃ run, g.Realizes p run ∧ run.length = p.matched + 1) →
      ∃ s, g.resolvePartial p = .ok (some s) ∧
        ∀ place h fresh, g.split s place = .ok (h, fresh) → ¬h.Connected es p.blocks := by
  have hg := hr.coherent
  constructor
  · intro p hmem s hresolve place h fresh hs hstill
    obtain ⟨hevents, id, ids, hp, -⟩ := hg.completePaths hmem
    obtain ⟨-, hfollows⟩ := (hg.split hs).toGrouped.mem_completePaths_iff.mp hstill
    rcases hp.stops_or_realized hg.toGrouped with
      ⟨i, s', hi, hstops, hfound, -⟩ | ⟨all, hwalk, hlength, hall⟩
    · rw [hfound] at hresolve
      injection hresolve with hresolve
      injection hresolve with hsame
      subst hsame hevents
      exact hg.not_connected_of_split hp.toSpans hi hstops.divides hs hfollows.connected
    rcases hp.resolve_realized hg.toGrouped hwalk hlength hall with ⟨hfound, -⟩ |
      ⟨s', hfound, hdivides, -⟩
    · rw [hfound] at hresolve
      cases hresolve
    · rw [hfound] at hresolve
      injection hresolve with hresolve
      injection hresolve with hsame
      subst hsame
      exact hg.not_accepts_of_split hp.toSpans hdivides hs hfollows
  · intro p hlongest hspurious
    obtain ⟨hevents, id, ids, hp⟩ := hg.longestPath hlongest
    subst hevents
    rcases hp.stops_or_realized hg.toGrouped with
      ⟨i, s, hi, hstops, -, hfound⟩ | ⟨all, hwalk, hlength, hall⟩
    · exact ⟨s, hfound, fun place h fresh hs =>
        hg.not_connected_of_split hp.toSpans hi hstops.divides hs⟩
    · obtain ⟨o, run, hrun, hrunLength, -⟩ := hp.exists_arrives hlength hall le_rfl
      rw [← hp.matched_eq] at hrunLength
      exact absurd ⟨run, hrun, hrunLength⟩ hspurious

/-- With the end apart, working three times is no longer followed once it has been excluded,
and neither is working twice within the first block. -/
theorem split_excludes_path_workTwice :
    Reached [workTwice] .queueTops false [] endApart ∧
    (∀ place h fresh, endApart.split ⟨0, [1], [0]⟩ place = .ok (h, fresh) →
      workThrice ∉ h.completePaths workThrice.events) ∧
    (endApart.split ⟨0, [1], [0]⟩ fun _ _ => false).isOk = true ∧
    ∃ s, endApart.resolvePartial
        ⟨[.internal "work" 0, .internal "work" 0, .internal "rest" 0], [0, 0, 0]⟩ = .ok (some s) ∧
      ∀ place h fresh, endApart.split s place = .ok (h, fresh) →
        ¬h.Connected [.internal "work" 0, .internal "work" 0, .internal "rest" 0] [0, 0, 0] := by
  have hlongest : endApart.longestPath?
      [.internal "work" 0, .internal "work" 0, .internal "rest" 0] =
        some ⟨[.internal "work" 0, .internal "work" 0, .internal "rest" 0], [0, 0, 0]⟩ := by
    decide +kernel
  have hwalk : endApart.walk
      ⟨[.internal "work" 0, .internal "work" 0, .internal "rest" 0], [0, 0, 0]⟩ =
        .ok (.stuck 1 [1]) := by decide +kernel
  have hmet : (endApart.split ⟨0, [1], [0]⟩ fun _ _ => false).isOk = true := by decide +kernel
  obtain ⟨hcomplete, -⟩ := split_excludes_path reached_endApart workThrice.events
  obtain ⟨-, hpartial⟩ := split_excludes_path reached_endApart
    [.internal "work" 0, .internal "work" 0, .internal "rest" 0]
  refine ⟨reached_endApart, hcomplete _ workThrice_mem _ resolveComplete_workThrice, hmet,
    hpartial _ hlongest fun hrun => ?_⟩
  -- The walk is stuck before the last block, so no run comes there.
  have hg := reached_endApart.coherent
  obtain ⟨-, id, ids, hp⟩ := hg.longestPath hlongest
  obtain ⟨run, hrealizes, hlength⟩ := hrun
  have hlt : 2 < run.length := by
    rw [hlength]
    exact Nat.lt_succ_self 2
  have harrives := arrives_iff.mpr ⟨run, hrealizes, List.getElem?_eq_getElem hlt⟩
  rcases hp.walk hg.toGrouped with ⟨i, last, hstuck, -, -, hnone⟩ | ⟨all, hrealized, -⟩
  · rw [hwalk] at hstuck
    injection hstuck with hstuck
    injection hstuck with hi
    subst hi
    exact hnone _ harrives
  · rw [hwalk] at hrealized
    injection hrealized with hrealized
    cases hrealized

end

end ProtocolInference.Abstraction
