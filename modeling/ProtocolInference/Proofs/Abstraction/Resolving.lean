import ProtocolInference.Proofs.Abstraction.Following

/-!
# What the resolution of a path finds

A path along all events is not resolved if and only if some run along the events keeps to it
and ends accepting, so that the counterexample has been observed; and no observed one is
missed, since its blocks are a complete path. A path along the first events is split where
runs stop: at the last block that they come to if there are blocks that they do not come to,
and else at the last block in which some observation is not the end of a run. Main
statements: `resolveComplete_exact`, `resolvePartial_exact`.
-/

namespace ProtocolInference.Abstraction

variable {g : Abstraction} {p : BlockPath} {es : List Event} {run : List Nat} {i id : Nat}
  {ids : List Nat}

/-! ### Observed counterexamples -/

/-- The run goes along all events and ends in an accepting observation. -/
structure ExecutesToEnd (g : Abstraction) (es : List Event) (run : List Nat) : Prop
    extends Executes g es run where
  length_eq : run.length = es.length + 1
  ends : ∃ o x, run.getLast? = some o ∧ g.observation? o = some x ∧ x.isAccept = true

theorem exists_finish_iff (hevents : p.events = es) :
    (∃ o, g.Arrives p es.length o ∧ g.Finishes p es.length o) ↔
      ∃ run, g.ExecutesToEnd es run ∧ ∀ i o, run[i]? = some o → g.Inside p.blocks i o := by
  subst hevents
  constructor
  · intro h
    obtain ⟨o, ⟨run, hrun, hlength, hlast⟩, -, x, hx, hacc⟩ := h
    exact ⟨run, ⟨hrun.toExecutes, hlength, o, x, hlast, hx, hacc⟩, hrun.inside⟩
  · intro h
    obtain ⟨run, hrun, hinside⟩ := h
    obtain ⟨o, x, hlast, hx, hacc⟩ := hrun.ends
    have harrives : g.Arrives p p.events.length o :=
      ⟨run, ⟨hrun.toExecutes, hinside⟩, hrun.length_eq, hlast⟩
    exact ⟨o, harrives, harrives.inside, x, hx, hacc⟩

/-- The blocks of a run along all events are a complete path. -/
theorem Coherent.followsToEnd (hg : g.Coherent) (hrun : g.ExecutesToEnd es run) {path : List Nat}
    (hpath : path.map some = run.map g.parentOf) : g.FollowsToEnd es path := by
  have hat : ∀ {i q : Nat}, path[i]? = some q → ∃ o, run[i]? = some o ∧ g.parentOf o = some q := by
    intro i q hq
    have hboth : (path.map some)[i]? = (run.map g.parentOf)[i]? := by rw [hpath]
    rw [List.getElem?_map, List.getElem?_map, hq, Option.map_some] at hboth
    obtain ⟨o, ho, hparent⟩ := Option.map_eq_some_iff.mp hboth.symm
    exact ⟨o, ho, hparent⟩
  have hlength : path.length = run.length := by
    rw [← List.length_map some, hpath, List.length_map]
  have hlt : es.length < path.length := by
    have hrunLength := hrun.length_eq
    omega
  have hhead : path.head? = some path[0] := by
    rw [List.head?_eq_getElem?, List.getElem?_eq_getElem]
  have hlast : path.getLast? = some path[es.length] := by
    rw [List.getLast?_eq_getElem?, hlength, hrun.length_eq, Nat.add_sub_cancel,
      List.getElem?_eq_getElem hlt]
  refine ⟨⟨?_, ?_⟩, hlength.trans hrun.length_eq, ?_⟩
  · obtain ⟨o, x, ho, hx, hinit⟩ := hrun.starts
    rw [List.head?_eq_getElem?] at ho hhead
    obtain ⟨o', ho', hparent⟩ := hat hhead
    have hsame : o' = o := Option.some.inj (ho'.symm.trans ho)
    subst hsame
    obtain ⟨b, hb⟩ := hg.live hparent
    refine ⟨path[0], b, List.head?_eq_getElem? ▸ hhead, hb, ?_⟩
    exact (hg.toGrouped.flags_iff hb).1.mpr
      ⟨o', (hg.toGrouped.mem_iff hb).mpr hparent, x, hx, hinit⟩
  · intro i q r hq hr
    obtain ⟨o, ho, hparent⟩ := hat hq
    obtain ⟨t, ht, hparent'⟩ := hat hr
    obtain ⟨e, he, hedge⟩ := hrun.follows i o t ho ht
    exact ⟨e, he, hg.mem_next_iff.mpr ⟨o, t, hparent, hedge, hparent'⟩⟩
  · obtain ⟨o, x, ho, hx, hacc⟩ := hrun.ends
    rw [List.getLast?_eq_getElem?, hrun.length_eq, Nat.add_sub_cancel] at ho
    obtain ⟨o', ho', hparent⟩ := hat (List.getElem?_eq_getElem hlt)
    have hsame : o' = o := Option.some.inj (ho'.symm.trans ho)
    subst hsame
    obtain ⟨b, hb⟩ := hg.live hparent
    refine ⟨path[es.length], b, hlast, hb, ?_⟩
    exact (hg.toGrouped.flags_iff hb).2.1.mpr
      ⟨o', (hg.toGrouped.mem_iff hb).mpr hparent, x, hx, hacc⟩

theorem Current.resolveComplete_iff (hg : g.Grouped) (hp : g.Current p id ids) :
    ∃ x, g.resolveComplete p = .ok x ∧
      (x = none ↔ ∃ o, g.Arrives p ids.length o ∧ g.Finishes p ids.length o) := by
  rcases hp.stops_or_realized hg with
    ⟨i, s, hi, hstops, hresolve, -⟩ | ⟨all, hwalk, hlength, hall⟩
  · refine ⟨some s, hresolve, iff_of_false (fun h => by cases h) fun h => ?_⟩
    -- A run to the end would have come past the place where runs stop.
    obtain ⟨o, ho, -⟩ := h
    obtain ⟨t, ht⟩ := ho.before (Nat.succ_le_of_lt hi)
    exact hstops.none_after t ht
  · rcases hp.resolve_realized hg hwalk hlength hall with ⟨hresolve, hsome⟩ |
      ⟨s, hresolve, -, hapart, -⟩
    · exact ⟨none, hresolve, iff_of_true rfl hsome⟩
    · refine ⟨some s, hresolve, iff_of_false (fun h => by cases h) fun h => ?_⟩
      obtain ⟨o, ho, hfinishes⟩ := h
      exact hapart o ho hfinishes

section

variable {traces : List Trace} {grouping : Grouping} {strict : Bool} {removed : List Block}

/-- The observations and their edges are those of the traces. A complete path is not resolved
if and only if a run along all events keeps to its blocks and ends accepting. The blocks of
any run along all events that ends accepting are a complete path, if each of its observations
lies in a block, and that path is not resolved. -/
theorem resolveComplete_exact (hr : Reached traces grouping strict removed g) (es : List Event) :
    g.nodes = withIncoming (outgoing traces) ∧
    (∀ p ∈ g.completePaths es, ∃ x, g.resolveComplete p = .ok x ∧
      (x = none ↔
        ∃ run, g.ExecutesToEnd es run ∧ ∀ i o, run[i]? = some o → g.Inside p.blocks i o)) ∧
    ∀ run, g.ExecutesToEnd es run → (∀ o ∈ run, ∃ id, g.parentOf o = some id) →
      ∃ p ∈ g.completePaths es, p.blocks.map some = run.map g.parentOf ∧
        g.resolveComplete p = .ok none := by
  have hg := hr.coherent
  have hresolve : ∀ p ∈ g.completePaths es, ∃ x, g.resolveComplete p = .ok x ∧ (x = none ↔
      ∃ run, g.ExecutesToEnd es run ∧ ∀ i o, run[i]? = some o → g.Inside p.blocks i o) := by
    intro p hp
    obtain ⟨hevents, id, ids, hcurrent, hlength, -⟩ := hg.completePaths hp
    obtain ⟨x, hx, hnone⟩ := hcurrent.resolveComplete_iff hg.toGrouped
    rw [hlength, exists_finish_iff hevents] at hnone
    exact ⟨x, hx, hnone⟩
  obtain ⟨-, -, -, hnodes, -, -⟩ := hr.frame
  refine ⟨hnodes, hresolve, fun run hrun hparents => ?_⟩
  let path := run.map fun o => (g.parentOf o).getD 0
  have hpath : path.map some = run.map g.parentOf := by
    rw [List.map_map]
    refine List.map_congr_left fun o ho => ?_
    obtain ⟨id, hid⟩ := hparents o ho
    rw [Function.comp_apply, hid, Option.getD_some]
  have hcomplete : (⟨es, path⟩ : BlockPath) ∈ g.completePaths es :=
    hg.toGrouped.mem_completePaths_iff.mpr ⟨rfl, hg.followsToEnd hrun hpath⟩
  obtain ⟨x, hx, hnone⟩ := hresolve _ hcomplete
  have hinside : ∀ i o, run[i]? = some o → g.Inside path i o := by
    intro i o ho
    obtain ⟨id, hid⟩ := hparents o (List.mem_of_getElem? ho)
    refine hg.toGrouped.inside_iff_parentOf.mpr ⟨id, ?_, hid⟩
    rw [List.getElem?_map, ho, Option.map_some, hid, Option.getD_some]
  rw [hnone.mpr ⟨run, hrun, hinside⟩] at hx
  exact ⟨_, hcomplete, hpath, hx⟩

/-- With the end apart, working twice is observed, and working three times is not. -/
theorem resolveComplete_exact_workTwice :
    Reached [workTwice] .queueTops false [] endApart ∧
    (∃ p ∈ endApart.completePaths [.internal "work" 0, .internal "work" 0],
      p.blocks.map some = [0, 1, 2].map endApart.parentOf ∧
        endApart.resolveComplete p = .ok none) ∧
    workThrice ∈ endApart.completePaths workThrice.events ∧
    ¬∃ run, endApart.ExecutesToEnd workThrice.events run ∧
      ∀ i o, run[i]? = some o → endApart.Inside workThrice.blocks i o := by
  obtain ⟨first, hfirst, hinit⟩ := (Option.any_eq_true ..).mp
    (show (endApart.observation? 0).any (·.isInitial) = true by decide +kernel)
  obtain ⟨last, hlast, hacc⟩ := (Option.any_eq_true ..).mp
    (show (endApart.observation? 2).any (·.isAccept) = true by decide +kernel)
  have hrun : endApart.ExecutesToEnd [.internal "work" 0, .internal "work" 0] [0, 1, 2] := by
    refine ⟨⟨⟨0, first, rfl, hfirst, hinit⟩, fun i o t ho ht => ?_⟩, rfl, 2, last, rfl, hlast, hacc⟩
    match i, ho, ht with
    | 0, rfl, rfl => exact ⟨_, rfl, by decide +kernel⟩
    | 1, rfl, rfl => exact ⟨_, rfl, by decide +kernel⟩
  have hparents : ∀ o ∈ [0, 1, 2], (endApart.parentOf o).isSome = true := by decide +kernel
  obtain ⟨-, -, hobserved⟩ :=
    resolveComplete_exact reached_endApart [.internal "work" 0, .internal "work" 0]
  obtain ⟨-, hunresolved, -⟩ := resolveComplete_exact reached_endApart workThrice.events
  obtain ⟨x, hx, hnone⟩ := hunresolved _ workThrice_mem
  rw [resolveComplete_workThrice] at hx
  injection hx with hx
  rw [← hx] at hnone
  exact ⟨reached_endApart,
    hobserved _ hrun fun o ho => Option.isSome_iff_exists.mp (hparents o ho), workThrice_mem,
    fun hsome => by cases hnone.mpr hsome⟩

end

/-! ### Where a path along the first events is split -/

theorem Stops.eq_succ_of_least {s : Split} {k : Nat} (hs : g.Stops p k s) (hk : s.keep ≠ [])
    (hempty : ∀ o, ¬g.Arrives p i o) (hbefore : ∀ j < i, ∃ o, g.Arrives p j o) : i = k + 1 := by
  rcases Nat.lt_trichotomy i (k + 1) with hlt | heq | hgt
  · obtain ⟨o, ho⟩ := hs.divides.keep.ne_nil_iff.mp hk
    obtain ⟨a, ha⟩ := ho.before (Nat.le_of_lt_succ hlt)
    exact absurd ha (hempty a)
  · exact heq
  · obtain ⟨a, ha⟩ := hbefore (k + 1) hgt
    exact absurd ha (hs.none_after a)

section

variable {traces : List Trace} {grouping : Grouping} {strict : Bool} {removed : List Block}

/-- If runs do not come to every block of the longest path, the block before the first one
that they do not come to is split: what they come to there is kept, and what has an edge on
the next event into the next block is extracted. If they do, the last block is split in which
some observation is not the end of a run: the ends of runs are kept, and the others are
extracted. There is no split if there is no such block. -/
theorem resolvePartial_exact (hr : Reached traces grouping strict removed g)
    (h : g.longestPath? es = some p) : p.events = es ∧ ∃ x, g.resolvePartial p = .ok x ∧
      (∀ i ≤ p.matched, (∀ o, ¬g.Arrives p i o) → (∀ j < i, ∃ o, g.Arrives p j o) →
        ∃ k s, i = k + 1 ∧ x = some s ∧ g.Divides p k (g.Departs p k) s) ∧
      ((∀ i ≤ p.matched, ∃ o, g.Arrives p i o) →
        ∀ i ≤ p.matched, (∃ o, g.Strays p i o) →
          (∀ j ≤ p.matched, i < j → ∀ o, ¬g.Strays p j o) →
          ∃ s, x = some s ∧ g.Divides p i (g.Strays p i) s) ∧
      (x = none ↔ ∀ i ≤ p.matched, ∀ o, g.Inside p.blocks i o → g.Arrives p i o) := by
  have hg := hr.coherent
  obtain ⟨hevents, id, ids, hp⟩ := hg.longestPath h
  rw [hp.matched_eq]
  refine ⟨hevents, ?_⟩
  rcases hp.stops_or_realized hg.toGrouped with
    ⟨k, s, hk, hstops, -, hresolve⟩ | ⟨all, hwalk, hlength, hall⟩
  · obtain ⟨hkeep, -⟩ := hp.sides_ne_nil hk hstops
    refine ⟨some s, hresolve, fun i hi hempty hbefore => ?_, fun hsomewhere => ?_,
      iff_of_false (fun h => by cases h) fun hfull => ?_⟩
    · have hik : i = k + 1 := hstops.eq_succ_of_least hkeep hempty hbefore
      exact ⟨k, s, hik, rfl, hstops.divides⟩
    · obtain ⟨a, ha⟩ := hsomewhere (k + 1) hk
      exact absurd ha (hstops.none_after a)
    · obtain ⟨-, -, -, t, -, -, ht⟩ := hp.departs k hk
      exact hstops.none_after t (hfull (k + 1) hk t ht)
  have harrives : ∀ i ≤ ids.length, ∃ o, g.Arrives p i o :=
    fun i hi => hp.exists_arrives hlength hall hi
  rcases hp.resolve_mixed hg.toGrouped hwalk hlength hall with ⟨hresolve, hnone⟩ |
    ⟨k, s, hresolve, hk, hdivides, -, hextract, hafter⟩
  · refine ⟨none, hresolve, fun i hi hempty _ => ?_, fun _ i hi hstrays _ => ?_,
      iff_of_true rfl fun i hi o ho => by_contra fun hnot => hnone i hi o ⟨ho, hnot⟩⟩
    · obtain ⟨o, ho⟩ := harrives i hi
      exact absurd ho (hempty o)
    · obtain ⟨o, ho⟩ := hstrays
      exact absurd ho (hnone i hi o)
  · obtain ⟨a, ha⟩ := hdivides.extract.ne_nil_iff.mp hextract
    refine ⟨some s, hresolve, fun i hi hempty _ => ?_, fun _ i hi hstrays hlater => ?_,
      iff_of_false (fun h => by cases h) fun hfull => ha.2 (hfull k hk a ha.1)⟩
    · obtain ⟨o, ho⟩ := harrives i hi
      exact absurd ho (hempty o)
    · have hik : i = k := by
        rcases Nat.lt_trichotomy i k with hlt | heq | hgt
        · exact absurd ha (hlater k hk hlt a)
        · exact heq
        · obtain ⟨o, ho⟩ := hstrays
          exact absurd ho (hafter i hi hgt o)
      subst hik
      exact ⟨s, rfl, hdivides⟩

/-- With the end apart, working once comes back to the first block, to its second member only. -/
theorem resolvePartial_exact_workTwice :
    Reached [workTwice] .queueTops false [] endApart ∧
    endApart.longestPath? [.internal "work" 0, .internal "rest" 0] =
      some ⟨[.internal "work" 0, .internal "rest" 0], [0, 0]⟩ ∧
    endApart.resolvePartial ⟨[.internal "work" 0, .internal "rest" 0], [0, 0]⟩ =
      .ok (some ⟨0, [1], [0]⟩) ∧
    ¬∀ i ≤ 1, ∀ o, endApart.Inside [0, 0] i o →
      endApart.Arrives ⟨[.internal "work" 0, .internal "rest" 0], [0, 0]⟩ i o := by
  have hlongest : endApart.longestPath? [.internal "work" 0, .internal "rest" 0] =
      some ⟨[.internal "work" 0, .internal "rest" 0], [0, 0]⟩ := by decide +kernel
  have hsplit : endApart.resolvePartial ⟨[.internal "work" 0, .internal "rest" 0], [0, 0]⟩ =
      .ok (some ⟨0, [1], [0]⟩) := by decide +kernel
  obtain ⟨-, x, hx, -, -, hnone⟩ := resolvePartial_exact reached_endApart hlongest
  rw [hsplit] at hx
  injection hx with hx
  rw [← hx] at hnone
  exact ⟨reached_endApart, hlongest, hsplit, fun hall => by cases hnone.mpr hall⟩

end

end ProtocolInference.Abstraction
