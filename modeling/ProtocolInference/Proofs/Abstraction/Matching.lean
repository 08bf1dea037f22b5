import ProtocolInference.Proofs.Abstraction.Visiting

/-!
# What the searches for a counterexample find

The complete paths of a counterexample are all paths of blocks that follow its events from
an initial block to an accepting one. They are found in ascending lexicographic order, and
each of them is feasible. The longest path of a counterexample follows as many of its first
events as any path from an initial block does, and is the least of those that do.
-/

namespace ProtocolInference.Abstraction

variable {g : Abstraction} {es : List Event} {path : List Nat}

/-! ### Paths along the first events -/

theorem Coherent.live_of_follows (hg : g.Coherent) (h : g.Follows es path) :
    ∀ q ∈ path, ∃ b, g.block? q = some b := by
  intro q hq
  obtain ⟨i, hi⟩ := List.mem_iff_getElem?.mp hq
  cases i with
  | zero =>
    obtain ⟨p, b, hhead, hb, -⟩ := h.starts
    rw [List.head?_eq_getElem?, hi] at hhead
    injection hhead with hp
    rw [hp]
    exact ⟨b, hb⟩
  | succ i =>
    have hlt : i < path.length := by
      have hsucc := (List.getElem?_eq_some_iff.mp hi).1
      omega
    obtain ⟨e, -, hnext⟩ := h.connected i _ q (List.getElem?_eq_getElem hlt) hi
    exact hg.exists_of_mem_next hnext

theorem Follows.length_le (h : g.Follows es path) : path.length ≤ es.length + 1 := by
  by_contra hlong
  have hp : es.length < path.length := by omega
  have hq : es.length + 1 < path.length := by omega
  obtain ⟨e, he, -⟩ := h.connected es.length _ _
    (List.getElem?_eq_getElem hp) (List.getElem?_eq_getElem hq)
  rw [List.getElem?_eq_none le_rfl] at he
  cases he

theorem Coherent.feasible_of_follows (hg : g.Coherent) (h : g.Follows es path) :
    g.feasible ⟨es, path⟩ = true := by
  rw [feasible, Bool.and_eq_true, List.all_eq_true, List.all_eq_true]
  constructor
  · intro q hq
    exact Option.isSome_iff_exists.mpr (hg.live_of_follows h q hq)
  · rintro ⟨p, e, q⟩ hstep
    obtain ⟨i, hi⟩ := List.mem_iff_getElem?.mp hstep
    obtain ⟨hp, hsteps⟩ := List.getElem?_zip_eq_some.mp hi
    obtain ⟨he, hq⟩ := List.getElem?_zip_eq_some.mp hsteps
    rw [List.getElem?_tail] at hq
    obtain ⟨f, hf, hnext⟩ := h.connected i p q hp hq
    have hfe : f = e := Option.some.inj (hf.symm.trans he)
    rw [← hfe]
    exact List.contains_iff_mem.mpr hnext

/-! ### Complete paths -/

/-- The path moreover follows all events and ends in an accepting block. -/
structure FollowsToEnd (g : Abstraction) (es : List Event) (path : List Nat) : Prop
    extends Follows g es path where
  length_eq : path.length = es.length + 1
  ends : ∃ q c, path.getLast? = some q ∧ g.block? q = some c ∧ c.accept = true

theorem reachesEnd_iff : g.reachesEnd es path = true ↔ path.length = es.length + 1 ∧
    ∃ q c, path.getLast? = some q ∧ g.block? q = some c ∧ c.accept = true := by
  simp only [reachesEnd, accepts, Bool.and_eq_true, beq_iff_eq, Option.any_eq_true]
  refine and_congr_right fun _ => ?_
  constructor
  · rintro ⟨q, hq, c, hc, hacc⟩
    exact ⟨q, c, hq, hc, hacc⟩
  · rintro ⟨q, c, hq, hc, hacc⟩
    exact ⟨q, hq, c, hc, hacc⟩

theorem Grouped.mem_completePaths_iff (hg : g.Grouped) {p : BlockPath} :
    p ∈ g.completePaths es ↔ p.events = es ∧ g.FollowsToEnd es p.blocks := by
  simp only [completePaths_eq, List.mem_map, List.mem_filter, hg.mem_visits_iff, reachesEnd_iff]
  constructor
  · rintro ⟨path, ⟨hfollows, hlength, hends⟩, hp⟩
    subst hp
    exact ⟨rfl, ⟨hfollows, hlength, hends⟩⟩
  · rintro ⟨hevents, hfollows⟩
    subst hevents
    exact ⟨p.blocks, ⟨hfollows.toFollows, hfollows.length_eq, hfollows.ends⟩, rfl⟩

/-! ### The longest path -/

/-- Some path from an initial block follows an event, unless the first event has no
successor there. -/
theorem Grouped.visits_short_iff (hg : g.Grouped) : (∀ path ∈ g.visits es, path.length ≤ 1) ↔
    ∀ p b, g.block? p = some b → b.initial = true →
      ∀ e, es.head? = some e → g.next p e = [] := by
  constructor
  · intro hshort p b hb hinit e he
    obtain ⟨rest, hes⟩ := List.head?_eq_some_iff.mp he
    refine List.eq_nil_iff_forall_not_mem.mpr fun q hq => ?_
    have hconnected : g.Connected es [p, q] :=
      connected_cons_cons_iff.mpr ⟨e, rest, hes, hq, connected_single g rest q⟩
    have hfollows : g.Follows es [p, q] := ⟨⟨p, b, rfl, hb, hinit⟩, hconnected⟩
    have hlength := hshort [p, q] (hg.mem_visits_iff.mpr hfollows)
    simp at hlength
  · intro hnone path hpath
    have hfollows := hg.mem_visits_iff.mp hpath
    obtain ⟨p, b, hhead, hb, hinit⟩ := hfollows.starts
    match path, hhead with
    | [_], rfl => exact le_rfl
    | p :: q :: rest, rfl =>
      obtain ⟨e, es', hes, hq, -⟩ := connected_cons_cons_iff.mp hfollows.connected
      have hhead : es.head? = some e := by rw [hes, List.head?_cons]
      rw [hnone p b hb hinit e hhead] at hq
      exact absurd hq List.not_mem_nil

theorem Grouped.longestPath_spec (hg : g.Grouped) {p : BlockPath}
    (h : g.longestPath? es = some p) : p.events = es ∧ 1 < p.blocks.length ∧
      p.blocks = firstLongest (g.visits es) ∧ g.Follows es p.blocks := by
  rw [longestPath?_eq] at h
  obtain ⟨hlong, hp⟩ := Option.ite_none_left_eq_some.mp h
  injection hp with hp
  subst hp
  have hvisited : firstLongest (g.visits es) ∈ g.visits es := by
    refine (firstLongest_mem (g.visits es)).resolve_left fun hnil => ?_
    rw [hnil] at hlong
    exact absurd (Nat.zero_le 1) hlong
  exact ⟨rfl, Nat.lt_of_not_le hlong, rfl, hg.mem_visits_iff.mp hvisited⟩

section

variable {traces : List Trace} {grouping : Grouping} {strict : Bool} {removed : List Block}

/-- The complete paths are those that follow all events from an initial block to an
accepting one. They come in ascending lexicographic order, each of them once, and they are
feasible. A search with an agenda comes to them in this order. -/
theorem completePaths_exact (hr : Reached traces grouping strict removed g) (es : List Event) :
    (∀ p, p ∈ g.completePaths es ↔ p.events = es ∧ g.FollowsToEnd es p.blocks) ∧
    (g.completePaths es).Pairwise (fun p q => Precedes p.blocks q.blocks) ∧
    (g.completePaths es).Nodup ∧
    (∀ p ∈ g.completePaths es, g.feasible p = true ∧ ∀ q ∈ p.blocks, ∃ b, g.block? q = some b) ∧
    ∃ taken, g.Searches es (g.initialIds.map ([·])) taken ∧
      (g.completePaths es).map (·.blocks) = taken.filter (g.reachesEnd es) := by
  have hg := hr.coherent
  have hmem : ∀ p, p ∈ g.completePaths es ↔ p.events = es ∧ g.FollowsToEnd es p.blocks :=
    fun p => hg.toGrouped.mem_completePaths_iff
  have hsorted : (g.completePaths es).Pairwise fun p q => Precedes p.blocks q.blocks := by
    rw [completePaths_eq, List.pairwise_map]
    exact (hg.sorted_visits es).filter _
  have hnodup : (g.completePaths es).Nodup :=
    hsorted.imp fun hlt heq => hlt.ne (congrArg BlockPath.blocks heq)
  refine ⟨hmem, hsorted, hnodup, fun p hp => ?_, g.visits es, g.searches_visits es, ?_⟩
  · obtain ⟨hevents, hfollows⟩ := (hmem p).mp hp
    subst hevents
    exact ⟨hg.feasible_of_follows hfollows.toFollows, hg.live_of_follows hfollows.toFollows⟩
  · rw [completePaths_eq, List.map_map]
    exact List.map_id _

/-- After the end has been split off, one path works twice. -/
theorem completePaths_exact_workTwice : ∃ g h fresh,
    ofTraces [workTwice] .queueTops false = .ok g ∧
    g.split ⟨0, [0], [2]⟩ (fun _ _ => false) = .ok (h, fresh) ∧
    ∀ path, h.FollowsToEnd [.internal "work" 0, .internal "work" 0] path ↔ path = [0, 0, 1] := by
  have hstart : ofTraces [workTwice] .queueTops false =
      .ok (assemble workTwice [workTwice] .queueTops false) := rfl
  have hpaths : ((assemble workTwice [workTwice] .queueTops false).split ⟨0, [0], [2]⟩
      fun _ _ => false).map
        (fun x => x.1.completePaths [.internal "work" 0, .internal "work" 0]) =
      .ok [⟨[.internal "work" 0, .internal "work" 0], [0, 0, 1]⟩] := by decide +kernel
  obtain ⟨⟨h, fresh⟩, hsplit⟩ := Checks.exists_eq_ok (show Except.isOk
    ((assemble workTwice [workTwice] .queueTops false).split ⟨0, [0], [2]⟩
      fun _ _ => false) = true by decide +kernel)
  rw [hsplit] at hpaths
  injection hpaths with hpaths
  obtain ⟨hmem, -⟩ := completePaths_exact (.split (.start hstart) hsplit)
    [.internal "work" 0, .internal "work" 0]
  refine ⟨_, h, fresh, hstart, hsplit, fun path => ?_⟩
  have hpath := hmem ⟨[.internal "work" 0, .internal "work" 0], path⟩
  rw [show h.completePaths _ = _ from hpaths, List.mem_singleton] at hpath
  simpa using hpath.symm

/-- There is no longest path if no initial block has a successor on the first event. Any
other counterexample has one. It follows at least one event from an initial block, no path
from an initial block follows more of them, and it is the least of those that follow as
many, which is the first of them that a search with an agenda comes to. -/
theorem longestPath_exact (hr : Reached traces grouping strict removed g) (es : List Event) :
    (g.longestPath? es = none ↔ ∀ p b, g.block? p = some b → b.initial = true →
      ∀ e, es.head? = some e → g.next p e = []) ∧
    ∀ p, g.longestPath? es = some p → p.events = es ∧ 0 < p.matched ∧ g.Follows es p.blocks ∧
      (∀ path, g.Follows es path → path.length ≤ p.blocks.length ∧
        (path.length = p.blocks.length → path = p.blocks ∨ Precedes p.blocks path)) ∧
      ∃ taken, g.Searches es (g.initialIds.map ([·])) taken ∧ p.blocks = firstLongest taken := by
  have hg := hr.coherent
  have hspec := firstLongest_spec (hg.sorted_visits es)
  constructor
  · rw [longestPath?_eq, ← hg.toGrouped.visits_short_iff, ite_eq_left_iff]
    constructor
    · intro hnone path hpath
      have hshort : (firstLongest (g.visits es)).length ≤ 1 := by
        by_contra hlong
        cases hnone hlong
      exact (hspec path hpath).1.trans hshort
    · intro hall hlong
      rcases firstLongest_mem (g.visits es) with hnil | hmem
      · rw [hnil] at hlong
        exact absurd (Nat.zero_le 1) hlong
      · exact absurd (hall _ hmem) hlong
  · intro p hp
    obtain ⟨hevents, hlong, hblocks, hfollows⟩ := hg.toGrouped.longestPath_spec hp
    have hmatched : 0 < p.matched := Nat.sub_pos_of_lt hlong
    refine ⟨hevents, hmatched, hfollows, fun path hpath => ?_,
      g.visits es, g.searches_visits es, hblocks⟩
    rw [hblocks]
    exact hspec path (hg.toGrouped.mem_visits_iff.mpr hpath)

/-- Two paths follow the first of two events. The one that stays is taken. -/
theorem longestPath_exact_workTwice : ∃ g h fresh,
    ofTraces [workTwice] .queueTops false = .ok g ∧
    g.split ⟨0, [0], [2]⟩ (fun _ _ => false) = .ok (h, fresh) ∧
    h.longestPath? [.internal "work" 0, .internal "rest" 0] =
      some ⟨[.internal "work" 0, .internal "rest" 0], [0, 0]⟩ ∧
    ∀ path, h.Follows [.internal "work" 0, .internal "rest" 0] path →
      path.length ≤ 2 ∧ (path.length = 2 → path = [0, 0] ∨ Precedes [0, 0] path) := by
  have hstart : ofTraces [workTwice] .queueTops false =
      .ok (assemble workTwice [workTwice] .queueTops false) := rfl
  have hlongest : ((assemble workTwice [workTwice] .queueTops false).split ⟨0, [0], [2]⟩
      fun _ _ => false).map
        (fun x => x.1.longestPath? [.internal "work" 0, .internal "rest" 0]) =
      .ok (some ⟨[.internal "work" 0, .internal "rest" 0], [0, 0]⟩) := by decide +kernel
  obtain ⟨⟨h, fresh⟩, hsplit⟩ := Checks.exists_eq_ok (show Except.isOk
    ((assemble workTwice [workTwice] .queueTops false).split ⟨0, [0], [2]⟩
      fun _ _ => false) = true by decide +kernel)
  rw [hsplit] at hlongest
  injection hlongest with hlongest
  obtain ⟨-, hfound⟩ := longestPath_exact (.split (.start hstart) hsplit)
    [.internal "work" 0, .internal "rest" 0]
  obtain ⟨-, -, -, hleast, -⟩ := hfound _ hlongest
  exact ⟨_, h, fresh, hstart, hsplit, hlongest, hleast⟩

end

end ProtocolInference.Abstraction
