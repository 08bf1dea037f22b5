import ProtocolInference.Proofs.Abstraction.Matching
import ProtocolInference.Proofs.Abstraction.Network
import ProtocolInference.Proofs.Refinement.Rounds

/-!
# What splits leave for the searches

Every block of a split abstraction comes from a block that was there before. Whatever its
members begin, accept or have an edge to, the members of that block do too. So a path that is
there after a split was there before it, along the blocks that its blocks come from. A search
finds complete paths after a split only where it found some before, and it follows no more
events. The same holds of all splits of a round, so a counterexample that has no complete path
when the round begins has none at its end.
-/

namespace ProtocolInference

/-- The path along the blocks that the blocks of a path come from. -/
def BlockPath.back (p : BlockPath) (f : Nat → Nat) : BlockPath :=
  { p with blocks := p.blocks.map f }

namespace Abstraction

variable {g h i : Abstraction} {f f' : Nat → Nat} {s : Split} {place : Placement} {fresh : Nat}
  {es : List Event} {path : List Nat}

/-! ### Where blocks come from -/

/-- Every block of `h` comes from a block of `g`, which is initial or accepting if it is and
has the successors that its successors come from. -/
structure Origins (f : Nat → Nat) (g h : Abstraction) : Prop where
  initial : ∀ p b, h.block? p = some b → b.initial = true →
    ∃ c, g.block? (f p) = some c ∧ c.initial = true
  accept : ∀ p b, h.block? p = some b → b.accept = true →
    ∃ c, g.block? (f p) = some c ∧ c.accept = true
  next : ∀ p e q, q ∈ h.next p e → f q ∈ g.next (f p) e

theorem Origins.refl (g : Abstraction) : Origins id g g where
  initial _ b hb hinit := ⟨b, hb, hinit⟩
  accept _ b hb hacc := ⟨b, hb, hacc⟩
  next _ _ _ hq := hq

theorem Origins.trans (h₁ : Origins f g h) (h₂ : Origins f' h i) : Origins (f ∘ f') g i where
  initial p b hb hinit := by
    obtain ⟨c, hc, hinit⟩ := h₂.initial p b hb hinit
    exact h₁.initial _ c hc hinit
  accept p b hb hacc := by
    obtain ⟨c, hc, hacc⟩ := h₂.accept p b hb hacc
    exact h₁.accept _ c hc hacc
  next p e q hq := h₁.next _ e _ (h₂.next p e q hq)

theorem Coherent.origins_of_split (hg : g.Coherent) (hs : g.split s place = .ok (h, fresh)) :
    Origins (origin s fresh) g h where
  initial p b hb hinit := by
    have hsome := ((hg.split hs).toGrouped.flags_iff hb).1.mp hinit
    obtain ⟨c, hc, hsome⟩ := hg.someMember_of_split hs hb hsome
    exact ⟨c, hc, (hg.toGrouped.flags_iff hc).1.mpr hsome⟩
  accept p b hb hacc := by
    have hsome := ((hg.split hs).toGrouped.flags_iff hb).2.1.mp hacc
    obtain ⟨c, hc, hsome⟩ := hg.someMember_of_split hs hb hsome
    exact ⟨c, hc, (hg.toGrouped.flags_iff hc).2.1.mpr hsome⟩
  next _ _ _ hq := hg.mem_next_of_split hs hq

/-! ### Paths and searches -/

theorem Origins.connected (h₁ : Origins f g h) (hpath : h.Connected es path) :
    g.Connected es (path.map f) := by
  intro i p q hp hq
  rw [List.getElem?_map] at hp hq
  obtain ⟨p', hp', hp⟩ := Option.map_eq_some_iff.mp hp
  obtain ⟨q', hq', hq⟩ := Option.map_eq_some_iff.mp hq
  obtain ⟨e, he, hnext⟩ := hpath i p' q' hp' hq'
  rw [← hp, ← hq]
  exact ⟨e, he, h₁.next p' e q' hnext⟩

theorem Origins.follows (h₁ : Origins f g h) (hpath : h.Follows es path) :
    g.Follows es (path.map f) where
  starts := by
    obtain ⟨p, b, hp, hb, hinit⟩ := hpath.starts
    obtain ⟨c, hc, hinit⟩ := h₁.initial p b hb hinit
    exact ⟨f p, c, by rw [List.head?_map, hp, Option.map_some], hc, hinit⟩
  connected := h₁.connected hpath.connected

theorem Origins.followsToEnd (h₁ : Origins f g h) (hpath : h.FollowsToEnd es path) :
    g.FollowsToEnd es (path.map f) where
  toFollows := h₁.follows hpath.toFollows
  length_eq := by rw [List.length_map, hpath.length_eq]
  ends := by
    obtain ⟨q, b, hq, hb, hacc⟩ := hpath.ends
    obtain ⟨c, hc, hacc⟩ := h₁.accept q b hb hacc
    exact ⟨f q, c, by rw [List.getLast?_map, hq, Option.map_some], hc, hacc⟩

theorem Origins.mem_completePaths (h₁ : Origins f g h) (hg : g.Grouped) (hh : h.Grouped)
    {p : BlockPath} (hp : p ∈ h.completePaths es) :
    p.back f ∈ g.completePaths es := by
  obtain ⟨hevents, hpath⟩ := hh.mem_completePaths_iff.mp hp
  exact hg.mem_completePaths_iff.mpr ⟨hevents, h₁.followsToEnd hpath⟩

theorem Origins.completePaths_eq_nil (h₁ : Origins f g h) (hg : g.Grouped) (hh : h.Grouped)
    (hnone : g.completePaths es = []) : h.completePaths es = [] := by
  refine List.eq_nil_iff_forall_not_mem.mpr fun p hp => ?_
  have hmem := h₁.mem_completePaths hg hh hp
  rw [hnone] at hmem
  cases hmem

/-- How many events the longest path follows. It is none if there is no such path. -/
def matched (g : Abstraction) (es : List Event) : Nat := (g.longestPath? es).elim 0 (·.matched)

theorem matched_eq (g : Abstraction) (es : List Event) :
    g.matched es = (firstLongest (g.visits es)).length - 1 := by
  rw [matched, longestPath?_eq]
  split
  · rename_i hshort
    show 0 = _
    omega
  · rfl

theorem Origins.matched_le (h₁ : Origins f g h) (hg : g.Coherent) (hh : h.Grouped) :
    h.matched es ≤ g.matched es := by
  rw [matched_eq, matched_eq]
  rcases firstLongest_mem (h.visits es) with hnil | hmem
  · rw [hnil]
    exact Nat.zero_le _
  · have hpath := h₁.follows (hh.mem_visits_iff.mp hmem)
    have hvisited := hg.toGrouped.mem_visits_iff.mpr hpath
    have hlength := (firstLongest_spec (hg.sorted_visits es) _ hvisited).1
    rw [List.length_map] at hlength
    omega

section

variable {traces : List Trace} {grouping : Grouping} {strict : Bool} {removed : List Block}

/-- A split adds no path for a search: along the blocks that the blocks of a complete path come
from there was a complete path before, and the longest path follows no more events. -/
theorem split_shrinks_searches (hr : Reached traces grouping strict removed g)
    (hs : g.split s place = .ok (h, fresh)) (es : List Event) :
    (∀ p ∈ h.completePaths es, p.back (origin s fresh) ∈ g.completePaths es) ∧
    (g.completePaths es = [] → h.completePaths es = []) ∧
    h.matched es ≤ g.matched es := by
  have hg := hr.coherent
  have hh := hg.split hs
  have horigins := hg.origins_of_split hs
  exact ⟨fun p hp => horigins.mem_completePaths hg.toGrouped hh.toGrouped hp,
    horigins.completePaths_eq_nil hg.toGrouped hh.toGrouped, horigins.matched_le hg hh.toGrouped⟩

/-- The path that works twice and ends apart was one within the first block. -/
theorem split_shrinks_searches_workTwice : ∃ g h fresh,
    ofTraces [workTwice] .queueTops false = .ok g ∧
    g.split ⟨0, [0], [2]⟩ (fun _ _ => false) = .ok (h, fresh) ∧
    ⟨[.internal "work" 0, .internal "work" 0], [0, 0, 0]⟩ ∈
      g.completePaths [.internal "work" 0, .internal "work" 0] ∧
    ∀ es, h.matched es ≤ g.matched es := by
  have hstart : ofTraces [workTwice] .queueTops false =
      .ok (assemble workTwice [workTwice] .queueTops false) := rfl
  have hpaths : ((assemble workTwice [workTwice] .queueTops false).split ⟨0, [0], [2]⟩
      fun _ _ => false).map
        (fun x => (x.1.completePaths [.internal "work" 0, .internal "work" 0], x.2)) =
      .ok ([⟨[.internal "work" 0, .internal "work" 0], [0, 0, 1]⟩], 1) := by decide +kernel
  obtain ⟨⟨h, fresh⟩, hsplit⟩ := Checks.exists_eq_ok (show Except.isOk
    ((assemble workTwice [workTwice] .queueTops false).split ⟨0, [0], [2]⟩
      fun _ _ => false) = true by decide +kernel)
  rw [hsplit] at hpaths
  injection hpaths with hpaths
  injection hpaths with hpaths hfresh
  have hmem : ⟨[.internal "work" 0, .internal "work" 0], [0, 0, 1]⟩ ∈
      h.completePaths [.internal "work" 0, .internal "work" 0] := by
    rw [show h.completePaths _ = _ from hpaths]
    exact List.mem_singleton_self _
  have hback := (split_shrinks_searches (.start hstart) hsplit _).1 _ hmem
  rw [show fresh = 1 from hfresh] at hback
  exact ⟨_, h, fresh, hstart, hsplit, hback,
    fun es => (split_shrinks_searches (.start hstart) hsplit es).2.2⟩

end

end Abstraction

/-! ### The splits of a round -/

namespace Refinement

open Abstraction

variable {σ ε : Type} {checker : Checker σ ε} {place : Placement} {g h : Abstraction}

theorem Splits.exists_origins {n : Nat} (hs : Splits place n g h) (hg : g.Coherent) :
    ∃ f, Origins f g h := by
  induction hs with
  | nil g => exact ⟨id, .refl g⟩
  | cons hsplit _ _ ih =>
    obtain ⟨f, hf⟩ := ih (hg.split hsplit)
    exact ⟨_, (hg.origins_of_split hsplit).trans hf⟩

/-- What the searches do not find when a round begins they do not find after it. -/
theorem round_shrinks_searches {pending : List Invariant} {r : Round} {s s' : σ}
    (hg : g.Coherent) (hr : round checker place g pending s = (.ok r, s')) (es : List Event) :
    (g.rememberAll.completePaths es = [] → r.after.completePaths es = []) ∧
      r.after.matched es ≤ g.rememberAll.matched es := by
  have hsplits := splits_of_round hg hr
  have hafter := (hsplits.spec hg.rememberAll).1
  obtain ⟨f, hf⟩ := hsplits.exists_origins hg.rememberAll
  exact ⟨hf.completePaths_eq_nil hg.rememberAll.toGrouped hafter.toGrouped,
    hf.matched_le hg.rememberAll hafter.toGrouped⟩

end Refinement

end ProtocolInference
