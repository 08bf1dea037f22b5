import ProtocolInference.Proofs.Abstraction.Changes
import ProtocolInference.Proofs.Checks

/-!
# Requests to split a block

A request is met exactly if both of its sets have members, none in common, and all of
the block; in a strict abstraction the split must moreover keep equal local states
together. The members of the new block are those to be extracted and those of the
others that the placement sends there.
-/

namespace ProtocolInference

open Ascending

/-- What a request has to fulfil of the block that it is about. -/
structure Split.Legal (s : Split) (b : Block) : Prop where
  keep_ne_nil : s.keep ≠ []
  extract_ne_nil : s.extract ≠ []
  disjoint : ∀ o ∈ s.keep, o ∉ s.extract
  keep_subset : ∀ o ∈ s.keep, o ∈ b.members
  extract_subset : ∀ o ∈ s.extract, o ∈ b.members

namespace Abstraction

theorem block_eq_ok_iff {g : Abstraction} {id : Nat} {b : Block} :
    g.block id = .ok b ↔ g.block? id = some b := by
  unfold block
  cases g.block? id <;> simp

theorem checkSplit_eq_ok_iff {g : Abstraction} {s : Split} {b : Block} :
    g.checkSplit s = .ok b ↔ g.block? s.block = some b ∧ s.Legal b := by
  unfold checkSplit
  simp only [Checks.bind_eq_ok_iff, Checks.guard_eq_ok_iff, Checks.require_eq_ok_iff,
    block_eq_ok_iff, List.isEmpty_iff, List.any_eq_true, List.all_eq_true, Bool.and_eq_true,
    List.contains_iff_mem]
  constructor
  · rintro ⟨x, hx, hk, he, hd, hs, hpure⟩
    injection hpure with hpure
    subst hpure
    exact ⟨hx, hk, he, fun o ho hm => hd ⟨o, ho, hm⟩, hs.1, hs.2⟩
  · rintro ⟨hb, hl⟩
    refine ⟨b, hb, hl.keep_ne_nil, hl.extract_ne_nil, ?_, ⟨hl.keep_subset, hl.extract_subset⟩, rfl⟩
    rintro ⟨o, ho, hm⟩
    exact hl.disjoint o ho hm

/-- What a split that succeeds has done. -/
theorem split_eq_ok_iff {g h : Abstraction} {s : Split} {place : Placement} {id : Nat} :
    g.split s place = .ok (h, id) ↔ ∃ b, g.block? s.block = some b ∧ s.Legal b ∧
      h = g.separate b (moved b s (place g.blocks.size)) ∧ id = g.blocks.size ∧
      (h.strict = true → h.checkTogether b.members = .ok ()) := by
  unfold split
  simp only [Checks.bind_eq_ok_iff, checkSplit_eq_ok_iff, and_assoc]
  refine exists_congr fun b => and_congr_right fun _ => and_congr_right fun _ => ?_
  constructor
  · intro hs
    split at hs
    · obtain ⟨⟨⟩, hok, hpure⟩ := Checks.bind_eq_ok_iff.mp hs
      injection hpure with hpure
      injection hpure with h1 h2
      subst h1 h2
      exact ⟨rfl, rfl, fun _ => hok⟩
    · rename_i hstrict
      injection hs with hs
      injection hs with h1 h2
      subst h1 h2
      exact ⟨rfl, rfl, fun hn => absurd hn hstrict⟩
  · rintro ⟨rfl, rfl, hok⟩
    split
    · rename_i hstrict
      exact Checks.bind_eq_ok_iff.mpr ⟨(), hok hstrict, rfl⟩
    · rfl

theorem mem_moved {b : Block} {s : Split} {place : Nat → Bool} {o : Nat} :
    o ∈ moved b s place ↔
      o ∈ b.members ∧ (o ∈ s.extract ∨ (o ∉ s.keep ∧ place o = true)) := by
  simp [moved]

theorem Coherent.split {g h : Abstraction} (hg : g.Coherent) {s : Split} {place : Placement}
    {id : Nat} (hs : g.split s place = .ok (h, id)) : h.Coherent := by
  obtain ⟨b, hb, hl, rfl, -, -⟩ := split_eq_ok_iff.mp hs
  refine hg.separate hb (fun o ho => (mem_moved.mp ho).1)
    ((hg.fits hb).sorted.sublist List.filter_sublist) ?_ ?_
  · obtain ⟨o, ho⟩ := List.exists_mem_of_ne_nil _ hl.extract_ne_nil
    exact List.ne_nil_of_mem (mem_moved.mpr ⟨hl.extract_subset o ho, Or.inl ho⟩)
  · obtain ⟨o, ho⟩ := List.exists_mem_of_ne_nil _ hl.keep_ne_nil
    refine ⟨o, hl.keep_subset o ho, fun hm => ?_⟩
    rcases (mem_moved.mp hm).2 with he | ⟨hk, -⟩
    · exact hl.disjoint o ho he
    · exact hk ho

/-- The block from which a block of the split abstraction has come. -/
def origin (s : Split) (fresh c : Nat) : Nat := if c = fresh then s.block else c

/-- A split changes nothing about the observations but the block that some of them lie
in, and those come from the block that is split. -/
theorem Grouped.parentOf_split {g h : Abstraction} (hg : g.Grouped) {s : Split}
    {place : Placement} {id : Nat} (hs : g.split s place = .ok (h, id)) :
    h.nodes = g.nodes ∧ h.processes = g.processes ∧ h.channels = g.channels ∧
      ∀ o, g.parentOf o = (h.parentOf o).map (origin s id) := by
  obtain ⟨b, hb, -, rfl, rfl, -⟩ := split_eq_ok_iff.mp hs
  refine ⟨rfl, rfl, rfl, fun o => ?_⟩
  have hsub : ∀ o ∈ moved b s (place g.blocks.size), o ∈ b.members :=
    fun o ho => (mem_moved.mp ho).1
  rw [hg.parentOf_separate hb hsub]
  split
  · rename_i ho
    rw [(hg.mem_iff hb).mp (hsub o ho), Option.map_some, origin, if_pos rfl]
  · cases hp : g.parentOf o with
    | none => rfl
    | some c =>
      have hc : c ≠ g.blocks.size := by
        rintro rfl
        exact hg.parentOf_ne_size o hp
      rw [Option.map_some, origin, if_neg hc]

end Abstraction

end ProtocolInference
