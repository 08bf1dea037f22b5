import ProtocolInference.Proofs.Abstraction.Counting
import ProtocolInference.Proofs.Abstraction.History

/-!
# The halves of a block that is split

A request that makes no sense is refused before anything moves, and in an abstraction that
is not strict no other request fails. A split sends every member of the block to one of two
halves, those to be kept to the one and those to be extracted to the other. The first keeps
the number of the block, and the number of the second has not been used in the whole history
of the abstraction. Nothing else changes but the generations of the blocks with an edge into
the block that is split. Main statement: `split_exact`.
-/

namespace ProtocolInference.Abstraction

open Relation (ReflTransGen)

variable {g h : Abstraction} {s : Split} {place : Placement} {fresh id : Nat} {b : Block}

/-! ### Requests that are refused -/

/-- There is no such block, one of the two sets has no members, they have one in common, or
one of their members is none of the block. -/
inductive Unmet (g : Abstraction) (s : Split) : Prop where
  | noBlock : g.block? s.block = none → Unmet g s
  | emptyKeep : s.keep = [] → Unmet g s
  | emptyExtract : s.extract = [] → Unmet g s
  | overlap {o : Nat} : o ∈ s.keep → o ∈ s.extract → Unmet g s
  | outside {b : Block} {o : Nat} : g.block? s.block = some b → o ∈ s.keep ∨ o ∈ s.extract →
      o ∉ b.members → Unmet g s

theorem unmet_iff : g.Unmet s ↔ ¬∃ b, g.block? s.block = some b ∧ s.Legal b := by
  constructor
  · rintro hunmet ⟨b, hb, hlegal⟩
    cases hunmet with
    | noBlock hnone =>
      rw [hnone] at hb
      cases hb
    | emptyKeep hkeep => exact hlegal.keep_ne_nil hkeep
    | emptyExtract hextract => exact hlegal.extract_ne_nil hextract
    | overlap hkeep hextract => exact hlegal.disjoint _ hkeep hextract
    | outside hb' ho hout =>
      have hsame : b = _ := Option.some.inj (hb.symm.trans hb')
      rw [← hsame] at hout
      exact hout (ho.elim (hlegal.keep_subset _) (hlegal.extract_subset _))
  · intro hnot
    by_contra hmet
    cases hb : g.block? s.block with
    | none => exact hmet (.noBlock hb)
    | some b =>
      refine hnot ⟨b, hb, fun hk => hmet (.emptyKeep hk), fun he => hmet (.emptyExtract he),
        fun o hk he => hmet (.overlap hk he), fun o ho => ?_, fun o ho => ?_⟩
      · by_contra hout
        exact hmet (.outside hb (Or.inl ho) hout)
      · by_contra hout
        exact hmet (.outside hb (Or.inr ho) hout)

theorem checkSplit_eq_error_iff : (∃ cause, g.checkSplit s = .error cause) ↔ g.Unmet s := by
  rw [unmet_iff]
  simp only [← checkSplit_eq_ok_iff]
  cases g.checkSplit s <;> simp

/-- If equal local states may be told apart, only the request decides about a split. -/
theorem split_of_not_strict (hstrict : g.strict = false) (s : Split) (place : Placement) :
    g.split s place = (g.checkSplit s).map fun b =>
      (g.separate b (moved b s (place g.blocks.size)), g.blocks.size) := by
  have hseparate : ∀ b gone, (g.separate b gone).strict = false := fun _ _ => hstrict
  unfold split
  cases g.checkSplit s with
  | error cause => rfl
  | ok b =>
    show (if (g.separate b _).strict then _ else _) = _
    rw [hseparate]
    rfl

theorem split_eq_error_iff (hstrict : g.strict = false) (s : Split) (place : Placement)
    (cause : Fault) : g.split s place = .error cause ↔ g.checkSplit s = .error cause := by
  rw [split_of_not_strict hstrict]
  cases g.checkSplit s <;> simp [Except.map]

/-! ### Numbers that have been used -/

/-- A step in the history of an abstraction. -/
inductive Step : Abstraction → Abstraction → Prop where
  | split {g h : Abstraction} {s : Split} {place : Placement} {fresh : Nat} :
      g.split s place = .ok (h, fresh) → Step g h
  | remove (g : Abstraction) (id : Nat) : Step g (g.remove id)
  | read (g : Abstraction) (id : Nat) : Step g (g.remember id)

theorem size_blocks_advance (g : Abstraction) (ids : List Nat) :
    (g.advance ids).blocks.size = g.blocks.size := by
  induction ids generalizing g with
  | nil => rfl
  | cons i ids ih =>
    rw [advance_cons, ih]
    exact Array.size_modify

theorem size_blocks_split (hs : g.split s place = .ok (h, fresh)) :
    h.blocks.size = g.blocks.size + 1 := by
  obtain ⟨b, -, -, hh, -⟩ := split_eq_ok_iff.mp hs
  rw [hh, separate_eq, size_blocks_advance]
  simp [moveOut]

/-- No place of a block is ever given up. -/
theorem Step.size_le (hstep : Step g h) : g.blocks.size ≤ h.blocks.size := by
  cases hstep with
  | split hs =>
    rw [size_blocks_split hs]
    exact Nat.le_succ _
  | remove id =>
    cases hb : g.block? id with
    | none => rw [remove_eq_self hb]
    | some b =>
      rw [remove_eq hb, size_blocks_advance]
      simp [takeOut]
  | read id =>
    cases hb : g.block? id with
    | none => rw [remember_eq_self hb]
    | some b => simp [remember, hb]

theorem block?_eq_none_of_size_le (hid : g.blocks.size ≤ id) : g.block? id = none := by
  rw [block?, Array.getElem?_eq_none hid]
  rfl

theorem block?_fresh_eq_none {earlier : Abstraction} (hsteps : ReflTransGen Step earlier g)
    (hs : g.split s place = .ok (h, fresh)) : earlier.block? fresh = none := by
  have hle : earlier.blocks.size ≤ g.blocks.size := by
    clear hs
    induction hsteps with
    | refl => exact le_rfl
    | tail _ hstep ih => exact ih.trans hstep.size_le
  obtain ⟨-, -, -, -, hfresh, -⟩ := split_eq_ok_iff.mp hs
  rw [hfresh]
  exact block?_eq_none_of_size_le hle

variable {traces : List Trace} {grouping : Grouping} {strict : Bool} {removed : List Block}

theorem Reached.exists_start (hr : Reached traces grouping strict removed g) :
    ∃ first, ofTraces traces grouping strict = .ok first ∧ ReflTransGen Step first g := by
  induction hr with
  | start hfirst => exact ⟨_, hfirst, .refl⟩
  | split _ hs ih =>
    obtain ⟨first, hfirst, hsteps⟩ := ih
    exact ⟨first, hfirst, hsteps.tail (.split hs)⟩
  | remove id _ ih =>
    obtain ⟨first, hfirst, hsteps⟩ := ih
    exact ⟨first, hfirst, hsteps.tail (.remove _ id)⟩
  | read id _ ih =>
    obtain ⟨first, hfirst, hsteps⟩ := ih
    exact ⟨first, hfirst, hsteps.tail (.read _ id)⟩

/-! ### The two halves -/

/-- The flags of the block are those of its members. -/
structure Tells (g : Abstraction) (b : Block) : Prop where
  initial : b.initial = true ↔ g.SomeMember b (·.isInitial)
  accept : b.accept = true ↔ g.SomeMember b (·.isAccept)
  initialFor : ∀ pid < g.processes,
    (b.isInitialFor pid = true ↔ g.SomeMember b (·.isInitialFor pid))
  acceptFor : ∀ pid < g.processes,
    (b.isAcceptFor pid = true ↔ g.SomeMember b (·.isAcceptFor pid))

theorem Grouped.tells (hg : g.Grouped) (hb : g.block? id = some b) : g.Tells b := by
  obtain ⟨hinitial, haccept, hfor⟩ := hg.flags_iff hb
  exact ⟨hinitial, haccept, fun pid hpid => (hfor pid hpid).1, fun pid hpid => (hfor pid hpid).2⟩

/-- The block `b` of `g` has been split into the blocks `old` and `new` of `h`. -/
structure Halves (g h : Abstraction) (s : Split) (place : Placement) (fresh : Nat)
    (b old new : Block) : Prop where
  before : g.block? s.block = some b
  kept : h.block? s.block = some old
  added : h.block? fresh = some new
  keep_subset : ∀ o ∈ s.keep, o ∈ old.members
  extract_subset : ∀ o ∈ s.extract, o ∈ new.members
  disjoint : ∀ o ∈ old.members, o ∉ new.members
  /-- No member is lost, and none is there twice. -/
  perm : (old.members ++ new.members).Perm b.members
  /-- What the request leaves open goes where it is placed. -/
  placed : ∀ o ∈ b.members, o ∉ s.keep → o ∉ s.extract →
    (o ∈ new.members ↔ place fresh o = true)
  nonempty : old.members ≠ [] ∧ new.members ≠ []
  parent_ne_iff : ∀ o, h.parentOf o ≠ g.parentOf o ↔ o ∈ new.members
  parent : ∀ o ∈ new.members, g.parentOf o = some s.block ∧ h.parentOf o = some fresh
  tells : h.Tells old ∧ h.Tells new
  others : ∀ id, id ≠ s.block → id ≠ fresh → h.block? id =
    (g.block? id).map fun c => if id ∈ g.predecessors b then c.advance else c
  frame : h.nodes = g.nodes ∧ h.processes = g.processes ∧ h.channels = g.channels ∧
    h.strict = g.strict

theorem block?_separate (hb : g.block? id = some b) (hid : b.id = id) (gone : List Nat)
    {i : Nat} (hi : i ≠ id) (hfresh : i ≠ g.blocks.size) : (g.separate b gone).block? i =
      (g.block? i).map fun c => if i ∈ g.predecessors b then c.advance else c := by
  have hnodup : (g.predecessors b).Nodup := (Ascending.sorted_ofList _).nodup
  rw [separate_eq, block?_advance, block?_moveOut hb hid, if_neg hfresh, if_neg hi]
  refine Option.map_congr fun c _ => ?_
  by_cases hm : i ∈ g.predecessors b
  · rw [if_pos hm, List.count_eq_one_of_mem hnodup hm]
    rfl
  · rw [if_neg hm, List.count_eq_zero.mpr hm]
    rfl

theorem exists_kept_separate (hb : g.block? id = some b) (hid : b.id = id) (gone : List Nat) :
    ∃ old, (g.separate b gone).block? id = some old ∧
      old.members = b.members.filter fun o => !gone.contains o := by
  have hne : id ≠ g.blocks.size := Nat.ne_of_lt (lt_size_of_block? hb)
  rw [separate_eq, block?_advance, block?_moveOut hb hid, if_neg hne, if_pos rfl]
  exact ⟨_, rfl, rfl⟩

theorem exists_added_separate (hb : g.block? id = some b) (hid : b.id = id) (gone : List Nat) :
    ∃ new, (g.separate b gone).block? g.blocks.size = some new ∧ new.members = gone := by
  rw [separate_eq, block?_advance, block?_moveOut hb hid, if_pos rfl]
  exact ⟨_, rfl, rfl⟩

theorem Coherent.exists_members_of_split (hg : g.Coherent)
    (hs : g.split s place = .ok (h, fresh)) : ∃ b old new,
      g.block? s.block = some b ∧ h.block? s.block = some old ∧ h.block? fresh = some new ∧
      (∀ o, o ∈ new.members ↔
        o ∈ b.members ∧ (o ∈ s.extract ∨ (o ∉ s.keep ∧ place fresh o = true))) ∧
      (∀ o, o ∈ old.members ↔ o ∈ b.members ∧ o ∉ new.members) ∧
      ∀ o, h.parentOf o = if o ∈ new.members then some fresh else g.parentOf o := by
  obtain ⟨b, hb, -, hseparate, hfresh, -⟩ := split_eq_ok_iff.mp hs
  have hid := (hg.fits hb).id_eq
  obtain ⟨old, hold, hkept⟩ := exists_kept_separate hb hid (moved b s (place g.blocks.size))
  obtain ⟨new, hnew, hadded⟩ := exists_added_separate hb hid (moved b s (place g.blocks.size))
  rw [hseparate, hfresh]
  refine ⟨b, old, new, hb, hold, hnew, fun o => ?_, fun o => ?_, fun o => ?_⟩
  · rw [hadded, mem_moved]
  · rw [hkept, hadded]
    simp
  · rw [hadded]
    exact hg.toGrouped.parentOf_separate hb (fun o ho => (mem_moved.mp ho).1) o

theorem Coherent.exists_halves (hg : g.Coherent) (hs : g.split s place = .ok (h, fresh)) :
    ∃ b old new, Halves g h s place fresh b old new := by
  have hh := hg.split hs
  have hframe := hg.toGrouped.parentOf_split hs
  obtain ⟨b, old, new, hb, hold, hnew, hmem_new, hmem_old, hparent⟩ :=
    hg.exists_members_of_split hs
  obtain ⟨c, hc, hlegal, hseparate, hfresh, -⟩ := split_eq_ok_iff.mp hs
  have hsame : c = b := Option.some.inj (hc.symm.trans hb)
  rw [hsame] at hlegal hseparate
  have hgone : ∀ o ∈ new.members, g.parentOf o = some s.block :=
    fun o ho => (hg.toGrouped.mem_iff hb).mp ((hmem_new o).mp ho).1
  have hdisjoint : ∀ o ∈ old.members, o ∉ new.members := fun o ho => ((hmem_old o).mp ho).2
  refine ⟨b, old, new, ?_⟩
  constructor
  case before => exact hb
  case kept => exact hold
  case added => exact hnew
  case keep_subset =>
    intro o ho
    refine (hmem_old o).mpr ⟨hlegal.keep_subset o ho, fun hm => ?_⟩
    rcases ((hmem_new o).mp hm).2 with he | hopen
    · exact hlegal.disjoint o ho he
    · exact hopen.1 ho
  case extract_subset =>
    intro o ho
    exact (hmem_new o).mpr ⟨hlegal.extract_subset o ho, Or.inl ho⟩
  case disjoint => exact hdisjoint
  case perm =>
    have hnodup : (old.members ++ new.members).Nodup :=
      List.Nodup.append (hh.fits hold).sorted.nodup (hh.fits hnew).sorted.nodup hdisjoint
    refine (List.perm_ext_iff_of_nodup hnodup (hg.fits hb).sorted.nodup).mpr fun o => ?_
    rw [List.mem_append, hmem_old]
    by_cases hm : o ∈ new.members
    · exact iff_of_true (Or.inr hm) ((hmem_new o).mp hm).1
    · simp [hm]
  case placed =>
    intro o ho hk he
    rw [hmem_new]
    simp [ho, hk, he]
  case nonempty => exact ⟨(hh.fits hold).nonempty, (hh.fits hnew).nonempty⟩
  case parent_ne_iff =>
    intro o
    rw [hparent]
    by_cases hm : o ∈ new.members
    · have hne : fresh ≠ s.block := hfresh ▸ (Nat.ne_of_lt (lt_size_of_block? hb)).symm
      rw [if_pos hm, hgone o hm]
      simp [hm, hne]
    · simp [hm]
  case parent =>
    intro o ho
    exact ⟨hgone o ho, by rw [hparent, if_pos ho]⟩
  case tells => exact ⟨hh.toGrouped.tells hold, hh.toGrouped.tells hnew⟩
  case others =>
    intro i hi hne
    rw [hseparate]
    exact block?_separate hb (hg.fits hb).id_eq _ hi (hfresh ▸ hne)
  case frame => exact ⟨hframe.1, hframe.2.1, hframe.2.2.1, by rw [hseparate]; rfl⟩

/-- In an abstraction that has been reached and is not strict, a request is refused exactly if
it makes no sense, whatever the placement, and nothing but the request decides that. Otherwise
the split makes halves of the block. The number of the new one has never been used: whatever
the history of the abstraction was, none of the abstractions in it had a block of that
number. -/
theorem split_exact (hr : Reached traces grouping false removed g) (s : Split)
    (place : Placement) :
    (∃ first, ofTraces traces grouping false = .ok first ∧ ReflTransGen Step first g) ∧
    (∀ cause, g.split s place = .error cause ↔ g.checkSplit s = .error cause) ∧
    ((∃ cause, g.split s place = .error cause) ↔ g.Unmet s) ∧
    ∀ h fresh, g.split s place = .ok (h, fresh) →
      (∀ earlier, ReflTransGen Step earlier g → earlier.block? fresh = none) ∧
      h.size = g.size + 1 ∧ ∃ b old new, Halves g h s place fresh b old new := by
  have hg := hr.coherent
  have herror := split_eq_error_iff hr.strict_eq s place
  refine ⟨hr.exists_start, herror, ?_, fun h fresh hs => ?_⟩
  · simp only [herror]
    exact checkSplit_eq_error_iff
  · exact ⟨fun _ hsteps => block?_fresh_eq_none hsteps hs, (hg.addsBlock_of_split hs).size_eq,
      hg.exists_halves hs⟩

/-- Nothing is said about the observation between the two pieces of work, which is placed with
the end. -/
theorem split_exact_workTwice : ∃ g h fresh b old new,
    ofTraces [workTwice] .queueTops false = .ok g ∧
    (∃ cause, g.split ⟨0, [], [2]⟩ (fun _ _ => true) = .error cause) ∧
    g.split ⟨0, [0], [2]⟩ (fun _ _ => true) = .ok (h, fresh) ∧ h.size = g.size + 1 ∧
    Halves g h ⟨0, [0], [2]⟩ (fun _ _ => true) fresh b old new ∧ 1 ∈ new.members := by
  have hstart : ofTraces [workTwice] .queueTops false =
      .ok (assemble workTwice [workTwice] .queueTops false) := rfl
  have hmembers : ((assemble workTwice [workTwice] .queueTops false).block? 0).map (·.members) =
      some [0, 1, 2] := by decide +kernel
  obtain ⟨⟨h, fresh⟩, hsplit⟩ := Checks.exists_eq_ok (show Except.isOk
    ((assemble workTwice [workTwice] .queueTops false).split ⟨0, [0], [2]⟩
      fun _ _ => true) = true by decide +kernel)
  obtain ⟨-, -, hrefused, -⟩ := split_exact (.start hstart) ⟨0, [], [2]⟩ fun _ _ => true
  obtain ⟨-, -, -, hmet⟩ := split_exact (.start hstart) ⟨0, [0], [2]⟩ fun _ _ => true
  obtain ⟨-, hsize, b, old, new, hhalves⟩ := hmet h fresh hsplit
  rw [hhalves.before] at hmembers
  injection hmembers with hmembers
  have hbetween : 1 ∈ b.members := by
    rw [show b.members = _ from hmembers]
    decide
  exact ⟨_, h, fresh, b, old, new, hstart, hrefused.mpr (.emptyKeep rfl), hsplit, hsize, hhalves,
    (hhalves.placed 1 hbetween (by decide) (by decide)).mpr rfl⟩

end ProtocolInference.Abstraction
