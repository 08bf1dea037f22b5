import ProtocolInference.Proofs.Abstraction.Realizing

/-!
# The splits that exclude a path

Runs of observations follow a path of blocks as far as their edges lead into its blocks. A
split keeps those at which runs end and extracts others. Where no run goes on, it extracts
those that could go on. At the end of a path along all events it extracts those that are
accepting, and in a path along the first events those at which no run ends. Kept and
extracted observations have nothing in common, so the split is legal if there are some of
both. Only the split at the end of a path along all events may lack them: it needs an
observation that begins the path and one that may end it, and there is none of them if the
first block is not initial or the last one is not accepting.
-/

namespace ProtocolInference.Abstraction

variable {g : Abstraction} {p : BlockPath} {i o id : Nat} {ids last : List Nat} {b : Block}
  {s : Split}

/-! ### Requests that are met and requests that are not -/

/-- The request fulfils what a split demands of it. -/
def Permits (g : Abstraction) (s : Split) : Prop :=
  ∃ b, g.block? s.block = some b ∧ s.Legal b

theorem split_eq_emptyKeep (hb : g.block? s.block = some b) (hk : s.keep = [])
    (place : Placement) : g.split s place = .error (.emptyKeep s.block) := by
  unfold split checkSplit
  rw [block_eq_ok_iff.mpr hb, hk]
  rfl

theorem split_eq_emptyExtract (hb : g.block? s.block = some b) (hk : s.keep ≠ [])
    (he : s.extract = []) (place : Placement) :
    g.split s place = .error (.emptyExtract s.block) := by
  unfold split checkSplit
  cases hkeep : s.keep with
  | nil => exact absurd hkeep hk
  | cons o keep =>
    rw [block_eq_ok_iff.mpr hb, he]
    rfl

/-- The split of the block at the given place keeps the observations at which runs end there
and extracts those with the property. -/
structure Divides (g : Abstraction) (p : BlockPath) (i : Nat) (extracted : Nat → Prop)
    (s : Split) : Prop where
  block : p.blocks[i]? = some s.block
  keep : Lists s.keep (g.Arrives p i)
  extract : Lists s.extract extracted

/-- A split of observations that lie in the block is legal if no run ends at those that it
extracts. -/
theorem Divides.permits {extracted : Nat → Prop} (h : g.Divides p i extracted s)
    (hk : s.keep ≠ []) (he : s.extract ≠ [])
    (hall : ∀ o, extracted o → g.Inside p.blocks i o ∧ ¬g.Arrives p i o) : g.Permits s := by
  obtain ⟨a, ha⟩ := h.keep.ne_nil_iff.mp hk
  obtain ⟨q, b, hq, hb, -⟩ := ha.inside
  have hsame : q = s.block := Option.some.inj (hq.symm.trans h.block)
  rw [hsame] at hq hb
  refine ⟨b, hb, hk, he, fun o ho hm => ?_, fun o ho => ?_, fun o ho => ?_⟩
  · exact (hall o ((h.extract.mem_iff o).mp hm)).2 ((h.keep.mem_iff o).mp ho)
  · exact (inside_iff hq hb).mp ((h.keep.mem_iff o).mp ho).inside
  · exact (inside_iff hq hb).mp (hall o ((h.extract.mem_iff o).mp ho)).1

/-! ### The split where no run goes on -/

/-- The observation lies in the block at the given place and has an edge on the event there
into the next block. -/
def Departs (g : Abstraction) (p : BlockPath) (i o : Nat) : Prop :=
  g.Inside p.blocks i o ∧
    ∃ e t, p.events[i]? = some e ∧ (e, t) ∈ g.edges o ∧ g.Inside p.blocks (i + 1) t

/-- The split is offered if both of its sets have members. -/
def offer (s : Split) : Option Split :=
  if s.keep.isEmpty || s.extract.isEmpty then none else some s

theorem offer_eq_some_iff {s' : Split} :
    offer s = some s' ↔ s = s' ∧ s.keep ≠ [] ∧ s.extract ≠ [] := by
  rw [offer, Option.ite_none_left_eq_some, Option.some.injEq, Bool.or_eq_true,
    List.isEmpty_iff, List.isEmpty_iff, not_or, and_comm]

/-- Runs come as far as the given place and no farther, and the split is the one made there. -/
structure Stops (g : Abstraction) (p : BlockPath) (i : Nat) (s : Split) : Prop where
  none_after : ∀ o, ¬g.Arrives p (i + 1) o
  divides : g.Divides p i (g.Departs p i) s
  start_of_nil : s.keep = [] → i = 0

theorem Stops.not_arrives_of_departs (h : g.Stops p i s) (ho : g.Departs p i o) :
    ¬g.Arrives p i o := by
  intro harrives
  obtain ⟨-, e, t, he, hedge, ht⟩ := ho
  exact h.none_after t (arrives_succ_iff.mpr ⟨o, e, harrives, he, hedge, ht⟩)

theorem Stops.permits (h : g.Stops p i s) (hk : s.keep ≠ []) (he : s.extract ≠ []) :
    g.Permits s :=
  h.divides.permits hk he fun _ ho => ⟨ho.1, h.not_arrives_of_departs ho⟩

theorem Spans.splitAt (hg : g.Grouped) (hp : g.Spans p id ids) (hi : i < ids.length)
    (hlast : g.Gathers p i last) : ∃ s, g.splitAt p i last = .ok (offer s) ∧
      g.Divides p i (g.Departs p i) s ∧ s.keep = last := by
  obtain ⟨q, c, hq, hc⟩ := hp.exists_at hi.le
  obtain ⟨j, d, hj, hd⟩ := hp.exists_at (Nat.succ_le_of_lt hi)
  let extract := c.members.filter fun o =>
    (g.edges o).any fun x => p.events[i]? == some x.1 && d.members.contains x.2
  refine ⟨⟨q, last, extract⟩, ?_, ⟨hq, hlast.toLists, ?_, fun o => ?_⟩, rfl⟩
  · unfold Abstraction.splitAt
    rw [hq, hj, Option.getD_some, Option.getD_some]
    dsimp only
    rw [block_eq_ok_iff.mpr hc, block_eq_ok_iff.mpr hd]
    rfl
  · exact (hg.fits hc).sorted.sublist List.filter_sublist
  · simp only [extract, List.mem_filter, List.any_eq_true, Bool.and_eq_true, beq_iff_eq,
      List.contains_iff_mem, Departs, inside_iff hq hc, inside_iff hj hd, Prod.exists]
    refine and_congr_right fun _ => exists_congr fun e => exists_congr fun t => ?_
    tauto

theorem Spans.resolve_stuck (hg : g.Grouped) (hp : g.Spans p id ids) (hi : i < ids.length)
    (hwalk : g.walk p = .ok (.stuck i last)) (hlast : g.Gathers p i last)
    (hnone : ∀ o, ¬g.Arrives p (i + 1) o) : ∃ s, g.Stops p i s ∧
      g.resolveComplete p = .ok (offer s) ∧ g.resolvePartial p = .ok (offer s) := by
  obtain ⟨s, hsplit, hdivides, hkeep⟩ := hp.splitAt hg hi hlast
  refine ⟨s, ⟨hnone, hdivides, fun hk => hlast.start_of_nil (hkeep ▸ hk)⟩, ?_, ?_⟩
  · unfold Abstraction.resolveComplete
    rw [hwalk]
    exact hsplit
  · unfold Abstraction.resolvePartial
    rw [hwalk]
    exact hsplit

/-! ### The split at the end of all events -/

/-- The observation lies in the block at the given place and is accepting. -/
def Finishes (g : Abstraction) (p : BlockPath) (i o : Nat) : Prop :=
  g.Inside p.blocks i o ∧ ∃ x, g.observation? o = some x ∧ x.isAccept = true

theorem Spans.resolve_realized (hg : g.Grouped) (hp : g.Spans p id ids)
    {all : List (List Nat)} (hwalk : g.walk p = .ok (.realized all))
    (hlength : all.length = ids.length + 1) (hall : ∀ i r, all[i]? = some r → g.Gathers p i r) :
    (g.resolveComplete p = .ok none ∧
      ∃ o, g.Arrives p ids.length o ∧ g.Finishes p ids.length o) ∨
    ∃ s, g.resolveComplete p = .ok (some s) ∧
      g.Divides p ids.length (g.Finishes p ids.length) s ∧
      (∀ o, g.Arrives p ids.length o → ¬g.Finishes p ids.length o) ∧
      (s.keep = [] → ids.length = 0) := by
  obtain ⟨q, c, hq, hc⟩ := hp.exists_at le_rfl
  have hlt : ids.length < all.length := by omega
  have hends : all[ids.length]? = some all[ids.length] := List.getElem?_eq_getElem hlt
  have hgathers := hall _ _ hends
  let accepting (o : Nat) : Bool := (g.observation? o).any (·.isAccept)
  have haccepting : ∀ o, accepting o = true ↔
      ∃ x, g.observation? o = some x ∧ x.isAccept = true := fun o => Option.any_eq_true ..
  have hreached : all.getLastD [] = all[ids.length] := by
    rw [List.getLastD_eq_getLast?, List.getLast?_eq_getElem?, hlength, Nat.add_sub_cancel, hends,
      Option.getD_some]
  have hlast : p.blocks.getLastD 0 = q := by
    rw [List.getLastD_eq_getLast?, List.getLast?_eq_getElem?, hp.length_blocks,
      Nat.add_sub_cancel, hq, Option.getD_some]
  have hresolve : g.resolveComplete p = .ok (if all[ids.length].any accepting then none
      else some ⟨q, all[ids.length], c.members.filter accepting⟩) := by
    unfold Abstraction.resolveComplete
    rw [hwalk]
    show (if (all.getLastD []).any accepting then _ else _) = _
    rw [hreached, hlast, block_eq_ok_iff.mpr hc]
    split <;> rfl
  rw [hresolve]
  by_cases hany : all[ids.length].any accepting = true
  · left
    obtain ⟨o, ho, hacc⟩ := List.any_eq_true.mp hany
    have harrives := (hgathers.mem_iff o).mp ho
    exact ⟨by rw [if_pos hany], o, harrives, harrives.inside, (haccepting o).mp hacc⟩
  · right
    refine ⟨_, by rw [if_neg hany], ⟨hq, hgathers.toLists, ?_, fun o => ?_⟩,
      fun o ho hfinishes => hany ?_, hgathers.start_of_nil⟩
    · exact (hg.fits hc).sorted.sublist List.filter_sublist
    · rw [mem_filter_iff, Finishes, inside_iff hq hc]
    · exact List.any_eq_true.mpr
        ⟨o, (hgathers.mem_iff o).mpr ho, (haccepting o).mpr hfinishes.2⟩

/-- Why the split at the end of a path fails: nothing begins the path, or nothing ends it. -/
inductive Overtaken (g : Abstraction) (p : BlockPath) : Fault → Prop where
  | noStart {id : Nat} {b : Block} : p.blocks = [id] → g.block? id = some b →
      ¬g.SomeMember b (·.isInitial) → Overtaken g p (.emptyKeep id)
  | noEnd {id : Nat} {b : Block} : p.blocks.getLast? = some id → g.block? id = some b →
      ¬g.SomeMember b (·.isAccept) → Overtaken g p (.emptyExtract id)

theorem exists_arrives_zero (hq : p.blocks[0]? = some id) (hb : g.block? id = some b)
    (h : g.SomeMember b (·.isInitial)) : ∃ o, g.Arrives p 0 o := by
  obtain ⟨o, ho, x, hx, hinit⟩ := h
  exact ⟨o, arrives_zero_iff.mpr ⟨(inside_iff hq hb).mpr ho, x, hx, hinit⟩⟩

theorem exists_finishes (hq : p.blocks[i]? = some id) (hb : g.block? id = some b)
    (h : g.SomeMember b (·.isAccept)) : ∃ o, g.Finishes p i o := by
  obtain ⟨o, ho, x, hx, hacc⟩ := h
  exact ⟨o, (inside_iff hq hb).mpr ho, x, hx, hacc⟩

/-- The split for a path along all events is legal, or fails for one of two reasons. -/
theorem Spans.resolveComplete (hg : g.Grouped) (hp : g.Spans p id ids) :
    ∃ x, g.resolveComplete p = .ok x ∧ ∀ s, x = some s →
      g.Permits s ∨ ∃ cause, g.Overtaken p cause ∧ ∀ place, g.split s place = .error cause := by
  rcases hp.walk hg with ⟨i, last, hwalk, hi, hlast, hnone⟩ | ⟨all, hwalk, hlength, hall⟩
  · obtain ⟨s, hstops, hresolve, -⟩ := hp.resolve_stuck hg hi hwalk hlast hnone
    refine ⟨_, hresolve, fun s' hs => ?_⟩
    obtain ⟨hsame, hk, he⟩ := offer_eq_some_iff.mp hs
    subst hsame
    exact Or.inl (hstops.permits hk he)
  rcases hp.resolve_realized hg hwalk hlength hall with ⟨hresolve, -⟩ |
    ⟨s, hresolve, hdivides, hapart, hstart⟩
  · refine ⟨none, hresolve, fun s hs => ?_⟩
    cases hs
  · refine ⟨some s, hresolve, fun s' hs => ?_⟩
    injection hs with hs
    subst hs
    obtain ⟨q, c, hq, hc⟩ := hp.exists_at le_rfl
    have hsame : q = s.block := Option.some.inj (hq.symm.trans hdivides.block)
    subst hsame
    by_cases hk : s.keep = []
    · -- Nothing has been reached, so the path has no event and nothing begins it.
      right
      have hids : ids = [] := List.length_eq_zero_iff.mp (hstart hk)
      have hblocks : p.blocks = [s.block] := by
        rw [hids, List.length_nil, hp.blocks_eq, List.getElem?_cons_zero] at hq
        injection hq with hq
        rw [hp.blocks_eq, hids, hq]
      refine ⟨_, .noStart hblocks hc fun hsome => ?_, split_eq_emptyKeep hc hk⟩
      obtain ⟨o, ho⟩ := exists_arrives_zero (hstart hk ▸ hq) hc hsome
      exact hdivides.keep.ne_nil_iff.mpr ⟨o, hstart hk ▸ ho⟩ hk
    by_cases he : s.extract = []
    · right
      have hlast : p.blocks.getLast? = some s.block := by
        rw [List.getLast?_eq_getElem?, hp.length_blocks, Nat.add_sub_cancel, hq]
      refine ⟨_, .noEnd hlast hc fun hsome => ?_, split_eq_emptyExtract hc hk he⟩
      exact hdivides.extract.ne_nil_iff.mpr (exists_finishes hq hc hsome) he
    · left
      exact hdivides.permits hk he fun o ho => ⟨ho.1, fun harrives => hapart o harrives ho⟩

/-! ### The split in a path along the first events -/

/-- The observation lies in the block at the given place, and no run ends at it there. -/
def Strays (g : Abstraction) (p : BlockPath) (i o : Nat) : Prop :=
  g.Inside p.blocks i o ∧ ¬g.Arrives p i o

theorem length_lt_iff {xs ys : List Nat} (hx : xs.Nodup) (hy : ys.Nodup)
    (hsub : xs ⊆ ys) : xs.length < ys.length ↔ ∃ o ∈ ys, o ∉ xs := by
  constructor
  · intro hlt
    by_contra hnone
    have hback : ys ⊆ xs := fun o ho => by_contra fun hn => hnone ⟨o, ho, hn⟩
    have hle := (List.subperm_of_subset hy hback).length_le
    omega
  · intro hsome
    obtain ⟨o, ho, hn⟩ := hsome
    have hsubperm := List.subperm_of_subset hx hsub
    refine Nat.lt_of_le_of_ne hsubperm.length_le fun heq => hn ?_
    exact (hsubperm.perm_of_length_le heq.ge).mem_iff.mpr ho

/-- The block that is split is the last one in which observations stray. -/
theorem Grouped.lastMixed (hg : g.Grouped) {k : Nat} {pairs : List (Nat × List Nat)}
    (hpairs : ∀ m q r, pairs[m]? = some (q, r) → p.blocks[k + m]? = some q ∧
      (∃ b, g.block? q = some b) ∧ g.Gathers p (k + m) r) :
    (g.lastMixed pairs = .ok none ∧ ∀ m < pairs.length, ∀ o, ¬g.Strays p (k + m) o) ∨
    ∃ m s, g.lastMixed pairs = .ok (some s) ∧ m < pairs.length ∧
      g.Divides p (k + m) (g.Strays p (k + m)) s ∧ s.extract ≠ [] ∧
      ∀ n < pairs.length, m < n → ∀ o, ¬g.Strays p (k + n) o := by
  induction pairs generalizing k with
  | nil => exact Or.inl ⟨rfl, fun m hm => absurd hm (Nat.not_lt_zero m)⟩
  | cons x pairs ih =>
    obtain ⟨q, reached⟩ := x
    obtain ⟨hq, ⟨b, hb⟩, hgathers⟩ := hpairs 0 q reached rfl
    rw [Nat.add_zero] at hq hgathers
    have hrest := ih (k := k + 1) fun m q r h => by
      rw [Nat.add_right_comm k 1 m]
      exact hpairs (m + 1) q r h
    have hnext : ∀ m, k + 1 + m = k + (m + 1) := fun m => by omega
    unfold Abstraction.lastMixed
    rcases hrest with ⟨hnone, hall⟩ | ⟨m, s, hsome, hm, hdivides, hextract, hafter⟩
    · have hlater : ∀ n < pairs.length + 1, 0 < n → ∀ o, ¬g.Strays p (k + n) o := by
        intro n hn hpos
        obtain ⟨n, rfl⟩ := Nat.exists_eq_succ_of_ne_zero hpos.ne'
        rw [← hnext]
        exact hall n (Nat.lt_of_succ_lt_succ hn)
      have hsub : reached ⊆ b.members :=
        fun o ho => (inside_iff hq hb).mp ((hgathers.mem_iff o).mp ho).inside
      have hmixed := length_lt_iff hgathers.sorted.nodup (hg.fits hb).sorted.nodup hsub
      have hstrays : ∀ o, g.Strays p k o ↔ o ∈ b.members ∧ o ∉ reached := fun o => by
        rw [Strays, inside_iff hq hb, hgathers.mem_iff]
      rw [hnone]
      show ((g.block q >>= fun b => _) = _ ∧ _) ∨ ∃ m s, (g.block q >>= fun b => _) = _ ∧ _
      rw [block_eq_ok_iff.mpr hb]
      by_cases hless : reached.length < b.size
      · right
        obtain ⟨o, ho, hn⟩ := hmixed.mp hless
        have hextract : Lists (b.members.filter fun o => !reached.contains o)
            (g.Strays p k) := by
          refine ⟨(hg.fits hb).sorted.sublist List.filter_sublist, fun o => ?_⟩
          rw [hstrays, List.mem_filter, Bool.not_eq_true', ← Bool.not_eq_true,
            List.contains_iff_mem]
        exact ⟨0, ⟨q, reached, _⟩, if_pos hless, Nat.succ_pos _,
          ⟨hq, hgathers.toLists, hextract⟩,
          hextract.ne_nil_iff.mpr ⟨o, (hstrays o).mpr ⟨ho, hn⟩⟩, hlater⟩
      · left
        refine ⟨if_neg hless, fun m hm o ho => ?_⟩
        rcases Nat.eq_zero_or_pos m with hzero | hpos
        · rw [hzero, Nat.add_zero, hstrays] at ho
          exact hless (hmixed.mpr ⟨o, ho⟩)
        · exact hlater m hm hpos o ho
    · right
      rw [hsome]
      rw [hnext] at hdivides
      refine ⟨m + 1, s, rfl, Nat.succ_lt_succ hm, hdivides, hextract, fun n hn hlt => ?_⟩
      obtain ⟨n, rfl⟩ := Nat.exists_eq_succ_of_ne_zero (Nat.ne_zero_of_lt hlt)
      rw [← hnext]
      exact hafter n (Nat.lt_of_succ_lt_succ hn) (Nat.lt_of_succ_lt_succ hlt)

theorem Spans.resolve_mixed (hg : g.Grouped) (hp : g.Spans p id ids)
    {all : List (List Nat)} (hwalk : g.walk p = .ok (.realized all))
    (hlength : all.length = ids.length + 1) (hall : ∀ i r, all[i]? = some r → g.Gathers p i r) :
    (g.resolvePartial p = .ok none ∧ ∀ i ≤ ids.length, ∀ o, ¬g.Strays p i o) ∨
    ∃ i s, g.resolvePartial p = .ok (some s) ∧ i ≤ ids.length ∧
      g.Divides p i (g.Strays p i) s ∧ (s.keep = [] → i = 0) ∧ s.extract ≠ [] ∧
      ∀ j ≤ ids.length, i < j → ∀ o, ¬g.Strays p j o := by
  have hpairs : ∀ m q r, (p.blocks.zip all)[m]? = some (q, r) → p.blocks[0 + m]? = some q ∧
      (∃ b, g.block? q = some b) ∧ g.Gathers p (0 + m) r := by
    intro m q r h
    obtain ⟨hq, hr⟩ := List.getElem?_zip_eq_some.mp h
    rw [Nat.zero_add]
    exact ⟨hq, hp.exists_block q (List.mem_of_getElem? hq), hall m r hr⟩
  have hsize : (p.blocks.zip all).length = ids.length + 1 := by
    rw [List.length_zip, hp.length_blocks, hlength, Nat.min_self]
  have hresolve : g.resolvePartial p = g.lastMixed (p.blocks.zip all) := by
    unfold Abstraction.resolvePartial
    rw [hwalk]
    rfl
  have hspec := hg.lastMixed hpairs
  simp only [Nat.zero_add, hsize, Nat.lt_succ_iff] at hspec
  rw [hresolve]
  rcases hspec with hnone | ⟨i, s, hsome, hi, hdivides, hextract, hafter⟩
  · exact Or.inl hnone
  · right
    refine ⟨i, s, hsome, hi, hdivides, fun hk => ?_, hextract, hafter⟩
    have hlt : i < all.length := by omega
    have hgathers := hall i all[i] (List.getElem?_eq_getElem hlt)
    refine hgathers.start_of_nil (by_contra fun hne => ?_)
    exact hdivides.keep.ne_nil_iff.mpr (hgathers.ne_nil_iff.mp hne) hk

/-! ### A first event that nothing has -/

theorem Grouped.resolveNoMatch (hg : g.Grouped) {e : Event} {s : Split}
    (h : g.resolveNoMatch e = some s) : g.Permits s := by
  obtain ⟨b, hb, hs⟩ := List.exists_of_findSome?_eq_some h
  obtain ⟨i, hi⟩ := mem_live.mp (List.mem_of_mem_filter hb)
  rw [List.partition_eq_filter_filter] at hs
  dsimp only at hs
  split at hs
  · cases hs
  · rename_i hne
    rw [Bool.or_eq_true, List.isEmpty_iff, List.isEmpty_iff, not_or] at hne
    injection hs with hs
    subst hs
    refine ⟨b, (hg.fits hi).id_eq ▸ hi, hne.1, hne.2, ?_, fun o ho => (List.mem_filter.mp ho).1,
      fun o ho => (List.mem_filter.mp ho).1⟩
    intro o ho hm
    have hnot := (List.mem_filter.mp ho).2
    rw [Function.comp_apply, (List.mem_filter.mp hm).2] at hnot
    cases hnot

/-! ### Paths that the abstraction has -/

/-- Something begins the path, and something departs from each of its blocks but the last. -/
structure Current (g : Abstraction) (p : BlockPath) (id : Nat) (ids : List Nat) : Prop
    extends Spans g p id ids where
  start : ∃ o, g.Arrives p 0 o
  departs : ∀ i < ids.length, ∃ o, g.Departs p i o

theorem Coherent.current_of_follows (hg : g.Coherent) (h : g.Follows p.events p.blocks) :
    ∃ id ids, g.Current p id ids := by
  obtain ⟨id, c, hhead, hc, hinit⟩ := h.starts
  obtain ⟨ids, hblocks⟩ := List.head?_eq_some_iff.mp hhead
  have hle := h.length_le
  rw [hblocks, List.length_cons] at hle
  have hspans : g.Spans p id ids := ⟨hblocks, Nat.le_of_succ_le_succ hle, hg.live_of_follows h⟩
  have hfirst : p.blocks[0]? = some id := by rw [← List.head?_eq_getElem?, hhead]
  refine ⟨id, ids, hspans, ?_, fun i hi => ?_⟩
  · exact exists_arrives_zero hfirst hc ((hg.toGrouped.flags_iff hc).1.mp hinit)
  · obtain ⟨q, -, hq, -⟩ := hspans.exists_at hi.le
    obtain ⟨r, -, hr, -⟩ := hspans.exists_at (Nat.succ_le_of_lt hi)
    obtain ⟨e, he, hnext⟩ := h.connected i q r hq hr
    obtain ⟨o, t, ho, hedge, ht⟩ := hg.mem_next_iff.mp hnext
    refine ⟨o, hg.toGrouped.inside_iff_parentOf.mpr ⟨q, hq, ho⟩, e, t, he, hedge, ?_⟩
    exact hg.toGrouped.inside_iff_parentOf.mpr ⟨r, hr, ht⟩

theorem Coherent.longestPath (hg : g.Coherent) {es : List Event}
    (h : g.longestPath? es = some p) : p.events = es ∧ ∃ id ids, g.Current p id ids := by
  obtain ⟨hevents, -, -, hfollows⟩ := hg.toGrouped.longestPath_spec h
  subst hevents
  exact ⟨rfl, hg.current_of_follows hfollows⟩

/-- A complete path ends where something is accepting. -/
theorem Coherent.completePaths (hg : g.Coherent) {es : List Event}
    (h : p ∈ g.completePaths es) : p.events = es ∧ ∃ id ids, g.Current p id ids ∧
      ids.length = es.length ∧ ∃ o, g.Finishes p ids.length o := by
  obtain ⟨hevents, hfollows⟩ := hg.toGrouped.mem_completePaths_iff.mp h
  subst hevents
  obtain ⟨id, ids, hcurrent⟩ := hg.current_of_follows hfollows.toFollows
  obtain ⟨q, d, hlast, hd, hacc⟩ := hfollows.ends
  have hlength : ids.length = p.events.length := by
    have hsucc := hcurrent.length_blocks.symm.trans hfollows.length_eq
    omega
  rw [List.getLast?_eq_getElem?, hcurrent.length_blocks, Nat.add_sub_cancel] at hlast
  exact ⟨rfl, id, ids, hcurrent, hlength,
    exists_finishes hlast hd ((hg.toGrouped.flags_iff hd).2.1.mp hacc)⟩

theorem Current.not_overtaken (hp : g.Current p id ids) (hend : ∃ o, g.Finishes p ids.length o)
    (cause : Fault) : ¬g.Overtaken p cause := by
  intro hover
  cases hover with
  | noStart hblocks hb hnot =>
    obtain ⟨o, ho⟩ := hp.start
    obtain ⟨hin, x, hx, hinit⟩ := arrives_zero_iff.mp ho
    rw [inside_iff (by rw [hblocks]; rfl) hb] at hin
    exact hnot ⟨o, hin, x, hx, hinit⟩
  | noEnd hlast hb hnot =>
    obtain ⟨o, hin, x, hx, hacc⟩ := hend
    rw [List.getLast?_eq_getElem?, hp.length_blocks, Nat.add_sub_cancel] at hlast
    rw [inside_iff hlast hb] at hin
    exact hnot ⟨o, hin, x, hx, hacc⟩

theorem Current.keep_ne_nil (hp : g.Current p id ids) {extracted : Nat → Prop}
    (hdivides : g.Divides p i extracted s) (hzero : s.keep = [] → i = 0) : s.keep ≠ [] := by
  intro hk
  have hne := hdivides.keep.ne_nil_iff.mpr
  rw [hzero hk] at hne
  exact hne hp.start hk

theorem Current.exists_arrives (hp : g.Current p id ids) {all : List (List Nat)}
    (hlength : all.length = ids.length + 1) (hall : ∀ i r, all[i]? = some r → g.Gathers p i r)
    (hi : i ≤ ids.length) : ∃ o, g.Arrives p i o := by
  have hgathers := hall i all[i] (List.getElem?_eq_getElem (by omega))
  by_cases hnil : all[i] = []
  · rw [hgathers.start_of_nil hnil]
    exact hp.start
  · exact hgathers.ne_nil_iff.mp hnil

theorem Current.sides_ne_nil (hp : g.Current p id ids) (hi : i < ids.length)
    (hs : g.Stops p i s) : s.keep ≠ [] ∧ s.extract ≠ [] :=
  ⟨hp.keep_ne_nil hs.divides hs.start_of_nil, hs.divides.extract.ne_nil_iff.mpr (hp.departs i hi)⟩

/-- Both resolutions give the split where runs stop, unless runs come to every block. -/
theorem Current.stops_or_realized (hg : g.Grouped) (hp : g.Current p id ids) :
    (∃ i s, i < ids.length ∧ g.Stops p i s ∧ g.resolveComplete p = .ok (some s) ∧
      g.resolvePartial p = .ok (some s)) ∨
    ∃ all, g.walk p = .ok (.realized all) ∧ all.length = ids.length + 1 ∧
      ∀ i r, all[i]? = some r → g.Gathers p i r := by
  rcases hp.walk hg with ⟨i, last, hwalk, hi, hlast, hnone⟩ | hrealized
  · left
    obtain ⟨s, hstops, hcomplete, hpartial⟩ := hp.resolve_stuck hg hi hwalk hlast hnone
    have hoffer : offer s = some s := offer_eq_some_iff.mpr ⟨rfl, hp.sides_ne_nil hi hstops⟩
    rw [hoffer] at hcomplete hpartial
    exact ⟨i, s, hi, hstops, hcomplete, hpartial⟩
  · exact Or.inr hrealized

/-- A complete path is resolved without a fault, and the split for it is legal. -/
theorem Coherent.resolveComplete (hg : g.Coherent) {es : List Event}
    (hp : p ∈ g.completePaths es) :
    ∃ x, g.resolveComplete p = .ok x ∧ ∀ s, x = some s → g.Permits s := by
  obtain ⟨-, id, ids, hcurrent, -, hend⟩ := hg.completePaths hp
  obtain ⟨x, hx, hlegal⟩ := hcurrent.resolveComplete hg.toGrouped
  refine ⟨x, hx, fun s hs => (hlegal s hs).resolve_right fun hfail => ?_⟩
  obtain ⟨cause, hover, -⟩ := hfail
  exact hcurrent.not_overtaken hend cause hover

/-- Working three times, where the end comes with the last event only. -/
def workThrice : BlockPath where
  events := [.internal "work" 0, .internal "work" 0, .internal "work" 0]
  blocks := [0, 0, 0, 1]

theorem workThrice_mem : workThrice ∈ endApart.completePaths workThrice.events := by
  decide +kernel

theorem resolveComplete_workThrice :
    endApart.resolveComplete workThrice = .ok (some ⟨0, [1], [0]⟩) := by
  decide +kernel

/-- The longest path is resolved without a fault, and the split for it is legal. -/
theorem Coherent.resolvePartial (hg : g.Coherent) {es : List Event}
    (hp : g.longestPath? es = some p) :
    ∃ x, g.resolvePartial p = .ok x ∧ ∀ s, x = some s → g.Permits s := by
  obtain ⟨-, id, ids, hcurrent⟩ := hg.longestPath hp
  rcases hcurrent.stops_or_realized hg.toGrouped with
    ⟨i, s, hi, hstops, -, hresolve⟩ | ⟨all, hwalk, hlength, hall⟩
  · refine ⟨some s, hresolve, fun s' hs => ?_⟩
    injection hs with hs
    subst hs
    obtain ⟨hk, he⟩ := hcurrent.sides_ne_nil hi hstops
    exact hstops.permits hk he
  rcases hcurrent.resolve_mixed hg.toGrouped hwalk hlength hall with ⟨hresolve, -⟩ |
    ⟨i, s, hresolve, -, hdivides, hzero, he, -⟩
  · refine ⟨none, hresolve, fun s hs => ?_⟩
    cases hs
  · refine ⟨some s, hresolve, fun s' hs => ?_⟩
    injection hs with hs
    subst hs
    exact hdivides.permits (hcurrent.keep_ne_nil hdivides hzero) he fun o ho => ho

end ProtocolInference.Abstraction
