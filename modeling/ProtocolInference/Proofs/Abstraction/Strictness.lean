import ProtocolInference.Proofs.Abstraction.Synthesis
import ProtocolInference.Proofs.Abstraction.Together
import ProtocolInference.Proofs.Text.Parts
import ProtocolInference.Proofs.Trace.Exactness

/-!
# Strict abstractions

A strict abstraction keeps observations of one trace together if their local states are the
same, and it refuses exactly the splits that would part such observations. The local states
of a recorded trace name the progress of every process, and no two of its observations have
the same progress, so there is nothing to keep together. For recordings the check never
fails, and a legal request to split a block is always met. Main statement:
`strict_keeps_together`.
-/

namespace ProtocolInference

theorem Interleaving.Unfolds.eq_of_locals {t : Trace} {channels : List Channel}
    {events : List (List Event)} {vectors : List (List Nat)}
    (h : Unfolds t channels events vectors) {i j : Nat} {x y : Observation}
    (hx : t.observation? i = some x) (hy : t.observation? j = some y)
    (hl : x.locals = y.locals) : i = j := by
  have hvector : ∀ {i x}, t.observation? i = some x → ∃ progress, vectors[i]? = some progress ∧
      progress.length = events.length ∧ Shows t channels events vectors i progress x := by
    intro i x hx
    have hlt : i < vectors.length := by
      rw [← h.size_eq]
      exact (List.getElem?_eq_some_iff.mp hx).1
    have hi := List.getElem?_eq_getElem hlt
    obtain ⟨o, ho, hshows⟩ := h.shows hi
    rw [hx] at ho
    injection ho with ho
    subst ho
    obtain ⟨es, q, hsched, -⟩ := (h.mem_iff _).mp (List.mem_of_getElem? hi)
    exact ⟨_, hi, hsched.length_eq, hshows⟩
  obtain ⟨k, hk, hklen, hkshows⟩ := hvector hx
  obtain ⟨l, hl', hllen, hlshows⟩ := hvector hy
  have hsame : k = l := by
    refine List.ext_getElem (hklen.trans hllen.symm) fun p hp hp' => ?_
    have hseq := List.getElem?_eq_getElem (show p < events.length from hklen ▸ hp)
    have h1 := hkshows.locals (List.getElem?_eq_getElem hp) hseq
    have h2 := hlshows.locals (List.getElem?_eq_getElem hp') hseq
    rw [← hl, h1] at h2
    injection h2 with h2
    injection h2 with hname
    exact Nat.repr_inj.mp hname
  rw [← hsame, ← hk] at hl'
  exact (List.getElem?_inj (List.getElem?_eq_some_iff.mp hk).1 h.nodup).mp hl'.symm

namespace Abstraction

/-- Observations of one trace with the same local states are the same. -/
def TellsApart (nodes : Array Node) : Prop :=
  ∀ {o p : Nat} {n m : Node}, nodes[o]? = some n → nodes[p]? = some m → n.trace = m.trace →
    n.observation.locals = m.observation.locals → o = p

/-! ### The strict check -/

theorem keepsTogether_of_tellsApart {g : Abstraction} (hg : TellsApart g.nodes) :
    g.KeepsTogether := by
  rintro o p ⟨n, m, hn, hm, htrace, hlocals⟩
  rw [hg hn hm htrace hlocals]

theorem checkTogether_eq_ok {g : Abstraction} (hg : TellsApart g.nodes)
    (observations : List Nat) : g.checkTogether observations = .ok () :=
  checkTogether_eq_ok_iff.mpr fun o _ p _ ha => keepsTogether_of_tellsApart hg o p ha

theorem exists_split_of_tellsApart {g : Abstraction} (ht : TellsApart g.nodes) {s : Split}
    {b : Block} (hb : g.block? s.block = some b) (hl : s.Legal b)
    (place : Placement) : ∃ h fresh, g.split s place = .ok (h, fresh) := by
  refine ⟨_, _, split_eq_ok_iff.mpr ⟨b, hb, hl, rfl, rfl, fun _ => ?_⟩⟩
  have hnodes : TellsApart (g.separate b (moved b s (place g.blocks.size))).nodes := ht
  exact checkTogether_eq_ok hnodes b.members

/-! ### Recorded traces -/

theorem getElem?_nodesOf {number offset i : Nat} {t : Trace} {n : Node}
    (h : (nodesOf number offset t)[i]? = some n) :
    n.trace = number ∧ t.observation? i = some n.observation := by
  rw [nodesOf, List.getElem?_map, List.getElem?_zipIdx, Option.map_map] at h
  obtain ⟨o, ho, hn⟩ := Option.map_eq_some_iff.mp h
  subst hn
  exact ⟨rfl, ho⟩

theorem tellsApart_outgoingFrom {traces : List Trace}
    (hall : ∀ t ∈ traces, ∀ {i j x y}, t.observation? i = some x → t.observation? j = some y →
      x.locals = y.locals → i = j) (number offset : Nat) :
    (∀ n ∈ outgoingFrom number offset traces, number ≤ n.trace) ∧
    ∀ {o p : Nat} {n m : Node}, (outgoingFrom number offset traces)[o]? = some n →
      (outgoingFrom number offset traces)[p]? = some m → n.trace = m.trace →
        n.observation.locals = m.observation.locals → o = p := by
  induction traces generalizing number offset with
  | nil =>
    refine ⟨fun n hn => absurd hn List.not_mem_nil, fun {o p n m} hn => ?_⟩
    cases hn
  | cons t traces ih =>
    obtain ⟨hle, hrest⟩ := ih (fun u hu => hall u (List.mem_cons_of_mem _ hu)) (number + 1)
      (offset + t.size)
    rw [outgoingFrom_cons]
    have hhere : ∀ {i : Nat} {n : Node}, (nodesOf number offset t)[i]? = some n → n.trace = number :=
      fun h => (getElem?_nodesOf h).1
    -- A node of this trace and one of a later trace differ in their traces.
    have hsides : ∀ {o : Nat} {n : Node}, (nodesOf number offset t ++
        outgoingFrom (number + 1) (offset + t.size) traces)[o]? = some n →
        (nodesOf number offset t)[o]? = some n ∧ n.trace = number ∨
        (nodesOf number offset t).length ≤ o ∧ number < n.trace ∧
          (outgoingFrom (number + 1) (offset + t.size) traces)[o - (nodesOf number offset
            t).length]? = some n := by
      intro o n hn
      by_cases ho : o < (nodesOf number offset t).length
      · rw [List.getElem?_append_left ho] at hn
        exact Or.inl ⟨hn, hhere hn⟩
      · rw [List.getElem?_append_right (Nat.not_lt.mp ho)] at hn
        exact Or.inr ⟨Nat.not_lt.mp ho, hle n (List.mem_of_getElem? hn), hn⟩
    constructor
    · intro n hn
      obtain ⟨o, ho⟩ := List.mem_iff_getElem?.mp hn
      rcases hsides ho with ⟨-, hnumber⟩ | ⟨-, hnumber, -⟩ <;> omega
    · intro o p n m hn hm htrace hlocals
      rcases hsides hn with ⟨hn, hnt⟩ | ⟨ho, hnt, hn⟩
      · rcases hsides hm with ⟨hm, -⟩ | ⟨-, hmt, -⟩
        · exact hall t (List.mem_cons_self ..) (getElem?_nodesOf hn).2 (getElem?_nodesOf hm).2
            hlocals
        · omega
      · rcases hsides hm with ⟨-, hmt⟩ | ⟨hp, -, hm⟩
        · omega
        · have hsame := hrest hn hm htrace hlocals
          omega

theorem tellsApart_of_ofSequences {traces : List Trace} {processes : Nat}
    {channels : List Channel}
    (hall : ∀ t ∈ traces, ∃ events, Trace.ofSequences processes channels events = .ok t) :
    TellsApart (withIncoming (outgoing traces)) := by
  intro o p n m hn hm htrace hlocals
  rw [getElem?_withIncoming] at hn hm
  obtain ⟨n', hn', hn⟩ := Option.map_eq_some_iff.mp hn
  obtain ⟨m', hm', hm⟩ := Option.map_eq_some_iff.mp hm
  subst hn hm
  refine (tellsApart_outgoingFrom (fun t ht => ?_) 0 0).2 hn' hm' htrace hlocals
  obtain ⟨events, hevents⟩ := hall t ht
  have hunfolds := Interleaving.unfolds_of_ofSequences hevents
  intro i j x y hx hy hl
  exact hunfolds.eq_of_locals hx hy hl

theorem tellsApart_of_build {r : Recording} {traces : List Trace} (hr : r.build = .ok traces) :
    TellsApart (withIncoming (outgoing traces)) :=
  tellsApart_of_ofSequences fun _ ht => (Recording.of_mem_build hr ht).1

theorem Reached.tellsApart {r : Recording} {traces : List Trace} {grouping : Grouping}
    {strict : Bool} {removed : List Block} {g : Abstraction} (hr : r.build = .ok traces)
    (h : Reached traces grouping strict removed g) : TellsApart g.nodes := by
  obtain ⟨-, -, -, hnodes, -, -⟩ := h.frame
  rw [hnodes]
  exact tellsApart_of_build hr

theorem Reached.processes_eq {r : Recording} {traces : List Trace} {grouping : Grouping}
    {strict : Bool} {removed : List Block} {g : Abstraction} (hr : r.build = .ok traces)
    (h : Reached traces grouping strict removed g) : g.processes = r.processes := by
  obtain ⟨first, hfirst, -, -, hproc, -⟩ := h.frame
  obtain ⟨⟨events, hevents⟩, -⟩ := Recording.of_mem_build hr hfirst
  rw [hproc, Interleaving.processes_of_ofSequences hevents]

theorem ne_nil_of_build {r : Recording} {traces : List Trace} (hr : r.build = .ok traces) :
    traces ≠ [] := by
  obtain ⟨⟨⟩, hvalid, hall⟩ := Checks.bind_eq_ok_iff.mp hr
  have hlength := (Checks.mapM_eq_ok_iff.mp (Checks.mapError_eq_ok_iff.mp hall)).length_eq
  intro hnil
  unfold Recording.validate at hvalid
  split at hvalid
  · cases hvalid
  · split at hvalid
    · cases hvalid
    · rename_i hnone
      rw [hnil, List.length_zipIdx, List.length_nil, List.length_eq_zero_iff] at hlength
      rw [hlength] at hnone
      exact hnone rfl

theorem exists_ofTraces_of_ofSequences {traces : List Trace} {processes : Nat}
    {channels : List Channel} (hne : traces ≠ [])
    (hall : ∀ t ∈ traces, ∃ events, Trace.ofSequences processes channels events = .ok t)
    (grouping : Grouping) (strict : Bool) : ∃ g, ofTraces traces grouping strict = .ok g := by
  have htopology : ∀ t ∈ traces, t.processes = processes ∧ t.channels = channels := by
    intro t ht
    obtain ⟨events, hevents⟩ := hall t ht
    exact ⟨Interleaving.processes_of_ofSequences hevents,
      (Interleaving.ofSequences_spec hevents).2.1⟩
  cases traces with
  | nil => exact absurd rfl hne
  | cons first rest =>
    refine ⟨_, ofTraces_eq_ok_iff.mpr ⟨first, rfl, fun t ht => ?_, rfl, fun _ => ?_⟩⟩
    · obtain ⟨hp, hc⟩ := htopology t ht
      obtain ⟨hp', hc'⟩ := htopology first (List.mem_cons_self ..)
      exact ⟨hp.trans hp'.symm, hc.trans hc'.symm⟩
    · exact checkTogether_eq_ok (tellsApart_of_ofSequences hall) _

theorem exists_ofTraces {r : Recording} {traces : List Trace} (hr : r.build = .ok traces)
    (grouping : Grouping) (strict : Bool) : ∃ g, ofTraces traces grouping strict = .ok g :=
  exists_ofTraces_of_ofSequences (ne_nil_of_build hr)
    (fun _ ht => (Recording.of_mem_build hr ht).1) grouping strict

theorem Reached.exists_network {r : Recording} {traces : List Trace} {grouping : Grouping}
    {strict : Bool} {g : Abstraction} (hr : r.build = .ok traces)
    (h : Reached traces grouping strict [] g) : ∃ n, g.network = .ok n := by
  have hall := Recording.closed_of_build hr
  exact ⟨_, h.coherent.network_eq_ok_iff.mpr ⟨rfl, fun pid hpid => h.exists_spells hall hpid⟩⟩

/-! ### When the check fails -/

theorem permits_of_split_eq_separated {g : Abstraction} {s : Split} {place : Placement}
    {o p : Nat} {x y : Option Nat} {state : String}
    (h : g.split s place = .error (.separated o p x y state)) :
    ∃ b, g.block? s.block = some b ∧ s.Legal b := by
  cases hcheck : g.checkSplit s with
  | ok b => exact ⟨b, checkSplit_eq_ok_iff.mp hcheck⟩
  | error f =>
    have hsame : g.split s place = .error f := by
      unfold split
      rw [hcheck]
      rfl
    rw [hsame] at h
    injection h with h
    subst h
    -- None of the faults of an illegal request is the one of the strict check.
    unfold checkSplit block at hcheck
    cases hb : g.block? s.block with
    | none =>
      rw [hb] at hcheck
      cases hcheck
    | some b =>
      simp only [hb, bind, Except.bind, pure, Except.pure, throw, throwThe,
        MonadExceptOf.throw] at hcheck
      repeat' split at hcheck
      all_goals cases hcheck

theorem Reached.split_eq_separated_iff {traces : List Trace} {grouping : Grouping}
    {removed : List Block} {g : Abstraction} (h : Reached traces grouping true removed g)
    {s : Split} {b : Block} (hb : g.block? s.block = some b) (hl : s.Legal b)
    (place : Placement) :
    (∃ o p x y state, g.split s place = .error (.separated o p x y state)) ↔
      ∃ o p, g.Alike o p ∧ o ∈ moved b s (place g.blocks.size) ∧ p ∈ b.members ∧
        p ∉ moved b s (place g.blocks.size) := by
  have hg := h.coherent.toGrouped
  have hsub : ∀ o ∈ moved b s (place g.blocks.size), o ∈ b.members :=
    fun o ho => (mem_moved.mp ho).1
  rw [← not_iff_not, ← hg.keepsTogether_separate_iff h.keepsTogether hb hsub,
    ← hg.together_separate_iff h.keepsTogether hb hsub, ← checkTogether_eq_ok_iff,
    split_eq_of_legal hb hl h.strict_eq]
  cases hcheck : (g.separate b (moved b s (place g.blocks.size))).checkTogether b.members with
  | ok _ =>
    refine iff_of_true ?_ rfl
    rintro ⟨o, p, x, y, state, heq⟩
    cases heq
  | error f =>
    obtain ⟨o, p, -, -, rfl⟩ := separated_of_checkFrom hcheck
    refine iff_of_false (fun hn => hn ⟨o, p, _, _, _, rfl⟩) fun heq => by cases heq

/-- In a strict abstraction observations of one trace with the same local states lie
together, whatever blocks have been split and removed. A legal request to split a block is
refused if and only if it would take one of two such observations out of the block and
leave the other. For recorded traces no request is refused for that. -/
theorem strict_keeps_together :
    (∀ traces grouping removed g, Reached traces grouping true removed g →
      (∀ o p, g.Alike o p → g.parentOf o = g.parentOf p) ∧
      ∀ (s : Split) b place, g.block? s.block = some b → s.Legal b →
        ((∃ o p x y state, g.split s place = .error (.separated o p x y state)) ↔
          ∃ o p, g.Alike o p ∧ o ∈ moved b s (place g.blocks.size) ∧ p ∈ b.members ∧
            p ∉ moved b s (place g.blocks.size)) ∧
        ((∃ h fresh, g.split s place = .ok (h, fresh)) ∨
          ∃ o p x y state, g.split s place = .error (.separated o p x y state))) ∧
    ∀ (r : Recording) traces grouping strict, r.build = .ok traces →
      (∃ g, ofTraces traces grouping strict = .ok g) ∧
      ∀ removed g, Reached traces grouping strict removed g → ∀ s place o p x y state,
        g.split s place ≠ .error (.separated o p x y state) := by
  refine ⟨fun traces grouping removed g h => ⟨h.keepsTogether, fun s b place hb hl =>
    ⟨h.split_eq_separated_iff hb hl place, ?_⟩⟩, fun r traces grouping strict hr =>
    ⟨exists_ofTraces hr grouping strict, fun removed g h s place o p x y state hs => ?_⟩⟩
  · rw [split_eq_of_legal hb hl h.strict_eq]
    cases hcheck : (g.separate b (moved b s (place g.blocks.size))).checkTogether b.members with
    | ok _ => exact Or.inl ⟨_, _, rfl⟩
    | error f =>
      obtain ⟨o, p, -, -, rfl⟩ := separated_of_checkFrom hcheck
      exact Or.inr ⟨o, p, _, _, _, rfl⟩
  · obtain ⟨b, hb, hl⟩ := permits_of_split_eq_separated hs
    obtain ⟨i, fresh, hok⟩ := exists_split_of_tellsApart (h.tellsApart hr) hb hl place
    rw [hok] at hs
    cases hs

/-- One process that waits, which leaves its local state as it is, and then works. -/
def waitThenWork : Trace where
  channels := []
  root := ⟨[⟨"0", true, false⟩], ⟨[]⟩⟩
  later := [⟨[⟨"0", true, false⟩], ⟨[]⟩⟩, ⟨[⟨"1", false, true⟩], ⟨[]⟩⟩]
  edges := [⟨0, .internal "wait" 0, 1⟩, ⟨1, .internal "work" 0, 2⟩]

/-- The observations before and after the work may be told apart, but not those before and
after the wait. -/
theorem strict_keeps_together_waitThenWork : ∃ g h fresh,
    ofTraces [waitThenWork] .queueTops true = .ok g ∧ g.Alike 0 1 ∧
    (∃ o p x y state, g.split ⟨0, [0], [1]⟩ (fun _ _ => false) =
      .error (.separated o p x y state)) ∧
    g.split ⟨0, [0], [2]⟩ (fun _ _ => false) = .ok (h, fresh) ∧
    h.parentOf 0 = h.parentOf 1 := by
  obtain ⟨g, hstart⟩ := Checks.exists_eq_ok
    (show Except.isOk (ofTraces [waitThenWork] .queueTops true) = true by decide +kernel)
  obtain ⟨first, hfirst, -, rfl⟩ := eq_assemble_of_ofTraces hstart
  rw [List.mem_singleton.mp hfirst] at hstart
  have halike : (assemble waitThenWork [waitThenWork] .queueTops true).Alike 0 1 :=
    ⟨_, _, rfl, rfl, rfl, rfl⟩
  obtain ⟨b, hb, hmembers⟩ := (Option.any_eq_true ..).mp
    (show ((assemble waitThenWork [waitThenWork] .queueTops true).block? 0).any
      (fun b => decide (b.members = [0, 1, 2])) = true by decide +kernel)
  rw [decide_eq_true_eq] at hmembers
  have hlegal : (⟨0, [0], [1]⟩ : Split).Legal b := by
    constructor <;> simp [hmembers]
  obtain ⟨⟨h, fresh⟩, hsplit⟩ := Checks.exists_eq_ok (show Except.isOk
    ((assemble waitThenWork [waitThenWork] .queueTops true).split ⟨0, [0], [2]⟩
      fun _ _ => false) = true by decide +kernel)
  obtain ⟨-, hrefused⟩ := strict_keeps_together.1 _ _ _ _ (.start hstart)
  obtain ⟨htogether, -⟩ := strict_keeps_together.1 _ _ _ _ (.split (.start hstart) hsplit)
  have hseparated := (hrefused ⟨0, [0], [1]⟩ b (fun _ _ => false) hb hlegal).1.mpr
    ⟨1, 0, halike.symm, by simp [mem_moved, hmembers], by simp [hmembers],
      by simp [mem_moved, hmembers]⟩
  have hnodes := (Reached.start hstart).coherent.toGrouped.parentOf_split hsplit
  exact ⟨_, h, fresh, hstart, halike, hseparated, hsplit,
    htogether 0 1 ((alike_congr hnodes.1).mpr halike)⟩

end Abstraction

end ProtocolInference
