import Mathlib.Data.List.Basic
import Mathlib.Tactic.Common
import ProtocolInference.Proofs.Checks
import ProtocolInference.Trace.Interleaving

/-!
# What schedules leave in flight

On every channel the labels sent are the labels received followed by those in flight.
Only the source of a channel sends on it and only the destination receives from it, so
what is in flight follows from the progress of the processes, whatever the schedule. For
this reason the configurations that several schedules reach may be identified by their
progress: every edge of the graph executes its event on the contents of its source and
gives those of its target.
-/

namespace ProtocolInference

/-! ### Events that fit -/

theorem Event.cases_of_validate {e : Event} {processes : Nat} {channels : List Channel}
    (h : e.validate processes channels = .ok ()) :
    e.kind = .internal ∨ ∃ c, e.channel = some c ∧ channels[c.index]? = some c ∧
      (e.kind = .send ∧ c.src = e.pid ∨ e.kind = .receive ∧ c.dst = e.pid) := by
  unfold validate at h
  split at h
  · cases h
  · split at h
    · exact Or.inl ‹_›
    · cases h
    · cases h
    · rename_i c hc hinternal
      split at h
      · cases h
      · rename_i hdeclared
        refine Or.inr ⟨c, hc, not_not.mp hdeclared, ?_⟩
        dsimp only at h
        split at h
        · rename_i hsend
          split at h
          · cases h
          · rename_i howner
            exact Or.inl ⟨hsend, not_not.mp howner⟩
        · rename_i hsend
          split at h
          · cases h
          · rename_i howner
            refine Or.inr ⟨?_, not_not.mp howner⟩
            cases hk : e.kind with
            | send => exact absurd hk hsend
            | receive => rfl
            | internal => exact absurd hk hinternal

namespace Queues

theorem apply_internal {q r : Queues} {e : Event} (hk : e.kind = .internal) :
    q.apply e = .ok r ↔ r = q := by
  have happly : q.apply e = .ok q := by
    unfold apply
    rw [hk]
  rw [happly]
  exact ⟨fun h => (Except.ok.inj h).symm, fun h => by rw [h]⟩

theorem apply_send {q r : Queues} {e : Event} {c : Channel} (hk : e.kind = .send)
    (hc : e.channel = some c) (h : q.apply e = .ok r) : r = q.push c.index e.label := by
  unfold apply at h
  rw [hk, hc] at h
  dsimp only at h
  split at h
  · cases h
  · exact (Except.ok.inj h).symm

theorem apply_receive {q r : Queues} {e : Event} {c : Channel} (hk : e.kind = .receive)
    (hc : e.channel = some c) (h : q.apply e = .ok r) :
    (q.contents[c.index]?.bind List.head?) = some e.label ∧ r = q.pop c.index := by
  unfold apply at h
  rw [hk, hc] at h
  dsimp only at h
  split at h
  · cases h
  · split at h
    · rename_i hen
      unfold enables at hen
      rw [hk, hc] at hen
      exact ⟨eq_of_beq hen, (Except.ok.inj h).symm⟩
    · cases h

end Queues

namespace Interleaving

/-! ### What the processes have done -/

/-- The labels of the events of one kind on a channel, in their order. -/
def labels (kind : EventKind) (channel : Nat) (es : List Event) : List String :=
  (es.filter fun e => e.kind == kind && e.channel.any (·.index == channel)).map (·.label)

theorem labels_append (kind : EventKind) (channel : Nat) (es fs : List Event) :
    labels kind channel (es ++ fs) = labels kind channel es ++ labels kind channel fs := by
  rw [labels, List.filter_append, List.map_append]
  rfl

theorem labels_of_kind_ne {kind : EventKind} {channel : Nat} {e : Event} (h : e.kind ≠ kind) :
    labels kind channel [e] = [] := by
  simp [labels, h]

theorem labels_of_channel {kind : EventKind} {channel : Nat} {e : Event} {c : Channel}
    (hk : e.kind = kind) (hc : e.channel = some c) :
    labels kind channel [e] = if c.index = channel then [e.label] else [] := by
  by_cases h : c.index = channel <;> simp [labels, hk, hc, h]

/-- What a process has done up to its progress. -/
def done (events : List (List Event)) (progress : List Nat) (pid : Nat) : List Event :=
  (events[pid]?.getD []).take (progress[pid]?.getD 0)

/-- Every event fits the channels and stands under its own process. -/
def Fit (channels : List Channel) (events : List (List Event)) : Prop :=
  ∀ (pid : Nat) (sequence : List Event), events[pid]? = some sequence → ∀ e ∈ sequence,
    e.pid = pid ∧ ∃ processes, e.validate processes channels = .ok ()

variable {channels : List Channel} {events : List (List Event)} {c d : Configuration}
  {pid : Nat} {e : Event}

theorem step?_eq_some_iff : step? events c pid = some (e, d) ↔
    ∃ sequence n, events[pid]? = some sequence ∧ c.progress[pid]? = some n ∧
      sequence[n]? = some e ∧ c.queues.enables e = true ∧ c.queues.apply e = .ok d.queues ∧
      d.progress = c.progress.modify pid (· + 1) := by
  unfold step?
  constructor
  · intro h
    split at h
    · cases h
    · rename_i event hevent
      obtain ⟨sequence, hseq, hrest⟩ := Option.bind_eq_some_iff.mp hevent
      obtain ⟨n, hn, he⟩ := Option.bind_eq_some_iff.mp hrest
      split at h
      · rename_i hen
        split at h
        · rename_i queues happly
          injection h with h
          injection h with h1 h2
          subst h1 h2
          exact ⟨sequence, n, hseq, hn, he, hen, happly, rfl⟩
        · cases h
      · cases h
  · rintro ⟨sequence, n, hseq, hn, he, hen, happly, hd⟩
    rw [hseq, Option.bind_some, hn, Option.bind_some, he]
    dsimp only
    rw [if_pos hen, happly]
    dsimp only
    rw [← hd]

theorem done_of_step (hs : step? events c pid = some (e, d)) (p : Nat) :
    done events d.progress p = done events c.progress p ++ if p = pid then [e] else [] := by
  obtain ⟨sequence, n, hseq, hn, he, -, -, hd⟩ := step?_eq_some_iff.mp hs
  unfold done
  rw [hd, List.getElem?_modify]
  by_cases hp : p = pid
  · subst hp
    simp [hseq, hn, List.take_add_one, he]
  · simp [hp, Ne.symm hp]

/-! ### The balance of the channels -/

/-- On every channel the labels sent are those received, followed by those in flight. -/
structure Balanced (channels : List Channel) (events : List (List Event))
    (c : Configuration) : Prop where
  size : c.queues.size = channels.length
  balance : ∀ k channel queue, channels[k]? = some channel →
    c.queues.contents[k]? = some queue →
    labels .send k (done events c.progress channel.src) =
      labels .receive k (done events c.progress channel.dst) ++ queue

theorem balanced_start (channels : List Channel) (events : List (List Event)) :
    Balanced channels events (start channels events) where
  size := List.length_replicate
  balance := by
    intro k channel queue _ hq
    have hnone : ∀ p, done events (start channels events).progress p = [] := by
      intro p
      unfold done start
      rw [List.getElem?_map]
      cases events[p]? <;> rfl
    have hempty : queue = [] := List.eq_of_mem_replicate (List.mem_of_getElem? hq)
    rw [hnone, hnone, hempty]
    rfl

/-- Of balanced configurations there is only one with some progress. -/
theorem Balanced.eq_of_progress (hc : Balanced channels events c) (hd : Balanced channels events d)
    (h : c.progress = d.progress) : c = d := by
  have hlen : c.queues.contents.length = d.queues.contents.length :=
    hc.size.trans hd.size.symm
  have hcontents : c.queues.contents = d.queues.contents := by
    refine List.ext_getElem hlen fun k hk hk' => ?_
    have hch := List.getElem?_eq_getElem (show k < channels.length from hc.size ▸ hk)
    have h1 := hc.balance k _ _ hch (List.getElem?_eq_getElem hk)
    have h2 := hd.balance k _ _ hch (List.getElem?_eq_getElem hk')
    rw [← h] at h2
    exact List.append_cancel_left (h1.symm.trans h2)
  calc c = ⟨c.progress, ⟨c.queues.contents⟩⟩ := rfl
    _ = d := by rw [h, hcontents]

theorem labels_of_owner {kind : EventKind} {e : Event} {c : Channel} {owner k : Nat}
    (hk : e.kind = kind) (hc : e.channel = some c) (howner : c.index = k → owner = e.pid) :
    labels kind k (if owner = e.pid then [e] else []) = if c.index = k then [e.label] else [] := by
  by_cases hki : c.index = k
  · rw [if_pos (howner hki), labels_of_channel hk hc]
  · rw [if_neg hki]
    split
    · rw [labels_of_channel hk hc, if_neg hki]
    · rfl

theorem labels_of_step (hfit : e.pid = pid) (hs : step? events c pid = some (e, d))
    (kind : EventKind) (k p : Nat) : labels kind k (done events d.progress p) =
      labels kind k (done events c.progress p) ++
        labels kind k (if p = e.pid then [e] else []) := by
  rw [done_of_step hs, labels_append, hfit]

theorem labels_of_other {kind : EventKind} (hk : e.kind ≠ kind) (k p : Nat) :
    labels kind k (if p = e.pid then [e] else []) = [] := by
  split
  · exact labels_of_kind_ne hk
  · rfl

/-- A step keeps the channels balanced. -/
theorem Balanced.step (hfit : Fit channels events) (hc : Balanced channels events c)
    (hs : step? events c pid = some (e, d)) : Balanced channels events d := by
  obtain ⟨sequence, n, hseq, hn, he, -, happly, -⟩ := step?_eq_some_iff.mp hs
  obtain ⟨hpid, m, hval⟩ := hfit pid sequence hseq e (List.mem_of_getElem? he)
  have hlabels := labels_of_step hpid hs
  rcases Event.cases_of_validate hval with hk | ⟨ch, hch, hdecl, ⟨hk, hsrc⟩ | ⟨hk, hdst⟩⟩
  · have hq := (Queues.apply_internal hk).mp happly
    have hsend : e.kind ≠ .send := by simp [hk]
    have hreceive : e.kind ≠ .receive := by simp [hk]
    refine ⟨by rw [hq]; exact hc.size, fun k channel queue hchannel hqueue => ?_⟩
    rw [hq] at hqueue
    rw [hlabels, hlabels, labels_of_other hsend, labels_of_other hreceive, List.append_nil,
      List.append_nil]
    exact hc.balance k channel queue hchannel hqueue
  · have hq := Queues.apply_send hk hch happly
    have hreceive : e.kind ≠ .receive := by simp [hk]
    refine ⟨by rw [hq]; exact (List.length_modify ..).trans hc.size,
      fun k channel queue hchannel hqueue => ?_⟩
    rw [hq, Queues.push, List.getElem?_modify] at hqueue
    obtain ⟨before, hbefore, hqueue⟩ := Option.map_eq_some_iff.mp hqueue
    have hbal := hc.balance k channel before hchannel hbefore
    have hsent : labels .send k (if channel.src = e.pid then [e] else []) =
        if ch.index = k then [e.label] else [] := by
      refine labels_of_owner hk hch fun hki => ?_
      rw [← hki, hdecl] at hchannel
      rw [← Option.some.inj hchannel, hsrc]
    rw [hlabels, hsent, hbal, hlabels, labels_of_other hreceive, ← hqueue, List.append_nil,
      List.append_assoc]
    split <;> simp
  · obtain ⟨hhead, hq⟩ := Queues.apply_receive hk hch happly
    have hsend : e.kind ≠ .send := by simp [hk]
    refine ⟨by rw [hq]; exact (List.length_modify ..).trans hc.size,
      fun k channel queue hchannel hqueue => ?_⟩
    rw [hq, Queues.pop, List.getElem?_modify] at hqueue
    obtain ⟨before, hbefore, hqueue⟩ := Option.map_eq_some_iff.mp hqueue
    have hbal := hc.balance k channel before hchannel hbefore
    have hreceived : labels .receive k (if channel.dst = e.pid then [e] else []) =
        if ch.index = k then [e.label] else [] := by
      refine labels_of_owner hk hch fun hki => ?_
      rw [← hki, hdecl] at hchannel
      rw [← Option.some.inj hchannel, hdst]
    rw [hlabels, labels_of_other hsend, hlabels, hreceived, hbal, ← hqueue, List.append_nil,
      List.append_assoc]
    split
    · -- The message received was the oldest in flight.
      rename_i hki
      rw [hki, hbefore, Option.bind_some] at hhead
      obtain ⟨rest, rfl⟩ := List.head?_eq_some_iff.mp hhead
      rfl
    · rfl

end Interleaving

end ProtocolInference
