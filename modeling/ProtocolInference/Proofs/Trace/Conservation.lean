import ProtocolInference.Proofs.Trace.Schedules

/-!
# Channels lose nothing

Whatever is in flight at first, a run takes the messages off each channel in the order in
which they came onto it: what was in flight, followed by what has been sent, is what has been
received, followed by what is in flight. An event on a channel that is there can be executed if
and only if it is enabled. Main statement: `run_conserves`.
-/

namespace ProtocolInference.Queues

open Interleaving (labels labels_append labels_of_kind_ne labels_of_channel)

variable {q r : Queues} {e : Event} {k : Nat} {es : List Event} {before : List String}

/-! ### Single events -/

theorem size_of_apply (h : q.apply e = .ok r) : r.size = q.size := by
  unfold apply at h
  split at h
  · rw [Except.ok.inj h]
  · cases h
  · split at h
    · cases h
    · simp [← Except.ok.inj h, push, size]
  · split at h
    · cases h
    · split at h
      · simp [← Except.ok.inj h, pop, size]
      · cases h

theorem queue?_push (i : Nat) (label : String) (h : q.queue? k = some before) :
    (q.push i label).queue? k = some (before ++ if i = k then [label] else []) := by
  rw [queue?] at h
  by_cases hk : i = k <;> simp [push, queue?, hk, h]

/-- The message that is taken off is the one at the head. -/
theorem queue?_pop {i : Nat} {label : String} (hhead : (q.queue? i).bind List.head? = some label)
    (h : q.queue? k = some before) :
    ∃ after, (q.pop i).queue? k = some after ∧
      before = (if i = k then [label] else []) ++ after := by
  by_cases hk : i = k
  · subst hk
    rw [h] at hhead
    have hcons : label :: before.tail = before := List.cons_head?_tail hhead
    rw [queue?] at h
    exact ⟨before.tail, by simp [pop, queue?, h], by simp [hcons]⟩
  · rw [queue?] at h
    exact ⟨before, by simp [pop, queue?, hk, h], by simp [hk]⟩

theorem apply_conserves (h : q.apply e = .ok r) (hbefore : q.queue? k = some before) :
    ∃ after, r.queue? k = some after ∧
      before ++ labels .send k [e] = labels .receive k [e] ++ after := by
  cases hk : e.kind with
  | internal =>
    have hsame : r = q := (apply_internal hk).mp h
    have hsent : labels .send k [e] = [] := labels_of_kind_ne (by simp [hk])
    have hreceived : labels .receive k [e] = [] := labels_of_kind_ne (by simp [hk])
    exact ⟨before, by rw [hsame, hbefore], by simp [hsent, hreceived]⟩
  | send =>
    cases hc : e.channel with
    | none => simp [apply, hk, hc] at h
    | some c =>
      have hpush : r = q.push c.index e.label := apply_send hk hc h
      have hreceived : labels .receive k [e] = [] := labels_of_kind_ne (by simp [hk])
      refine ⟨_, by rw [hpush, queue?_push c.index e.label hbefore], ?_⟩
      rw [hreceived, labels_of_channel hk hc, List.nil_append]
  | receive =>
    cases hc : e.channel with
    | none => simp [apply, hk, hc] at h
    | some c =>
      obtain ⟨hhead, hpop⟩ := apply_receive hk hc h
      have hsent : labels .send k [e] = [] := labels_of_kind_ne (by simp [hk])
      obtain ⟨after, hafter, hcons⟩ := queue?_pop hhead hbefore
      refine ⟨after, by rw [hpop, hafter], ?_⟩
      rw [hsent, labels_of_channel hk hc, List.append_nil]
      exact hcons

/-- The event names a channel that is there, or is internal and names none. -/
def Admits (q : Queues) (e : Event) : Prop :=
  (∃ c, e.channel = some c ∧ c.index < q.size) ∨ (e.kind = .internal ∧ e.channel = none)

theorem Admits.exists_apply_iff (h : q.Admits e) :
    (∃ r, q.apply e = .ok r) ↔ q.enables e = true := by
  constructor
  · intro hr
    obtain ⟨r, hr⟩ := hr
    exact enables_of_apply hr
  · intro henables
    rcases h with ⟨c, hc, hlt⟩ | ⟨hk, -⟩
    · have hthere : ¬q.size ≤ c.index := Nat.not_le.mpr hlt
      cases hk : e.kind <;> simp [apply, hk, hc, hthere, henables]
    · exact ⟨q, (apply_internal hk).mpr rfl⟩

/-! ### Runs -/

theorem Run.size_eq (h : q.Run es r) : r.size = q.size := by
  induction h with
  | nil q => rfl
  | cons happly _ ih => exact ih.trans (size_of_apply happly)

theorem Run.conserves (h : q.Run es r) (hbefore : q.queue? k = some before) :
    ∃ after, r.queue? k = some after ∧
      before ++ labels .send k es = labels .receive k es ++ after := by
  induction h generalizing before with
  | nil q => exact ⟨before, hbefore, by simp [labels]⟩
  | @cons q m r e es happly _ ih =>
    obtain ⟨between, hbetween, hfirst⟩ := apply_conserves happly hbefore
    obtain ⟨after, hafter, hlater⟩ := ih hbetween
    have hsent := labels_append .send k [e] es
    have hreceived := labels_append .receive k [e] es
    rw [List.singleton_append] at hsent hreceived
    refine ⟨after, hafter, ?_⟩
    calc before ++ labels .send k (e :: es)
        = labels .receive k [e] ++ (between ++ labels .send k es) := by
          rw [hsent, ← List.append_assoc, hfirst, List.append_assoc]
      _ = labels .receive k (e :: es) ++ after := by
          rw [hlater, hreceived, List.append_assoc]

/-- A run keeps the number of channels, and on every channel what was in flight followed by
what is sent is what is received followed by what is left in flight. An event that names a
channel that is there, or is internal and names none, can be executed if and only if it is
enabled. -/
theorem run_conserves :
    (∀ (q r : Queues) (es : List Event), q.Run es r → r.size = q.size ∧
      ∀ k < q.size, ∃ before after, q.queue? k = some before ∧ r.queue? k = some after ∧
        before ++ labels .send k es = labels .receive k es ++ after) ∧
    ∀ (q : Queues) (e : Event), q.Admits e →
      ((∃ r, q.apply e = .ok r) ↔ q.enables e = true) := by
  refine ⟨fun q r es h => ⟨h.size_eq, fun k hk => ?_⟩, fun q e h => h.exists_apply_iff⟩
  have hbefore : q.queue? k = some q.contents[k] := List.getElem?_eq_getElem hk
  obtain ⟨after, hafter, hall⟩ := h.conserves hbefore
  exact ⟨_, after, hbefore, hafter, hall⟩

/-- Of two messages on one channel the older one is received, and the other one is enabled. -/
theorem run_conserves_handover :
    Run ⟨[["m"]]⟩ [.send "n" ⟨0, 1, 0, false⟩, .receive "m" ⟨0, 1, 0, false⟩] ⟨[["n"]]⟩ ∧
    (∃ before after, queue? ⟨[["m"]]⟩ 0 = some before ∧ queue? ⟨[["n"]]⟩ 0 = some after ∧
      before ++ ["n"] = ["m"] ++ after) ∧
    Admits ⟨[["n"]]⟩ (.receive "n" ⟨0, 1, 0, false⟩) ∧
    ∃ r, apply ⟨[["n"]]⟩ (.receive "n" ⟨0, 1, 0, false⟩) = .ok r := by
  have hrun : Run ⟨[["m"]]⟩ [.send "n" ⟨0, 1, 0, false⟩, .receive "m" ⟨0, 1, 0, false⟩]
      ⟨[["n"]]⟩ :=
    .cons (r := ⟨[["m", "n"]]⟩) rfl (.cons rfl (.nil _))
  have hadmits : Admits ⟨[["n"]]⟩ (.receive "n" ⟨0, 1, 0, false⟩) :=
    Or.inl ⟨_, rfl, by decide⟩
  obtain ⟨-, hall⟩ := run_conserves.1 _ _ _ hrun
  exact ⟨hrun, hall 0 (by decide), hadmits, (run_conserves.2 _ _ hadmits).mpr (by decide)⟩

end ProtocolInference.Queues
