import Mathlib.Algebra.GroupWithZero.Nat
import Mathlib.Algebra.Order.BigOperators.Group.List
import Mathlib.Algebra.Order.Group.Nat
import Mathlib.Data.List.Induction
import ProtocolInference.Proofs.Network.Runs
import ProtocolInference.Proofs.Trace.Interleaving

/-!
# Schedules

A schedule puts first parts of the recorded sequences into one order and keeps the order
of every process. Its progress says how many events of each process it has. A schedule
that the channels allow, from empty channels on, leads to a configuration, and the last
event of the schedule is a step into that configuration. Main statements: `scheduled_snoc_iff`,
which takes a schedule apart at its end, and `Scheduled.eq_of_progress`, which says that all
schedules with the same progress lead to the same configuration.
-/

namespace ProtocolInference

/-! ### Runs of the channels -/

namespace Queues

variable {q r s : Queues} {e : Event} {es : List Event}

theorem enables_of_apply (h : q.apply e = .ok r) : q.enables e = true := by
  cases hk : e.kind with
  | send => simp [enables, hk]
  | internal => simp [enables, hk]
  | receive =>
    cases hc : e.channel with
    | none => simp [enables, hk, hc]
    | some c =>
      have hhead := (apply_receive hk hc h).1
      simp [enables, hk, hc, queue?, hhead]

theorem run_nil_iff : q.Run [] r ↔ r = q := by
  constructor
  · intro h
    cases h
    rfl
  · intro h
    subst h
    exact .nil _

theorem run_snoc_iff : q.Run (es ++ [e]) s ↔ ∃ r, q.Run es r ∧ r.apply e = .ok s := by
  induction es generalizing q with
  | nil =>
    constructor
    · intro h
      cases h with
      | cons happly hrest =>
        have hs := run_nil_iff.mp hrest
        subst hs
        exact ⟨q, .nil q, happly⟩
    · rintro ⟨r, hr, happly⟩
      have hq := run_nil_iff.mp hr
      subst hq
      exact .cons happly (.nil s)
  | cons f es ih =>
    constructor
    · intro h
      cases h with
      | cons happly hrest =>
        obtain ⟨t, ht, hs⟩ := ih.mp hrest
        exact ⟨t, .cons happly ht, hs⟩
    · rintro ⟨t, ht, hs⟩
      cases ht with
      | cons happly hrest => exact .cons happly (ih.mpr ⟨t, hrest, hs⟩)

end Queues

namespace Interleaving

/-! ### Schedules and their progress -/

/-- The events of each process are its first ones, as many as its progress says. -/
structure Schedule (events : List (List Event)) (progress : List Nat) (es : List Event) :
    Prop where
  length_eq : progress.length = events.length
  pid_lt : ∀ e ∈ es, e.pid < events.length
  part : ∀ {pid sequence n}, events[pid]? = some sequence → progress[pid]? = some n →
    n ≤ sequence.length ∧ es.filter (·.pid == pid) = sequence.take n

/-- The schedule leads to the configuration, and the channels allow it. -/
def Scheduled (channels : List Channel) (events : List (List Event)) (c : Configuration)
    (es : List Event) : Prop :=
  Schedule events c.progress es ∧ (Queues.empty channels.length).Run es c.queues

variable {channels : List Channel} {events : List (List Event)} {c d : Configuration}
  {progress : List Nat} {pid : Nat} {e : Event} {es fs : List Event}

theorem schedule_nil_iff : Schedule events progress [] ↔ progress = events.map fun _ => 0 := by
  constructor
  · intro h
    refine List.ext_getElem (by rw [List.length_map]; exact h.length_eq) fun i hi hj => ?_
    have hlt : i < events.length := by rw [← h.length_eq]; exact hi
    have hpart := h.part (List.getElem?_eq_getElem hlt) (List.getElem?_eq_getElem hi)
    have hlen := congrArg List.length hpart.2
    simp only [List.filter_nil, List.length_nil, List.length_take] at hlen
    simp only [List.getElem_map]
    omega
  · intro h
    subst h
    refine ⟨List.length_map _, fun e he => absurd he List.not_mem_nil, ?_⟩
    intro pid sequence n hseq hn
    simp only [List.getElem?_map, hseq, Option.map_some, Option.some.injEq] at hn
    subst hn
    simp

theorem Schedule.snoc (h : Schedule events c.progress es) (hpid : e.pid = pid)
    (hs : step? events c pid = some (e, d)) : Schedule events d.progress (es ++ [e]) := by
  obtain ⟨sequence, n, hseq, hn, he, -, -, hd⟩ := step?_eq_some_iff.mp hs
  refine ⟨by rw [hd, List.length_modify]; exact h.length_eq, ?_, ?_⟩
  · intro f hf
    rcases List.mem_append.mp hf with hf | hf
    · exact h.pid_lt f hf
    · rw [List.mem_singleton.mp hf, hpid]
      exact (List.getElem?_eq_some_iff.mp hseq).1
  · intro p seq m hp hm
    rw [List.filter_append]
    by_cases hpp : pid = p
    · subst hpp
      rw [hseq] at hp
      injection hp with hp
      subst hp
      rw [hd, List.getElem?_modify_eq, hn] at hm
      injection hm with hm
      have hlt := (List.getElem?_eq_some_iff.mp he).1
      have hpart := (h.part hseq hn).2
      subst hm
      refine ⟨hlt, ?_⟩
      rw [hpart, List.take_add_one, he]
      simp [hpid]
    · rw [hd, List.getElem?_modify_ne _ _ hpp] at hm
      have hother : e.pid ≠ p := by rw [hpid]; exact hpp
      have hpart := h.part hp hm
      simpa [hother] using hpart

/-- The last event of a schedule is the last one of its process so far. -/
theorem Schedule.exists_of_snoc (h : Schedule events progress (es ++ [e])) :
    ∃ sequence n before, events[e.pid]? = some sequence ∧ sequence[n]? = some e ∧
      before[e.pid]? = some n ∧ progress = before.modify e.pid (· + 1) ∧
      Schedule events before es := by
  have hlt : e.pid < events.length :=
    h.pid_lt e (List.mem_append_right _ (List.mem_singleton_self e))
  have hlt' : e.pid < progress.length := by rw [h.length_eq]; exact hlt
  have hseq := List.getElem?_eq_getElem hlt
  have hm := List.getElem?_eq_getElem hlt'
  obtain ⟨hle, hpart⟩ := h.part hseq hm
  -- The process has at least this event, which is the last of its part.
  rw [List.filter_append, List.filter_cons_of_pos (by simp), List.filter_nil] at hpart
  have hlen := congrArg List.length hpart
  rw [List.length_append, List.length_take, List.length_singleton] at hlen
  obtain ⟨n, hn⟩ : ∃ n, progress[e.pid] = n + 1 := ⟨progress[e.pid] - 1, by omega⟩
  rw [hn] at hpart hle
  rw [hn] at hm
  have hget := List.getElem?_eq_getElem (show n < events[e.pid].length by omega)
  rw [List.take_add_one, hget] at hpart
  obtain ⟨hfront, hlast⟩ := List.append_inj' hpart rfl
  have he : events[e.pid][n]? = some e := by
    rw [hget]
    exact congrArg some (List.singleton_inj.mp hlast).symm
  have hback : progress = (progress.modify e.pid (· - 1)).modify e.pid (· + 1) := by
    refine List.ext_getElem? fun i => ?_
    by_cases hi : e.pid = i
    · subst hi
      simp [hm]
    · rw [List.getElem?_modify_ne _ _ hi, List.getElem?_modify_ne _ _ hi]
  refine ⟨_, n, progress.modify e.pid (· - 1), hseq, he, ?_, hback, ?_⟩
  · simp [hm]
  · refine ⟨by rw [List.length_modify]; exact h.length_eq,
      fun f hf => h.pid_lt f (List.mem_append_left _ hf), ?_⟩
    intro p seq m hp hmp
    by_cases hpp : e.pid = p
    · subst hpp
      rw [hseq] at hp
      injection hp with hp
      subst hp
      rw [List.getElem?_modify_eq, hm] at hmp
      injection hmp with hmp
      have hmn : m = n := hmp.symm
      subst hmn
      exact ⟨by omega, hfront⟩
    · rw [List.getElem?_modify_ne _ _ hpp] at hmp
      have hpart' := h.part hp hmp
      simpa [hpp] using hpart'

/-! ### Schedules as steps -/

theorem scheduled_nil_iff : Scheduled channels events c [] ↔ c = start channels events := by
  rw [Scheduled, schedule_nil_iff, Queues.run_nil_iff]
  constructor
  · rintro ⟨hp, hq⟩
    calc c = ⟨c.progress, c.queues⟩ := rfl
      _ = start channels events := by rw [hp, hq]; rfl
  · intro h
    subst h
    exact ⟨rfl, rfl⟩

theorem scheduled_snoc_iff (hfit : Fit channels events) :
    Scheduled channels events d (es ++ [e]) ↔
      ∃ c pid, Scheduled channels events c es ∧ step? events c pid = some (e, d) := by
  constructor
  · rintro ⟨hsched, hrun⟩
    obtain ⟨sequence, n, before, hseq, he, hn, hd, hbefore⟩ := hsched.exists_of_snoc
    obtain ⟨r, hr, happly⟩ := Queues.run_snoc_iff.mp hrun
    refine ⟨⟨before, r⟩, e.pid, ⟨hbefore, hr⟩, step?_eq_some_iff.mpr ?_⟩
    exact ⟨sequence, n, hseq, hn, he, Queues.enables_of_apply happly, happly, hd⟩
  · rintro ⟨c, pid, ⟨hsched, hrun⟩, hs⟩
    obtain ⟨sequence, n, hseq, -, he, -, happly, -⟩ := step?_eq_some_iff.mp hs
    have hpid := (hfit pid sequence hseq e (List.mem_of_getElem? he)).1
    exact ⟨hsched.snoc hpid hs, Queues.run_snoc_iff.mpr ⟨_, hrun, happly⟩⟩

theorem Scheduled.balanced (hfit : Fit channels events)
    (h : Scheduled channels events c es) : Balanced channels events c := by
  induction es using List.reverseRecOn generalizing c with
  | nil =>
    rw [scheduled_nil_iff.mp h]
    exact balanced_start channels events
  | append_singleton es e ih =>
    obtain ⟨b, pid, hb, hs⟩ := (scheduled_snoc_iff hfit).mp h
    exact (ih hb).step hfit hs

theorem Scheduled.eq_of_progress (hfit : Fit channels events)
    (hc : Scheduled channels events c es) (hd : Scheduled channels events d fs)
    (h : c.progress = d.progress) : c = d :=
  (hc.balanced hfit).eq_of_progress (hd.balanced hfit) h

theorem sum_modify_add_one {l : List Nat} {i : Nat} (h : i < l.length) :
    (l.modify i (· + 1)).sum = l.sum + 1 := by
  induction l generalizing i with
  | nil => simp at h
  | cons a l ih =>
    cases i with
    | zero =>
      simp only [List.modify_zero_cons, List.sum_cons]
      omega
    | succ i =>
      have hi := ih (Nat.lt_of_succ_lt_succ h)
      simp only [List.modify_succ_cons, List.sum_cons]
      omega

theorem Scheduled.sum_progress (hfit : Fit channels events)
    (h : Scheduled channels events c es) : c.progress.sum = es.length := by
  induction es using List.reverseRecOn generalizing c with
  | nil =>
    rw [scheduled_nil_iff.mp h]
    simp [start]
  | append_singleton es e ih =>
    obtain ⟨b, pid, hb, hs⟩ := (scheduled_snoc_iff hfit).mp h
    obtain ⟨sequence, n, -, hn, -, -, -, hd⟩ := step?_eq_some_iff.mp hs
    have hsum := ih hb
    rw [hd, sum_modify_add_one (List.getElem?_eq_some_iff.mp hn).1, hsum, List.length_append,
      List.length_singleton]

theorem Scheduled.length_le (hfit : Fit channels events)
    (h : Scheduled channels events c es) : es.length ≤ events.flatten.length := by
  have hle : List.Forall₂ (· ≤ ·) c.progress (events.map List.length) := by
    refine List.forall₂_iff_get.mpr ⟨by rw [List.length_map]; exact h.1.length_eq, ?_⟩
    intro i hi hj
    rw [List.length_map] at hj
    have hpart := h.1.part (List.getElem?_eq_getElem hj) (List.getElem?_eq_getElem hi)
    simpa using hpart.1
  rw [← h.sum_progress hfit, List.length_flatten]
  exact hle.sum_le_sum

end Interleaving

end ProtocolInference
