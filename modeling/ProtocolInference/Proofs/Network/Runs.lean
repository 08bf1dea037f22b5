import Mathlib.Data.List.OfFn
import ProtocolInference.Event.Validity
import ProtocolInference.Network.Basic
import ProtocolInference.Proofs.Automaton.Language

/-!
# Runs of a network

A run starts in an initial state of every automaton with nothing in flight. One event
after the other, the automaton of its process takes a transition on it and the channels
have to allow it. The run is complete if it ends in an accepting state of every
automaton with nothing in flight. The automata meet in the channels only, so a sequence
of events is a complete run if every automaton accepts the events of its process and
the channels allow the sequence.
-/

namespace ProtocolInference

/-! ### Executing events -/

/-- The channels allow the events one after the other. -/
inductive Queues.Run : Queues → List Event → Queues → Prop where
  | nil (q : Queues) : Run q [] q
  | cons {q r s : Queues} {e : Event} {es : List Event} :
      q.apply e = .ok r → Run r es s → Run q (e :: es) s

namespace Network

/-- The present state of every automaton and what is in flight. -/
structure Configuration where
  states : List Nat
  queues : Queues

/-- The automaton of the process takes a transition, and the channels allow the event. -/
structure Step (n : Network) (c : Configuration) (e : Event) (d : Configuration) : Prop where
  edge : ∃ a s t, n.automata[e.pid]? = some a ∧ c.states[e.pid]? = some s ∧ a.Edge s e t ∧
    d.states = c.states.set e.pid t
  apply : c.queues.apply e = .ok d.queues

inductive Exec (n : Network) : Configuration → List Event → Configuration → Prop where
  | nil (c : Configuration) : Exec n c [] c
  | cons {c d f : Configuration} {e : Event} {es : List Event} :
      n.Step c e d → Exec n d es f → Exec n c (e :: es) f

/-- The events lead from initial states and nothing in flight to accepting states and
nothing in flight. -/
def CompleteRun (n : Network) (es : List Event) : Prop :=
  ∃ c d, List.Forall₂ (fun a s => s ∈ a.initialStates) n.automata c.states ∧
    c.queues = Queues.empty n.channels.length ∧ n.Exec c es d ∧
    List.Forall₂ (fun a t => t ∈ a.acceptStates) n.automata d.states ∧ d.queues.isEmpty = true

variable {n : Network} {c d : Configuration} {es : List Event}

theorem Exec.queues (h : n.Exec c es d) : c.queues.Run es d.queues := by
  induction h with
  | nil c => exact .nil _
  | cons hs _ ih => exact .cons hs.apply ih

theorem Exec.pid_lt (h : n.Exec c es d) : ∀ e ∈ es, e.pid < n.automata.length := by
  induction h with
  | nil c => exact fun e he => absurd he List.not_mem_nil
  | cons hs _ ih =>
    obtain ⟨a, s, t, ha, -⟩ := hs.edge
    exact List.forall_mem_cons.mpr ⟨(List.getElem?_eq_some_iff.mp ha).1, ih⟩

theorem Exec.run (h : n.Exec c es d) {pid : Nat} {a : Automaton} {s : Nat}
    (ha : n.automata[pid]? = some a) (hs : c.states[pid]? = some s) :
    ∃ t, d.states[pid]? = some t ∧ a.Run s (es.filter (·.pid == pid)) t := by
  induction h generalizing s with
  | nil c => exact ⟨s, hs, .nil s⟩
  | @cons c m d e es hstep _ ih =>
    obtain ⟨b, u, v, hb, hu, hedge, hset⟩ := hstep.edge
    by_cases he : e.pid = pid
    · subst he
      rw [hb] at ha
      injection ha with ha
      rw [hu] at hs
      injection hs with hs
      subst ha hs
      have hv : m.states[e.pid]? = some v := by
        rw [hset, List.getElem?_set_self (List.getElem?_eq_some_iff.mp hu).1]
      obtain ⟨t, ht, hrun⟩ := ih hv
      rw [List.filter_cons_of_pos (by simp)]
      exact ⟨t, ht, .cons hedge hrun⟩
    · have hm : m.states[pid]? = some s := by
        rw [hset, List.getElem?_set_ne he, hs]
      rw [List.filter_cons_of_neg (by simpa using he)]
      exact ih hm

/-- Runs of all automata and of the channels are put together. -/
theorem exec_of_runs (hc : c.states.length = n.automata.length)
    (hd : d.states.length = n.automata.length)
    (hlt : ∀ e ∈ es, e.pid < n.automata.length) (hq : c.queues.Run es d.queues)
    (hrun : ∀ (pid : Nat) (a : Automaton) (s t : Nat), n.automata[pid]? = some a →
      c.states[pid]? = some s → d.states[pid]? = some t → a.Run s (es.filter (·.pid == pid)) t) : n.Exec c es d := by
  induction es generalizing c with
  | nil =>
    have hstates : c.states = d.states := by
      refine List.ext_getElem (hc.trans hd.symm) fun i hi hj => ?_
      exact Automaton.run_nil_iff.mp (hrun i _ _ _ (List.getElem?_eq_getElem (hc ▸ hi))
        (List.getElem?_eq_getElem hi) (List.getElem?_eq_getElem hj))
    obtain ⟨cs, cq⟩ := c
    obtain ⟨ds, dq⟩ := d
    cases hq
    dsimp only at hstates
    rw [hstates]
    exact .nil _
  | cons e es ih =>
    obtain ⟨he, hlt⟩ := List.forall_mem_cons.mp hlt
    have ha := List.getElem?_eq_getElem he
    have hs := List.getElem?_eq_getElem (hc ▸ he)
    have ht := List.getElem?_eq_getElem (hd ▸ he)
    have hown := hrun e.pid _ _ _ ha hs ht
    rw [List.filter_cons_of_pos (by simp)] at hown
    cases hown with
    | @cons _ u _ _ _ hedge hrest =>
      cases hq with
      | @cons _ q _ _ _ happly hq =>
        -- The automaton of the event moves, and the others have their runs as before.
        refine .cons (d := ⟨c.states.set e.pid u, q⟩) ⟨⟨_, _, u, ha, hs, hedge, rfl⟩, happly⟩ ?_
        refine ih (by rw [List.length_set, hc]) hlt hq fun pid a s t ha' hs' ht' => ?_
        by_cases hp : e.pid = pid
        · subst hp
          rw [ha] at ha'
          injection ha' with ha'
          rw [List.getElem?_set_self (hc ▸ he)] at hs'
          injection hs' with hs'
          rw [ht] at ht'
          injection ht' with ht'
          subst ha' hs' ht'
          exact hrest
        · rw [List.getElem?_set_ne hp] at hs'
          have hother := hrun pid a s t ha' hs' ht'
          rw [List.filter_cons_of_neg (by simpa using hp)] at hother
          exact hother

/-- A sequence of events is a complete run if every automaton accepts its part and the
channels allow the whole. -/
theorem completeRun_iff : n.CompleteRun es ↔
    (∀ e ∈ es, e.pid < n.automata.length) ∧
    (∀ (pid : Nat) (a : Automaton), n.automata[pid]? = some a →
      a.Accepts (es.filter (·.pid == pid))) ∧
    ∃ q, (Queues.empty n.channels.length).Run es q ∧ q.isEmpty = true := by
  constructor
  · rintro ⟨c, d, hinit, hempty, hexec, hacc, hdone⟩
    refine ⟨hexec.pid_lt, fun pid a ha => ?_, d.queues, hempty ▸ hexec.queues, hdone⟩
    obtain ⟨hlt, rfl⟩ := List.getElem?_eq_some_iff.mp ha
    have hs := List.getElem?_eq_getElem (hinit.length_eq ▸ hlt)
    obtain ⟨t, ht, hrun⟩ := hexec.run ha hs
    obtain ⟨hltd, rfl⟩ := List.getElem?_eq_some_iff.mp ht
    exact ⟨_, hinit.get hlt (hinit.length_eq ▸ hlt), _, hacc.get hlt hltd, hrun⟩
  · rintro ⟨hlt, hall, q, hq, hdone⟩
    have hends : ∀ i : Fin n.automata.length, ∃ s t, s ∈ n.automata[i].initialStates ∧
        t ∈ n.automata[i].acceptStates ∧
        n.automata[i].Run s (es.filter (·.pid == i.val)) t := by
      intro i
      obtain ⟨s, hs, t, ht, hrun⟩ := hall i _ (List.getElem?_eq_getElem i.isLt)
      exact ⟨s, t, hs, ht, hrun⟩
    choose first last hfirst hlast hrun using hends
    refine ⟨⟨List.ofFn first, Queues.empty n.channels.length⟩, ⟨List.ofFn last, q⟩, ?_, rfl,
      exec_of_runs (List.length_ofFn ..) (List.length_ofFn ..) hlt hq ?_, ?_, hdone⟩
    · refine List.forall₂_iff_get.mpr ⟨(List.length_ofFn ..).symm, fun i hi _ => ?_⟩
      rw [List.get_ofFn]
      exact hfirst ⟨i, hi⟩
    · intro pid a s t ha hs ht
      obtain ⟨hi, rfl⟩ := List.getElem?_eq_some_iff.mp ha
      rw [List.getElem?_ofFn, dif_pos hi] at hs ht
      injection hs with hs
      injection ht with ht
      subst hs ht
      exact hrun ⟨pid, hi⟩
    · refine List.forall₂_iff_get.mpr ⟨(List.length_ofFn ..).symm, fun i hi _ => ?_⟩
      rw [List.get_ofFn]
      exact hlast ⟨i, hi⟩

end Network

end ProtocolInference
