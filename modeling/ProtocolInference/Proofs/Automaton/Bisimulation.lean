import ProtocolInference.Proofs.Automaton.Building

/-!
# Merging keeps what a state can do

A state and the one it is merged into can do the same: they agree on being initial and on
being accepting, and each transition of one is answered by the other on the same event, with
targets that are again such a pair. So the same words are spelled from them, and minimisation
changes no state that stays and no word. Main statement: `minimize_bisimilar`.
-/

namespace ProtocolInference.Automaton

variable {a b : Automaton} {r : Nat → Nat → Prop} {f : Nat → Nat} {s t u : Nat} {e : Event}
  {w : List Event}

/-! ### Bisimulations -/

/-- Related states are alike in their flags, and each answers the transitions of the other
with transitions on the same event to related states. -/
structure Bisimulation (a b : Automaton) (r : Nat → Nat → Prop) : Prop where
  initial : ∀ {s t}, r s t → (s ∈ a.initialStates ↔ t ∈ b.initialStates)
  accept : ∀ {s t}, r s t → (s ∈ a.acceptStates ↔ t ∈ b.acceptStates)
  forth : ∀ {s t e u}, r s t → a.Edge s e u → ∃ v, b.Edge t e v ∧ r u v
  back : ∀ {s t e v}, r s t → b.Edge t e v → ∃ u, a.Edge s e u ∧ r u v

def Bisimilar (a b : Automaton) (s t : Nat) : Prop := ∃ r, Bisimulation a b r ∧ r s t

/-- Some path from the state to an accepting one spells the word. -/
def AcceptsFrom (a : Automaton) (s : Nat) (w : List Event) : Prop :=
  ∃ t ∈ a.acceptStates, a.Run s w t

theorem Bisimulation.symm (h : Bisimulation a b r) : Bisimulation b a fun t s => r s t where
  initial hr := (h.initial hr).symm
  accept hr := (h.accept hr).symm
  forth := h.back
  back := h.forth

theorem Bisimulation.exists_run (h : Bisimulation a b r) (hw : a.Run s w u) (hr : r s t) :
    ∃ v, b.Run t w v ∧ r u v := by
  induction hw generalizing t with
  | nil s => exact ⟨t, .nil t, hr⟩
  | cons he _ ih =>
    obtain ⟨t', he', hr'⟩ := h.forth hr he
    obtain ⟨v, hv, hrv⟩ := ih hr'
    exact ⟨v, .cons he' hv, hrv⟩

theorem Bisimulation.acceptsFrom (h : Bisimulation a b r) (hr : r s t)
    (hw : a.AcceptsFrom s w) : b.AcceptsFrom t w := by
  obtain ⟨u, hu, hrun⟩ := hw
  obtain ⟨v, hv, hrv⟩ := h.exists_run hrun hr
  exact ⟨v, (h.accept hrv).mp hu, hv⟩

theorem Bisimilar.initial_iff (h : Bisimilar a b s t) :
    s ∈ a.initialStates ↔ t ∈ b.initialStates := by
  obtain ⟨r, hbisim, hr⟩ := h
  exact hbisim.initial hr

theorem Bisimilar.accept_iff (h : Bisimilar a b s t) :
    s ∈ a.acceptStates ↔ t ∈ b.acceptStates := by
  obtain ⟨r, hbisim, hr⟩ := h
  exact hbisim.accept hr

theorem Bisimilar.symm (h : Bisimilar a b s t) : Bisimilar b a t s := by
  obtain ⟨r, hbisim, hr⟩ := h
  exact ⟨fun t s => r s t, hbisim.symm, hr⟩

theorem Bisimilar.exists_edge (h : Bisimilar a b s t) (he : a.Edge s e u) :
    ∃ v, b.Edge t e v ∧ Bisimilar a b u v := by
  obtain ⟨r, hbisim, hr⟩ := h
  obtain ⟨v, hv, huv⟩ := hbisim.forth hr he
  exact ⟨v, hv, r, hbisim, huv⟩

theorem Bisimilar.acceptsFrom_iff (h : Bisimilar a b s t) :
    a.AcceptsFrom s w ↔ b.AcceptsFrom t w := by
  obtain ⟨r, hbisim, hr⟩ := h
  exact ⟨hbisim.acceptsFrom hr, hbisim.symm.acceptsFrom hr⟩

/-! ### Merged states -/

/-- A merge relates every state to the one that it goes to. -/
theorem Merged.bisimulation (h : Merged f a b) (ha : a.WellFormed) (hb : b.WellFormed) :
    Bisimulation a b fun s t => ∃ x ∈ a.states, x.id = s ∧ f s = t := by
  constructor
  case initial =>
    intro s t hr
    obtain ⟨x, hx, hs, ht⟩ := hr
    rw [← ht, ← hs]
    exact h.mem_initialStates_iff hb hx
  case accept =>
    intro s t hr
    obtain ⟨x, hx, hs, ht⟩ := hr
    rw [← ht, ← hs]
    exact h.mem_acceptStates_iff hb hx
  case forth =>
    intro s t e u hr he
    obtain ⟨-, -, -, ht⟩ := hr
    have hedge : b.Edge t e (f u) := ht ▸ h.edge he
    obtain ⟨y, hy, -, hm⟩ := he
    obtain ⟨z, hz, hu⟩ := ha.targets y hy e u hm
    exact ⟨f u, hedge, z, hz, hu, rfl⟩
  case back =>
    intro s t e v hr he
    obtain ⟨x, hx, hs, ht⟩ := hr
    rw [← ht, ← hs] at he
    obtain ⟨y, hy, hedge, hv⟩ := h.lift_edge ha hb hx he
    exact ⟨y.id, hs ▸ hedge, y, hy, rfl, hv⟩

theorem Merged.bisimilar (h : Merged f a b) (ha : a.WellFormed) (hb : b.WellFormed) {x : State}
    (hx : x ∈ a.states) : Bisimilar a b x.id (f x.id) :=
  ⟨_, h.bisimulation ha hb, x, hx, rfl, rfl⟩

/-! ### Minimised automata -/

/-- Minimisation sends each state of an automaton that has been built to one that is
bisimilar to it, and leaves what stays where it is. So a state is initial or accepting exactly
if the one it goes to is, and the same words are spelled from both and by both automata. -/
theorem minimize_bisimilar (h : a.Built) : ∃ f : Nat → Nat,
    (∀ x ∈ a.states, ∃ y ∈ a.minimize.1.states, y.id = f x.id) ∧
    (∀ y ∈ a.minimize.1.states, f y.id = y.id ∧ ∃ x ∈ a.states, x.id = y.id) ∧
    (∀ x ∈ a.states, Bisimilar a a.minimize.1 x.id (f x.id)) ∧
    (∀ x ∈ a.states, (x.id ∈ a.initialStates ↔ f x.id ∈ a.minimize.1.initialStates) ∧
      (x.id ∈ a.acceptStates ↔ f x.id ∈ a.minimize.1.acceptStates)) ∧
    (∀ x ∈ a.states, ∀ w, a.AcceptsFrom x.id w ↔ a.minimize.1.AcceptsFrom (f x.id) w) ∧
    ∀ w, a.Accepts w ↔ a.minimize.1.Accepts w := by
  have hwf := h.wellFormed
  obtain ⟨f, hf⟩ := exists_merged_minimize hwf
  have hbisimilar : ∀ x ∈ a.states, Bisimilar a a.minimize.1 x.id (f x.id) :=
    fun x hx => hf.bisimilar hwf hwf.minimize hx
  refine ⟨f, ?_, hf.survivor, hbisimilar, ?_, ?_, ?_⟩
  · intro x hx
    obtain ⟨y, hy, hid, -⟩ := hf.image x hx
    exact ⟨y, hy, hid⟩
  · intro x hx
    exact ⟨(hbisimilar x hx).initial_iff, (hbisimilar x hx).accept_iff⟩
  · intro x hx w
    exact (hbisimilar x hx).acceptsFrom_iff
  · intro w
    exact (accepts_minimize_iff hwf).symm

/-- Two states are merged away, and the others go on to work and rest as before. -/
theorem minimize_bisimilar_fork : fork.Built ∧ fork.minimize.2 = 2 ∧
    ∃ f : Nat → Nat, f 2 = 2 ∧ (∀ x ∈ fork.states, Bisimilar fork fork.minimize.1 x.id (f x.id)) ∧
      ∀ w, fork.AcceptsFrom 3 w ↔ fork.minimize.1.AcceptsFrom (f 3) w := by
  obtain ⟨f, -, hsurvivor, hbisimilar, -, hwords, -⟩ := minimize_bisimilar built_fork
  have htwo : ∃ y ∈ fork.minimize.1.states, y.id = 2 := by decide +kernel
  obtain ⟨y, hy, hid⟩ := htwo
  have hstays := (hsurvivor y hy).1
  rw [hid] at hstays
  exact ⟨built_fork, by decide +kernel, f, hstays, hbisimilar,
    hwords ⟨3, false, false, [(.internal "rest" 0, 5)]⟩ (by decide +kernel)⟩

end ProtocolInference.Automaton
