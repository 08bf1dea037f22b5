import ProtocolInference.Proofs.Abstraction.Matching
import ProtocolInference.Proofs.Abstraction.Splitting

/-!
# Runs of observations along a path

A run of observations begins with an initial one and goes on by their edges, on one event
after another. It keeps to a path of blocks if each of its observations is a member of the
block at its place. A walk along the path keeps the observations that are reached and not
the ways to them, so what it tells is where such runs end: it returns the ends block by
block, or it is stuck at the first block from which no run goes on.
-/

namespace ProtocolInference.Abstraction

variable {g : Abstraction} {p : BlockPath} {path run : List Nat} {i j k o t id : Nat}
  {ids : List Nat} {e : Event}

/-! ### Runs -/

/-- The observations lead from an initial one along the first of the events. -/
structure Executes (g : Abstraction) (es : List Event) (run : List Nat) : Prop where
  starts : ∃ o x, run.head? = some o ∧ g.observation? o = some x ∧ x.isInitial = true
  follows : ∀ i o t, run[i]? = some o → run[i + 1]? = some t →
    ∃ e, es[i]? = some e ∧ (e, t) ∈ g.edges o

/-- The observation is a member of the block at the given place of the path. -/
def Inside (g : Abstraction) (path : List Nat) (i o : Nat) : Prop :=
  ∃ id b, path[i]? = some id ∧ g.block? id = some b ∧ o ∈ b.members

/-- The observations are a run along the events of the path and keep to its blocks. -/
structure Realizes (g : Abstraction) (p : BlockPath) (run : List Nat) : Prop
    extends Executes g p.events run where
  inside : ∀ i o, run[i]? = some o → g.Inside p.blocks i o

/-- The observation is the end of a run that keeps to the path, after as many events. -/
def Arrives (g : Abstraction) (p : BlockPath) (i o : Nat) : Prop :=
  ∃ run, g.Realizes p run ∧ run.length = i + 1 ∧ run.getLast? = some o

theorem inside_iff {b : Block} (hi : path[i]? = some id) (hb : g.block? id = some b) :
    g.Inside path i o ↔ o ∈ b.members := by
  constructor
  · intro h
    obtain ⟨j, c, hj, hc, ho⟩ := h
    have hsame : id = j := Option.some.inj (hi.symm.trans hj)
    subst hsame
    have hblock : b = c := Option.some.inj (hb.symm.trans hc)
    rw [hblock]
    exact ho
  · exact fun ho => ⟨id, b, hi, hb, ho⟩

theorem Grouped.inside_iff_parentOf (hg : g.Grouped) :
    g.Inside path i o ↔ ∃ id, path[i]? = some id ∧ g.parentOf o = some id := by
  constructor
  · intro h
    obtain ⟨id, b, hi, hb, ho⟩ := h
    exact ⟨id, hi, (hg.mem_iff hb).mp ho⟩
  · intro h
    obtain ⟨id, hi, ho⟩ := h
    obtain ⟨b, hb⟩ := hg.live ho
    exact ⟨id, b, hi, hb, (hg.mem_iff hb).mpr ho⟩

theorem getElem?_of_getElem?_take {n : Nat} (h : (run.take n)[i]? = some o) :
    run[i]? = some o := by
  rw [List.getElem?_take] at h
  split at h
  · exact h
  · cases h

theorem Realizes.take (h : g.Realizes p run) (n : Nat) : g.Realizes p (run.take (n + 1)) where
  starts := by
    obtain ⟨o, x, ho, hx, hinit⟩ := h.starts
    refine ⟨o, x, ?_, hx, hinit⟩
    rw [List.head?_take, if_neg (Nat.succ_ne_zero n)]
    exact ho
  follows := fun j a b ha hb =>
    h.follows j a b (getElem?_of_getElem?_take ha) (getElem?_of_getElem?_take hb)
  inside := fun j a ha => h.inside j a (getElem?_of_getElem?_take ha)

theorem arrives_iff : g.Arrives p i o ↔ ∃ run, g.Realizes p run ∧ run[i]? = some o := by
  constructor
  · intro h
    obtain ⟨run, hrun, hlength, hlast⟩ := h
    rw [List.getLast?_eq_getElem?, hlength, Nat.add_sub_cancel] at hlast
    exact ⟨run, hrun, hlast⟩
  · intro h
    obtain ⟨run, hrun, ho⟩ := h
    have hlt : i < run.length := (List.getElem?_eq_some_iff.mp ho).1
    have hlength : (run.take (i + 1)).length = i + 1 := by
      rw [List.length_take]
      omega
    refine ⟨run.take (i + 1), hrun.take i, hlength, ?_⟩
    rw [List.getLast?_eq_getElem?, hlength, Nat.add_sub_cancel,
      List.getElem?_take_of_lt (Nat.lt_succ_self i)]
    exact ho

theorem cases_of_getElem?_concat (h : (run ++ [t])[i]? = some o) :
    run[i]? = some o ∨ i = run.length ∧ o = t := by
  by_cases hi : i < run.length
  · rw [List.getElem?_append_left hi] at h
    exact Or.inl h
  · have hlt : i < (run ++ [t]).length := (List.getElem?_eq_some_iff.mp h).1
    rw [List.length_append, List.length_singleton] at hlt
    have hlast : i = run.length := by omega
    rw [hlast, List.getElem?_concat_length] at h
    injection h with h
    exact Or.inr ⟨hlast, h.symm⟩

/-- A run goes on by an edge on the next event into the next block. -/
theorem Realizes.snoc (h : g.Realizes p run) (hlength : run.length = i + 1)
    (ho : run[i]? = some o) (he : p.events[i]? = some e) (hedge : (e, t) ∈ g.edges o)
    (ht : g.Inside p.blocks (i + 1) t) : g.Realizes p (run ++ [t]) where
  starts := by
    obtain ⟨a, x, ha, hx, hinit⟩ := h.starts
    refine ⟨a, x, ?_, hx, hinit⟩
    rw [List.head?_append, ha]
    rfl
  follows := by
    intro j a b ha hb
    rcases cases_of_getElem?_concat hb with hb | ⟨hj, hb⟩
    · have hlt : j + 1 < run.length := (List.getElem?_eq_some_iff.mp hb).1
      rw [List.getElem?_append_left (by omega)] at ha
      exact h.follows j a b ha hb
    · -- The step is the new one.
      have hji : j = i := by omega
      rw [hji, List.getElem?_append_left (by omega), ho] at ha
      injection ha with ha
      rw [← ha, hb, hji]
      exact ⟨e, he, hedge⟩
  inside := by
    intro j a ha
    rcases cases_of_getElem?_concat ha with ha | ⟨hj, ha⟩
    · exact h.inside j a ha
    · rw [ha, hj, hlength]
      exact ht

/-! ### Where runs end -/

theorem arrives_zero_iff : g.Arrives p 0 o ↔
    g.Inside p.blocks 0 o ∧ ∃ x, g.observation? o = some x ∧ x.isInitial = true := by
  constructor
  · intro h
    obtain ⟨run, hrun, ho⟩ := arrives_iff.mp h
    obtain ⟨a, x, ha, hx, hinit⟩ := hrun.starts
    rw [List.head?_eq_getElem?, ho] at ha
    injection ha with ha
    subst ha
    exact ⟨hrun.inside 0 o ho, x, hx, hinit⟩
  · intro h
    obtain ⟨hin, x, hx, hinit⟩ := h
    refine arrives_iff.mpr ⟨[o], ⟨⟨⟨o, x, rfl, hx, hinit⟩, ?_⟩, ?_⟩, rfl⟩
    · intro j a b _ hb
      cases hb
    · intro j a ha
      cases j with
      | zero =>
        injection ha with ha
        subst ha
        exact hin
      | succ j => cases ha

theorem arrives_succ_iff : g.Arrives p (i + 1) t ↔ ∃ o e, g.Arrives p i o ∧
    p.events[i]? = some e ∧ (e, t) ∈ g.edges o ∧ g.Inside p.blocks (i + 1) t := by
  constructor
  · intro h
    obtain ⟨run, hrun, ht⟩ := arrives_iff.mp h
    have hlt : i + 1 < run.length := (List.getElem?_eq_some_iff.mp ht).1
    have ho : run[i]? = some run[i] := List.getElem?_eq_getElem (by omega)
    obtain ⟨e, he, hedge⟩ := hrun.follows i run[i] t ho ht
    exact ⟨run[i], e, arrives_iff.mpr ⟨run, hrun, ho⟩, he, hedge, hrun.inside (i + 1) t ht⟩
  · intro h
    obtain ⟨o, e, ⟨run, hrun, hlength, hlast⟩, he, hedge, hin⟩ := h
    rw [List.getLast?_eq_getElem?, hlength, Nat.add_sub_cancel] at hlast
    refine ⟨run ++ [t], hrun.snoc hlength hlast he hedge hin, ?_, List.getLast?_concat⟩
    rw [List.length_append, hlength, List.length_singleton]

theorem Arrives.inside (h : g.Arrives p i o) : g.Inside p.blocks i o := by
  obtain ⟨run, hrun, ho⟩ := arrives_iff.mp h
  exact hrun.inside i o ho

/-- A run that has come so far has passed all places before. -/
theorem Arrives.before (h : g.Arrives p j t) (hij : i ≤ j) : ∃ o, g.Arrives p i o := by
  obtain ⟨run, hrun, ht⟩ := arrives_iff.mp h
  have hlt : j < run.length := (List.getElem?_eq_some_iff.mp ht).1
  exact ⟨run[i], arrives_iff.mpr ⟨run, hrun, List.getElem?_eq_getElem (by omega)⟩⟩

/-! ### Walks -/

/-- The blocks of the path are there, and there is an event for each step. -/
structure Spans (g : Abstraction) (p : BlockPath) (id : Nat) (ids : List Nat) : Prop where
  blocks_eq : p.blocks = id :: ids
  length_le : ids.length ≤ p.events.length
  exists_block : ∀ i ∈ p.blocks, ∃ b, g.block? i = some b

theorem Spans.length_blocks (hp : g.Spans p id ids) : p.blocks.length = ids.length + 1 := by
  rw [hp.blocks_eq, List.length_cons]

theorem Spans.length_steps (hp : g.Spans p id ids) : p.steps.length = ids.length := by
  have hle := hp.length_le
  rw [BlockPath.steps, hp.blocks_eq, List.tail_cons, List.length_zip]
  omega

theorem Spans.matched_eq (hp : g.Spans p id ids) : p.matched = ids.length := by
  rw [BlockPath.matched, hp.length_blocks, Nat.add_sub_cancel]

theorem Spans.exists_at (hp : g.Spans p id ids) (hi : i ≤ ids.length) :
    ∃ q b, p.blocks[i]? = some q ∧ g.block? q = some b := by
  have hlt : i < p.blocks.length := by
    rw [hp.length_blocks]
    omega
  obtain ⟨b, hb⟩ := hp.exists_block p.blocks[i] (List.getElem_mem hlt)
  exact ⟨p.blocks[i], b, List.getElem?_eq_getElem hlt, hb⟩

theorem getElem?_steps_eq_some_iff : p.steps[i]? = some (e, j) ↔
    p.events[i]? = some e ∧ p.blocks[i + 1]? = some j := by
  rw [BlockPath.steps, List.getElem?_zip_eq_some, List.getElem?_tail]

/-- The list is the set of the numbers with the property. -/
structure Lists (s : List Nat) (property : Nat → Prop) : Prop where
  sorted : Ascending.Sorted s
  mem_iff : ∀ o, o ∈ s ↔ property o

theorem Lists.ne_nil_iff {s : List Nat} {property : Nat → Prop} (h : Lists s property) :
    s ≠ [] ↔ ∃ o, property o := by
  constructor
  · intro hne
    obtain ⟨o, ho⟩ := List.exists_mem_of_ne_nil s hne
    exact ⟨o, (h.mem_iff o).mp ho⟩
  · intro hsome
    obtain ⟨o, ho⟩ := hsome
    exact List.ne_nil_of_mem ((h.mem_iff o).mpr ho)

/-- The observations are those at which runs end after as many events. There is none only
if nothing begins the path. -/
structure Gathers (g : Abstraction) (p : BlockPath) (i : Nat) (reached : List Nat) : Prop
    extends Lists reached (g.Arrives p i) where
  start_of_nil : reached = [] → i = 0

theorem mem_image {reached : List Nat} {target : Block} :
    t ∈ g.image reached e target ↔
      ∃ o ∈ reached, (e, t) ∈ g.edges o ∧ t ∈ target.members := by
  simp only [image, Ascending.mem_ofList, List.mem_flatMap, List.mem_map, List.mem_filter,
    Bool.and_eq_true, beq_iff_eq, List.contains_iff_mem, Prod.exists]
  constructor
  · rintro ⟨o, ho, f, u, ⟨hedge, hf, hu⟩, ht⟩
    subst hf ht
    exact ⟨o, ho, hedge, hu⟩
  · rintro ⟨o, ho, hedge, ht⟩
    exact ⟨o, ho, e, t, ⟨hedge, rfl, ht⟩, rfl⟩

section

variable {reached last : List Nat} {later : List (List Nat)} {steps : List (Event × Nat)}
  {d : Block} {step : Nat}

theorem Gathers.image (h : g.Gathers p k reached) (he : p.events[k]? = some e)
    (hj : p.blocks[k + 1]? = some j) (hd : g.block? j = some d) :
    Lists (g.image reached e d) (g.Arrives p (k + 1)) where
  sorted := Ascending.sorted_ofList _
  mem_iff := by
    intro t
    rw [mem_image, arrives_succ_iff]
    constructor
    · intro hmem
      obtain ⟨o, ho, hedge, ht⟩ := hmem
      exact ⟨o, e, (h.mem_iff o).mp ho, he, hedge, (inside_iff hj hd).mpr ht⟩
    · intro harrives
      obtain ⟨o, f, ho, hf, hedge, ht⟩ := harrives
      have hfe : f = e := Option.some.inj (hf.symm.trans he)
      subst hfe
      exact ⟨o, (h.mem_iff o).mpr ho, hedge, (inside_iff hj hd).mp ht⟩

theorem walkFrom_none (hd : g.block? j = some d) (hnone : g.image reached e d = []) :
    g.walkFrom reached ((e, j) :: steps) = .ok (.stuck 0 reached) := by
  rw [walkFrom, block_eq_ok_iff.mpr hd]
  show (if (g.image reached e d).isEmpty then _ else _) = _
  rw [if_pos (List.isEmpty_iff.mpr hnone)]
  rfl

/-- The outcome of the steps after the first, with the first before it. -/
theorem walkFrom_cons (hd : g.block? j = some d) (hsome : g.image reached e d ≠ []) :
    g.walkFrom reached ((e, j) :: steps) =
      (g.walkFrom (g.image reached e d) steps).map fun
        | .stuck step last => .stuck (step + 1) last
        | .realized later => .realized (reached :: later) := by
  rw [walkFrom, block_eq_ok_iff.mpr hd]
  show (if (g.image reached e d).isEmpty then _ else _) = _
  rw [if_neg (fun h => hsome (List.isEmpty_iff.mp h))]
  cases g.walkFrom (g.image reached e d) steps with
  | error fault => rfl
  | ok w => cases w <;> rfl

/-- The steps are those from number `k` on, and the observations are the ends of runs there.
What is returned is about the places from `k` on. -/
theorem Spans.walkFrom (hp : g.Spans p id ids) (hk : k ≤ ids.length)
    (hsteps : p.steps.drop k = steps) (hreached : g.Gathers p k reached) :
    (∃ step last, g.walkFrom reached steps = .ok (.stuck step last) ∧ k + step < ids.length ∧
      g.Gathers p (k + step) last ∧ ∀ o, ¬g.Arrives p (k + step + 1) o) ∨
    ∃ all, g.walkFrom reached steps = .ok (.realized all) ∧ k + all.length = ids.length + 1 ∧
      ∀ i r, all[i]? = some r → g.Gathers p (k + i) r := by
  induction steps generalizing k reached with
  | nil =>
    have hle : p.steps.length ≤ k := List.drop_eq_nil_iff.mp hsteps
    rw [hp.length_steps] at hle
    refine Or.inr ⟨[reached], rfl, by rw [List.length_singleton]; omega, fun i r hr => ?_⟩
    cases i with
    | zero =>
      injection hr with hr
      rw [← hr]
      exact hreached
    | succ i => cases hr
  | cons x steps ih =>
    obtain ⟨e, j⟩ := x
    have hhead : p.steps[k]? = some (e, j) := by
      rw [← List.head?_drop, hsteps, List.head?_cons]
    have hrest : p.steps.drop (k + 1) = steps := by
      rw [← List.tail_drop, hsteps, List.tail_cons]
    have hlt : k < p.steps.length := (List.getElem?_eq_some_iff.mp hhead).1
    rw [hp.length_steps] at hlt
    obtain ⟨he, hj⟩ := getElem?_steps_eq_some_iff.mp hhead
    obtain ⟨d, hd⟩ := hp.exists_block j (List.mem_of_getElem? hj)
    have himage := hreached.image he hj hd
    by_cases hnone : g.image reached e d = []
    · left
      refine ⟨0, reached, walkFrom_none hd hnone, hlt, hreached, fun t ht => ?_⟩
      exact himage.ne_nil_iff.mpr ⟨t, ht⟩ hnone
    · have hnext : g.Gathers p (k + 1) (g.image reached e d) :=
        ⟨himage, fun h => absurd h hnone⟩
      rcases ih hlt hrest hnext with ⟨step, last, hw, hstep, hlast, hno⟩ | ⟨all, hw, hall, hat⟩
      · left
        have hsame : k + 1 + step = k + (step + 1) := by omega
        rw [hsame] at hstep hlast hno
        refine ⟨step + 1, last, ?_, hstep, hlast, hno⟩
        rw [walkFrom_cons hd hnone, hw]
        rfl
      · right
        refine ⟨reached :: all, ?_, ?_, fun i r hr => ?_⟩
        · rw [walkFrom_cons hd hnone, hw]
          rfl
        · rw [List.length_cons]
          omega
        · cases i with
          | zero =>
            injection hr with hr
            rw [← hr]
            exact hreached
          | succ i =>
            have hsame : k + 1 + i = k + (i + 1) := by omega
            rw [← hsame]
            exact hat i r hr

end

/-- The members of the first block that a walk begins with. -/
def beginners (g : Abstraction) (b : Block) : List Nat :=
  b.members.filter fun o => (g.observation? o).any (·.isInitial)

theorem mem_filter_iff {b : Block} {kind : Observation → Bool} :
    (o ∈ b.members.filter fun o => (g.observation? o).any kind) ↔
      o ∈ b.members ∧ ∃ x, g.observation? o = some x ∧ kind x = true := by
  rw [List.mem_filter, Option.any_eq_true]

/-- A walk is stuck at the first block from which no run goes on, or else returns the ends of
the runs in every block. -/
theorem Spans.walk (hg : g.Grouped) (hp : g.Spans p id ids) :
    (∃ i last, g.walk p = .ok (.stuck i last) ∧ i < ids.length ∧ g.Gathers p i last ∧
      ∀ o, ¬g.Arrives p (i + 1) o) ∨
    ∃ all, g.walk p = .ok (.realized all) ∧ all.length = ids.length + 1 ∧
      ∀ i r, all[i]? = some r → g.Gathers p i r := by
  obtain ⟨q, b, hq, hb⟩ := hp.exists_at (Nat.zero_le _)
  have hhead : p.blocks.headD 0 = q := by
    rw [List.headD_eq_head?_getD, List.head?_eq_getElem?, hq, Option.getD_some]
  have hwalk : g.walk p = g.walkFrom (g.beginners b) p.steps := by
    unfold Abstraction.walk
    rw [hhead, block_eq_ok_iff.mpr hb]
    rfl
  have hstart : g.Gathers p 0 (g.beginners b) := by
    refine ⟨⟨(hg.fits hb).sorted.sublist List.filter_sublist, fun o => ?_⟩, fun _ => rfl⟩
    rw [beginners, mem_filter_iff, arrives_zero_iff, inside_iff hq hb]
  have hspec := hp.walkFrom (Nat.zero_le _) rfl hstart
  simp only [Nat.zero_add] at hspec
  rw [hwalk]
  exact hspec

end ProtocolInference.Abstraction
