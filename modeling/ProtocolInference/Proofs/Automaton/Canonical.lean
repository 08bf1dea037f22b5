import ProtocolInference.Proofs.Automaton.Building

/-!
# What minimisation leaves

States that agree have to be one state, and once they are one further states agree. What has
to be one in the end is the least equivalence that relates all states which agree up to it.
Minimisation makes each of its classes one state, the one with the least number. So does
merging two states that agree, one pair after another, in whatever order, until no two agree.
Main statement: `minimize_canonical`.
-/

namespace ProtocolInference.Automaton

variable {a b c : Automaton} {r : Nat → Nat → Prop} {f g : Nat → Nat} {s t u v : Nat}
  {x y : State}

/-! ### States that have to be one -/

/-- The states have the same flags, and each has, up to the relation of their targets, the
transitions of the other. -/
structure AgreeUpTo (r : Nat → Nat → Prop) (x y : State) : Prop where
  initial : x.initial = y.initial
  accept : x.accept = y.accept
  forth : ∀ e u, (e, u) ∈ x.transitions → ∃ v, (e, v) ∈ y.transitions ∧ r u v
  back : ∀ e v, (e, v) ∈ y.transitions → ∃ u, (e, u) ∈ x.transitions ∧ r u v

/-- An equivalence that relates all states which agree up to it. -/
structure Identifies (a : Automaton) (r : Nat → Nat → Prop) : Prop where
  equivalence : Equivalence r
  agree : ∀ x ∈ a.states, ∀ y ∈ a.states, AgreeUpTo r x y → r x.id y.id

def Indistinct (a : Automaton) (s t : Nat) : Prop := ∀ r, a.Identifies r → r s t

/-- The least number of the states that are indistinct from the given one. -/
structure Least (a : Automaton) (s v : Nat) : Prop where
  state : ∃ x ∈ a.states, x.id = v
  indistinct : a.Indistinct s v
  le : ∀ x ∈ a.states, a.Indistinct s x.id → v ≤ x.id

theorem AgreeUpTo.mono {q : Nat → Nat → Prop} (h : AgreeUpTo r x y)
    (hrq : ∀ u v, r u v → q u v) : AgreeUpTo q x y where
  initial := h.initial
  accept := h.accept
  forth e u hm := (h.forth e u hm).imp fun v hv => ⟨hv.1, hrq u v hv.2⟩
  back e v hm := (h.back e v hm).imp fun u hu => ⟨hu.1, hrq u v hu.2⟩

theorem AgreeUpTo.symm (h : AgreeUpTo r x y) (hr : ∀ u v, r u v → r v u) : AgreeUpTo r y x where
  initial := h.initial.symm
  accept := h.accept.symm
  forth e v hm := (h.back e v hm).imp fun u hu => ⟨hu.1, hr u v hu.2⟩
  back e u hm := (h.forth e u hm).imp fun v hv => ⟨hv.1, hr u v hv.2⟩

theorem Indistinct.refl (a : Automaton) (s : Nat) : a.Indistinct s s :=
  fun _ hr => hr.equivalence.refl s

theorem Indistinct.symm (h : a.Indistinct s t) : a.Indistinct t s :=
  fun r hr => hr.equivalence.symm (h r hr)

theorem Indistinct.trans (h : a.Indistinct s t) (h' : a.Indistinct t u) : a.Indistinct s u :=
  fun r hr => hr.equivalence.trans (h r hr) (h' r hr)

theorem identifies_indistinct (a : Automaton) : a.Identifies a.Indistinct where
  equivalence := ⟨Indistinct.refl a, Indistinct.symm, Indistinct.trans⟩
  agree x hx y hy hxy r hr := hr.agree x hx y hy (hxy.mono fun _ _ huv => huv r hr)

theorem indistinct_of_agree (hx : x ∈ a.states) (hy : y ∈ a.states) (h : agree x y = true) :
    a.Indistinct x.id y.id := by
  obtain ⟨hinitial, haccept, htransitions⟩ := agree_iff.mp h
  refine (identifies_indistinct a).agree x hx y hy ⟨hinitial, haccept, ?_, ?_⟩
  · exact fun e u hm => ⟨u, htransitions ▸ hm, .refl a u⟩
  · exact fun e v hm => ⟨v, htransitions ▸ hm, .refl a v⟩

theorem Least.unique (h : a.Least s u) (h' : a.Least s v) : u = v := by
  obtain ⟨x, hx, hxid⟩ := h.state
  obtain ⟨y, hy, hyid⟩ := h'.state
  have huv : u ≤ v := hyid ▸ h.le y hy (hyid ▸ h'.indistinct)
  have hvu : v ≤ u := hxid ▸ h'.le x hx (hxid ▸ h.indistinct)
  omega

/-! ### Merges that are forced -/

/-- The merge sends no state to a greater number, and only to one that is indistinct. -/
structure Condenses (f : Nat → Nat) (a b : Automaton) : Prop extends Merged f a b where
  le : ∀ x ∈ a.states, f x.id ≤ x.id
  forced : ∀ x ∈ a.states, a.Indistinct x.id (f x.id)

theorem Condenses.refl (a : Automaton) : Condenses id a a where
  toMerged := .refl a
  le _ _ := le_rfl
  forced x _ := .refl a x.id

theorem Condenses.indistinct_target (h : Condenses f a b) (ha : a.WellFormed) (hx : x ∈ a.states)
    {e : Event} (hm : (e, u) ∈ x.transitions) : a.Indistinct u (f u) := by
  obtain ⟨y, hy, hid⟩ := ha.targets x hx e u hm
  rw [← hid]
  exact h.forced y hy

/-- A transition is followed by a state if the image of the one is followed by that of the
other. -/
theorem Condenses.forth (h : Condenses f a b) (ha : a.WellFormed) (hb : b.WellFormed)
    {p q : State} (hp : p ∈ a.states) (hq : q ∈ a.states) (hx : x ∈ b.states) (hy : y ∈ b.states)
    (hpx : x.id = f p.id) (hqy : y.id = f q.id) (hxy : AgreeUpTo a.Indistinct x y) {e : Event}
    (hm : (e, u) ∈ p.transitions) : ∃ v, (e, v) ∈ q.transitions ∧ a.Indistinct u v := by
  obtain ⟨-, -, hptransitions⟩ := h.image_eq hb hp hx hpx
  obtain ⟨-, -, hqtransitions⟩ := h.image_eq hb hq hy hqy
  obtain ⟨v, hv, huv⟩ := hxy.forth e (f u) ((hptransitions e (f u)).mpr ⟨u, hm, rfl⟩)
  obtain ⟨w, hw, hwv⟩ := (hqtransitions e v).mp hv
  rw [← hwv] at huv
  have hgoes := h.indistinct_target ha hp hm
  have hcomes := h.indistinct_target ha hq hw
  exact ⟨w, hw, (hgoes.trans huv).trans hcomes.symm⟩

/-- What is indistinct after a forced merge was so before. -/
theorem Condenses.identifies (h : Condenses f a b) (ha : a.WellFormed) (hb : b.WellFormed) :
    b.Identifies a.Indistinct where
  equivalence := (identifies_indistinct a).equivalence
  agree := by
    intro x hx y hy hxy
    obtain ⟨hfx, p, hp, hpid⟩ := h.survivor x hx
    obtain ⟨hfy, q, hq, hqid⟩ := h.survivor y hy
    have hpx : x.id = f p.id := by rw [hpid, hfx]
    have hqy : y.id = f q.id := by rw [hqid, hfy]
    obtain ⟨hxinitial, hxaccept, -⟩ := h.image_eq hb hp hx hpx
    obtain ⟨hyinitial, hyaccept, -⟩ := h.image_eq hb hq hy hqy
    have hyx := hxy.symm fun _ _ => Indistinct.symm
    rw [← hpid, ← hqid]
    refine (identifies_indistinct a).agree p hp q hq ⟨?_, ?_, ?_, ?_⟩
    · rw [← hxinitial, ← hyinitial, hxy.initial]
    · rw [← hxaccept, ← hyaccept, hxy.accept]
    · intro e u hm
      exact h.forth ha hb hp hq hx hy hpx hqy hxy hm
    · intro e v hm
      obtain ⟨u, hu, hvu⟩ := h.forth ha hb hq hp hy hx hqy hpx hyx hm
      exact ⟨u, hu, hvu.symm⟩

theorem Condenses.trans (h : Condenses f a b) (h' : Condenses g b c) (ha : a.WellFormed)
    (hb : b.WellFormed) : Condenses (g ∘ f) a c where
  toMerged := h.toMerged.trans h'.toMerged
  le := by
    intro x hx
    obtain ⟨y, hy, hid, -⟩ := h.image x hx
    have hfirst := h.le x hx
    have hsecond := h'.le y hy
    rw [hid] at hsecond
    exact hsecond.trans hfirst
  forced := by
    intro x hx
    obtain ⟨y, hy, hid, -⟩ := h.image x hx
    have hsecond := h'.forced y hy
    rw [hid] at hsecond
    exact (h.forced x hx).trans (hsecond _ (h.identifies ha hb))

theorem representative_le (ha : a.WellFormed) (hx : x ∈ a.states) :
    representative a.states x ≤ x.id := by
  have hself : agree x x = true := agree_iff.mpr ⟨rfl, rfl, rfl⟩
  obtain ⟨y, hy⟩ := Option.isSome_iff_exists.mp (List.find?_isSome.mpr ⟨x, hx, hself⟩)
  have hrep : representative a.states x = y.id := by simp [representative, hy]
  obtain ⟨-, before, after, hsplit, hnone⟩ := List.find?_eq_some_iff_append.mp hy
  rw [hrep]
  rw [hsplit] at hx
  rcases List.mem_append.mp hx with hx | hx
  · have hnot := hnone x hx
    rw [hself] at hnot
    cases hnot
  · rcases List.mem_cons.mp hx with hx | hx
    · rw [hx]
    · have hascending := ha.ascending
      rw [hsplit, List.map_append, List.map_cons] at hascending
      have hafter := (List.pairwise_cons.mp (List.pairwise_append.mp hascending).2.1).1
      exact (hafter x.id (List.mem_map_of_mem hx)).le

theorem condenses_collapsed (ha : a.WellFormed) : Condenses (fold a.states) a a.collapsed where
  toMerged := merged_collapsed ha
  le x hx := by
    rw [fold_id ha.nodup hx]
    exact representative_le ha hx
  forced x hx := by
    obtain ⟨y, hy, hagree, hid, -⟩ := exists_representative hx
    rw [fold_id ha.nodup hx, ← hid]
    exact indistinct_of_agree hx hy hagree

theorem exists_condenses_minimize (ha : a.WellFormed) : ∃ f, Condenses f a a.minimize.1 := by
  refine (ha.minimize_induction (P := fun b => ∃ f, Condenses f a b) ⟨id, .refl a⟩ ?_).2
  intro b hb hp
  obtain ⟨f, hf⟩ := hp
  exact ⟨fold b.states ∘ f, hf.trans (condenses_collapsed hb) ha hb⟩

/-! ### One merge after another -/

/-- The automaton with one state merged into another. -/
def mergeInto (a : Automaton) (keep gone : Nat) : Automaton :=
  { a with states := (a.states.filter (·.id ≠ gone)).map fun x =>
      { x with transitions := redirect [(gone, keep)] x.transitions } }

/-- So many merges of a state into one with a smaller number that agrees with it lead from
one automaton to the other. -/
inductive MergesTo : Automaton → Nat → Automaton → Prop where
  | nil (a : Automaton) : MergesTo a 0 a
  | cons {a b : Automaton} {n : Nat} {x y : State} : x ∈ a.states → y ∈ a.states → x.id < y.id →
      agree x y = true → MergesTo (a.mergeInto x.id y.id) n b → MergesTo a (n + 1) b

def substitute (keep gone i : Nat) : Nat := if i = gone then keep else i

theorem mem_redirect_pair {keep gone : Nat} {ts : Transitions} {e : Event} :
    (e, v) ∈ redirect [(gone, keep)] ts ↔ ∃ u, (e, u) ∈ ts ∧ substitute keep gone u = v := by
  have hlookup : ∀ u, (List.lookup u [(gone, keep)]).getD u = substitute keep gone u := by
    intro u
    by_cases hu : u = gone
    · simp [substitute, hu]
    · simp [List.lookup_cons, substitute, hu, beq_false_of_ne hu]
  simp only [mem_redirect, hlookup]

theorem mem_mergeInto {keep gone : Nat} : y ∈ (a.mergeInto keep gone).states ↔
    ∃ x ∈ a.states, x.id ≠ gone ∧
      y = { x with transitions := redirect [(gone, keep)] x.transitions } := by
  simp only [mergeInto, List.mem_map, List.mem_filter, decide_eq_true_eq, and_assoc]
  simp only [eq_comm (a := y)]

theorem condenses_mergeInto (ha : a.WellFormed) (hx : x ∈ a.states) (hy : y ∈ a.states)
    (hlt : x.id < y.id) (h : agree x y = true) :
    Condenses (substitute x.id y.id) a (a.mergeInto x.id y.id) := by
  obtain ⟨hinitial, haccept, htransitions⟩ := agree_iff.mp h
  have hstays : ∀ z : State, z.id ≠ y.id → substitute x.id y.id z.id = z.id := by
    intro z hz
    simp [substitute, hz]
  have hgoes : substitute x.id y.id y.id = x.id := by simp [substitute]
  have hcases : ∀ z ∈ a.states, z = y ∨ z.id ≠ y.id := by
    intro z hz
    by_cases hid : z.id = y.id
    · exact Or.inl (eq_of_id_eq ha.nodup hz hy hid)
    · exact Or.inr hid
  constructor
  case toMerged =>
    constructor
    case image =>
      intro z hz
      rcases hcases z hz with hzy | hne
      · refine ⟨_, mem_mergeInto.mpr ⟨x, hx, hlt.ne, rfl⟩, ?_, ?_, ?_, ?_⟩
        · rw [hzy, hgoes]
        · rw [hzy, ← hinitial]
        · rw [hzy, ← haccept]
        · intro e v
          rw [mem_redirect_pair, hzy, ← htransitions]
      · refine ⟨_, mem_mergeInto.mpr ⟨z, hz, hne, rfl⟩, (hstays z hne).symm, rfl, rfl, ?_⟩
        intro e v
        exact mem_redirect_pair
    case survivor =>
      intro z hz
      obtain ⟨w, hw, hne, hz⟩ := mem_mergeInto.mp hz
      rw [hz]
      exact ⟨hstays w hne, w, hw, rfl⟩
  case le =>
    intro z hz
    rcases hcases z hz with hzy | hne
    · rw [hzy, hgoes]
      exact hlt.le
    · rw [hstays z hne]
  case forced =>
    intro z hz
    rcases hcases z hz with hzy | hne
    · rw [hzy, hgoes]
      exact (indistinct_of_agree hx hy h).symm
    · rw [hstays z hne]
      exact .refl a z.id

theorem map_id_mergeInto (a : Automaton) (keep gone : Nat) :
    (a.mergeInto keep gone).states.map (·.id) = (a.states.map (·.id)).filter (· != gone) := by
  rw [mergeInto, List.map_map, List.filter_map]
  have hfilter : a.states.filter (fun x => decide (x.id ≠ gone)) =
      a.states.filter ((fun i => i != gone) ∘ State.id) := by
    refine List.filter_congr fun x _ => ?_
    simp [bne, ← Bool.beq_eq_decide_eq]
  exact congrArg (List.map State.id) hfilter

theorem WellFormed.mergeInto (ha : a.WellFormed) (hx : x ∈ a.states) (hy : y ∈ a.states)
    (hlt : x.id < y.id) (h : agree x y = true) : (a.mergeInto x.id y.id).WellFormed := by
  refine (condenses_mergeInto ha hx hy hlt h).wellFormed ha ?_ rfl
  rw [map_id_mergeInto]
  exact ha.ascending.filter _

theorem length_mergeInto (ha : a.WellFormed) (hy : y ∈ a.states) (keep : Nat) :
    (a.mergeInto keep y.id).states.length + 1 = a.states.length := by
  have hmem : y.id ∈ a.states.map (·.id) := List.mem_map_of_mem hy
  have hids := map_id_mergeInto a keep y.id
  rw [← ha.nodup.erase_eq_filter] at hids
  have hlength := congrArg List.length hids
  rw [List.length_map, List.length_erase_of_mem hmem, List.length_map] at hlength
  have hpos : 0 < a.states.length := List.length_pos_of_mem hy
  omega

theorem ordered_mergeInto (a : Automaton) (keep gone : Nat) :
    Ordered (a.mergeInto keep gone).states := by
  intro y hy
  obtain ⟨x, -, -, hxy⟩ := mem_mergeInto.mp hy
  rw [hxy]
  exact Ascending.sorted_ofList _

/-- What merges leave, and how many there are. -/
theorem MergesTo.spec {n : Nat} (h : a.MergesTo n b) (ha : a.WellFormed)
    (ho : Ordered a.states) : b.WellFormed ∧ Ordered b.states ∧ b.pid = a.pid ∧
      b.nextId = a.nextId ∧ b.states.length + n = a.states.length ∧ ∃ f, Condenses f a b := by
  induction h with
  | nil a => exact ⟨ha, ho, rfl, rfl, rfl, id, .refl a⟩
  | @cons a b n x y hx hy hlt hagree _ ih =>
    have hmerged := ha.mergeInto hx hy hlt hagree
    obtain ⟨hb, hob, hpid, hnext, hlength, f, hf⟩ := ih hmerged (ordered_mergeInto a x.id y.id)
    have hone := length_mergeInto ha hy x.id
    have hfirst := condenses_mergeInto ha hx hy hlt hagree
    exact ⟨hb, hob, hpid, hnext, by omega, _, hfirst.trans hf ha hmerged⟩

/-- Merges go on until no two states agree. -/
theorem exists_mergesTo_minimal (ha : a.WellFormed) (ho : Ordered a.states) :
    ∃ n b, a.MergesTo n b ∧ b.Minimal := by
  -- The induction is on the number of states, which a merge makes smaller.
  induction hn : a.states.length using Nat.strong_induction_on generalizing a with
  | _ size ih =>
    by_cases hminimal : a.Minimal
    · exact ⟨0, a, .nil a, hminimal⟩
    have hpair : ∃ x ∈ a.states, ∃ y ∈ a.states, x.id < y.id ∧ agree x y = true := by
      unfold Minimal at hminimal
      push Not at hminimal
      obtain ⟨x, hx, y, hy, hinitial, haccept, htransitions, hne⟩ := hminimal
      have hlist : x.transitions = y.transitions := (ho x hx).ext (ho y hy) htransitions
      have hagree : agree x y = true := agree_iff.mpr ⟨hinitial, haccept, hlist⟩
      have hid : x.id ≠ y.id := fun hid => hne (eq_of_id_eq ha.nodup hx hy hid)
      rcases Nat.lt_or_gt_of_ne hid with hlt | hgt
      · exact ⟨x, hx, y, hy, hlt, hagree⟩
      · exact ⟨y, hy, x, hx, hgt, agree_iff.mpr ⟨hinitial.symm, haccept.symm, hlist.symm⟩⟩
    obtain ⟨x, hx, y, hy, hlt, hagree⟩ := hpair
    have hone := length_mergeInto ha hy x.id
    obtain ⟨n, b, hmerges, hb⟩ := ih (a.mergeInto x.id y.id).states.length (by omega)
      (ha.mergeInto hx hy hlt hagree) (ordered_mergeInto a x.id y.id) rfl
    exact ⟨n + 1, b, .cons hx hy hlt hagree hmerges, hb⟩

/-! ### One state for every class -/

/-- The second automaton has, for every class of indistinct states of the first, the one with
the least number. It keeps its flags, and its transitions lead to the least of each class. -/
structure IsQuotient (a b : Automaton) : Prop where
  pid_eq : b.pid = a.pid
  nextId_eq : b.nextId = a.nextId
  ascending : (b.states.map (·.id)).Pairwise (· < ·)
  id_iff : ∀ v, (∃ y ∈ b.states, y.id = v) ↔ a.Least v v
  state : ∀ y ∈ b.states, ∃ x ∈ a.states, x.id = y.id ∧ y.initial = x.initial ∧
    y.accept = x.accept ∧ Ascending.Sorted y.transitions ∧
    ∀ e v, (e, v) ∈ y.transitions ↔ ∃ u, (e, u) ∈ x.transitions ∧ a.Least u v

/-- Where no two states agree any more, everything indistinct is one state. -/
theorem Condenses.eq_of_indistinct (h : Condenses f a b) (hminimal : b.Minimal)
    (hst : a.Indistinct s t) : f s = f t := by
  refine hst (fun s t => f s = f t) ⟨⟨fun _ => rfl, Eq.symm, Eq.trans⟩, ?_⟩
  intro x hx y hy hxy
  obtain ⟨p, hp, hpid, hpinitial, hpaccept, hptransitions⟩ := h.image x hx
  obtain ⟨q, hq, hqid, hqinitial, hqaccept, hqtransitions⟩ := h.image y hy
  have hpq : p = q := by
    refine hminimal p hp q hq ?_ ?_ ?_
    · rw [hpinitial, hqinitial, hxy.initial]
    · rw [hpaccept, hqaccept, hxy.accept]
    · intro z
      obtain ⟨e, v⟩ := z
      rw [hptransitions, hqtransitions]
      constructor
      · intro hm
        obtain ⟨u, hu, huv⟩ := hm
        obtain ⟨w, hw, huw⟩ := hxy.forth e u hu
        exact ⟨w, hw, huw.symm.trans huv⟩
      · intro hm
        obtain ⟨u, hu, huv⟩ := hm
        obtain ⟨w, hw, hwu⟩ := hxy.back e u hu
        exact ⟨w, hw, hwu.trans huv⟩
  show f x.id = f y.id
  rw [← hpid, ← hqid, hpq]

theorem Condenses.least (h : Condenses f a b) (hminimal : b.Minimal)
    (hx : x ∈ a.states) : a.Least x.id (f x.id) where
  state := by
    obtain ⟨y, hy, hid, -⟩ := h.image x hx
    obtain ⟨-, z, hz, hzid⟩ := h.survivor y hy
    exact ⟨z, hz, hzid.trans hid⟩
  indistinct := h.forced x hx
  le z hz hxz := by
    rw [h.eq_of_indistinct hminimal hxz]
    exact h.le z hz

theorem Condenses.isQuotient (h : Condenses f a b) (ha : a.WellFormed) (hb : b.WellFormed)
    (hminimal : b.Minimal) (ho : Ordered b.states) (hpid : b.pid = a.pid)
    (hnext : b.nextId = a.nextId) : IsQuotient a b where
  pid_eq := hpid
  nextId_eq := hnext
  ascending := hb.ascending
  id_iff := by
    intro v
    constructor
    · intro hv
      obtain ⟨y, hy, hid⟩ := hv
      obtain ⟨hf, x, hx, hxid⟩ := h.survivor y hy
      have hleast := h.least hminimal hx
      rw [hxid, hf, hid] at hleast
      exact hleast
    · intro hv
      obtain ⟨x, hx, hxid⟩ := hv.state
      obtain ⟨y, hy, hyid, -⟩ := h.image x hx
      have hleast := h.least hminimal hx
      rw [hxid] at hleast hyid
      exact ⟨y, hy, hyid.trans (hleast.unique hv)⟩
  state := by
    intro y hy
    obtain ⟨hf, x, hx, hxid⟩ := h.survivor y hy
    obtain ⟨hinitial, haccept, htransitions⟩ := h.image_eq hb hx hy (by rw [hxid, hf])
    refine ⟨x, hx, hxid, hinitial, haccept, ho y hy, fun e v => ?_⟩
    rw [htransitions]
    refine exists_congr fun u => and_congr_right fun hu => ?_
    obtain ⟨z, hz, hzid⟩ := ha.targets x hx e u hu
    have hleast := h.least hminimal hz
    rw [hzid] at hleast
    exact ⟨fun hv => hv ▸ hleast, fun hv => hleast.unique hv⟩

theorem IsQuotient.mem_of_mem (ha : a.WellFormed) (hb : IsQuotient a b) (hc : IsQuotient a c)
    (hx : x ∈ b.states) : x ∈ c.states := by
  obtain ⟨y, hy, hyx⟩ := (hc.id_iff x.id).mpr ((hb.id_iff x.id).mp ⟨x, hx, rfl⟩)
  obtain ⟨p, hp, hpid, hxinitial, hxaccept, hxsorted, hxtransitions⟩ := hb.state x hx
  obtain ⟨q, hq, hqid, hyinitial, hyaccept, hysorted, hytransitions⟩ := hc.state y hy
  have hpq : p = q := eq_of_id_eq ha.nodup hp hq (by rw [hpid, hqid, hyx])
  have htransitions : x.transitions = y.transitions := by
    refine hxsorted.ext hysorted fun z => ?_
    obtain ⟨e, v⟩ := z
    rw [hxtransitions, hytransitions, hpq]
  have hxy : x = y := by
    obtain ⟨id, initial, accept, transitions⟩ := x
    obtain ⟨id', initial', accept', transitions'⟩ := y
    simp_all
  rw [hxy]
  exact hy

theorem IsQuotient.unique (ha : a.WellFormed) (hb : IsQuotient a b) (hc : IsQuotient a c) :
    b = c := by
  refine eq_of_mem_states_iff hb.ascending hc.ascending (hb.pid_eq.trans hc.pid_eq.symm)
    (hb.nextId_eq.trans hc.nextId_eq.symm) fun x => ?_
  exact ⟨hb.mem_of_mem ha hc, hc.mem_of_mem ha hb⟩

theorem isQuotient_minimize (ha : a.WellFormed) (ho : Ordered a.states) :
    IsQuotient a a.minimize.1 := by
  obtain ⟨f, hf⟩ := exists_condenses_minimize ha
  exact hf.isQuotient ha ha.minimize (minimal_minimize ha ho) (ordered_collapseAll _ ho) rfl rfl

theorem MergesTo.trans {n m : Nat} (h : a.MergesTo n b) (h' : b.MergesTo m c) :
    a.MergesTo (n + m) c := by
  induction h with
  | nil a => simpa using h'
  | @cons a b n x y hx hy hlt hagree _ ih =>
    have hrest := ih h'
    rw [show n + 1 + m = n + m + 1 by omega]
    exact .cons hx hy hlt hagree hrest

/-- Whichever merges have been made, more of them lead to the minimised automaton. -/
theorem MergesTo.mergesTo_minimize {n : Nat} (h : a.MergesTo n b) (ha : a.WellFormed)
    (ho : Ordered a.states) : ∃ m, b.MergesTo m a.minimize.1 ∧
      a.minimize.1.states.length + (n + m) = a.states.length := by
  obtain ⟨hb, hob, -⟩ := h.spec ha ho
  obtain ⟨m, c, hrest, hminimal⟩ := exists_mergesTo_minimal hb hob
  obtain ⟨hc, hoc, hpid, hnext, hlength, f, hf⟩ := (h.trans hrest).spec ha ho
  have hquotient := hf.isQuotient ha hc hminimal hoc hpid hnext
  have heq : c = a.minimize.1 := hquotient.unique ha (isQuotient_minimize ha ho)
  rw [heq] at hrest hlength
  exact ⟨m, hrest, hlength⟩

theorem minimize_minimize (a : Automaton) : a.minimize.1.minimize = (a.minimize.1, 0) := by
  have hnone := merges_collapseAll a.states.length le_rfl
  have hstays : ∀ rounds, collapseAll rounds a.minimize.1.states = a.minimize.1.states := by
    intro rounds
    cases rounds with
    | zero => rfl
    | succ rounds => simp [collapseAll, minimize, hnone]
  have hround := hstays a.minimize.1.states.length
  rw [minimize, hround]
  simp

/-- What has to be one state is the least equivalence that relates all states which agree up to
it. Minimisation counts the states it takes away and leaves the quotient. Merges of one pair
after another, however chosen, can be continued to the same automaton, with as many merges in
all, and minimising again does nothing. -/
theorem minimize_canonical (h : a.Built) :
    (a.Identifies a.Indistinct ∧ ∀ r, a.Identifies r → ∀ s t, a.Indistinct s t → r s t) ∧
    a.minimize.1.states.length + a.minimize.2 = a.states.length ∧
    IsQuotient a a.minimize.1 ∧
    (∀ n b, a.MergesTo n b →
      ∃ m, n + m = a.minimize.2 ∧ b.MergesTo m a.minimize.1) ∧
    a.minimize.1.minimize = (a.minimize.1, 0) := by
  have ha := h.wellFormed
  have ho := h.ordered
  have hcount : ∀ k, a.minimize.1.states.length + k = a.states.length → k = a.minimize.2 := by
    intro k hk
    show k = a.states.length - a.minimize.1.states.length
    omega
  refine ⟨⟨identifies_indistinct a, fun r hr s t hst => hst r hr⟩, ?_,
    isQuotient_minimize ha ho, ?_, minimize_minimize a⟩
  · obtain ⟨m, -, hlength⟩ := (MergesTo.nil a).mergesTo_minimize ha ho
    rw [← hcount _ hlength]
    exact hlength
  · intro n b hmerges
    obtain ⟨m, hrest, hlength⟩ := hmerges.mergesTo_minimize ha ho
    exact ⟨m, hcount _ hlength, hrest⟩

/-- The branches go on where their ends do, so the second branch is not the least of its class.
Once the ends are one, it takes one more merge. -/
theorem minimize_canonical_fork : fork.Built ∧ fork.minimize.2 = 2 ∧ fork.Least 2 2 ∧
    ¬fork.Least 3 3 ∧ (fork.mergeInto 4 5).MergesTo 1 fork.minimize.1 := by
  obtain ⟨-, -, hquotient, horder, -⟩ := minimize_canonical built_fork
  have htwo : fork.minimize.2 = 2 := by decide +kernel
  have hkept : fork.minimize.1.states.map (·.id) = [1, 2, 4] := by decide +kernel
  have hends : fork.MergesTo 1 (fork.mergeInto 4 5) :=
    .cons (x := ⟨4, false, true, [(.internal "work" 0, 4)]⟩)
      (y := ⟨5, false, true, [(.internal "work" 0, 4)]⟩) (by decide +kernel) (by decide +kernel)
      (by decide) (by decide +kernel) (.nil _)
  obtain ⟨m, hm, hrest⟩ := horder 1 _ hends
  have hone : m = 1 := by omega
  rw [hone] at hrest
  refine ⟨built_fork, htwo, (hquotient.id_iff 2).mp ?_, fun hleast => ?_, hrest⟩
  · exact List.mem_map.mp (by rw [hkept]; decide)
  · have hmem := List.mem_map.mpr ((hquotient.id_iff 3).mpr hleast)
    rw [hkept] at hmem
    exact absurd hmem (by decide)

end ProtocolInference.Automaton
