import ProtocolInference.Proofs.Encoding.Promela
import ProtocolInference.Proofs.Order.Ascending

/-!
# Codes of the events of invariants

The events of the invariants are numbered from one on, and the number of an event is what its
name stands for in the text. The variable that notes events is a byte, so the first number that
it cannot keep is 256: it is kept as zero, which notes all events of no invariant. Up to there
the numbers can be told apart, and so can the events that fit a system, since their names are
different. Main statement: `codes_usable_iff`.
-/

namespace ProtocolInference.Promela

open Text

variable {invariants : List Invariant} {codes : Codes} {e f : Event} {code processes : Nat}
  {channels : List Channel}

/-- The events of the invariants, each once. -/
def eventsOf (invariants : List Invariant) : List Event :=
  Ascending.ofList (invariants.flatMap fun i => [i.first, i.second])

theorem mem_eventsOf :
    e ∈ eventsOf invariants ↔ ∃ i ∈ invariants, i.involves e = true := by
  rw [eventsOf, Ascending.mem_ofList, List.mem_flatMap]
  refine exists_congr fun i => and_congr_right fun _ => ?_
  simp only [List.mem_cons, List.not_mem_nil, or_false, Invariant.involves, Bool.or_eq_true,
    beq_iff_eq]
  exact or_congr eq_comm eq_comm

theorem nodup_eventsOf (invariants : List Invariant) : (eventsOf invariants).Nodup :=
  (Ascending.sorted_ofList _).nodup

theorem mem_codesOf : (e, code) ∈ codesOf invariants ↔
    1 ≤ code ∧ (eventsOf invariants)[code - 1]? = some e :=
  List.mk_mem_zipIdx_iff_le_and_getElem?_sub

theorem map_fst_codesOf (invariants : List Invariant) :
    (codesOf invariants).map (·.1) = eventsOf invariants :=
  List.zipIdx_map_fst _ _

theorem eq_of_mem_codesOf {x y : Event × Nat} (hx : x ∈ codesOf invariants)
    (hy : y ∈ codesOf invariants) (h : x.2 = y.2) : x.1 = y.1 := by
  have hx' := (mem_codesOf.mp hx).2
  have hy' := (mem_codesOf.mp hy).2
  rw [h, hy'] at hx'
  exact (Option.some.inj hx').symm

/-! ### What a byte keeps -/

/-- What a variable of eight bits keeps of a number. -/
def kept (code : Nat) : Nat := code % 256

/-- As they are kept, the codes differ from each other and from that of all other events. -/
structure Usable (codes : Codes) : Prop where
  ne_zero : ∀ x ∈ codes, kept x.2 ≠ 0
  eq_of_kept : ∀ x ∈ codes, ∀ y ∈ codes, kept x.2 = kept y.2 → x.1 = y.1

theorem kept_of_mem (hlt : (eventsOf invariants).length < 256) {x : Event × Nat}
    (hx : x ∈ codesOf invariants) : 1 ≤ x.2 ∧ kept x.2 = x.2 := by
  obtain ⟨hpos, hget⟩ := mem_codesOf.mp hx
  obtain ⟨hbound, -⟩ := List.getElem?_eq_some_iff.mp hget
  refine ⟨hpos, Nat.mod_eq_of_lt ?_⟩
  omega

/-- The code 256 is kept as zero. -/
theorem usable_codesOf_iff (invariants : List Invariant) :
    Usable (codesOf invariants) ↔ (eventsOf invariants).length < 256 := by
  constructor
  · intro h
    by_contra hge
    have hlt : 256 - 1 < (eventsOf invariants).length := by omega
    have hmem := mem_codesOf.mpr ⟨by omega, List.getElem?_eq_getElem hlt⟩
    exact h.ne_zero _ hmem (Nat.mod_self 256)
  · intro hlt
    constructor
    · intro x hx
      obtain ⟨hpos, hkept⟩ := kept_of_mem hlt hx
      omega
    · intro x hx y hy h
      rw [(kept_of_mem hlt hx).2, (kept_of_mem hlt hy).2] at h
      exact eq_of_mem_codesOf hx hy h

/-! ### Names and what they stand for -/

/-- The names that the text defines, with their numbers. -/
def constants (codes : Codes) : List (String × Nat) :=
  (otherEvent, 0) :: codes.map fun x => (codeName x.1, x.2)

/-- What a name stands for. -/
def constant (codes : Codes) (name : String) : Nat := ((constants codes).lookup name).getD 0

theorem codeName_ne_otherEvent (e : Event) : codeName e ≠ otherEvent := by
  intro h
  have hchars := congrArg String.toList h
  simp [codeName, otherEvent] at hchars

theorem constant_otherEvent (codes : Codes) : constant codes otherEvent = 0 := by
  simp [constant, constants]

theorem constant_eq_lookup (codes : Codes) (e : Event) : constant codes (codeName e) =
    ((codes.map fun x => (codeName x.1, x.2)).lookup (codeName e)).getD 0 := by
  have hother : (codeName e == otherEvent) = false := beq_false_of_ne (codeName_ne_otherEvent e)
  rw [constant, constants, List.lookup_cons, hother]

theorem constant_codeName (hcodes : ∀ x ∈ codes, codeName x.1 = codeName e → x.1 = e)
    (hnodup : (codes.map (·.1)).Nodup) (h : (e, code) ∈ codes) :
    constant codes (codeName e) = code := by
  have hlookup : (codes.map fun x => (codeName x.1, x.2)).lookup (codeName e) = some code := by
    induction codes with
    | nil => cases h
    | cons x codes ih =>
      obtain ⟨hx, hcodes'⟩ := List.forall_mem_cons.mp hcodes
      obtain ⟨hnot, hnodup'⟩ := List.nodup_cons.mp hnodup
      rw [List.map_cons, List.lookup_cons]
      rcases List.mem_cons.mp h with rfl | hmem
      · simp
      · have hne : (codeName e == codeName x.1) = false := by
          refine beq_false_of_ne fun heq => hnot ?_
          show x.1 ∈ _
          rw [hx heq.symm]
          exact List.mem_map_of_mem hmem
        rw [hne]
        exact ih hcodes' hnodup' hmem
  rw [constant_eq_lookup, hlookup, Option.getD_some]

theorem eq_of_codeName (he : e.validate processes channels = .ok ())
    (hf : f.validate processes channels = .ok ()) (h : codeName e = codeName f) : e = f := by
  apply Event.eq_of_token he hf
  apply String.toList_injective
  simpa [codeName] using congrArg String.toList h

theorem lookup_isSome_iff : (codes.lookup e).isSome = true ↔ e ∈ codes.map (·.1) := by
  rw [List.lookup_isSome_iff, List.mem_map]
  refine exists_congr fun x => and_congr_right fun _ => ?_
  rw [beq_iff_eq, eq_comm]

theorem constant_noted_of_not_mem (h : e ∉ codes.map (·.1)) :
    constant codes (noted codes e) = 0 := by
  rw [noted, if_neg (mt lookup_isSome_iff.mp h), constant_otherEvent]

theorem noted_of_mem (h : e ∈ codes.map (·.1)) : noted codes e = codeName e :=
  if_pos (lookup_isSome_iff.mpr h)

theorem constant_codesOf (hfit : ∀ e ∈ eventsOf invariants, e.validate processes channels = .ok ())
    (h : (e, code) ∈ codesOf invariants) :
    constant (codesOf invariants) (codeName e) = code := by
  have hmem : ∀ {x}, x ∈ codesOf invariants → x.1 ∈ eventsOf invariants := by
    intro x hx
    rw [← map_fst_codesOf]
    exact List.mem_map_of_mem hx
  apply constant_codeName
  · exact fun x hx heq => eq_of_codeName (hfit _ (hmem hx)) (hfit _ (hmem h)) heq
  · rw [map_fst_codesOf]
    exact nodup_eventsOf invariants
  · exact h

/-- The condition on an event is met after that event only. -/
theorem kept_noted_iff (hfit : ∀ e ∈ eventsOf invariants, e.validate processes channels = .ok ())
    (hlt : (eventsOf invariants).length < 256) (hf : f ∈ eventsOf invariants) :
    kept (constant (codesOf invariants) (noted (codesOf invariants) e)) =
      constant (codesOf invariants) (codeName f) ↔ e = f := by
  have hcode : ∀ g ∈ eventsOf invariants, ∃ code, (g, code) ∈ codesOf invariants := by
    intro g hg
    rw [← map_fst_codesOf] at hg
    obtain ⟨x, hx, rfl⟩ := List.mem_map.mp hg
    exact ⟨x.2, hx⟩
  obtain ⟨c, hc⟩ := hcode f hf
  obtain ⟨hpos, -⟩ := kept_of_mem hlt hc
  rw [constant_codesOf hfit hc]
  by_cases he : e ∈ eventsOf invariants
  · obtain ⟨d, hd⟩ := hcode e he
    rw [noted_of_mem (by rwa [map_fst_codesOf]), constant_codesOf hfit hd,
      (kept_of_mem hlt hd).2]
    constructor
    · exact fun h => eq_of_mem_codesOf hd hc h
    · rintro rfl
      rw [← constant_codesOf hfit hd, constant_codesOf hfit hc]
  · rw [constant_noted_of_not_mem (by rwa [map_fst_codesOf])]
    refine iff_of_false ?_ fun h => he (h ▸ hf)
    show kept 0 ≠ c
    rw [kept, Nat.zero_mod]
    omega

/-- Every event of the invariants has one code. As a byte keeps them, the codes can be told apart
if and only if there are fewer than 256 events, and then the condition on an event of a system is
met after that event only. -/
theorem codes_usable_iff (invariants : List Invariant) :
    (codesOf invariants).map (·.1) = eventsOf invariants ∧ (eventsOf invariants).Nodup ∧
    (∀ e, e ∈ eventsOf invariants ↔ ∃ i ∈ invariants, i.involves e = true) ∧
    (Usable (codesOf invariants) ↔ (eventsOf invariants).length < 256) ∧
    (Usable (codesOf invariants) → ∀ processes channels,
      (∀ e ∈ eventsOf invariants, e.validate processes channels = .ok ()) →
      ∀ e, ∀ f ∈ eventsOf invariants,
        kept (constant (codesOf invariants) (noted (codesOf invariants) e)) =
          constant (codesOf invariants) (codeName f) ↔ e = f) := by
  refine ⟨map_fst_codesOf invariants, nodup_eventsOf invariants, fun e => mem_eventsOf,
    usable_codesOf_iff invariants, ?_⟩
  intro husable processes channels hfit e f hf
  exact kept_noted_iff hfit ((usable_codesOf_iff invariants).mp husable) hf

/-- As many different steps of one process, each of which is to happen. -/
def several (count : Nat) : List Invariant :=
  (List.range count).map fun k => .eventually (.internal s!"e{k}" 0)

theorem length_eventsOf_several (count : Nat) : (eventsOf (several count)).length = count := by
  have hinj : Function.Injective fun k : Nat => Event.internal s!"e{k}" 0 := by
    intro j k h
    have hlabel := congrArg Event.label h
    exact eq_of_append_toString hlabel
  have hperm : (eventsOf (several count)).Perm
      ((List.range count).map fun k => Event.internal s!"e{k}" 0) := by
    refine (List.perm_ext_iff_of_nodup (nodup_eventsOf _) (List.nodup_range.map hinj)).mpr ?_
    intro e
    rw [mem_eventsOf]
    simp [several, Invariant.eventually, Invariant.involves]
  rw [hperm.length_eq, List.length_map, List.length_range]

/-- A byte keeps the codes of 255 events apart, but not those of 256. -/
theorem codes_usable_several : Usable (codesOf (several 255)) ∧ ¬Usable (codesOf (several 256)) := by
  obtain ⟨-, -, -, hfew, -⟩ := codes_usable_iff (several 255)
  obtain ⟨-, -, -, hmany, -⟩ := codes_usable_iff (several 256)
  rw [hfew, hmany, length_eventsOf_several, length_eventsOf_several]
  decide

end ProtocolInference.Promela
