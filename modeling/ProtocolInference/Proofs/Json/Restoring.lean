import ProtocolInference.Json.Decode
import ProtocolInference.Proofs.Json.Reading

/-!
# Records restored from their texts

A value is restored if the decoder gets it back from what was written. A field that
is left out then has the value of its default. Whether a written field could have been
left out as well shows when it is taken out of what was written.
-/

namespace ProtocolInference.Json

variable {α : Type} {decode : Decoder α} {j : Json} {x : α}

/-- The decoder restores `x` from `j`, and `j` can be written and read. -/
structure Restores (decode : Decoder α) (j : Json) (x : α) : Prop where
  plain : Plain j
  value : decode j = some x

theorem Restores.compact (h : Restores decode j x) : (parse j.compact).bind decode = some x := by
  rw [parse_compact h.plain]
  exact h.value

theorem Restores.indented (h : Restores decode j x) :
    (parse j.indented).bind decode = some x := by
  rw [parse_indented h.plain]
  exact h.value

theorem restores_list {encode : α → Json} {xs : List α}
    (h : ∀ x ∈ xs, Restores decode (encode x) x) :
    Restores (list decode) (.arr (xs.map encode)) xs where
  plain := by
    refine .arr fun item hitem => ?_
    obtain ⟨x, hx, rfl⟩ := List.mem_map.mp hitem
    exact (h x hx).plain
  value := by
    rw [list]
    induction xs with
    | nil => rfl
    | cons x xs ih =>
      have hhead := (h x (List.mem_cons_self ..)).value
      have htail := ih fun y hy => h y (List.mem_cons_of_mem _ hy)
      simp [List.mapM_cons, hhead, htail]

theorem restores_text (s : String) : Restores Json.text (.str s) s :=
  ⟨.str s, rfl⟩

theorem natural_nat {n : Nat} (h : n < 0x10000000000000000) : natural (.nat n) = some n :=
  if_pos h

theorem optional_of_ne_null (h : j ≠ .null) :
    Json.optional decode j = (decode j).map some := by
  cases j with
  | null => exact absurd rfl h
  | _ => rfl

/-- A field that is written only if it holds something is read back in either case. -/
theorem defaulting_optional {encode : α → Json} {o : Option α}
    (h : ∀ x ∈ o, Restores decode (encode x) x) (hne : ∀ x, encode x ≠ .null) :
    defaulting (Json.optional decode) none (o.map encode) = some o := by
  cases o with
  | none => rfl
  | some x =>
    have hvalue := (h x rfl).value
    rw [Option.map_some, defaulting, optional_of_ne_null (hne x), hvalue]
    rfl

theorem plain_obj {members : List (String × Json)} :
    Plain (.obj members) ↔ ∀ m ∈ members, Plain m.2 := by
  constructor
  · intro h
    cases h with
    | obj h => exact h
  · exact .obj

/-! ### Fields that are left out -/

/-- The names of the members of an object. -/
def names : Json → List String
  | .obj members => members.map (·.1)
  | _ => []

/-- An object without its members of the given name. -/
def without (name : String) : Json → Json
  | .obj members => .obj (members.filter (·.1 != name))
  | j => j

theorem without_eq_self {name : String} (h : name ∉ j.names) : j.without name = j := by
  cases j with
  | obj members =>
    refine congrArg Json.obj (List.filter_eq_self.mpr fun m hm => ?_)
    have hne : m.1 ≠ name := fun heq => h (heq ▸ List.mem_map_of_mem hm)
    exact bne_iff_ne.mpr hne
  | _ => rfl

theorem member_without (members : List (String × Json)) (name other : String) :
    member (members.filter (·.1 != name)) other =
      if other = name then some none else member members other := by
  have hnamed : named (members.filter (·.1 != name)) other =
      if other = name then [] else named members other := by
    rw [named, List.filter_filter]
    split
    case isTrue heq => simp [heq]
    case isFalse hne =>
      refine congrArg (List.map _) (List.filter_congr fun m _ => ?_)
      by_cases hm : m.1 = other
      · simp [hm, hne]
      · simp [hm]
  rw [member, hnamed]
  by_cases hname : other = name
  · simp only [if_pos hname]
  · simp only [if_neg hname, member]

/-- Without one member a record has the same fields but that one. -/
theorem record_without {fields : List String} {values : List (Option Json)}
    (h : record fields j = some values) (hobj : ∃ members, j = .obj members) (name : String) :
    record fields (j.without name) =
      some ((fields.zip values).map fun p => if p.1 = name then none else p.2) := by
  obtain ⟨members, rfl⟩ := hobj
  rw [record] at h
  rw [without, record]
  induction fields generalizing values with
  | nil => rfl
  | cons field fields ih =>
    rw [List.mapM_cons] at h ⊢
    simp only [bind, Option.bind_eq_some_iff, pure, Option.some.injEq] at h
    obtain ⟨value, hvalue, rest, hrest, rfl⟩ := h
    rw [member_without, ih hrest, hvalue]
    by_cases hname : field = name
    · simp [hname]
    · simp [hname]

/-- Of the given fields exactly those with `omitted` are left out of the object `j`, and
exactly those can be taken out of it so that `x` is restored all the same. -/
structure Omits (decode : Decoder α) (fields : List String) (j : Json) (x : α)
    (omitted : String → Prop) : Prop where
  names : ∀ name ∈ fields, name ∉ j.names ↔ omitted name
  restored : ∀ name ∈ fields, decode (j.without name) = some x ↔ omitted name

/-- A field that is left out is restored, so only the written ones have to be missed. -/
theorem Restores.omits (h : Restores decode j x) {fields : List String}
    {omitted : String → Prop} (hnames : ∀ name ∈ fields, name ∉ j.names ↔ omitted name)
    (hmissed : ∀ name ∈ fields, ¬omitted name → decode (j.without name) ≠ some x) :
    Omits decode fields j x omitted where
  names := hnames
  restored name hname := by
    constructor
    · intro hvalue
      by_contra hwritten
      exact hmissed name hname hwritten hvalue
    · intro homitted
      rw [without_eq_self ((hnames name hname).mpr homitted)]
      exact h.value

end ProtocolInference.Json
