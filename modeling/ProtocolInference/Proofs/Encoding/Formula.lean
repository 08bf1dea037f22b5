import Mathlib.Data.Nat.Find
import ProtocolInference.Proofs.Encoding.Codes
import ProtocolInference.Proofs.Encoding.Terminal

/-!
# What the formula of an invariant says

A formula is read from its text with one operator between two formulas at most, so brackets alone
tell how it is built. It speaks about the values that a variable has along a sequence of events:
zero at first, then the code of the last event, and the last value forever. So a moment stands
for the place of the last event before it, and two moments for two places in the same order, but
also for one and the same place. Main statement: `formula_exact`.
-/

namespace ProtocolInference

namespace Formula

variable {α β : Type} {v : Nat → β → Prop} {g : α → β} {f : Formula α} {t : Nat}

/-- Whether a formula holds at a moment, if `v` tells which atoms hold when. -/
def Holds (v : Nat → α → Prop) : Formula α → Nat → Prop
  | atom a, t => v t a
  | not f, t => ¬Holds v f t
  | implies f g, t => Holds v f t → Holds v g t
  | or f g, t => Holds v f t ∨ Holds v g t
  | always f, t => ∀ u, t ≤ u → Holds v f u
  | eventually f, t => ∃ u, t ≤ u ∧ Holds v f u
  | holdsUntil f g, t => ∃ u, t ≤ u ∧ Holds v g u ∧ ∀ w, t ≤ w → w < u → Holds v f w

def map (g : α → β) : Formula α → Formula β
  | atom a => atom (g a)
  | not f => not (map g f)
  | implies f h => implies (map g f) (map g h)
  | or f h => or (map g f) (map g h)
  | always f => always (map g f)
  | eventually f => eventually (map g f)
  | holdsUntil f h => holdsUntil (map g f) (map g h)

theorem holds_map : (f.map g).Holds v t ↔ f.Holds (fun u a => v u (g a)) t := by
  induction f generalizing t <;> simp_all [map, Holds]

/-! ### Reading a formula -/

/-- The parts of a word: what opens a formula, the word itself, and what closes formulas. -/
def partsOf (w : String) : List String :=
  let body := w.toList.dropWhile fun c => c = '(' ∨ c = '!'
  (w.toList.takeWhile fun c => c = '(' ∨ c = '!').map String.singleton ++
    String.ofList (body.takeWhile (· ≠ ')')) :: (body.dropWhile (· ≠ ')')).map String.singleton

def tokens (s : String) : List String := (Text.words s).flatMap partsOf

/-- What an operator makes of the formulas on its two sides. -/
def joined : String → Option (Formula String → Formula String → Formula String)
  | "->" => some implies
  | "||" => some or
  | "U" => some holdsUntil
  | _ => none

mutual

/-- Reads a comparison, a formula in brackets, or an operator ahead of one of these. -/
def readOne : Nat → List String → Option (Formula String × List String)
  | 0, _ => none
  | n + 1, "!" :: ws => (readOne n ws).map fun x => (not x.1, x.2)
  | n + 1, "[]" :: ws => (readOne n ws).map fun x => (always x.1, x.2)
  | n + 1, "<>" :: ws => (readOne n ws).map fun x => (eventually x.1, x.2)
  | n + 1, "(" :: ws =>
    match readTwo n ws with
    | some (f, ")" :: rest) => some (f, rest)
    | _ => none
  | _ + 1, "recentEvent.type" :: "==" :: name :: ws => some (atom name, ws)
  | _ + 1, _ => none

/-- Reads one such formula, or two with an operator between them. -/
def readTwo : Nat → List String → Option (Formula String × List String)
  | 0, _ => none
  | n + 1, ws =>
    match readOne n ws with
    | some (f, w :: rest) =>
      match joined w with
      | some join => (readOne n rest).map fun x => (join f x.1, x.2)
      | none => some (f, w :: rest)
    | r => r

end

/-- The formula with the given text, whose atoms are the names that are compared with. -/
def read (s : String) : Option (Formula String) :=
  match readTwo (2 * (tokens s).length) (tokens s) with
  | some (f, []) => some f
  | _ => none

end Formula

namespace Promela

open Text

variable {invariants : List Invariant} {i : Invariant} {codes : Codes} {e f : Event}
  {es : List Event} {k t : Nat} {name : String}

theorem partsOf_append {t : String} (h : IsName name) (ht : ∀ c ∈ t.toList, c = ')') :
    Formula.partsOf (name ++ t) = name :: t.toList.map String.singleton := by
  have hopen : ∀ c ∈ (name ++ t).toList, decide (c = '(' ∨ c = '!') = false := by
    intro c hc
    rw [String.toList_append, List.mem_append] at hc
    apply decide_eq_false
    rcases hc with hc | hc
    · rintro (rfl | rfl)
      · exact h.not_mem (by decide) hc
      · exact h.not_mem (by decide) hc
    · rw [ht c hc]
      decide
  have hname : ∀ c ∈ name.toList, decide (c ≠ ')') = true := by
    intro c hc
    apply decide_eq_true
    rintro rfl
    exact h.not_mem (by decide) hc
  have hopening : (name ++ t).toList.takeWhile (fun c => c = '(' ∨ c = '!') = [] ∧
      (name ++ t).toList.dropWhile (fun c => c = '(' ∨ c = '!') = (name ++ t).toList := by
    cases hw : (name ++ t).toList with
    | nil => exact ⟨rfl, rfl⟩
    | cons c cs =>
      rw [hw] at hopen
      have hc := hopen c List.mem_cons_self
      exact ⟨List.takeWhile_cons_of_neg (by simp [hc]), List.dropWhile_cons_of_neg (by simp [hc])⟩
  have hclosing : t.toList.takeWhile (fun c => c ≠ ')') = [] ∧
      t.toList.dropWhile (fun c => c ≠ ')') = t.toList := by
    cases hw : t.toList with
    | nil => exact ⟨rfl, rfl⟩
    | cons c cs =>
      rw [hw] at ht
      simp [ht c]
  unfold Formula.partsOf
  dsimp only
  rw [hopening.1, hopening.2, String.toList_append, List.takeWhile_append_of_pos hname,
    List.dropWhile_append_of_pos hname, hclosing.1, hclosing.2, List.append_nil,
    String.ofList_toList]
  rfl

theorem tokens_intercalate {ws : List String} (hne : ws ≠ []) (h : ∀ w ∈ ws, ' ' ∉ w.toList) :
    Formula.tokens (String.intercalate " " ws) = ws.flatMap Formula.partsOf := by
  rw [Formula.tokens, words_intercalate hne h]

/-- The words of the formula of an invariant. -/
def formulaWords (i : Invariant) : List String :=
  let first := codeName i.first
  let second := codeName i.second
  match i.kind with
  | .alwaysFollowedBy => ["[]", "((recentEvent.type", "==", first ++ ")", "->", "<>",
      "(recentEvent.type", "==", second ++ "))"]
  | .neverFollowedBy => ["[]", "((recentEvent.type", "==", first ++ ")", "->", "[]",
      "!(recentEvent.type", "==", second ++ "))"]
  | .alwaysPrecedes => ["(!(recentEvent.type", "==", second ++ ")", "U",
      "(recentEvent.type", "==", first ++ "))", "||", "[]", "!(recentEvent.type", "==",
      second ++ ")"]
  | .eventually => ["<>", "(recentEvent.type", "==", second ++ ")"]

theorem happened_eq (e : Event) :
    happened e = "(recentEvent.type" ++ (" " ++ ("==" ++ (" " ++ (codeName e ++ ")")))) := by
  have hsplit : "(recentEvent.type == " = "(recentEvent.type" ++ (" " ++ ("==" ++ " ")) := by
    apply String.toList_injective
    simp
  unfold happened
  rw [hsplit]
  simp only [toString_string, String.append_assoc]

theorem display_formula (i : Invariant) :
    (formula i).display happened = String.intercalate " " (formulaWords i) := by
  have halways : "[] " = "[]" ++ " " := rfl
  have heventually : "<> " = "<>" ++ " " := rfl
  have hbranch : " -> " = " " ++ ("->" ++ " ") := rfl
  have huntil : " U " = " " ++ ("U" ++ " ") := rfl
  have hor : " || " = " " ++ ("||" ++ " ") := rfl
  have hopen : ∀ t : String, "(" ++ ("(recentEvent.type" ++ t) = "((recentEvent.type" ++ t ∧
      "!" ++ ("(recentEvent.type" ++ t) = "!(recentEvent.type" ++ t ∧
      "(" ++ ("!(recentEvent.type" ++ t) = "(!(recentEvent.type" ++ t := by
    intro t
    refine ⟨?_, ?_, ?_⟩ <;> apply String.toList_injective <;> simp
  have hend : ")" ++ ")" = "))" := rfl
  cases h : i.kind <;>
    simp only [formula, formulaWords, h, Formula.display, happened_eq, halways, heventually, hbranch,
      huntil, hor, String.intercalate_cons_cons, String.intercalate_singleton, String.append_assoc,
      hopen, hend]

/-- The parts of these words. -/
def formulaTokens (i : Invariant) : List String :=
  let first := codeName i.first
  let second := codeName i.second
  match i.kind with
  | .alwaysFollowedBy => ["[]", "(", "(", "recentEvent.type", "==", first, ")", "->", "<>", "(",
      "recentEvent.type", "==", second, ")", ")"]
  | .neverFollowedBy => ["[]", "(", "(", "recentEvent.type", "==", first, ")", "->", "[]", "!", "(",
      "recentEvent.type", "==", second, ")", ")"]
  | .alwaysPrecedes => ["(", "!", "(", "recentEvent.type", "==", second, ")", "U", "(",
      "recentEvent.type", "==", first, ")", ")", "||", "[]", "!", "(", "recentEvent.type", "==",
      second, ")"]
  | .eventually => ["<>", "(", "recentEvent.type", "==", second, ")"]

theorem tokens_formula (hfirst : IsName i.first.label) (hsecond : IsName i.second.label) :
    Formula.tokens ((formula i).display happened) = formulaTokens i := by
  have hname := isName_codeName hfirst
  have hname' := isName_codeName hsecond
  have hblank := hname.not_mem (show continuesIdentifier ' ' = false by decide)
  have hblank' := hname'.not_mem (show continuesIdentifier ' ' = false by decide)
  have hone : ∀ {s : String}, IsName s → Formula.partsOf (s ++ ")") = [s, ")"] :=
    fun hs => partsOf_append hs (by simp)
  have htwo : ∀ {s : String}, IsName s → Formula.partsOf (s ++ "))") = [s, ")", ")"] :=
    fun hs => partsOf_append hs (by simp)
  have hparts : (formulaWords i).flatMap Formula.partsOf = formulaTokens i := by
    cases h : i.kind <;>
      simp only [formulaWords, formulaTokens, h, List.flatMap_cons, hone hname, hone hname',
        htwo hname, htwo hname'] <;> rfl
  rw [display_formula, ← hparts]
  apply tokens_intercalate
  · cases h : i.kind <;> simp [formulaWords, h]
  · cases h : i.kind <;> simp [formulaWords, h, hblank, hblank']

/-- The text of the formula is read as that formula. -/
theorem read_formula (hfirst : IsName i.first.label) (hsecond : IsName i.second.label) :
    Formula.read ((formula i).display happened) = some ((formula i).map codeName) := by
  rw [Formula.read, tokens_formula hfirst hsecond]
  cases h : i.kind <;> simp only [formula, formulaTokens, h] <;> rfl

/-! ### What the variable shows -/

/-- The value of the variable after so many of the events. It keeps the last one. -/
def recent (codes : Codes) (es : List Event) (moment : Nat) : Nat :=
  match (es.take moment).getLast? with
  | some e => constant codes (noted codes e)
  | none => 0

/-- Whether the formula of an invariant holds from the start. -/
def Met (codes : Codes) (i : Invariant) (es : List Event) : Prop :=
  ((formula i).map codeName).Holds (fun t name => recent codes es t = constant codes name) 0

/-- Different events have different constants. -/
def Distinct (codes : Codes) : Prop :=
  ∀ x ∈ codes, ∀ y ∈ codes,
    constant codes (codeName x.1) = constant codes (codeName y.1) → x.1 = y.1

/-- The codes of events that fit a system differ. -/
theorem distinct_codesOf (processes : Nat) (channels : List Channel)
    (hfit : ∀ e ∈ eventsOf invariants, e.validate processes channels = .ok ()) :
    Distinct (codesOf invariants) := by
  intro x hx y hy h
  rw [constant_codesOf hfit hx, constant_codesOf hfit hy] at h
  exact eq_of_mem_codesOf hx hy h

/-- Whether an event is the last one before a moment. -/
def Latest (es : List Event) (t : Nat) (e : Event) : Prop :=
  ∃ k, k + 1 = min t es.length ∧ es[k]? = some e

theorem getLast?_take_eq_some_iff : (es.take t).getLast? = some e ↔ Latest es t e := by
  rw [List.getLast?_eq_getElem?, List.length_take, List.getElem?_take]
  constructor
  · intro h
    split at h
    · obtain ⟨hlt, -⟩ := List.getElem?_eq_some_iff.mp h
      exact ⟨min t es.length - 1, by omega, h⟩
    · cases h
  · rintro ⟨k, hk, hget⟩
    rw [← hk, Nat.add_sub_cancel, if_pos (by omega)]
    exact hget

theorem constant_ne_zero (h : f ∈ eventsOf invariants) :
    constant (codesOf invariants) (codeName f) ≠ 0 := by
  have hsome : (((codesOf invariants).map fun x => (codeName x.1, x.2)).lookup
      (codeName f)).isSome = true := by
    rw [← map_fst_codesOf] at h
    obtain ⟨x, hx, rfl⟩ := List.mem_map.mp h
    exact List.lookup_isSome_iff.mpr ⟨_, List.mem_map_of_mem hx, beq_self_eq_true _⟩
  obtain ⟨code, hcode⟩ := Option.isSome_iff_exists.mp hsome
  obtain ⟨before, after, hsplit, -⟩ := List.lookup_eq_some_iff.mp hcode
  have hmem : (codeName f, code) ∈ (codesOf invariants).map fun x => (codeName x.1, x.2) := by
    rw [hsplit]
    exact List.mem_append_right _ List.mem_cons_self
  obtain ⟨x, hx, heq⟩ := List.mem_map.mp hmem
  have hpos := (mem_codesOf.mp hx).1
  rw [constant_eq_lookup, hcode, Option.getD_some, ← (Prod.mk.inj heq).2]
  exact Nat.ne_of_gt hpos

/-- The condition on an event holds while that event is the last one. -/
theorem recent_eq_iff (hdistinct : Distinct (codesOf invariants)) (hf : f ∈ eventsOf invariants) :
    recent (codesOf invariants) es t = constant (codesOf invariants) (codeName f) ↔
      Latest es t f := by
  rw [← getLast?_take_eq_some_iff, recent]
  cases (es.take t).getLast? with
  | none => simp [(constant_ne_zero hf).symm]
  | some e =>
    rw [Option.some_inj]
    dsimp only
    by_cases he : e ∈ (codesOf invariants).map (·.1)
    · rw [noted_of_mem he]
      refine ⟨fun h => ?_, fun h => by rw [h]⟩
      rw [← map_fst_codesOf] at hf
      obtain ⟨x, hx, rfl⟩ := List.mem_map.mp he
      obtain ⟨y, hy, rfl⟩ := List.mem_map.mp hf
      exact hdistinct x hx y hy h
    · rw [constant_noted_of_not_mem he]
      refine iff_of_false (constant_ne_zero hf).symm fun h => he ?_
      rw [h, map_fst_codesOf]
      exact hf

/-! ### Moments and places -/

theorem latest_succ (h : es[k]? = some e) : Latest es (k + 1) e := by
  obtain ⟨hlt, -⟩ := List.getElem?_eq_some_iff.mp h
  exact ⟨k, by omega, h⟩

theorem always_followed_iff : (∀ t, 0 ≤ t → Latest es t e → ∃ u, t ≤ u ∧ Latest es u f) ↔
    ∀ k : Nat, es[k]? = some e → ∃ l, k ≤ l ∧ es[l]? = some f := by
  constructor
  · intro h k hk
    obtain ⟨u, hu, l, hl, hget⟩ := h (k + 1) (Nat.zero_le _) (latest_succ hk)
    obtain ⟨hlt, -⟩ := List.getElem?_eq_some_iff.mp hk
    exact ⟨l, by omega, hget⟩
  · rintro h t - ⟨k, hk, hget⟩
    obtain ⟨l, hl, hget'⟩ := h k hget
    obtain ⟨hlt, -⟩ := List.getElem?_eq_some_iff.mp hget'
    exact ⟨max t (l + 1), by omega, l, by omega, hget'⟩

theorem never_followed_iff : (∀ t, 0 ≤ t → Latest es t e → ∀ u, t ≤ u → ¬Latest es u f) ↔
    ∀ k l : Nat, k ≤ l → es[k]? = some e → es[l]? ≠ some f := by
  constructor
  · intro h k l hl hk hget
    exact h (k + 1) (Nat.zero_le _) (latest_succ hk) (l + 1) (by omega) (latest_succ hget)
  · rintro h t - ⟨k, hk, hget⟩ u hu ⟨l, hl, hget'⟩
    exact h k l (by omega) hget hget'

theorem always_precedes_iff :
    ((∃ t, 0 ≤ t ∧ Latest es t e ∧ ∀ u, 0 ≤ u → u < t → ¬Latest es u f) ∨
      ∀ t, 0 ≤ t → ¬Latest es t f) ↔
    ∀ l : Nat, es[l]? = some f → ∃ k, k ≤ l ∧ es[k]? = some e := by
  constructor
  · rintro (⟨t, -, ⟨k, hk, hget⟩, hbefore⟩ | hnever) l hl
    · refine ⟨k, ?_, hget⟩
      by_contra hlate
      exact hbefore (l + 1) (Nat.zero_le _) (by omega) (latest_succ hl)
    · exact absurd (latest_succ hl) (hnever _ (Nat.zero_le _))
  · intro h
    by_cases hoccurs : ∃ k : Nat, es[k]? = some e
    · -- the first occurrence of `e`
      refine Or.inl ⟨Nat.find hoccurs + 1, Nat.zero_le _, latest_succ (Nat.find_spec hoccurs), ?_⟩
      rintro u - hu ⟨l, hl, hget⟩
      obtain ⟨k, hk, hget'⟩ := h l hget
      exact Nat.find_min hoccurs (by omega) hget'
    · refine Or.inr ?_
      rintro t - ⟨l, -, hget⟩
      obtain ⟨k, -, hget'⟩ := h l hget
      exact hoccurs ⟨k, hget'⟩

theorem eventually_iff : (∃ t, 0 ≤ t ∧ Latest es t f) ↔ ∃ l : Nat, es[l]? = some f := by
  constructor
  · rintro ⟨t, -, l, -, hget⟩
    exact ⟨l, hget⟩
  · rintro ⟨l, hl⟩
    exact ⟨l + 1, Nat.zero_le _, latest_succ hl⟩

/-! ### What an invariant says -/

/-- What an invariant says about a sequence of events, if `before k l` tells that place `k` counts
as earlier than place `l`. -/
def Respects (before : Nat → Nat → Prop) (i : Invariant) (es : List Event) : Prop :=
  match i.kind with
  | .alwaysFollowedBy => ∀ k : Nat, es[k]? = some i.first → ∃ l, before k l ∧ es[l]? = some i.second
  | .neverFollowedBy => ∀ k l, before k l → es[k]? = some i.first → es[l]? ≠ some i.second
  | .alwaysPrecedes => ∀ l : Nat, es[l]? = some i.second → ∃ k, before k l ∧ es[k]? = some i.first
  | .eventually => ∃ l : Nat, es[l]? = some i.second

theorem met_iff (hdistinct : Distinct (codesOf invariants)) (hi : i ∈ invariants) :
    Met (codesOf invariants) i es ↔ Respects (· ≤ ·) i es := by
  have hfirst : i.first ∈ eventsOf invariants :=
    mem_eventsOf.mpr ⟨i, hi, by simp [Invariant.involves]⟩
  have hsecond : i.second ∈ eventsOf invariants :=
    mem_eventsOf.mpr ⟨i, hi, by simp [Invariant.involves]⟩
  cases h : i.kind <;>
    simp only [Met, Formula.holds_map, Respects, h, formula, Formula.Holds,
      recent_eq_iff hdistinct hfirst, recent_eq_iff hdistinct hsecond]
  · exact always_followed_iff
  · exact always_precedes_iff
  · exact never_followed_iff
  · exact eventually_iff

/-- Places of different events differ. -/
theorem respects_lt_iff (hne : i.first ≠ i.second) :
    Respects (· < ·) i es ↔ Respects (· ≤ ·) i es := by
  have hlt : ∀ {k l : Nat}, es[k]? = some i.first → es[l]? = some i.second → (k < l ↔ k ≤ l) := by
    intro k l hk hl
    refine ⟨Nat.le_of_lt, fun hle => lt_of_le_of_ne hle ?_⟩
    rintro rfl
    exact hne (Option.some.inj (hk.symm.trans hl))
  cases h : i.kind <;> simp only [Respects, h]
  · exact forall₂_congr fun k hk => exists_congr fun l => and_congr_left fun hl => hlt hk hl
  · exact forall₂_congr fun l hl => exists_congr fun k => and_congr_left fun hk => hlt hk hl
  · constructor
    · intro h k l hle hk hl
      exact h k l ((hlt hk hl).mpr hle) hk hl
    · intro h k l hlate hk hl
      exact h k l (Nat.le_of_lt hlate) hk hl

/-- The formula of an invariant holds along a sequence if and only if the sequence respects the
invariant, where an event counts as one of its own earlier and later occurrences. Of two different
events the places are never the same, so there it is a strictly earlier or later one. -/
theorem formula_exact (hdistinct : Distinct (codesOf invariants)) (hi : i ∈ invariants)
    (hencoding : i.encoding = none) :
    (∀ number : Nat, property number i =
      s!"ltl inv{number} \x7b {(formula i).display happened} \x7d\n") ∧
    (IsName i.first.label → IsName i.second.label →
      Formula.read ((formula i).display happened) = some ((formula i).map codeName)) ∧
    ∀ es, (Met (codesOf invariants) i es ↔ Respects (· ≤ ·) i es) ∧
      (i.first ≠ i.second → (Met (codesOf invariants) i es ↔ Respects (· < ·) i es)) := by
  refine ⟨fun number => ?_, read_formula, fun es => ⟨met_iff hdistinct hi, fun hne => ?_⟩⟩
  · simp only [property, hencoding]
  · rw [met_iff hdistinct hi, respects_lt_iff hne]

/-- A message is sent over a channel. -/
def sending : Event := .send "m" ⟨0, 1, 0, false⟩

/-- The message is received. -/
def receiving : Event := .receive "m" ⟨0, 1, 0, false⟩

/-- What is sent is always to be received. -/
def delivery : Invariant where
  kind := .alwaysFollowedBy
  first := sending
  second := receiving

theorem distinct_delivery : Distinct (codesOf [delivery]) :=
  distinct_codesOf 2 [⟨0, 1, 0, false⟩] (by decide)

/-- Both sends are followed by a receive, unless the last event is a send. -/
theorem formula_exact_delivery : Distinct (codesOf [delivery]) ∧ delivery ∈ [delivery] ∧
    delivery.encoding = none ∧
    Formula.read ((formula delivery).display happened) = some ((formula delivery).map codeName) ∧
    Met (codesOf [delivery]) delivery [sending, sending, receiving] ∧
    ¬Met (codesOf [delivery]) delivery [sending, receiving, sending] := by
  have hmem : delivery ∈ [delivery] := List.mem_cons_self
  obtain ⟨-, hread, hmet⟩ := formula_exact distinct_delivery hmem rfl
  refine ⟨distinct_delivery, hmem, rfl, hread (by decide) (by decide), ?_, ?_⟩
  · rw [(hmet _).2 (by decide)]
    rintro (_ | _ | _ | k) hk
    · exact ⟨2, by omega, rfl⟩
    · exact ⟨2, by omega, rfl⟩
    · cases hk
    · cases hk
  · rw [(hmet _).2 (by decide)]
    intro h
    obtain ⟨l, hl, hget⟩ := h 2 rfl
    obtain ⟨hlt, -⟩ := List.getElem?_eq_some_iff.mp hget
    simp only [List.length_cons, List.length_nil] at hlt
    omega

/-- A step of a process. -/
def work : Event := .internal "work" 0

/-- The step is always to be followed by itself. -/
def again : Invariant where
  kind := .alwaysFollowedBy
  first := work
  second := work

theorem distinct_again : Distinct (codesOf [again]) :=
  distinct_codesOf 1 [] (by decide)

/-- The formula of `again` holds along a single step, which no step follows. -/
theorem met_again_work : Distinct (codesOf [again]) ∧ again.encoding = none ∧
    ¬(Met (codesOf [again]) again [work] ↔ Respects (· < ·) again [work]) := by
  refine ⟨distinct_again, rfl, fun h => ?_⟩
  have hmet : Met (codesOf [again]) again [work] := by
    rw [met_iff distinct_again List.mem_cons_self]
    exact fun k hk => ⟨k, Nat.le_refl k, hk⟩
  obtain ⟨l, hl, hget⟩ := h.mp hmet 0 rfl
  obtain ⟨hlt, -⟩ := List.getElem?_eq_some_iff.mp hget
  simp only [List.length_singleton] at hlt
  omega

end Promela

end ProtocolInference
