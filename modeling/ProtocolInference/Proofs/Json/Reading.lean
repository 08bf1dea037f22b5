import Mathlib.Data.Nat.Digits.Defs
import ProtocolInference.Json.Printer
import ProtocolInference.Json.Reader

/-!
# Reading what was written

The machine that reads JSON texts gets back every value that is plain, that is,
built without an inexact number and without a value that is no text. This holds of
the compact and of the indented form alike: a text of either form takes the machine
from any place where a value may begin to a place right behind that value, whatever
stands around it, and the blanks of the indented form move it nowhere.
-/

namespace ProtocolInference.Json

variable {stack outer : List Frame} {mode : Mode} {text : List Char} {j : Json}

/-- A text of nothing but blanks, tabs and line breaks. -/
def Blank (text : List Char) : Prop :=
  ∀ c ∈ text, isSpace c = true

namespace Reader

@[simp]
theorem run_nil (r : Reader) : r.run [] = some r := rfl

theorem run_cons_of_step {r r' : Reader} {c : Char} (h : r.step c = some r') (cs : List Char) :
    r.run (c :: cs) = r'.run cs := by
  rw [run, h]

theorem run_append {r r' : Reader} {xs : List Char} (h : r.run xs = some r') (ys : List Char) :
    r.run (xs ++ ys) = r'.run ys := by
  induction xs generalizing r with
  | nil =>
    obtain rfl : r = r' := Option.some.inj h
    rfl
  | cons c cs ih =>
    rw [run] at h
    cases hstep : r.step c with
    | none => simp [hstep] at h
    | some next =>
      rw [hstep] at h
      rw [List.cons_append, run_cons_of_step hstep, ih h]

/-- Blanks leave a machine where it is that skips them. -/
theorem run_blanks {r : Reader} {blanks : List Char}
    (hskip : ∀ c, isSpace c = true → r.step c = some r) (h : Blank blanks) :
    r.run blanks = some r := by
  induction blanks with
  | nil => rfl
  | cons c cs ih =>
    rw [run_cons_of_step (hskip c (h c (List.mem_cons_self ..)))]
    exact ih fun d hd => h d (List.mem_cons_of_mem _ hd)

/-- The machine has just read the value `j` inside the given arrays and objects. It
may be behind the value or, after a number, still at its last digit. -/
structure Holds (r : Reader) (stack : List Frame) (j : Json) : Prop where
  step : ∀ c, isSpace c = true ∨ c = ',' ∨ c = ']' ∨ c = '}' → r.step c = afterValue stack j c
  result : stack = [] → r.result = some j

theorem afterValue_blank {c : Char} (h : isSpace c = true) :
    afterValue stack j c = some ⟨stack, .after j⟩ := by
  unfold afterValue
  rw [if_pos h]

theorem holds_after : Holds ⟨stack, .after j⟩ stack j where
  step c _ := rfl
  result h := by rw [h]; rfl

theorem Holds.run_blanks {r : Reader} {blanks : List Char} (h : r.Holds stack j)
    (hblanks : Blank blanks) :
    ∃ r', r.run blanks = some r' ∧ r'.Holds stack j := by
  cases blanks with
  | nil => exact ⟨r, rfl, h⟩
  | cons c cs =>
    have hc := hblanks c (List.mem_cons_self ..)
    have hstep : r.step c = some ⟨stack, .after j⟩ := by
      rw [h.step c (Or.inl hc), afterValue_blank hc]
    refine ⟨⟨stack, .after j⟩, ?_, holds_after⟩
    rw [run_cons_of_step hstep]
    exact Reader.run_blanks (fun d hd => afterValue_blank hd) fun d hd =>
      hblanks d (List.mem_cons_of_mem _ hd)

end Reader

open Reader

/-- Wherever a value may begin, also as the first item of an array, the machine reads
the text as the value `j`. -/
def Reads (text : List Char) (j : Json) : Prop :=
  ∀ stack mode, mode = .value ∨ mode = .firstItem →
    ∃ r, Reader.run ⟨stack, mode⟩ text = some r ∧ r.Holds stack j

/-! ### The beginning of a value -/

theorem step_begin (hmode : mode = .value ∨ mode = .firstItem) {c : Char}
    (hspace : isSpace c = false) (hclose : c ≠ ']') :
    Reader.step ⟨stack, mode⟩ c = beginValue stack c := by
  rcases hmode with rfl | rfl
  · simp only [Reader.step, hspace, Bool.false_eq_true, if_false]
  · simp only [Reader.step, hspace, Bool.false_eq_true, if_false, if_neg hclose]

theorem step_value_blank (hmode : mode = .value ∨ mode = .firstItem) {c : Char}
    (hspace : isSpace c = true) : Reader.step ⟨stack, mode⟩ c = some ⟨stack, mode⟩ := by
  rcases hmode with rfl | rfl
  · simp only [Reader.step, hspace, if_true]
  · simp only [Reader.step, hspace, if_true]

/-- Blanks may stand before a value. -/
theorem Reads.blanks (h : Reads text j) {blanks : List Char} (hblanks : Blank blanks) :
    Reads (blanks ++ text) j := by
  intro stack mode hmode
  obtain ⟨r, hrun, hholds⟩ := h stack mode hmode
  have hskip : Reader.run ⟨stack, mode⟩ blanks = some ⟨stack, mode⟩ :=
    run_blanks (fun c hc => step_value_blank hmode hc) hblanks
  exact ⟨r, by rw [run_append hskip, hrun], hholds⟩

/-- A text whose first character determines how the machine goes on. -/
theorem reads_of_begin {c : Char} {cs : List Char} (hspace : isSpace c = false) (hclose : c ≠ ']')
    (h : ∀ stack, ∃ r r', beginValue stack c = some r ∧ r.run cs = some r' ∧ r'.Holds stack j) :
    Reads (c :: cs) j := by
  intro stack mode hmode
  obtain ⟨r, r', hbegin, hrun, hholds⟩ := h stack
  refine ⟨r', ?_, hholds⟩
  rw [run_cons_of_step ((step_begin hmode hspace hclose).trans hbegin), hrun]

/-! ### Words -/

theorem reads_null : Reads ['n', 'u', 'l', 'l'] .null :=
  reads_of_begin (by decide) (by decide) fun _ => ⟨_, _, rfl, rfl, holds_after⟩

theorem reads_true : Reads ['t', 'r', 'u', 'e'] (.bool true) :=
  reads_of_begin (by decide) (by decide) fun _ => ⟨_, _, rfl, rfl, holds_after⟩

theorem reads_false : Reads ['f', 'a', 'l', 's', 'e'] (.bool false) :=
  reads_of_begin (by decide) (by decide) fun _ => ⟨_, _, rfl, rfl, holds_after⟩

/-! ### Natural numbers -/

/-- The number as the machine has it after the last digit of `n`. -/
def Numeral.natural (n : Nat) : Numeral :=
  { part := if n = 0 then .zero else .whole, mantissa := n }

theorem Numeral.value_natural (n : Nat) : (Numeral.natural n).value = some (.nat n) := by
  by_cases h : n = 0
  · rw [h]; rfl
  · simp [Numeral.value, Numeral.natural, h]

/-- A number ends with a blank, a comma or a bracket. -/
theorem Numeral.read_natural_of_end {c : Char} (n : Nat)
    (hc : isSpace c = true ∨ c = ',' ∨ c = ']' ∨ c = '}') :
    (Numeral.natural n).read c = none ∧ digitValue c = none := by
  have hcases : c = ' ' ∨ c = '\n' ∨ c = '\r' ∨ c = '\t' ∨ c = ',' ∨ c = ']' ∨ c = '}' := by
    simpa [isSpace, or_assoc] using hc
  by_cases h : n = 0
  · rcases hcases with rfl | rfl | rfl | rfl | rfl | rfl | rfl <;>
      simp [Numeral.read, Numeral.natural, digitValue, h]
  · rcases hcases with rfl | rfl | rfl | rfl | rfl | rfl | rfl <;>
      simp [Numeral.read, Numeral.natural, digitValue, h]

theorem holds_natural (n : Nat) :
    Reader.Holds ⟨stack, .number (Numeral.natural n)⟩ stack (.nat n) where
  step c hc := by
    obtain ⟨hread, hdigit⟩ := Numeral.read_natural_of_end n hc
    simp [Reader.step, hread, hdigit, Numeral.value_natural]
  result h := by
    rw [h]
    exact Numeral.value_natural n

theorem digitValue_digitChar {d : Nat} (h : d < 10) : digitValue d.digitChar = some d := by
  revert d; decide

/-- One more digit behind those of a number that is not zero. -/
theorem Numeral.read_digitChar {m d : Nat} (hm : m ≠ 0) (hd : d < 10) :
    (Numeral.natural m).read d.digitChar = some (Numeral.natural (m * 10 + d)) := by
  have hne : m * 10 + d ≠ 0 := by omega
  simp only [Numeral.read, Numeral.natural, if_neg hm, if_neg hne, digitValue_digitChar hd]

theorem beginValue_digitChar {d : Nat} (hd : d < 10) :
    beginValue stack d.digitChar = some ⟨stack, .number (Numeral.natural d)⟩ := by
  have hcases : d = 0 ∨ d = 1 ∨ d = 2 ∨ d = 3 ∨ d = 4 ∨ d = 5 ∨ d = 6 ∨ d = 7 ∨ d = 8 ∨ d = 9 := by
    omega
  rcases hcases with rfl | rfl | rfl | rfl | rfl | rfl | rfl | rfl | rfl | rfl <;> rfl

theorem digitChar_begins {d : Nat} (hd : d < 10) :
    isSpace d.digitChar = false ∧ d.digitChar ≠ ']' := by
  revert d; decide

theorem run_toDigits (hmode : mode = .value ∨ mode = .firstItem) (n : Nat) :
    Reader.run ⟨stack, mode⟩ (Nat.toDigits 10 n) =
      some ⟨stack, .number (Numeral.natural n)⟩ := by
  induction n using Nat.strong_induction_on with
  | _ n ih =>
    by_cases hlt : n < 10
    · obtain ⟨hspace, hclose⟩ := digitChar_begins hlt
      rw [Nat.toDigits_of_lt_base hlt, run_cons_of_step]
      · rfl
      · rw [step_begin hmode hspace hclose, beginValue_digitChar hlt]
    · have hstep := Numeral.read_digitChar (m := n / 10) (d := n % 10) (by omega) (by omega)
      rw [show n / 10 * 10 + n % 10 = n by omega] at hstep
      rw [Nat.toDigits_of_base_le (by omega) (by omega),
        run_append (ih (n / 10) (by omega)), run_cons_of_step]
      · rfl
      · simp only [Reader.step, hstep]

theorem reads_nat (n : Nat) : Reads (toString n).toList (.nat n) := by
  intro stack mode hmode
  refine ⟨_, ?_, holds_natural n⟩
  rw [Nat.toString_eq_repr, Nat.repr_eq_ofList_toDigits, String.toList_ofList]
  exact run_toDigits hmode n

/-! ### Strings -/

theorem hexValue_hexDigit {d : Nat} (h : d < 16) : hexValue (hexDigit d) = some d := by
  revert d; decide

section Strings

-- What is inside the quotation marks is read alike in a value and in a name.
variable {mk : Pending → Mode}
  (hmk : ∀ p c, ¬(p.escape = .none ∧ c = '"') →
    Reader.step ⟨stack, mk p⟩ c = (p.read c).map fun p => ⟨stack, mk p⟩)

include hmk

theorem run_pending {p p' : Pending} {c : Char} (hquote : ¬(p.escape = .none ∧ c = '"'))
    (hread : p.read c = some p') (rest : List Char) :
    Reader.run ⟨stack, mk p⟩ (c :: rest) = Reader.run ⟨stack, mk p'⟩ rest := by
  refine run_cons_of_step ?_ rest
  rw [hmk p c hquote, hread]
  rfl

/-- An escape of two characters adds the character that it stands for. -/
theorem run_short {done rest : List Char} {c d : Char} (hd : d ≠ 'u') (h : escaped d = some c) :
    Reader.run ⟨stack, mk { chars := done }⟩ ('\\' :: d :: rest) =
      Reader.run ⟨stack, mk { chars := c :: done }⟩ rest := by
  have hstart : Pending.read { chars := done } '\\' =
      some { chars := done, escape := .started } := rfl
  have hend : Pending.read { chars := done, escape := .started } d =
      some { chars := c :: done } := by
    simp only [Pending.read, if_neg hd, h]
    rfl
  rw [run_pending hmk (by simp) hstart, run_pending hmk (by simp) hend]

/-- An escape of four hexadecimal digits adds a control character. -/
theorem run_control {done rest : List Char} {c : Char} (hc : c.toNat < 0x20) :
    Reader.run ⟨stack, mk { chars := done }⟩
        ('\\' :: 'u' :: '0' :: '0' :: hexDigit (c.toNat / 16) :: hexDigit (c.toNat % 16) :: rest) =
      Reader.run ⟨stack, mk { chars := c :: done }⟩ rest := by
  have hhigh := hexValue_hexDigit (d := c.toNat / 16) (by omega)
  have hlow := hexValue_hexDigit (d := c.toNat % 16) (by omega)
  have h0 : Pending.read { chars := done } '\\' =
      some { chars := done, escape := .started } := rfl
  have h1 : Pending.read { chars := done, escape := .started } 'u' =
      some { chars := done, escape := .digits 0 0 } := rfl
  have h2 : Pending.read { chars := done, escape := .digits 0 0 } '0' =
      some { chars := done, escape := .digits 1 0 } := rfl
  have h3 : Pending.read { chars := done, escape := .digits 1 0 } '0' =
      some { chars := done, escape := .digits 2 0 } := rfl
  have h4 : Pending.read { chars := done, escape := .digits 2 0 } (hexDigit (c.toNat / 16)) =
      some { chars := done, escape := .digits 3 (c.toNat / 16) } := by
    simp [Pending.read, hhigh]
  have h5 : Pending.read { chars := done, escape := .digits 3 (c.toNat / 16) }
      (hexDigit (c.toNat % 16)) = some { chars := c :: done } := by
    have hcode : c.toNat / 16 * 16 + c.toNat % 16 = c.toNat := by omega
    have hhalf : ¬(0xD800 ≤ c.toNat ∧ c.toNat ≤ 0xDBFF) := by omega
    have hhalf' : ¬(0xDC00 ≤ c.toNat ∧ c.toNat ≤ 0xDFFF) := by omega
    simp [Pending.read, hlow, hcode, Pending.addUnit, hhalf, hhalf']
  rw [run_pending hmk (by simp) h0, run_pending hmk (by simp) h1, run_pending hmk (by simp) h2,
    run_pending hmk (by simp) h3, run_pending hmk (by simp) h4, run_pending hmk (by simp) h5]

theorem run_escapeChar {done rest : List Char} (c : Char) :
    Reader.run ⟨stack, mk { chars := done }⟩ (escapeChar c ++ rest) =
      Reader.run ⟨stack, mk { chars := c :: done }⟩ rest := by
  unfold escapeChar
  split
  case h_8 hquote hback _ _ _ _ _ =>
    split
    case isTrue hc => exact run_control hmk hc
    case isFalse hc =>
      refine run_pending hmk (fun h => hquote h.2) ?_ rest
      simp only [Pending.read, if_neg hc]
      exact if_neg hback
  all_goals exact run_short hmk (by decide) rfl

theorem run_body {done rest : List Char} (cs : List Char) :
    Reader.run ⟨stack, mk { chars := done }⟩ (cs.flatMap escapeChar ++ rest) =
      Reader.run ⟨stack, mk { chars := cs.reverse ++ done }⟩ rest := by
  induction cs generalizing done with
  | nil => rfl
  | cons c cs ih =>
    rw [List.flatMap_cons, List.append_assoc, run_escapeChar hmk, ih, List.reverse_cons,
      List.append_assoc, List.singleton_append]

end Strings

theorem step_string (p : Pending) (c : Char) (h : ¬(p.escape = .none ∧ c = '"')) :
    Reader.step ⟨stack, .string p⟩ c = (p.read c).map fun p => ⟨stack, .string p⟩ := by
  simp only [Reader.step, if_neg h]

theorem step_nameString (p : Pending) (c : Char) (h : ¬(p.escape = .none ∧ c = '"')) :
    Reader.step ⟨stack, .nameString p⟩ c = (p.read c).map fun p => ⟨stack, .nameString p⟩ := by
  simp only [Reader.step, if_neg h]

theorem text_of_body (s : String) :
    Pending.text { chars := s.toList.reverse ++ [] } = some s := by
  simp [Pending.text]

theorem reads_string (s : String) : Reads (printString s) (.str s) := by
  rw [printString, List.cons_append]
  refine reads_of_begin (by decide) (by decide) fun stack => ⟨⟨stack, .string {}⟩, _, rfl, ?_,
    holds_after⟩
  have hend : Reader.step ⟨stack, .string { chars := s.toList.reverse ++ [] }⟩ '"' =
      some ⟨stack, .after (.str s)⟩ := by
    simp only [Reader.step, and_self, if_true, text_of_body]
  rw [run_body step_string, run_cons_of_step hend, run_nil]

/-! ### Names -/

/-- Where the name of a member may begin, its text is read as the name. -/
theorem run_name (hmode : mode = .name ∨ mode = .firstMember) {done} (name : String)
    (rest : List Char) :
    Reader.run ⟨.object done :: outer, mode⟩ (printString name ++ rest) =
      Reader.run ⟨.member done (some name) :: outer, .colon⟩ rest := by
  have hbegin : Reader.step ⟨.object done :: outer, mode⟩ '"' =
      some ⟨.object done :: outer, .nameString {}⟩ := by
    rcases hmode with rfl | rfl <;> rfl
  rw [printString, List.cons_append, List.cons_append, List.append_assoc, run_cons_of_step hbegin,
    run_body step_nameString]
  refine run_cons_of_step ?_ rest
  simp only [Reader.step, and_self, if_true, text_of_body]

theorem run_name_blanks (hmode : mode = .name ∨ mode = .firstMember) {blanks : List Char}
    (h : Blank blanks) : Reader.run ⟨stack, mode⟩ blanks = some ⟨stack, mode⟩ := by
  refine run_blanks (fun c hc => ?_) h
  rcases hmode with rfl | rfl
  · simp only [Reader.step, hc, if_true]
  · simp only [Reader.step, hc, if_true]

/-! ### Arrays and objects

Both forms separate items and members alike, up to the blanks: `pre` stands before
every item or member, `post` before the closing bracket, and `gap` behind a colon. -/

section Brackets

variable {pre post gap : List Char} {render : Json → List Char}

/-- The rest of an array after its first item. -/
def itemsText (pre post : List Char) (render : Json → List Char) (items : List Json) :
    List Char :=
  items.flatMap (fun item => ',' :: pre ++ render item) ++ post ++ [']']

/-- One member. -/
def memberText (gap : List Char) (render : Json → List Char) (m : String × Json) : List Char :=
  printString m.1 ++ ':' :: gap ++ render m.2

/-- The rest of an object after its first member. -/
def membersText (pre post gap : List Char) (render : Json → List Char)
    (members : List (String × Json)) : List Char :=
  members.flatMap (fun m => ',' :: pre ++ memberText gap render m) ++ post ++ ['}']

theorem run_items (hpre : Blank pre) (hpost : Blank post)
    {r : Reader} {done : List Json} (hr : r.Holds (.array done :: outer) j) {items : List Json}
    (hitems : ∀ item ∈ items, Reads (render item) item) :
    r.run (itemsText pre post render items) =
      some ⟨outer, .after (.arr (done.reverse ++ j :: items))⟩ := by
  induction items generalizing r done j with
  | nil =>
    obtain ⟨r', hrun, hr'⟩ := hr.run_blanks hpost
    rw [itemsText, List.flatMap_nil, List.nil_append, run_append hrun, run_cons_of_step, run_nil]
    rw [hr'.step _ (by simp)]
    simp [afterValue, isSpace]
  | cons item items ih =>
    have hcomma : r.step ',' = some ⟨.array (j :: done) :: outer, .value⟩ := by
      rw [hr.step _ (by simp)]
      simp [afterValue, isSpace]
    have hread := (hitems item (List.mem_cons_self ..)).blanks hpre
    obtain ⟨r', hrun, hr'⟩ := hread (.array (j :: done) :: outer) .value (Or.inl rfl)
    have hrest := ih hr' fun i hi => hitems i (List.mem_cons_of_mem _ hi)
    rw [itemsText, List.flatMap_cons, List.append_assoc, List.append_assoc, List.cons_append,
      List.cons_append, run_cons_of_step hcomma, run_append hrun, ← List.append_assoc]
    rw [itemsText] at hrest
    rw [hrest, List.reverse_cons, List.append_assoc, List.singleton_append]

/-- The machine reads a member up to the end of its value. -/
theorem run_member (hmode : mode = .name ∨ mode = .firstMember)
    (hgap : Blank gap) (outer : List Frame) (done) {m : String × Json}
    (h : Reads (render m.2) m.2) :
    ∃ r, Reader.run ⟨.object done :: outer, mode⟩ (memberText gap render m) = some r ∧
      r.Holds (.member done (some m.1) :: outer) m.2 := by
  obtain ⟨r, hrun, hr⟩ := h.blanks hgap (.member done (some m.1) :: outer) .value (Or.inl rfl)
  refine ⟨r, ?_, hr⟩
  have hcolon : Reader.step ⟨.member done (some m.1) :: outer, .colon⟩ ':' =
      some ⟨.member done (some m.1) :: outer, .value⟩ := rfl
  rw [memberText, List.append_assoc, run_name hmode, List.cons_append, run_cons_of_step hcolon,
    hrun]

theorem run_members (hpre : Blank pre) (hpost : Blank post)
    (hgap : Blank gap) {r : Reader} {done : List (String × Json)}
    {name : String} (hr : r.Holds (.member (some done) (some name) :: outer) j)
    {members : List (String × Json)} (hmembers : ∀ m ∈ members, Reads (render m.2) m.2) :
    r.run (membersText pre post gap render members) =
      some ⟨outer, .after (.obj (done.reverse ++ (name, j) :: members))⟩ := by
  induction members generalizing r done name j with
  | nil =>
    obtain ⟨r', hrun, hr'⟩ := hr.run_blanks hpost
    rw [membersText, List.flatMap_nil, List.nil_append, run_append hrun, run_cons_of_step, run_nil]
    rw [hr'.step _ (by simp)]
    simp [afterValue, isSpace, addMember, objectValue]
  | cons m members ih =>
    have hcomma : r.step ',' = some ⟨.object (some ((name, j) :: done)) :: outer, .name⟩ := by
      rw [hr.step _ (by simp)]
      simp [afterValue, isSpace, addMember]
    obtain ⟨r', hrun, hr'⟩ := run_member (Or.inl rfl) hgap outer (some ((name, j) :: done))
      (hmembers m (List.mem_cons_self ..))
    have hrest := ih hr' fun i hi => hmembers i (List.mem_cons_of_mem _ hi)
    rw [membersText, List.flatMap_cons, List.append_assoc, List.append_assoc, List.cons_append,
      List.cons_append, run_cons_of_step hcomma, List.append_assoc,
      run_append (run_name_blanks (Or.inl rfl) hpre), run_append hrun, ← List.append_assoc]
    rw [membersText] at hrest
    rw [hrest, List.reverse_cons, List.append_assoc, List.singleton_append]

theorem reads_array (hpre : Blank pre) (hpost : Blank post)
    {item : Json} {items : List Json} (h : ∀ i ∈ item :: items, Reads (render i) i) :
    Reads ('[' :: pre ++ render item ++ itemsText pre post render items) (.arr (item :: items)) := by
  rw [List.cons_append, List.cons_append]
  refine reads_of_begin (by decide) (by decide) fun stack => ?_
  have hread := (h item (List.mem_cons_self ..)).blanks hpre
  obtain ⟨r, hrun, hr⟩ := hread (.array [] :: stack) .firstItem (Or.inr rfl)
  refine ⟨⟨.array [] :: stack, .firstItem⟩, ⟨stack, .after (.arr (item :: items))⟩, rfl, ?_,
    holds_after⟩
  rw [run_append hrun, run_items hpre hpost hr fun i hi => h i (List.mem_cons_of_mem _ hi)]
  rfl

theorem reads_object (hpre : Blank pre) (hpost : Blank post)
    (hgap : Blank gap) {m : String × Json} {members : List (String × Json)}
    (h : ∀ k ∈ m :: members, Reads (render k.2) k.2) :
    Reads ('{' :: pre ++ memberText gap render m ++ membersText pre post gap render members)
      (.obj (m :: members)) := by
  rw [List.cons_append, List.cons_append, List.append_assoc]
  refine reads_of_begin (by decide) (by decide) fun stack => ?_
  obtain ⟨r, hrun, hr⟩ := run_member (Or.inr rfl) hgap stack (some [])
    (h m (List.mem_cons_self ..))
  refine ⟨⟨.object (some []) :: stack, .firstMember⟩, ⟨stack, .after (.obj (m :: members))⟩, rfl,
    ?_, holds_after⟩
  rw [run_append (run_name_blanks (Or.inr rfl) hpre), run_append hrun,
    run_members hpre hpost hgap hr fun k hk => h k (List.mem_cons_of_mem _ hk)]
  rfl

end Brackets

/-! ### The two forms -/

theorem printItems_eq (items : List Json) : printItems items = itemsText [] [] print items := by
  induction items with
  | nil => rfl
  | cons item items ih => rw [printItems, ih]; simp [itemsText]

theorem printMembers_eq (members : List (String × Json)) :
    printMembers members = membersText [] [] [] print members := by
  induction members with
  | nil => rfl
  | cons m members ih =>
    obtain ⟨name, value⟩ := m
    rw [printMembers, ih]; simp [membersText, memberText]

theorem indentItems_eq (depth : Nat) (items : List Json) :
    indentItems depth items =
      itemsText (newline (depth + 1)) (newline depth) (indent (depth + 1)) items := by
  induction items with
  | nil => rw [indentItems]; simp [itemsText]
  | cons item items ih => rw [indentItems, ih]; simp [itemsText]

theorem indentMembers_eq (depth : Nat) (members : List (String × Json)) :
    indentMembers depth members =
      membersText (newline (depth + 1)) (newline depth) [' '] (indent (depth + 1)) members := by
  induction members with
  | nil => rw [indentMembers]; simp [membersText]
  | cons m members ih =>
    obtain ⟨name, value⟩ := m
    rw [indentMembers, ih]; simp [membersText, memberText]

theorem blank_nil : Blank [] :=
  fun _ hc => absurd hc (List.not_mem_nil)

theorem blank_newline (depth : Nat) : Blank (newline depth) := by
  intro c hc
  rcases List.mem_cons.mp hc with rfl | hc
  · rfl
  · rw [List.eq_of_mem_replicate hc]; rfl

theorem blank_gap : Blank [' '] := by
  simp [Blank, isSpace]

/-- Values without an inexact number and without a value that is no text. -/
inductive Plain : Json → Prop where
  | null : Plain .null
  | bool (b : Bool) : Plain (.bool b)
  | nat (n : Nat) : Plain (.nat n)
  | str (s : String) : Plain (.str s)
  | arr {items : List Json} (h : ∀ item ∈ items, Plain item) : Plain (.arr items)
  | obj {members : List (String × Json)} (h : ∀ m ∈ members, Plain m.2) : Plain (.obj members)

theorem reads_empty_array : Reads ['[', ']'] (.arr []) :=
  reads_of_begin (by decide) (by decide) fun _ => ⟨_, _, rfl, rfl, holds_after⟩

theorem reads_empty_object : Reads ['{', '}'] (.obj []) :=
  reads_of_begin (by decide) (by decide) fun _ => ⟨_, _, rfl, rfl, holds_after⟩

theorem Plain.reads_print (h : Plain j) : Reads j.print j := by
  induction h with
  | null => exact reads_null
  | bool b =>
    cases b with
    | false => exact reads_false
    | true => exact reads_true
  | nat n => exact reads_nat n
  | str s => exact reads_string s
  | @arr items _ ih =>
    cases items with
    | nil => exact reads_empty_array
    | cons item items =>
      rw [print, printItems_eq]
      exact reads_array blank_nil blank_nil ih
  | @obj members _ ih =>
    cases members with
    | nil => exact reads_empty_object
    | cons m members =>
      have hread := reads_object blank_nil blank_nil blank_nil ih
      rw [print, printMembers_eq]
      simpa [memberText] using hread

theorem Plain.reads_indent (h : Plain j) : ∀ depth, Reads (j.indent depth) j := by
  induction h with
  | null => exact fun _ => reads_null
  | bool b => exact fun _ => (Plain.bool b).reads_print
  | nat n => exact fun _ => reads_nat n
  | str s => exact fun _ => reads_string s
  | @arr items _ ih =>
    intro depth
    cases items with
    | nil => exact reads_empty_array
    | cons item items =>
      rw [indent, indentItems_eq]
      exact reads_array (blank_newline _) (blank_newline _) fun i hi => ih i hi _
  | @obj members _ ih =>
    intro depth
    cases members with
    | nil => exact reads_empty_object
    | cons m members =>
      have hread := reads_object (blank_newline (depth + 1))
        (blank_newline depth) blank_gap fun k hk => ih k hk (depth + 1)
      rw [indent, indentMembers_eq]
      simpa [memberText] using hread

/-! ### Whole texts -/

theorem parse_ofList (h : Reads text j) : parse (String.ofList text) = some j := by
  obtain ⟨r, hrun, hr⟩ := h [] .value (Or.inl rfl)
  rw [parse, String.toList_ofList, hrun]
  exact hr.result rfl

theorem parse_compact (h : Plain j) : parse j.compact = some j :=
  parse_ofList h.reads_print

theorem parse_indented (h : Plain j) : parse j.indented = some j :=
  parse_ofList (h.reads_indent 0)

end ProtocolInference.Json
