import Mathlib.Data.List.TakeWhile
import ProtocolInference.Checker.Program
import ProtocolInference.Proofs.Encoding.Channels
import ProtocolInference.Proofs.Encoding.Terminal

/-!
# Events read back from a simulation

The opening of a tag has its first character nowhere else in it, so a tag cannot begin in the
text before it, and the name of a tag ends at the first closing bracket. An event that fits a
system is known by its text, which has no bracket in it. So the tags of a simulation give its
events back, and a tag that names no event is found whatever stands around it. Main statement:
`events_exact`.
-/

namespace ProtocolInference

namespace Event

open Text

variable {e f : Event} {processes : Nat} {channels : List Channel}

/-! ### Texts of events -/

/-- What stands between the two parts of the text of an event. -/
def mark : EventKind → Char
  | .send => '!'
  | .receive => '?'
  | .internal => '@'

def front (e : Event) : String :=
  match e.channel with
  | some c => toString c.index
  | none => e.label

def back (e : Event) : String :=
  match e.channel with
  | some _ => e.label
  | none => toString e.pid

theorem toList_display (h : e.validate processes channels = .ok ()) :
    e.display.toList = e.front.toList ++ mark e.kind :: e.back.toList := by
  rcases channel_of_validate h with ⟨hk, hc⟩ | ⟨c, hc, -, ⟨hk, -⟩ | ⟨hk, -⟩⟩ <;>
    simp [display, front, back, mark, hk, hc]

theorem isName_front (h : IsName e.label) : IsName e.front := by
  unfold front
  split
  · exact isName_toString _
  · exact h

theorem isName_back (h : IsName e.label) : IsName e.back := by
  unfold back
  split
  · exact h
  · exact isName_toString e.pid

theorem mark_not_mem {s : String} (h : IsName s) (k : EventKind) : mark k ∉ s.toList := by
  apply h.not_mem
  cases k <;> decide

theorem mark_inj {j k : EventKind} (h : mark j = mark k) : j = k := by
  revert h
  cases j <;> cases k <;> decide

theorem not_mem_display {c : Char} (he : e.Writable processes channels)
    (hname : continuesIdentifier c = false) (hc : ∀ k, mark k ≠ c) : c ∉ e.display.toList := by
  rw [toList_display he.1, List.mem_append, List.mem_cons, not_or, not_or]
  exact ⟨(isName_front he.isName).not_mem hname, (hc _).symm, (isName_back he.isName).not_mem hname⟩

theorem display_ne_empty (he : e.validate processes channels = .ok ()) : e.display ≠ "" := by
  intro h
  have hlist := toList_display he
  simp [h] at hlist

/-- The parts of the text tell what the event is. -/
theorem eq_of_front_back (he : e.validate processes channels = .ok ())
    (hf : f.validate processes channels = .ok ()) (hkind : e.kind = f.kind)
    (hfront : e.front = f.front) (hback : e.back = f.back) : e = f := by
  rcases channel_of_validate he with ⟨hk, hc⟩ | ⟨c, hc, -, hk⟩
  · rcases channel_of_validate hf with ⟨-, hd⟩ | ⟨d, -, -, hk'⟩
    · have hlabel : e.label = f.label := by simpa [front, hc, hd] using hfront
      simp only [back, hc, hd] at hback
      have hpid : e.pid = f.pid := Nat.repr_inj.mp hback
      cases e
      cases f
      simp_all
    · rw [← hkind, hk] at hk'
      simp at hk'
  · rcases channel_of_validate hf with ⟨hk', -⟩ | ⟨d, hd, -, -⟩
    · rw [hkind, hk'] at hk
      simp at hk
    · simp only [front, hc, hd] at hfront
      have hindex : c.index = d.index := Nat.repr_inj.mp hfront
      have hlabel : e.label = f.label := by simpa [back, hc, hd] using hback
      exact eq_of_channel he hf hc hd hindex hkind hlabel

/-- Events that fit a system and are identifiers have texts of their own. -/
theorem eq_of_display (he : e.Writable processes channels) (hf : f.Writable processes channels)
    (h : e.display = f.display) : e = f := by
  have hlist := congrArg String.toList h
  rw [toList_display he.1, toList_display hf.1] at hlist
  have hkind : e.kind = f.kind := by
    have hmem : mark e.kind ∈ f.front.toList ++ mark f.kind :: f.back.toList := by
      rw [← hlist]
      simp
    rw [List.mem_append, List.mem_cons] at hmem
    rcases hmem with hmem | hmem | hmem
    · exact absurd hmem (mark_not_mem (isName_front hf.isName) _)
    · exact mark_inj hmem
    · exact absurd hmem (mark_not_mem (isName_back hf.isName) _)
  rw [hkind] at hlist
  obtain ⟨hfront, hback⟩ := eq_of_append_cons (mark_not_mem (isName_front he.isName) _)
    (mark_not_mem (isName_front hf.isName) _) hlist
  exact eq_of_front_back he.1 hf.1 hkind (String.toList_injective hfront)
    (String.toList_injective hback)

end Event

namespace Trail

open Text

variable {us cs rest name m : List Char} {alphabet : List Event}

/-! ### Tags in a text -/

/-- No tag begins in the text. -/
def Plain (s : String) : Prop := ¬opening <:+: s.toList

/-- A tag with the name stands somewhere in the text. -/
def Tagged (text name : String) : Prop :=
  name ≠ "" ∧ ']' ∉ name.toList ∧ opening ++ name.toList ++ [']'] <:+: text.toList

instance (s : String) : Decidable (Plain s) := inferInstanceAs (Decidable (¬_))

instance (text name : String) : Decidable (Tagged text name) :=
  inferInstanceAs (Decidable (_ ∧ _ ∧ _))

/-- The part ahead of the first closing bracket, where there is one. -/
theorem takeWhile_eq_iff : cs.takeWhile (· ≠ ']') = name ∧ cs.dropWhile (· ≠ ']') ≠ [] ↔
    ']' ∉ name ∧ ∃ rest, cs = name ++ ']' :: rest := by
  constructor
  · rintro ⟨rfl, hne⟩
    obtain ⟨d, rest, hrest⟩ := List.exists_cons_of_ne_nil hne
    have hd : ']' = d := by
      have hhead := List.head?_dropWhile_not (· ≠ ']') cs
      rw [hrest] at hhead
      have hdec : decide (d ≠ ']') = false := hhead
      exact (not_not.mp (of_decide_eq_false hdec)).symm
    refine ⟨fun hmem => by simpa using List.mem_takeWhile_imp hmem, rest, ?_⟩
    rw [hd, ← hrest, ← hd, List.takeWhile_append_dropWhile]
  · rintro ⟨hclose, rest, rfl⟩
    have hall : ∀ c ∈ name, decide (c ≠ ']') = true := by
      intro c hc
      exact decide_eq_true fun h => hclose (h ▸ hc)
    rw [List.takeWhile_append_of_pos hall, List.dropWhile_append_of_pos hall]
    simp

/-- Where a tag begins the text goes on with its name. -/
theorem nameAtStart_eq_some_iff : nameAtStart cs = some name ↔
    name ≠ [] ∧ ']' ∉ name ∧ ∃ rest, cs = opening ++ (name ++ ']' :: rest) := by
  unfold nameAtStart
  have hpick : ∀ t d : List Char, (if t.isEmpty ∨ d.isEmpty then none else some t) = some name ↔
      name ≠ [] ∧ t = name ∧ d ≠ [] := by
    intro t d
    cases d <;> cases t <;> simp
    rintro rfl
    simp
  by_cases hbegins : opening.isPrefixOf cs = true
  · obtain ⟨after, rfl⟩ := List.isPrefixOf_iff_prefix.mp hbegins
    rw [if_pos hbegins, List.drop_left]
    simp only [hpick, takeWhile_eq_iff, List.append_cancel_left_eq]
  · rw [if_neg hbegins]
    refine iff_of_false (by simp) ?_
    rintro ⟨-, -, rest, rfl⟩
    exact hbegins (List.isPrefixOf_iff_prefix.mpr (List.prefix_append _ _))

/-- A tag that begins after some characters does not begin among them as well. -/
theorem opening_prefix_of_append (hus : us ≠ []) (h : opening <+: us ++ (opening ++ cs)) :
    opening <+: us := by
  rcases List.prefix_or_prefix_of_prefix h (List.prefix_append us _) with hle | ⟨vs, hvs⟩
  · exact hle
  · cases vs with
    | nil => exact ⟨[], by rw [List.append_nil, ← hvs, List.append_nil]⟩
    | cons v vs =>
      exfalso
      rw [← hvs, List.prefix_append_right_inj, hvs] at h
      have hv : v = 'C' := by
        obtain ⟨rest, hrest⟩ := h
        exact (List.cons.inj hrest).1
      have hmem : v ∈ opening.tail := by
        cases us with
        | nil => exact absurd rfl hus
        | cons u us => simp [← hvs]
      rw [hv] at hmem
      exact absurd hmem (by decide)

theorem namesFrom_drop (k : Nat) (cs : List Char) : namesFrom k cs = namesFrom 0 (cs.drop k) := by
  induction k generalizing cs with
  | zero => rfl
  | succ k ih =>
    cases cs with
    | nil => simp [namesFrom]
    | cons c cs => simpa [namesFrom] using ih cs

/-- A tag is read, and then the text after it. -/
theorem namesFrom_tag (hne : name ≠ []) (hclose : ']' ∉ name) :
    namesFrom 0 (opening ++ (name ++ ']' :: rest)) = String.ofList name :: namesFrom 0 rest := by
  have hstart : nameAtStart (opening ++ (name ++ ']' :: rest)) = some name :=
    nameAtStart_eq_some_iff.mpr ⟨hne, hclose, rest, rfl⟩
  have hrest : (opening.tail ++ (name ++ ']' :: rest)).drop (opening.length + name.length) =
      rest := by
    have hlength : opening.length + name.length = (opening.tail ++ (name ++ [']'])).length := by
      simp [opening]
      omega
    have hsplit : opening.tail ++ (name ++ ']' :: rest) =
        (opening.tail ++ (name ++ [']'])) ++ rest := by simp
    rw [hsplit, hlength, List.drop_left]
  have hcons : opening ++ (name ++ ']' :: rest) =
      'C' :: (opening.tail ++ (name ++ ']' :: rest)) := rfl
  rw [hcons, namesFrom, ← hcons, hstart]
  dsimp only
  rw [namesFrom_drop, hrest]

/-- Nothing is read where no tag begins. -/
theorem namesFrom_plain (h : ∀ vs, vs ≠ [] → vs <:+ us → ¬opening <+: vs ++ cs) :
    namesFrom 0 (us ++ cs) = namesFrom 0 cs := by
  induction us with
  | nil => rfl
  | cons u us ih =>
    have hstart : nameAtStart (u :: (us ++ cs)) = none := by
      rw [Option.eq_none_iff_forall_not_mem]
      intro name hname
      obtain ⟨-, -, rest, hrest⟩ := nameAtStart_eq_some_iff.mp hname
      refine h (u :: us) (List.cons_ne_nil _ _) (List.suffix_refl _) ⟨name ++ ']' :: rest, ?_⟩
      exact hrest.symm
    rw [List.cons_append, namesFrom, hstart]
    exact ih fun vs hne hsuffix => h vs hne (hsuffix.trans (List.suffix_cons u us))

/-- The text in which a tag follows each of the given texts. -/
def withTags (told : List (String × Event)) (last : String) : String :=
  String.join (told.map fun x => x.1 ++ Promela.tag x.2) ++ last

theorem names_withTags {told : List (String × Event)} {last : String}
    (hplain : ∀ x ∈ told, Plain x.1) (hlast : Plain last)
    (hname : ∀ x ∈ told, x.2.display ≠ "" ∧ ']' ∉ x.2.display.toList) :
    names (withTags told last) = told.map (·.2.display) := by
  induction told with
  | nil =>
    have hnone : ∀ vs, vs ≠ [] → vs <:+ last.toList → ¬opening <+: vs ++ [] := by
      intro vs _ hsuffix hbegins
      rw [List.append_nil] at hbegins
      exact hlast (hbegins.isInfix.trans hsuffix.isInfix)
    have hread := namesFrom_plain hnone
    simpa [withTags, names, namesFrom] using hread
  | cons x told ih =>
    obtain ⟨hx, hrest⟩ := List.forall_mem_cons.mp hplain
    obtain ⟨⟨hne, hclose⟩, hnames⟩ := List.forall_mem_cons.mp hname
    have htext : (withTags (x :: told) last).toList = x.1.toList ++
        (opening ++ (x.2.display.toList ++ ']' :: (withTags told last).toList)) := by
      simp [withTags, Promela.tag, opening]
    have hnone : ∀ vs, vs ≠ [] → vs <:+ x.1.toList →
        ¬opening <+: vs ++ (opening ++ (x.2.display.toList ++ ']' :: (withTags told last).toList)) := by
      intro vs hvs hsuffix hbegins
      exact hx ((opening_prefix_of_append hvs hbegins).isInfix.trans hsuffix.isInfix)
    have hchars : x.2.display.toList ≠ [] := by simpa using hne
    have htold := ih hrest hnames
    rw [names] at htold ⊢
    rw [htext, namesFrom_plain hnone, namesFrom_tag hchars hclose, htold, List.map_cons,
      String.ofList_toList]

/-- A tag that begins inside of another one stands in its name. -/
theorem opening_mem_of_overlap (hus : us ≠ []) (hclose : ']' ∉ name) (hm : ']' ∉ m)
    (hlt : us.length < opening.length + m.length + 1)
    (h : us ++ (opening ++ (name ++ ']' :: cs)) = opening ++ (m ++ ']' :: rest)) : '[' ∈ m := by
  have hbegins : opening <+: us ++ (opening ++ (name ++ ']' :: cs)) := by
    rw [h]
    exact List.prefix_append _ _
  obtain ⟨vs, rfl⟩ := opening_prefix_of_append hus hbegins
  rw [List.append_assoc, List.append_cancel_left_eq] at h
  have hvs : vs <+: m := by
    refine List.prefix_of_prefix_length_le (h ▸ List.prefix_append _ _)
      (List.prefix_append m (']' :: rest)) ?_
    rw [List.length_append] at hlt
    omega
  obtain ⟨ms, rfl⟩ := hvs
  rw [List.append_assoc, List.append_cancel_left_eq, ← List.append_assoc] at h
  have hleft : ']' ∉ opening ++ name := by
    rw [List.mem_append, not_or]
    exact ⟨by decide, hclose⟩
  have hright : ']' ∉ ms := fun hmem => hm (List.mem_append_right _ hmem)
  rw [← (eq_of_append_cons hleft hright h).1]
  simp [opening]

/-- A tag is read, unless it stands in the name of another one. -/
theorem exists_mem_namesFrom (us cs : List Char) {k : Nat} (hk : k ≤ us.length) (hne : name ≠ [])
    (hclose : ']' ∉ name) : ∃ read ∈ namesFrom k (us ++ (opening ++ (name ++ ']' :: cs))),
      read = String.ofList name ∨ '[' ∈ read.toList := by
  induction us generalizing k with
  | nil =>
    rw [List.length_nil, Nat.le_zero] at hk
    rw [List.nil_append, hk, namesFrom_tag hne hclose]
    exact ⟨_, List.mem_cons_self .., Or.inl rfl⟩
  | cons u us ih =>
    cases k with
    | succ k => exact ih (Nat.le_of_succ_le_succ hk)
    | zero =>
      rw [List.cons_append, namesFrom]
      cases hstart : nameAtStart (u :: (us ++ (opening ++ (name ++ ']' :: cs)))) with
      | none => exact ih (Nat.zero_le _)
      | some m =>
        obtain ⟨hm, hmclose, rest, hrest⟩ := nameAtStart_eq_some_iff.mp hstart
        by_cases hlt : (u :: us).length < opening.length + m.length + 1
        · refine ⟨String.ofList m, List.mem_cons_self .., Or.inr ?_⟩
          rw [String.toList_ofList]
          exact opening_mem_of_overlap (List.cons_ne_nil u us) hclose hmclose hlt hrest
        · have hle : opening.length + m.length ≤ us.length := by
            rw [List.length_cons] at hlt
            omega
          obtain ⟨read, hmem, hread⟩ := ih hle
          exact ⟨read, List.mem_cons_of_mem _ hmem, hread⟩

/-! ### Events of the tags -/

theorem eventNamed_eq_none_iff {s : String} :
    eventNamed alphabet s = none ↔ ∀ e ∈ alphabet, e.display ≠ s := by
  simp [eventNamed]

theorem eventNamed_display {e : Event} (hinj : ∀ f ∈ alphabet, f.display = e.display → f = e)
    (he : e ∈ alphabet) : eventNamed alphabet e.display = some e := by
  cases h : eventNamed alphabet e.display with
  | none => exact absurd rfl (eventNamed_eq_none_iff.mp h e he)
  | some f =>
    have hdisplay : f.display = e.display := by simpa using List.find?_some h
    have hf : f ∈ alphabet := List.mem_reverse.mp (List.mem_of_find?_eq_some h)
    rw [hinj f hf hdisplay]

/-- Some event of the alphabet has the name. -/
def Known (alphabet : List Event) (s : String) : Prop := ∃ e ∈ alphabet, e.display = s

/-- The first name that is not known is what is reported. -/
theorem events_eq_error {text s : String} (hs : s ∈ names text) (hunknown : ¬Known alphabet s) :
    ∃ known unknown later, names text = known ++ unknown :: later ∧
      (∀ t ∈ known, Known alphabet t) ∧ ¬Known alphabet unknown ∧
      events text alphabet = .error unknown := by
  unfold events
  generalize names text = ns at hs
  have hread : ∀ t, (Known alphabet t ∧ ∃ e, eventNamed alphabet t = some e) ∨
      ¬Known alphabet t ∧ eventNamed alphabet t = none := by
    intro t
    cases h : eventNamed alphabet t with
    | none =>
      refine Or.inr ⟨?_, rfl⟩
      rintro ⟨e, he, ht⟩
      exact eventNamed_eq_none_iff.mp h e he ht
    | some e =>
      have ht : e.display = t := by simpa using List.find?_some h
      exact Or.inl ⟨⟨e, List.mem_reverse.mp (List.mem_of_find?_eq_some h), ht⟩, e, rfl⟩
  induction ns with
  | nil => cases hs
  | cons t ns ih =>
    rcases hread t with ⟨ht, e, he⟩ | ⟨ht, hnone⟩
    · have hmem : s ∈ ns := by
        rcases List.mem_cons.mp hs with rfl | hmem
        · exact absurd ht hunknown
        · exact hmem
      obtain ⟨known, unknown, later, hns, hknown, hfirst, herror⟩ := ih hmem
      refine ⟨t :: known, unknown, later, by rw [hns]; rfl, ?_, hfirst, ?_⟩
      · exact List.forall_mem_cons.mpr ⟨ht, hknown⟩
      · rw [List.mapM_cons, herror, he]
        rfl
    · refine ⟨[], t, ns, rfl, List.forall_mem_nil _, ht, ?_⟩
      rw [List.mapM_cons, hnone]
      rfl

variable {n : Network} {processes : Nat} {channels : List Channel}

/-- Every branch prints the tag of its event. The tags of a simulation give its events back,
whatever is printed around them. Of a text with a tag that names no event the first such name is
reported, and no events are given. -/
theorem events_exact (h : ∀ e ∈ n.alphabet, e.Writable processes channels) :
    (∀ a ∈ n.automata, ∀ s ∈ a.states, ∀ x ∈ s.transitions, x.1 ∈ n.alphabet ∧ ∀ codes,
      "printf(\"" ++ Promela.tag x.1 ++ "\\n\");" ∈
        words (Promela.branchLine a.pid (Promela.branchOf a codes s x))) ∧
    (∀ (told : List (String × Event)) (last : String),
      (∀ x ∈ told, Plain x.1 ∧ x.2 ∈ n.alphabet) → Plain last →
        events (withTags told last) n.alphabet = .ok (told.map (·.2))) ∧
    ∀ text name, Tagged text name → ¬Known n.alphabet name →
      ∃ known unknown later, names text = known ++ unknown :: later ∧
        (∀ s ∈ known, Known n.alphabet s) ∧ ¬Known n.alphabet unknown ∧
        events text n.alphabet = .error unknown ∧
        (Reply.counterexample none (some text)).outcome n = .error (.unknownEvent unknown) ∧
        (CheckFailure.reply (.unknownEvent unknown)).message =
          s!"Unrecognized model checker output: unknown event '{unknown}' in trail" := by
  have hbracket : ∀ e ∈ n.alphabet, '[' ∉ e.display.toList ∧ ']' ∉ e.display.toList := by
    intro e he
    constructor <;> refine Event.not_mem_display (h e he) (by decide) fun k => ?_ <;>
      cases k <;> decide
  refine ⟨?_, ?_, ?_⟩
  · intro a ha s hs x hx
    have hmem : x.1 ∈ n.alphabet := Network.mem_alphabet.mpr ⟨a, ha, s.id, x.2, s, hs, rfl, hx⟩
    refine ⟨hmem, fun codes => ?_⟩
    have hname := (h _ hmem).isName
    rw [Promela.words_branchLine hname (Promela.isName_noted codes hname)]
    simp [Promela.doing, Promela.branchOf]
  · intro told last htold hlast
    have hread := names_withTags (fun x hx => (htold x hx).1) hlast fun x hx =>
      ⟨Event.display_ne_empty (h _ (htold x hx).2).1, (hbracket _ (htold x hx).2).2⟩
    rw [events, hread]
    refine Checks.mapM_eq_ok_iff.mpr (List.forall₂_map_left_iff.mpr
      (List.forall₂_map_right_iff.mpr (List.forall₂_same.mpr fun x hx => ?_)))
    have he := (htold x hx).2
    rw [eventNamed_display (fun f hf hdisplay => Event.eq_of_display (h f hf) (h _ he) hdisplay) he]
  · rintro text name ⟨hne, hclose, us, cs, htext⟩ hname
    have hchars : name.toList ≠ [] := by simpa using hne
    obtain ⟨read, hmem, hread⟩ :=
      exists_mem_namesFrom us cs (Nat.zero_le _) hchars hclose
    have hunknown : ¬Known n.alphabet read := by
      rintro ⟨e, he, rfl⟩
      rcases hread with hread | hread
      · rw [String.ofList_toList] at hread
        exact hname ⟨e, he, hread⟩
      · exact (hbracket e he).1 hread
    have hsplit : us ++ (opening ++ (name.toList ++ ']' :: cs)) = text.toList := by
      rw [← htext]
      simp
    rw [hsplit] at hmem
    obtain ⟨known, unknown, later, hnames, hknown, hfirst, herror⟩ := events_eq_error hmem hunknown
    refine ⟨known, unknown, later, hnames, hknown, hfirst, herror, ?_, rfl⟩
    rw [Reply.outcome, herror]

/-- One process waits and then hands a message over. -/
def handing : Network where
  channels := [⟨0, 1, 0, false⟩]
  automata := [
    ⟨0, [⟨1, true, false, [(.send "m" ⟨0, 1, 0, false⟩, 2), (.internal "wait" 0, 1)]⟩,
      ⟨2, false, true, []⟩], 3⟩,
    ⟨1, [⟨1, true, false, [(.receive "m" ⟨0, 1, 0, false⟩, 2)]⟩, ⟨2, false, true, []⟩], 3⟩]

/-- The text ahead of the first tag ends like a tag begins. -/
theorem events_exact_handing :
    events (withTags [("0: CSightTrac", .internal "wait" 0), ("]\n1: ", .send "m" ⟨0, 1, 0, false⟩),
        ("\n2: ", .receive "m" ⟨0, 1, 0, false⟩)] "\ntrail ends") handing.alphabet =
      .ok [.internal "wait" 0, .send "m" ⟨0, 1, 0, false⟩, .receive "m" ⟨0, 1, 0, false⟩] ∧
    ∃ known unknown later,
      names "CSightTrace[CSightTrace[9!zz]" = known ++ unknown :: later ∧
      (Reply.counterexample none (some "CSightTrace[CSightTrace[9!zz]")).outcome handing =
        .error (.unknownEvent unknown) := by
  have halphabet : handing.alphabet = [.send "m" ⟨0, 1, 0, false⟩, .internal "wait" 0,
      .receive "m" ⟨0, 1, 0, false⟩] := by decide
  have hwritable : ∀ e ∈ handing.alphabet, e.Writable 2 [⟨0, 1, 0, false⟩] := by
    rw [halphabet]
    simp only [List.forall_mem_cons]
    exact ⟨⟨rfl, by decide⟩, ⟨rfl, by decide⟩, ⟨rfl, by decide⟩, List.forall_mem_nil _⟩
  obtain ⟨-, hread, herror⟩ := events_exact hwritable
  constructor
  · refine hread _ _ ?_ (by decide +kernel)
    rw [halphabet]
    simp only [List.forall_mem_cons]
    exact ⟨⟨by decide +kernel, by simp⟩, ⟨by decide +kernel, by simp⟩,
      ⟨by decide +kernel, by simp⟩, List.forall_mem_nil _⟩
  · have hunknown : ¬Known handing.alphabet "9!zz" := by
      rw [halphabet]
      rintro ⟨e, he, hdisplay⟩
      simp only [List.mem_cons, List.not_mem_nil, or_false] at he
      rcases he with rfl | rfl | rfl <;> exact absurd hdisplay (by decide)
    obtain ⟨known, unknown, later, hnames, -, -, -, houtcome, -⟩ :=
      herror "CSightTrace[CSightTrace[9!zz]" "9!zz" (by decide +kernel) hunknown
    exact ⟨known, unknown, later, hnames, houtcome⟩

end Trail

end ProtocolInference
