import ProtocolInference.Proofs.Text.Parts
import ProtocolInference.Proofs.Trace.Interleaving

/-!
# The tokens of events

A token names the process, the kind, the index of the channel and the label of an event. None
of these but the label has an underscore, so the token is read from the left up to the label,
whatever that is. An event that fits a system is known by its token, since the index tells the
channel.
-/

namespace ProtocolInference.Event

open Text

variable {e f : Event} {processes : Nat} {channels : List Channel}

theorem channel_of_validate (h : e.validate processes channels = .ok ()) :
    (e.kind = .internal ∧ e.channel = none) ∨
      ∃ c, e.channel = some c ∧ channels[c.index]? = some c ∧
        (e.kind = .send ∧ c.src = e.pid ∨ e.kind = .receive ∧ c.dst = e.pid) := by
  rcases cases_of_validate h with hkind | hchannel
  · refine Or.inl ⟨hkind, ?_⟩
    cases hc : e.channel with
    | none => rfl
    | some c =>
      simp only [validate, hkind, hc] at h
      split at h <;> cases h
  · exact Or.inr hchannel

/-- What a token says of the channel and the label. -/
def tail (e : Event) : String :=
  match e.channel with
  | some c => s!"c{c.index}_{e.label}"
  | none => e.label

theorem toList_token (e : Event) : e.token.toList =
    ('p' :: (toString e.pid).toList) ++ '_' :: (e.kind.word.toList ++ '_' :: e.tail.toList) := by
  obtain ⟨pid, kind, label, channel⟩ := e
  cases channel <;> simp [token, tail]

/-- A token of an identifier may stand where an identifier may stand. -/
theorem isName_token (h : IsName e.label) : IsName e.token := by
  have hword : IsName e.kind.word := by
    cases e.kind <;> decide
  have hp : IsName "p" := by decide
  have hbar : IsName "_" := by decide
  have hc : IsName "_c" := by decide
  have hhead : IsName ("p" ++ toString e.pid ++ "_" ++ e.kind.word) :=
    ((hp.append (isName_toString e.pid)).append hbar).append hword
  unfold token
  split
  · exact (((hhead.append hc).append (isName_toString _)).append hbar).append h
  · exact (hhead.append hbar).append h

/-- Whatever the labels, equal tokens tell of equal processes and kinds. -/
theorem of_token_eq (h : e.token = f.token) :
    e.pid = f.pid ∧ e.kind = f.kind ∧ e.tail = f.tail := by
  have hword : ∀ k : EventKind, '_' ∉ k.word.toList := by
    intro k
    cases k <;> decide
  have hpid : ∀ n : Nat, '_' ∉ 'p' :: (toString n).toList := by
    intro n
    rw [List.mem_cons, not_or]
    exact ⟨by decide, not_mem_toString (by decide)⟩
  have hlist := congrArg String.toList h
  rw [toList_token, toList_token] at hlist
  obtain ⟨hhead, hrest⟩ := eq_of_append_cons (hpid _) (hpid _) hlist
  obtain ⟨hkind, htail⟩ := eq_of_append_cons (hword _) (hword _) hrest
  refine ⟨Nat.repr_inj.mp (String.toList_injective (List.cons.inj hhead).2), ?_,
    String.toList_injective htail⟩
  revert hkind
  cases e.kind <;> cases f.kind <;> decide

theorem of_tail_eq {c d : Channel} (hc : e.channel = some c) (hd : f.channel = some d)
    (h : e.tail = f.tail) : c.index = d.index ∧ e.label = f.label := by
  have hindex : ∀ n : Nat, '_' ∉ 'c' :: (toString n).toList := by
    intro n
    rw [List.mem_cons, not_or]
    exact ⟨by decide, not_mem_toString (by decide)⟩
  have htail : ∀ {g : Event} {b : Channel}, g.channel = some b → g.tail.toList =
      ('c' :: (toString b.index).toList) ++ '_' :: g.label.toList := by
    intro g b hb
    simp [tail, hb]
  have hlist := congrArg String.toList h
  rw [htail hc, htail hd] at hlist
  obtain ⟨hhead, hlabel⟩ := eq_of_append_cons (hindex _) (hindex _) hlist
  exact ⟨Nat.repr_inj.mp (String.toList_injective (List.cons.inj hhead).2),
    String.toList_injective hlabel⟩

/-- An event on a channel of the system is known by its kind, its label and the index. -/
theorem eq_of_channel {c d : Channel} (he : e.validate processes channels = .ok ())
    (hf : f.validate processes channels = .ok ()) (hc : e.channel = some c)
    (hd : f.channel = some d) (hindex : c.index = d.index) (hkind : e.kind = f.kind)
    (hlabel : e.label = f.label) : e = f := by
  have hown : ∀ {g : Event} {b : Channel}, g.validate processes channels = .ok () →
      g.channel = some b → channels[b.index]? = some b ∧
        (g.kind = .send ∧ b.src = g.pid ∨ g.kind = .receive ∧ b.dst = g.pid) := by
    intro g b hg hb
    rcases channel_of_validate hg with ⟨-, hnone⟩ | ⟨b', hb', hdeclared, hown⟩
    · rw [hb] at hnone
      cases hnone
    · rw [hb] at hb'
      rw [Option.some.inj hb']
      exact ⟨hdeclared, hown⟩
  obtain ⟨hdeclared, hsource⟩ := hown he hc
  obtain ⟨hdeclared', hsource'⟩ := hown hf hd
  rw [hindex, hdeclared'] at hdeclared
  have hcd := Option.some.inj hdeclared
  subst hcd
  have hpid : e.pid = f.pid := by
    rw [hkind] at hsource
    rcases hsource with ⟨hk, hsrc⟩ | ⟨hk, hdst⟩
    · rcases hsource' with ⟨-, hsrc'⟩ | ⟨hk', -⟩
      · exact hsrc.symm.trans hsrc'
      · rw [hk] at hk'
        cases hk'
    · rcases hsource' with ⟨hk', -⟩ | ⟨-, hdst'⟩
      · rw [hk] at hk'
        cases hk'
      · exact hdst.symm.trans hdst'
  cases e
  cases f
  simp_all

/-- Events that fit a system have tokens of their own. -/
theorem eq_of_token (he : e.validate processes channels = .ok ())
    (hf : f.validate processes channels = .ok ()) (h : e.token = f.token) : e = f := by
  obtain ⟨hpid, hkind, htail⟩ := of_token_eq h
  rcases channel_of_validate he with ⟨hk, hc⟩ | ⟨c, hc, -, hk⟩
  · rcases channel_of_validate hf with ⟨-, hd⟩ | ⟨d, -, -, hk'⟩
    · have hlabel : e.label = f.label := by simpa only [tail, hc, hd] using htail
      cases e
      cases f
      simp_all
    · rw [← hkind, hk] at hk'
      rcases hk' with ⟨hk', -⟩ | ⟨hk', -⟩ <;> cases hk'
  · rcases channel_of_validate hf with ⟨hk', -⟩ | ⟨d, hd, -, -⟩
    · rw [hkind, hk'] at hk
      rcases hk with ⟨hk, -⟩ | ⟨hk, -⟩ <;> cases hk
    · obtain ⟨hindex, hlabel⟩ := of_tail_eq hc hd htail
      exact eq_of_channel he hf hc hd hindex hkind hlabel

/-- The event is one of the system and its label is an identifier. -/
def Writable (processes : Nat) (channels : List Channel) (e : Event) : Prop :=
  e.validate processes channels = .ok () ∧ isIdentifier e.label = true

theorem Writable.isName (h : e.Writable processes channels) : IsName e.label :=
  isName_of_isIdentifier h.2

end ProtocolInference.Event
