import ProtocolInference.Proofs.Encoding.Codes
import ProtocolInference.Proofs.Encoding.Scm

/-!
# Where tokens are written

The token of an event is in the name of its code, it is the message that an internal step is
written as, and it is the message that is sent where the event is recorded. What is written
around it is the same for all events, so what is written tells the events of a system apart,
whatever their labels. Main statement: `Event.tokens_apart`.
-/

namespace ProtocolInference

variable {e f : Event} {k p q : Nat} {c : Channel} {s t : String}
  {processes : Nat} {channels : List Channel}

namespace Promela

theorem codeName_eq_iff : codeName e = codeName f ↔ e.token = f.token := by
  rw [codeName, codeName, String.append_right_inj]

theorem action_sendFrom_eq_iff :
    action (.sendFrom s c p) = action (.sendFrom t c q) ↔ s = t := by
  rw [← String.toList_inj, ← String.toList_inj]
  simp [action, Event.sendFrom]

end Promela

namespace Scm

theorem action_internal_eq_iff (he : e.kind = .internal) (hf : f.kind = .internal) :
    action k e = action k f ↔ e.token = f.token := by
  rw [← String.toList_inj, ← String.toList_inj]
  simp [action, he, hf]

theorem action_sendFrom_eq_iff :
    action k (.sendFrom s c p) = action k (.sendFrom t c q) ↔ s = t := by
  rw [← String.toList_inj, ← String.toList_inj]
  simp [action, Event.sendFrom]

end Scm

namespace Event

/-- Events that fit a system have the same token only if they are the same. So do the names of
their codes tell them apart, what is written for internal steps, and what is written, in either
language, where they are recorded on a channel. -/
theorem tokens_apart (he : e.validate processes channels = .ok ())
    (hf : f.validate processes channels = .ok ()) :
    (e.token = f.token ↔ e = f) ∧ (Promela.codeName e = Promela.codeName f ↔ e = f) ∧
    (e.kind = .internal → f.kind = .internal →
      ∀ k, Scm.action k e = Scm.action k f ↔ e = f) ∧
    ∀ c p q,
      (∀ k, Scm.action k (.sendFrom e.token c p) = Scm.action k (.sendFrom f.token c q) ↔ e = f) ∧
      (Promela.action (.sendFrom e.token c p) = Promela.action (.sendFrom f.token c q) ↔ e = f) := by
  have htoken : e.token = f.token ↔ e = f := ⟨eq_of_token he hf, congrArg token⟩
  refine ⟨htoken, Promela.codeName_eq_iff.trans htoken, ?_, ?_⟩
  · intro hkind hkind' k
    exact (Scm.action_internal_eq_iff hkind hkind').trans htoken
  · intro c p q
    constructor
    · intro k
      exact Scm.action_sendFrom_eq_iff.trans htoken
    · exact Promela.action_sendFrom_eq_iff.trans htoken

/-- Eleven channels from one process to another. -/
def lanes : List Channel := (List.range 11).map fun i => ⟨0, 1, i, false⟩

/-- The label on the second lane begins with the last digit of the last lane, and a step is
labelled as if it were another one. -/
theorem tokens_apart_lanes :
    (send "0_m" ⟨0, 1, 1, false⟩).validate 2 lanes = .ok () ∧
    (send "m" ⟨0, 1, 10, false⟩).validate 2 lanes = .ok () ∧
    (send "0_m" ⟨0, 1, 1, false⟩).token = "p0_send_c1_0_m" ∧
    (send "m" ⟨0, 1, 10, false⟩).token = "p0_send_c10_m" ∧
    (send "0_m" ⟨0, 1, 1, false⟩).token ≠ (send "m" ⟨0, 1, 10, false⟩).token ∧
    (internal "local_x" 1).validate 2 lanes = .ok () ∧ (internal "x" 1).validate 2 lanes = .ok () ∧
    ∀ k, Scm.action k (internal "local_x" 1) ≠ Scm.action k (internal "x" 1) := by
  have hsecond : (send "0_m" ⟨0, 1, 1, false⟩).validate 2 lanes = .ok () := rfl
  have hlast : (send "m" ⟨0, 1, 10, false⟩).validate 2 lanes = .ok () := rfl
  have hstep : (internal "local_x" 1).validate 2 lanes = .ok () := rfl
  have hother : (internal "x" 1).validate 2 lanes = .ok () := rfl
  obtain ⟨htoken, -⟩ := tokens_apart hsecond hlast
  obtain ⟨-, -, haction, -⟩ := tokens_apart hstep hother
  refine ⟨hsecond, hlast, by decide +kernel, by decide +kernel, ?_, hstep, hother, ?_⟩
  · exact mt htoken.mp (by decide)
  · intro k
    exact mt (haction rfl rfl k).mp (by decide)

end Event

end ProtocolInference
