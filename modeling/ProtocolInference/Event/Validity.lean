import ProtocolInference.Trace.Error

/-!
# Events that fit a system, and their execution

An event fits a system when its process exists and it uses, from its own end, a
channel of the system, or none if it is internal.
-/

namespace ProtocolInference

/-- Checks that the event fits a system of `processes` processes connected by
`channels`. -/
def Event.validate (e : Event) (processes : Nat) (channels : List Channel) :
    Except TraceError Unit :=
  if processes ≤ e.pid then .error (.foreignProcess e processes)
  else match e.kind, e.channel with
    | .internal, none => .ok ()
    | .internal, some _ => .error (.internalWithChannel e)
    | _, none => .error (.missingChannel e)
    | kind, some c =>
      if channels[c.index]? ≠ some c then .error (.undeclaredChannel e c)
      else
        let owner := if kind = .send then c.src else c.dst
        if owner ≠ e.pid then .error (.wrongProcess e c owner) else .ok ()

/-- The contents of the channels after the event. -/
def Queues.apply (q : Queues) (e : Event) : Except TraceError Queues :=
  match e.kind, e.channel with
  | .internal, _ => .ok q
  | _, none => .error (.noChannelToUse e)
  | .send, some c =>
    if q.size ≤ c.index then .error (.noSuchChannel c) else .ok (q.push c.index e.label)
  | .receive, some c =>
    if q.size ≤ c.index then .error (.noSuchChannel c)
    else if q.enables e then .ok (q.pop c.index)
    else .error (.notAtHead e c)

end ProtocolInference
