import ProtocolInference.CommandLine.Run
import ProtocolInference.Proofs.Trace.Finish

/-!
# Loading recordings

The graph of a recorded execution passes the checks, so those that are made again once it
is built, and once more when a file is loaded, always succeed. Main statement:
`recorded_no_dead_end`.
-/

namespace ProtocolInference

theorem Recording.buildTrace_eq (r : Recording) (number : Nat) (events : List (List Event)) :
    r.buildTrace number events =
      (Trace.ofSequences r.processes r.channels events).mapError (.inTrace number) := by
  unfold buildTrace
  cases h : Trace.ofSequences r.processes r.channels events with
  | error cause => rfl
  | ok t =>
    have hvalid := Interleaving.validate_of_ofSequences h
    simp [Except.mapError, hvalid, bind, Except.bind, pure, Except.pure]

theorem Recording.forM_validate_of_build {r : Recording} {traces : List Trace}
    (h : r.build = .ok traces) : traces.forM Trace.validate = .ok () :=
  Checks.forM_eq_ok_iff.mpr fun _ ht => (of_mem_build h ht).2

namespace Action

theorem run_ofExcept {ε α : Type} (wrap : ε → Failure) (r : Except ε α) (s : Session) :
    ((ofExcept wrap r).run s : Except Failure α × Session) = (r.mapError wrap, s) := by
  cases r <;> rfl

theorem run_bind {α β : Type} (x : Action α) (f : α → Action β) (s : Session) :
    ((x >>= f).run s : Except Failure β × Session) = match (x.run s : Except Failure α × Session) with
      | (.ok a, s') => (f a).run s'
      | (.error cause, s') => (.error cause, s') := by
  simp only [ExceptT.run, bind, ExceptT.bind, ExceptT.mk, StateT.bind]
  cases x s with
  | mk result s' => cases result <;> rfl

theorem run_readFile (name : String) (s : Session) :
    ((readFile name).run s : Except Failure String × Session) =
      ((s.workspace.read name).mapError .file, s) := by
  unfold readFile
  rw [run_bind]
  exact run_ofExcept _ _ s

/-- The recordings in a file are checked twice after they are built, to no effect. -/
theorem run_loadTraces (name : String) (s : Session) :
    (Action.loadTraces name).run s = (match s.workspace.read name with
      | .error cause => .error (.file cause)
      | .ok text => match Recording.parse text with
        | none => .error (.recordingFormat name)
        | some r => r.build.mapError .recording, s) := by
  unfold loadTraces
  rw [run_bind, run_readFile]
  cases s.workspace.read name with
  | error cause => rfl
  | ok text =>
    dsimp only [Except.mapError]
    cases Recording.parse text with
    | none => rfl
    | some r =>
      dsimp only
      rw [run_bind, run_ofExcept]
      cases h : r.build with
      | error cause => rfl
      | ok traces =>
        dsimp only [Except.mapError]
        rw [run_bind, Recording.forM_validate_of_build h]
        rfl

theorem loadTraces_ne_trace (name : String) (s : Session) (cause : TraceError) :
    ((loadTraces name).run s).1 ≠ .error (.trace cause) := by
  rw [run_loadTraces]
  cases s.workspace.read name with
  | error e => exact fun h => by cases h
  | ok text =>
    dsimp only
    cases Recording.parse text with
    | none => exact fun h => by cases h
    | some r =>
      dsimp only
      cases r.build with
      | error e => exact fun h => by cases h
      | ok traces => exact fun h => by cases h

end Action

open Interleaving in
/-- If the sequences of a recording can be executed to the end, every node of their graph
has a path to its one accepting node, and every schedule can go on to the end. The checks
of the graph succeed, so those that are made after it is built never refuse it. -/
theorem recorded_no_dead_end :
    (∀ processes channels events t, Trace.ofSequences processes channels events = .ok t →
      t.validate = .ok () ∧ t.WellFormed ∧
      (∃ target q, q.isEmpty = true ∧
        t.observation? target = some (observe events ⟨finish events, q⟩) ∧
        (∀ node o, t.observation? node = some o → (o.isAccept = true ↔ node = target)) ∧
        ∀ node < t.size, ∃ es, t.Path node es target) ∧
      ∀ progress es q, Schedule events progress es →
        (Queues.empty channels.length).Run es q →
        ∃ fs r, Schedule events (finish events) (es ++ fs) ∧
          (Queues.empty channels.length).Run (es ++ fs) r ∧ r.isEmpty = true) ∧
    (∀ (r : Recording) number events, r.buildTrace number events =
      (Trace.ofSequences r.processes r.channels events).mapError (.inTrace number)) ∧
    (∀ (r : Recording) traces, r.build = .ok traces → traces.forM Trace.validate = .ok ()) ∧
    ∀ name s cause, ((Action.loadTraces name).run s).1 ≠ .error (.trace cause) :=
  ⟨fun _ _ _ _ h => ⟨validate_of_ofSequences h, wellFormed_of_ofSequences h, exists_finish h,
      fun _ _ _ hes hrun => exists_completion h hes hrun⟩,
    Recording.buildTrace_eq, fun _ _ h => Recording.forM_validate_of_build h,
    Action.loadTraces_ne_trace⟩

/-- After the message has been sent, it can be received. -/
theorem recorded_no_dead_end_handover : ∃ t fs r,
    Trace.ofSequences 2 [⟨0, 1, 0, false⟩] [[.send "m" ⟨0, 1, 0, false⟩],
      [.receive "m" ⟨0, 1, 0, false⟩]] = .ok t ∧
    t.validate = .ok () ∧
    (Queues.empty 1).Run ([.send "m" ⟨0, 1, 0, false⟩] ++ fs) r ∧ r.isEmpty = true := by
  obtain ⟨t, ht⟩ := Checks.exists_eq_ok (show (Trace.ofSequences 2 [⟨0, 1, 0, false⟩]
    [[.send "m" ⟨0, 1, 0, false⟩], [.receive "m" ⟨0, 1, 0, false⟩]]).isOk = true by
      decide +kernel)
  have hsent : Interleaving.Schedule [[.send "m" ⟨0, 1, 0, false⟩],
      [.receive "m" ⟨0, 1, 0, false⟩]] [1, 0] [.send "m" ⟨0, 1, 0, false⟩] := by
    refine ⟨rfl, by decide, fun {pid sequence n} hseq hn => ?_⟩
    match pid with
    | 0 | 1 =>
      cases hseq
      cases hn
      decide
    | _ + 2 => cases hseq
  obtain ⟨hvalid, -, -, hcomplete⟩ := recorded_no_dead_end.1 2 [⟨0, 1, 0, false⟩]
    [[.send "m" ⟨0, 1, 0, false⟩], [.receive "m" ⟨0, 1, 0, false⟩]] t ht
  obtain ⟨fs, r, -, hrun, hempty⟩ := hcomplete [1, 0] _ ⟨[["m"]]⟩ hsent
    (.cons rfl (.nil _))
  exact ⟨t, fs, r, ht, hvalid, hrun, hempty⟩

end ProtocolInference
