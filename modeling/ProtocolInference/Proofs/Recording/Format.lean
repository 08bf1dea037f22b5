import ProtocolInference.Proofs.Json.Restoring
import ProtocolInference.Recording.Format

/-!
# Recordings and invariants come back from their texts

Reading the text of a recording or of a list of invariants restores the value, as
long as its numbers are numbers of 64 bits. A field that the text leaves out is read
as its default, and the fields left out are exactly those whose default is their
value: any other one is missed.
-/

namespace ProtocolInference

open Json

variable {c : Channel} {e : Event} {i : Invariant} {r : Recording}

/-! ### Channels -/

/-- The numbers of the channel are numbers of 64 bits. -/
structure Channel.Fits (c : Channel) : Prop where
  src : c.src < 0x10000000000000000
  dst : c.dst < 0x10000000000000000
  index : c.index < 0x10000000000000000

theorem Channel.record_toJson (c : Channel) :
    record ["src", "dst", "index", "synthetic"] c.toJson =
      some [some (.nat c.src), some (.nat c.dst), some (.nat c.index),
        if c.synthetic then some (.bool true) else none] := by
  obtain ⟨src, dst, index, synthetic⟩ := c
  cases synthetic <;> rfl

theorem Channel.restores (h : c.Fits) : Restores Channel.ofJson c.toJson c where
  plain := by
    rw [Channel.toJson, plain_obj]
    cases c.synthetic <;> simp [Plain.nat, Plain.bool]
  value := by
    rw [Channel.ofJson, c.record_toJson]
    obtain ⟨src, dst, index, synthetic⟩ := c
    cases synthetic <;>
      simp [required, natural_nat, h.src, h.dst, h.index, defaulting, boolean]

theorem Channel.omits (h : c.Fits) :
    Omits Channel.ofJson ["src", "dst", "index", "synthetic"] c.toJson c
      fun name => name = "synthetic" ∧ c.synthetic = false := by
  have hrecord := record_without c.record_toJson ⟨_, rfl⟩
  refine (Channel.restores h).omits ?_ ?_
  · cases hc : c.synthetic <;> simp [Channel.toJson, names, hc]
  · obtain ⟨src, dst, index, synthetic⟩ := c
    simp [Channel.ofJson, hrecord, required, natural_nat, h.src, h.dst, h.index, defaulting]

/-! ### Events -/

/-- The numbers of the event and of its channel are numbers of 64 bits. -/
structure Event.Fits (e : Event) : Prop where
  pid : e.pid < 0x10000000000000000
  channel : ∀ c ∈ e.channel, c.Fits

theorem EventKind.word_words (k : EventKind) : Json.word words (.str k.word) = some k := by
  cases k <;> rfl

theorem Event.record_toJson (e : Event) :
    record ["pid", "kind", "label", "channel"] e.toJson =
      some [some (.nat e.pid), some (.str e.kind.word), some (.str e.label),
        e.channel.map Channel.toJson] := by
  obtain ⟨pid, kind, label, channel⟩ := e
  cases channel <;> rfl

theorem Event.restores (h : e.Fits) : Restores Event.ofJson e.toJson e where
  plain := by
    rw [Event.toJson, plain_obj]
    cases hc : e.channel with
    | none => simp [Plain.nat, Plain.str]
    | some c => simp [Plain.nat, Plain.str, (Channel.restores (h.channel c hc)).plain]
  value := by
    have hchannel := defaulting_optional (fun c hc => Channel.restores (h.channel c hc))
      fun _ => Json.noConfusion
    rw [Event.ofJson, e.record_toJson]
    simp [required, natural_nat, h.pid, EventKind.word_words, Json.text, hchannel]

theorem Event.omits (h : e.Fits) :
    Omits Event.ofJson ["pid", "kind", "label", "channel"] e.toJson e
      fun name => name = "channel" ∧ e.channel = none := by
  have hrecord := record_without e.record_toJson ⟨_, rfl⟩
  refine (Event.restores h).omits ?_ ?_
  · cases hc : e.channel <;> simp [Event.toJson, names, hc]
  · obtain ⟨pid, kind, label, channel⟩ := e
    simp [Event.ofJson, hrecord, required, natural_nat, h.pid, EventKind.word_words, Json.text,
      defaulting, eq_comm]

/-! ### Invariants -/

/-- The numbers of both events are numbers of 64 bits. -/
structure Invariant.Fits (i : Invariant) : Prop where
  first : i.first.Fits
  second : i.second.Fits

theorem InvariantKind.word_words (k : InvariantKind) : Json.word words (.str k.word) = some k := by
  cases k <;> rfl

theorem Invariant.record_toJson (i : Invariant) :
    record ["kind", "first", "second", "encoding"] i.toJson =
      some [some (.str i.kind.word), some i.first.toJson, some i.second.toJson,
        i.encoding.map .str] := by
  obtain ⟨kind, first, second, encoding⟩ := i
  cases encoding <;> rfl

theorem Invariant.restores (h : i.Fits) : Restores Invariant.ofJson i.toJson i where
  plain := by
    have hfirst := (Event.restores h.first).plain
    have hsecond := (Event.restores h.second).plain
    rw [Invariant.toJson, plain_obj]
    cases i.encoding <;> simp [Plain.str, hfirst, hsecond]
  value := by
    have hfirst := (Event.restores h.first).value
    have hsecond := (Event.restores h.second).value
    have hencoding := defaulting_optional (o := i.encoding) (fun s _ => restores_text s)
      fun _ => Json.noConfusion
    rw [Invariant.ofJson, i.record_toJson]
    simp [required, InvariantKind.word_words, hfirst, hsecond, hencoding]

theorem Invariant.omits (h : i.Fits) :
    Omits Invariant.ofJson ["kind", "first", "second", "encoding"] i.toJson i
      fun name => name = "encoding" ∧ i.encoding = none := by
  have hfirst := (Event.restores h.first).value
  have hsecond := (Event.restores h.second).value
  have hrecord := record_without i.record_toJson ⟨_, rfl⟩
  refine (Invariant.restores h).omits ?_ ?_
  · cases hc : i.encoding <;> simp [Invariant.toJson, names, hc]
  · obtain ⟨kind, first, second, encoding⟩ := i
    simp [Invariant.ofJson, hrecord, required, InvariantKind.word_words, hfirst, hsecond,
      defaulting, eq_comm]

/-! ### Recordings -/

theorem Recording.record_toJson (r : Recording) :
    record ["processes", "channels", "traces"] r.toJson =
      some [some (.nat r.processes), some (.arr (r.channels.map Channel.toJson)),
        some (.arr (r.traces.map fun trace =>
          .arr (trace.map fun sequence => .arr (sequence.map Event.toJson))))] :=
  rfl

/-- All numbers of the recording are numbers of 64 bits. -/
structure Recording.Fits (r : Recording) : Prop where
  processes : r.processes < 0x10000000000000000
  channels : ∀ c ∈ r.channels, c.Fits
  events : ∀ trace ∈ r.traces, ∀ sequence ∈ trace, ∀ e ∈ sequence, e.Fits

theorem Recording.restores_channels (h : r.Fits) :
    Restores (list Channel.ofJson) (.arr (r.channels.map Channel.toJson)) r.channels :=
  restores_list fun c hc => Channel.restores (h.channels c hc)

theorem Recording.restores_traces (h : r.Fits) :
    Restores (list (list (list Event.ofJson)))
      (.arr (r.traces.map fun trace =>
        .arr (trace.map fun sequence => .arr (sequence.map Event.toJson)))) r.traces :=
  restores_list fun trace htrace => restores_list fun sequence hsequence =>
    restores_list fun e he => Event.restores (h.events trace htrace sequence hsequence e he)

theorem Recording.restores (h : r.Fits) : Restores Recording.ofJson r.toJson r where
  plain := by
    have hchannels := (Recording.restores_channels h).plain
    have htraces := (Recording.restores_traces h).plain
    rw [Recording.toJson, plain_obj]
    simp [Plain.nat, hchannels, htraces]
  value := by
    have hchannels := (Recording.restores_channels h).value
    have htraces := (Recording.restores_traces h).value
    rw [Recording.ofJson, r.record_toJson]
    simp [required, natural_nat, h.processes, hchannels, htraces]

theorem Recording.omits (h : r.Fits) :
    Omits Recording.ofJson ["processes", "channels", "traces"] r.toJson r fun _ => False := by
  have hchannels := (Recording.restores_channels h).value
  have hrecord := record_without r.record_toJson ⟨_, rfl⟩
  refine (Recording.restores h).omits ?_ ?_
  · simp [Recording.toJson, names]
  · simp [Recording.ofJson, hrecord, required, natural_nat, h.processes, hchannels]

/-! ### The texts -/

/-- Recordings and lists of invariants come back from their texts, written on one line
or indented. In every record within these texts exactly those fields are left out whose
default is their value. -/
theorem formats_restore :
    (∀ r : Recording, r.Fits →
      Recording.parse r.print = some r ∧ Recording.parse r.toJson.indented = some r) ∧
    (∀ invariants : List Invariant, (∀ i ∈ invariants, i.Fits) →
      Invariant.parseAll (Invariant.printAll invariants) = some invariants ∧
      Invariant.parseAll (Json.arr (invariants.map Invariant.toJson)).indented =
        some invariants) ∧
    (∀ c : Channel, c.Fits →
      Omits Channel.ofJson ["src", "dst", "index", "synthetic"] c.toJson c
        fun name => name = "synthetic" ∧ c.synthetic = false) ∧
    (∀ e : Event, e.Fits →
      Omits Event.ofJson ["pid", "kind", "label", "channel"] e.toJson e
        fun name => name = "channel" ∧ e.channel = none) ∧
    (∀ i : Invariant, i.Fits →
      Omits Invariant.ofJson ["kind", "first", "second", "encoding"] i.toJson i
        fun name => name = "encoding" ∧ i.encoding = none) ∧
    (∀ r : Recording, r.Fits →
      Omits Recording.ofJson ["processes", "channels", "traces"] r.toJson r fun _ => False) := by
  refine ⟨fun r hr => ?_, fun invariants hall => ?_, fun c => Channel.omits,
    fun e => Event.omits, fun i => Invariant.omits, fun r => Recording.omits⟩
  · exact ⟨(Recording.restores hr).compact, (Recording.restores hr).indented⟩
  · have hrestores := restores_list fun i hi => Invariant.restores (hall i hi)
    exact ⟨hrestores.compact, hrestores.indented⟩

/-- A channel that is synthetic. -/
def marker : Channel :=
  ⟨1, 0, 18446744073709551615, true⟩

/-- A recording with a label that has to be escaped, an event without a channel and an
event on a synthetic channel. -/
def unusual : Recording where
  processes := 2
  channels := [⟨0, 1, 0, false⟩, marker]
  traces := [[[⟨0, .send, "a\"\\\n\x01é", some ⟨0, 1, 0, false⟩⟩, ⟨0, .internal, "", none⟩], []],
    [[], [⟨1, .receive, "b", some marker⟩]]]

/-- Two invariants, one of them with an empty encoding. -/
def unusualInvariants : List Invariant :=
  [⟨.alwaysPrecedes, ⟨0, .internal, "", none⟩, ⟨1, .receive, "b", some marker⟩, some ""⟩,
    Invariant.eventually ⟨0, .internal, "\t", none⟩]

theorem marker_fits : marker.Fits :=
  ⟨by decide, by decide, by decide⟩

theorem fits_internal (label : String) : Event.Fits ⟨0, .internal, label, none⟩ :=
  ⟨by norm_num, by simp⟩

theorem fits_receive (label : String) : Event.Fits ⟨1, .receive, label, some marker⟩ :=
  ⟨by norm_num, by simpa using marker_fits⟩

theorem unusual_fits : unusual.Fits := by
  have hchannel : Channel.Fits ⟨0, 1, 0, false⟩ := ⟨by decide, by decide, by decide⟩
  have hsend : ∀ label, Event.Fits ⟨0, .send, label, some ⟨0, 1, 0, false⟩⟩ :=
    fun label => ⟨by norm_num, by simpa using hchannel⟩
  refine ⟨by decide, ?_, ?_⟩
  · simp [unusual, hchannel, marker_fits]
  · simp [unusual, hsend, fits_internal, fits_receive]

theorem unusualInvariants_fit : ∀ i ∈ unusualInvariants, i.Fits := by
  simp only [unusualInvariants, List.forall_mem_cons]
  exact ⟨⟨fits_internal _, fits_receive _⟩, ⟨fits_internal _, fits_internal _⟩, by simp⟩

theorem formats_restore_unusual :
    Recording.parse unusual.print = some unusual ∧
    Recording.parse unusual.toJson.indented = some unusual ∧
    Invariant.parseAll (Invariant.printAll unusualInvariants) = some unusualInvariants ∧
    Channel.ofJson (marker.toJson.without "synthetic") ≠ some marker := by
  obtain ⟨hrecordings, hlists, hchannels, -⟩ := formats_restore
  obtain ⟨hcompact, hindented⟩ := hrecordings unusual unusual_fits
  obtain ⟨hall, -⟩ := hlists unusualInvariants unusualInvariants_fit
  refine ⟨hcompact, hindented, hall, fun hrestored => ?_⟩
  obtain ⟨-, hplain⟩ := ((hchannels marker marker_fits).restored "synthetic" (by simp)).mp hrestored
  exact absurd hplain (by decide)

end ProtocolInference
