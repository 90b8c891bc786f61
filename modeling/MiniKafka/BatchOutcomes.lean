import Mathlib.Algebra.Order.BigOperators.Group.List
import MiniKafka.BatchFanOut
import MiniKafka.ProduceRoundTrips

/-!
The outcomes of batched sends (`pkg/client/producer.go`) against those of the same
records sent alone.

The network and the process last: every connection is made, every write arrives,
and the response is the one of the broker.  What the broker is like when the
request of a flush comes in is a parameter for each flush; a record is sent alone
to the broker in that state.
-/

namespace MiniKafka.BatchOutcomes

open Frames RecordCodec ProducerBatches BatchLedger BatchSteps BatchFanOut ProduceRoundTrips Runs
open SegmentContents (totalSize)
open BrokerHandlers (BrokerConfig)
open ProducedRecordSets (freshPartition idle)
open LogRefinement (reached_small)

section Model

variable (cfg : ProducerConfig) (crc : Checksum) (broker : BrokerConfig)
  (findings : Nat → Findings)

def served (s : Producer) : ProducerEvent → Bool
  | .connect _ dialed => dialed && !s.finalized
  | .write _ ok => ok
  | .flush _ ok => ok
  | .respond j resp =>
    match s.flushes[j]? with
    | some ⟨_, .awaiting frame⟩ => decide (resp = answerTo crc broker (findings j) frame)
    | _ => false
  | e => closesIdle s e

def Succeeds (s : Producer) (i : Nat) : Prop := ∃ offset, resultsOf s i = [.ok offset]

/-- In every batch that has been answered, a send succeeds if and only if its
record does when it is sent alone. -/
def OutcomesKept (s : Producer) : Prop :=
  ∀ j f, s.flushes[j]? = some f → s.finished f = true →
    ∀ w ∈ waitersOf s f.batch, ∀ call : Send, s.sends[w]? = some call → ∀ corrID,
      (Succeeds s w ↔ ∃ offset,
        sendAlone cfg crc broker (findings j) corrID call.tp call.record = .ok offset)

/-- The broker takes no records at all, or the batch is within the limits as a
whole, or none of its records is. -/
def Uniform (findings : Findings) (tp : TopicPartition) (records : List Record) : Prop :=
  ¬ Open cfg broker findings tp ∨ WithinLimits cfg broker tp records ∨
    ∀ r ∈ records, ¬ WithinLimits cfg broker tp [r]

def UniformBatches (s : Producer) : Prop :=
  ∀ j f pb, s.flushes[j]? = some f → s.finished f = true → s.batches[f.batch]? = some pb →
    Uniform cfg broker (findings j) pb.tp pb.records

def Framed (tp : TopicPartition) (records : List Record) (frame : RequestFrame) : Prop :=
  ∃ corrID payload, produceRequest cfg crc tp records = .ok payload ∧
    frame = requestFrame cfg corrID payload

def Honest (findings : Findings) (tp : TopicPartition) (records : List Record) :
    FlushPhase → Prop
  | .framed frame => Framed cfg crc tp records frame
  | .locked frame => Framed cfg crc tp records frame
  | .writing frame => Framed cfg crc tp records frame
  | .flushing frame => Framed cfg crc tp records frame ∧ ∃ body, frame.body = .ok body
  | .reading frame => Framed cfg crc tp records frame ∧ ∃ body, frame.body = .ok body
  | .awaiting frame => Framed cfg crc tp records frame ∧ ∃ body, frame.body = .ok body
  | .answering outcome _ =>
    ∃ corrID, outcome = produceRecords cfg crc broker findings corrID tp records
  | _ => True

def Faithful (s : Producer) : Prop :=
  ∀ j f pb, s.flushes[j]? = some f → s.batches[f.batch]? = some pb →
    Honest cfg crc broker (findings j) pb.tp pb.records f.phase

end Model

section Batches

variable {cfg : ProducerConfig} {crc : Checksum} {s t u : Producer} {tp : TopicPartition}
  {pb : PendingBatch} {call : Send} {i k : Nat}

/-- Flushes are only added, and the batches of those on their way are left as
they are. -/
structure Keeps (s t : Producer) : Prop where
  queued : ∃ ks : List Nat, t.flushes = s.flushes ++ ks.map fun k => ⟨k, .queued⟩
  view : ∀ f ∈ s.flushes, t.batches[f.batch]?.map contents = s.batches[f.batch]?.map contents

theorem keeps_of_eq (hflushes : t.flushes = s.flushes) (hbatches : t.batches = s.batches) :
    Keeps s t :=
  ⟨⟨[], by rw [hflushes, List.map_nil, List.append_nil]⟩, fun f _ => by rw [hbatches]⟩

theorem Keeps.trans (h : Keeps s t) (h' : Keeps t u) : Keeps s u := by
  obtain ⟨ks, hks⟩ := h.queued
  obtain ⟨ks', hks'⟩ := h'.queued
  refine ⟨⟨ks ++ ks', ?_⟩, fun f hf => ?_⟩
  · rw [hks', hks, List.map_append, List.append_assoc]
  · rw [h'.view f (by rw [hks]; exact List.mem_append_left _ hf), h.view f hf]

theorem keeps_of_contents (ks : List Nat)
    (hflushes : t.flushes = s.flushes ++ ks.map fun k => ⟨k, .queued⟩)
    (hsame : t.batches.map contents = s.batches.map contents) : Keeps s t := by
  refine ⟨⟨ks, hflushes⟩, fun f _ => ?_⟩
  rw [← List.getElem?_map, ← List.getElem?_map, hsame]

theorem keeps_openBatch (tp : TopicPartition) (h : Sound s) : Keeps s (s.openBatch tp).1 := by
  rw [Producer.openBatch]
  split
  · exact keeps_of_eq rfl rfl
  · refine ⟨⟨[], (List.append_nil _).symm⟩, fun f hf => ?_⟩
    obtain ⟨pb, hpb⟩ := batch_of_flush h hf
    rw [List.getElem?_append_left (List.getElem?_eq_some_iff.mp hpb).1]

theorem keeps_appended (h : Sound s) (hmem : (tp, k) ∈ s.pending) :
    Keeps s (appended s i call k pb) := by
  refine ⟨⟨[], (List.append_nil _).symm⟩, fun f hf => ?_⟩
  rw [appended, List.getElem?_set_ne (Ne.symm (not_flushed h hmem hf))]

theorem keeps_detach {timer : Timer} (hpb : s.batches[k]? = some pb) :
    Keeps s (s.detach tp k pb timer) :=
  keeps_of_contents [k] rfl (map_contents_set _ hpb)

theorem keeps_of_next {e : ProducerEvent} (h : Sound s) (he : onRequest e = false)
    (hanswer : ∀ j, e ≠ .answer j) (hstep : s.next cfg crc e = some t) : Keeps s t := by
  cases e with
  | enqueue i =>
    obtain ⟨call, k, pb, hopen, -, hpb, -, hmem, rfl | rfl⟩ := enqueue_spec h hstep
    · exact (keeps_openBatch call.tp h).trans (keeps_appended hopen hmem)
    · exact ((keeps_openBatch call.tp h).trans (keeps_appended hopen hmem)).trans
        (keeps_detach (getElem?_appended hpb))
  | fire k =>
    obtain ⟨pb, hpb, -, rfl⟩ := next_fire hstep
    exact keeps_of_contents [] (List.append_nil _).symm (map_contents_set _ hpb)
  | lingerFire k =>
    obtain ⟨pb, hpb, -, ⟨-, rfl⟩ | ⟨-, rfl⟩⟩ := lingerFire_spec h hstep
    · exact keeps_detach hpb
    · exact keeps_of_contents [] (List.append_nil _).symm (map_contents_set _ hpb)
  | drain c =>
    simp only [Producer.next] at hstep
    split at hstep
    · cases hstep
      refine keeps_of_contents (s.pending.map Prod.snd) ?_ map_contents_stopTimers
      rw [List.map_map]
      rfl
    · cases hstep
  | answer j => exact absurd rfl (hanswer j)
  | send tp rec canceled =>
    simp only [Producer.next, Option.some.injEq] at hstep
    subst hstep
    exact keeps_of_eq rfl rfl
  | enter i =>
    simp only [Producer.next] at hstep
    split at hstep
    · split at hstep <;> (cases hstep; exact keeps_of_eq rfl rfl)
    · cases hstep
  | receive i =>
    simp only [Producer.next] at hstep
    split at hstep
    · cases hstep
      exact keeps_of_eq rfl rfl
    · cases hstep
  | cancel i =>
    simp only [Producer.next] at hstep
    split at hstep
    · cases hstep
      exact keeps_of_eq rfl rfl
    · cases hstep
  | close =>
    simp only [Producer.next] at hstep
    split at hstep <;> (cases hstep; exact keeps_of_eq rfl rfl)
  | finalize c =>
    have hfinalize (drained : Bool) : Keeps s (s.finalize c drained) := by
      rw [Producer.finalize]
      split <;> exact keeps_of_eq rfl rfl
    simp only [Producer.next] at hstep
    split at hstep
    · cases hstep
      exact hfinalize false
    · split at hstep
      · cases hstep
        exact hfinalize true
      · cases hstep
    · cases hstep
  | _ => cases he

end Batches

section Steps

variable {cfg : ProducerConfig} {crc : Checksum} {broker : BrokerConfig}
  {findings : Nat → Findings} {s t : Producer} {f : Flush} {j : Nat}

theorem faithful_keeps (h : Faithful cfg crc broker findings s) (hkeeps : Keeps s t) :
    Faithful cfg crc broker findings t := by
  intro j f pb hf hpb
  obtain ⟨ks, hks⟩ := hkeeps.queued
  rw [hks] at hf
  by_cases hlt : j < s.flushes.length
  · rw [List.getElem?_append_left hlt] at hf
    have hview := hkeeps.view f (List.mem_of_getElem? hf)
    rw [hpb, Option.map_some, eq_comm, Option.map_eq_some_iff] at hview
    obtain ⟨old, hold, hsame⟩ := hview
    simp only [contents, Prod.mk.injEq] at hsame
    rw [← hsame.1, ← hsame.2.1]
    exact h j f old hf hold
  · rw [List.getElem?_append_right (Nat.le_of_not_lt hlt)] at hf
    obtain ⟨k, -, rfl⟩ := List.mem_map.mp (List.mem_of_getElem? hf)
    trivial

theorem faithful_set {phase : FlushPhase} (h : Faithful cfg crc broker findings s)
    (hf : s.flushes[j]? = some f) (hflushes : t.flushes = s.flushes.set j ⟨f.batch, phase⟩)
    (hbatches : t.batches = s.batches)
    (hhonest : ∀ pb, s.batches[f.batch]? = some pb →
      Honest cfg crc broker (findings j) pb.tp pb.records f.phase →
        Honest cfg crc broker (findings j) pb.tp pb.records phase) :
    Faithful cfg crc broker findings t := by
  intro m g pb hg hpb
  rw [hflushes, getElem?_set_of_some hf] at hg
  rw [hbatches] at hpb
  split at hg
  · rename_i hjm
    subst hjm
    obtain rfl := Option.some.inj hg
    exact hhonest pb hpb (h j f pb hf hpb)
  · exact h m g pb hg hpb

theorem faithful_frame (h : Faithful cfg crc broker findings s)
    (hstep : s.next cfg crc (.frame j) = some t) : Faithful cfg crc broker findings t := by
  simp only [Producer.next] at hstep
  split at hstep
  · rename_i k hf
    split at hstep
    · cases hstep
    · rename_i pb hpb
      split at hstep
      · cases hstep
        exact faithful_set h hf rfl rfl fun _ _ _ => trivial
      · split at hstep
        · rename_i e hpayload
          cases hstep
          refine faithful_set h hf rfl rfl fun b hb _ => ⟨0, ?_⟩
          obtain rfl : pb = b := Option.some.inj (hpb.symm.trans hb)
          rw [produceRecords, hpayload]
        · rename_i payload hpayload
          cases hstep
          refine faithful_set h hf rfl rfl fun b hb _ => ?_
          obtain rfl : pb = b := Option.some.inj (hpb.symm.trans hb)
          exact ⟨_, payload, hpayload, rfl⟩
  · cases hstep

theorem faithful_connect {dialed : Bool} (h : Faithful cfg crc broker findings s)
    (hserved : served crc broker findings s (.connect j dialed) = true)
    (hstep : s.next cfg crc (.connect j dialed) = some t) :
    Faithful cfg crc broker findings t := by
  obtain ⟨rfl, hopen⟩ : dialed = true ∧ s.finalized = false := by
    simpa [served] using hserved
  simp only [Producer.next] at hstep
  split at hstep
  · rename_i k frame hf
    cases hstep
    rw [Producer.getConn, hopen, if_neg Bool.false_ne_true, if_pos rfl]
    split
    · exact faithful_set h hf rfl rfl fun _ _ hframed => hframed
    · exact faithful_set h hf rfl rfl fun _ _ hframed => hframed
  · cases hstep

theorem faithful_write {ok : Bool} (h : Faithful cfg crc broker findings s) (hsound : Sound s)
    (hserved : served crc broker findings s (.write j ok) = true)
    (hstep : s.next cfg crc (.write j ok) = some t) : Faithful cfg crc broker findings t := by
  obtain rfl : ok = true := hserved
  simp only [Producer.next] at hstep
  split at hstep
  · rename_i k frame hf
    split at hstep
    · rename_i e hbody
      cases hstep
      refine faithful_set h hf rfl rfl fun pb _ hframed => ?_
      obtain ⟨corrID, payload, hpayload, rfl⟩ := hframed
      exact ⟨corrID, by simp only [produceRecords, hpayload, hbody]⟩
    · rename_i body hbody
      rw [deref_eq hsound hf rfl] at hstep
      cases hstep
      exact faithful_set h hf rfl rfl fun _ _ hframed => ⟨hframed, body, hbody⟩
  · cases hstep

theorem faithful_respond {resp : Option ResponseFrame} (h : Faithful cfg crc broker findings s)
    (hserved : served crc broker findings s (.respond j resp) = true)
    (hstep : s.next cfg crc (.respond j resp) = some t) :
    Faithful cfg crc broker findings t := by
  simp only [Producer.next] at hstep
  split at hstep
  · rename_i k frame hf
    have hanswer : resp = answerTo crc broker (findings j) frame := by
      simpa [served, hf] using hserved
    -- whatever is done with the connection, the outcome is that of the response
    have hset (u : Producer) (hbatches : u.batches = s.batches)
        (hflushes : u.flushes =
          s.flushes.set j ⟨k, .answering (outcomeOf frame.correlationID resp) 0⟩) :
        Faithful cfg crc broker findings u := by
      refine faithful_set h hf hflushes hbatches fun pb _ hhonest => ?_
      obtain ⟨⟨corrID, payload, hpayload, rfl⟩, body, hbody⟩ := hhonest
      refine ⟨corrID, ?_⟩
      simp only [produceRecords, hpayload, hbody]
      rw [hanswer]
      rfl
    split at hstep
    · cases hstep
      exact hset _ rfl rfl
    · split at hstep
      · cases hstep
        exact hset _ rfl rfl
      · cases hstep
        exact hset _ rfl rfl
  · cases hstep

theorem faithful_step {e : ProducerEvent} (h : Faithful cfg crc broker findings s)
    (hsound : Sound s) (hserved : served crc broker findings s e = true)
    (hstep : s.step cfg crc e = some t) : Faithful cfg crc broker findings t := by
  rw [step_eq_next hsound] at hstep
  cases e with
  | frame j => exact faithful_frame h hstep
  | lock j =>
    simp only [Producer.next] at hstep
    split at hstep
    · rename_i k frame hf
      split at hstep
      · cases hstep
        exact faithful_set h hf rfl rfl fun _ _ hframed => hframed
      · cases hstep
    · cases hstep
  | connect j dialed => exact faithful_connect h hserved hstep
  | write j ok => exact faithful_write h hsound hserved hstep
  | flush j ok =>
    obtain rfl : ok = true := hserved
    simp only [Producer.next] at hstep
    split at hstep
    · rename_i k frame hf
      rw [deref_eq hsound hf rfl] at hstep
      cases hstep
      exact faithful_set h hf rfl rfl fun _ _ hhonest => hhonest
    · cases hstep
  | read j =>
    simp only [Producer.next] at hstep
    split at hstep
    · rename_i k frame hf
      rw [deref_eq hsound hf rfl] at hstep
      cases hstep
      exact faithful_set h hf rfl rfl fun _ _ hhonest => hhonest
    · cases hstep
  | respond j resp => exact faithful_respond h hserved hstep
  | answer j =>
    obtain ⟨k, outcome, next, pb, w, call, hf, -, -, -, rfl⟩ := answer_spec hstep
    exact faithful_set h hf rfl rfl fun _ _ hhonest => hhonest
  | _ => exact faithful_keeps h (keeps_of_next hsound rfl (fun j hj => by cases hj) hstep)

theorem closesIdle_of_served {e : ProducerEvent} (h : served crc broker findings s e = true) :
    closesIdle s e = true := by
  cases e with
  | finalize c => exact h
  | _ => rfl

theorem faithful_run {events : List ProducerEvent}
    (hrun : Run (Guarded (served crc broker findings) (Producer.step cfg crc)) newProducer
      events s) : Sound s ∧ Faithful cfg crc broker findings s := by
  apply Run.invariant (P := fun s => Sound s ∧ Faithful cfg crc broker findings s) hrun
  · refine ⟨sound_newProducer, fun j f pb hf => ?_⟩
    cases hf
  · rintro s e t ⟨hsound, h⟩ ⟨hserved, hstep⟩
    exact ⟨sound_step hsound (closesIdle_of_served hserved) hstep,
      faithful_step h hsound hserved hstep⟩

end Steps

section Outcomes

variable {cfg : ProducerConfig} {crc : Checksum} {broker : BrokerConfig}
  {findings : Nat → Findings} {s : Producer} {f : Flush} {pb : PendingBatch} {j w : Nat}

theorem withinLimits_of_mem {tp : TopicPartition} {records : List Record} {r : Record}
    (h : WithinLimits cfg broker tp records) (hr : r ∈ records) :
    WithinLimits cfg broker tp [r] := by
  have hsize : totalSize [r] ≤ totalSize records := by
    rw [totalSize, List.map_singleton, List.sum_singleton]
    exact List.le_sum_of_mem (List.mem_map_of_mem hr)
  refine ⟨fun q hq => ?_, fun hlimit => ?_, ?_⟩
  · obtain rfl := List.mem_singleton.mp hq
    exact h.record q hr
  · have hmessage := h.message hlimit
    omega
  · have hrequest := h.request
    rw [requestSize] at hrequest ⊢
    omega

/-- A batch does to each of its records what is done to the record alone, exactly
if it is uniform. -/
theorem uniform_iff (findings : Findings) (tp : TopicPartition) (records : List Record) :
    (∀ r ∈ records, (Open cfg broker findings tp ∧ WithinLimits cfg broker tp records ↔
      Open cfg broker findings tp ∧ WithinLimits cfg broker tp [r])) ↔
    Uniform cfg broker findings tp records := by
  constructor
  · intro hsame
    by_cases hopen : Open cfg broker findings tp
    · by_cases hwhole : WithinLimits cfg broker tp records
      · exact .inr (.inl hwhole)
      · exact .inr (.inr fun r hr hone => hwhole ((hsame r hr).mpr ⟨hopen, hone⟩).2)
    · exact .inl hopen
  · rintro (hclosed | hwhole | hnone) r hr
    · exact iff_of_false (fun h => hclosed h.1) fun h => hclosed h.1
    · exact and_congr_right fun _ => iff_of_true hwhole (withinLimits_of_mem hwhole hr)
    · exact and_congr_right fun _ =>
        iff_of_false (fun h => hnone r hr (withinLimits_of_mem h hr)) (hnone r hr)

theorem length_records (h : Sound s) (hpb : pb ∈ s.batches) :
    pb.records.length = pb.waiters.length := by
  have hlength := congrArg List.length (h.filed.own pb hpb)
  rwa [List.length_map, List.length_map] at hlength

theorem exists_waiter {r : Record} (h : Sound s) (hpb : pb ∈ s.batches) (hr : r ∈ pb.records) :
    ∃ w ∈ pb.waiters, ∃ call : Send, s.sends[w]? = some call ∧ call.tp = pb.tp ∧
      call.record = r := by
  obtain ⟨i, hi⟩ := List.mem_iff_getElem?.mp hr
  have hlt : i < pb.waiters.length :=
    length_records h hpb ▸ (List.getElem?_eq_some_iff.mp hi).1
  obtain ⟨call, hcall, htp, hrecord⟩ := ownRecord h hpb (List.getElem?_eq_getElem hlt)
  exact ⟨_, List.getElem_mem hlt, call, hcall, htp, Option.some.inj (hrecord.symm.trans hi)⟩

theorem succeeds_iff {outcome : Except ProducerError Int64} {next : Nat} (h : Sound s)
    (hf : f ∈ s.flushes) (hpb : s.batches[f.batch]? = some pb)
    (hphase : f.phase = .answering outcome next) (hnext : pb.waiters.length ≤ next)
    (hw : w ∈ pb.waiters) : Succeeds s w ↔ ∃ base, outcome = .ok base := by
  obtain ⟨i, hi⟩ := List.mem_iff_getElem?.mp hw
  obtain ⟨call, -, -, hrecord⟩ := ownRecord h (List.mem_of_getElem? hpb) hi
  rw [Succeeds, resultsOf_waiter h hf hpb hphase hnext hi]
  cases outcome with
  | error e => simp [PendingBatch.result]
  | ok base => simp [result_ok (List.getElem?_eq_some_iff.mp hrecord).1]

/-- The outcomes of one answered batch. -/
theorem batch_outcomes_iff (hhealthy : Healthy crc (findings j)) (h : Sound s)
    (hfaithful : Faithful cfg crc broker findings s) (hf : s.flushes[j]? = some f)
    (hfinished : s.finished f = true) (hpb : s.batches[f.batch]? = some pb) :
    (∀ w ∈ pb.waiters, ∀ call : Send, s.sends[w]? = some call → ∀ corrID,
      (Succeeds s w ↔ ∃ offset,
        sendAlone cfg crc broker (findings j) corrID call.tp call.record = .ok offset)) ↔
    Uniform cfg broker (findings j) pb.tp pb.records := by
  have hmem := List.mem_of_getElem? hpb
  by_cases hempty : pb.waiters = []
  · have hrecords : pb.records = [] := by
      rw [← List.length_eq_zero_iff, length_records h hmem, hempty, List.length_nil]
    rw [hempty, hrecords]
    exact iff_of_true (by simp) (.inr (.inr (by simp)))
  have hne : pb.records ≠ [] := by
    rwa [← List.length_pos_iff, length_records h hmem, List.length_pos_iff]
  obtain ⟨first, hfirst⟩ := List.exists_mem_of_ne_nil _ hempty
  obtain ⟨outcome, next, hphase, hnext⟩ :=
    answering_of_finished h (List.mem_of_getElem? hf) hpb hfinished hfirst
  have hhonest := hfaithful j f pb hf hpb
  rw [hphase] at hhonest
  obtain ⟨corrID₀, rfl⟩ := hhonest
  have hbatch (w : Nat) (hw : w ∈ pb.waiters) : Succeeds s w ↔
      Open cfg broker (findings j) pb.tp ∧ WithinLimits cfg broker pb.tp pb.records :=
    (succeeds_iff h (List.mem_of_getElem? hf) hpb hphase hnext hw).trans
      (produceRecords_isOk_iff hhealthy corrID₀ hne)
  rw [← uniform_iff]
  constructor
  · intro hkept r hr
    obtain ⟨w, hw, call, hcall, htp, rfl⟩ := exists_waiter h hmem hr
    rw [← hbatch w hw, hkept w hw call hcall 0, htp, sendAlone_isOk_iff hhealthy]
  · intro hsame w hw call hcall corrID
    obtain ⟨i, hi⟩ := List.mem_iff_getElem?.mp hw
    obtain ⟨call', hcall', htp, hrecord⟩ := ownRecord h hmem hi
    obtain rfl : call = call' := Option.some.inj (hcall.symm.trans hcall')
    rw [hbatch w hw, htp, sendAlone_isOk_iff hhealthy]
    exact hsame _ (List.mem_of_getElem? hrecord)

end Outcomes

/-- In every run over a network that lasts, batching keeps the outcomes of the
sends exactly if every batch that has been answered is uniform. -/
theorem outcomes_kept_iff {cfg : ProducerConfig} {crc : Checksum} {broker : BrokerConfig}
    {findings : Nat → Findings} {events : List ProducerEvent} {s : Producer}
    (hhealthy : ∀ j, Healthy crc (findings j))
    (hrun : Run (Guarded (served crc broker findings) (Producer.step cfg crc)) newProducer
      events s) :
    OutcomesKept cfg crc broker findings s ↔ UniformBatches cfg broker findings s := by
  obtain ⟨h, hfaithful⟩ := faithful_run hrun
  constructor
  · intro hkept j f pb hf hfinished hpb
    rw [← batch_outcomes_iff (hhealthy j) h hfaithful hf hfinished hpb, ← waitersOf_eq hpb]
    exact hkept j f hf hfinished
  · intro huniform j f hf hfinished
    obtain ⟨pb, hpb⟩ := batch_of_flush h (List.mem_of_getElem? hf)
    rw [waitersOf_eq hpb, batch_outcomes_iff (hhealthy j) h hfaithful hf hfinished hpb]
    exact huniform j f pb hf hfinished hpb

def freshBroker : Findings := fun _ _ =>
  .leading ⟨freshPartition, idle, BrokerHandlers.events, 0, 0, 0, 0, BrokerHandlers.calm, .none⟩

def limitedTo (maxMessageBytes : Int64) : BrokerConfig :=
  { BrokerHandlers.pairConfig with maxMessageBytes }

theorem healthy_freshBroker : Healthy castagnoli freshBroker := by
  intro name partitionID l hl
  cases hl
  exact ⟨reached_small.wellFormed, by decide, by decide +kernel, fun _ => rfl⟩

def small : Record := ⟨0, 1000, 0, none, none⟩

def large : Record := ⟨0, 1000, 0, none, some (List.replicate 20 0)⟩

def answered (code : UInt8) : ResponseFrame where
  size := 43
  correlationID := 1
  errorCode := 0
  payload := some [0, 0, 0, 1, 0, 1, 116, 0, 0, 0, 1, 0, 0, 0, 0, 0, code, 0, 0, 0, 0, 0, 0, 0, 0,
    0, 0, 0, 0, 0, 0, 0, 0]

def sendBoth (code : UInt8) : List ProducerEvent :=
  [.send oneTopic small false, .send oneTopic large false, .enter 0, .enqueue 0, .enter 1,
    .enqueue 1, .fire 0, .lingerFire 0, .frame 0, .lock 0, .connect 0 true, .write 0 true,
    .flush 0 true, .read 0, .respond 0 (some (answered code)), .answer 0, .answer 0]

theorem outcomes_kept_iff_sendBoth :
    ∃ s, Run (Guarded (served castagnoli (limitedTo 86) fun _ => freshBroker)
        (Producer.step smallConfig castagnoli)) newProducer (sendBoth 0) s ∧
      s.sent = [(0, .ok 0), (1, .ok 1)] ∧
      OutcomesKept smallConfig castagnoli (limitedTo 86) (fun _ => freshBroker) s := by
  have hend : (execute (served castagnoli (limitedTo 86) fun _ => freshBroker)
      (Producer.step smallConfig castagnoli) newProducer (sendBoth 0)).map
        (fun s => (s.sent, s.batches)) =
      some ([(0, .ok 0), (1, .ok 1)], [⟨oneTopic, [small, large], 86, [0, 1], .stopped⟩]) := by
    decide +kernel
  obtain ⟨s, hrun, hs⟩ := exists_run_of_execute hend
  obtain ⟨hsent, hbatches⟩ := Prod.mk.inj hs
  refine ⟨s, hrun, hsent, (outcomes_kept_iff (fun _ => healthy_freshBroker) hrun).mpr ?_⟩
  intro j f pb hf hfinished hpb
  rw [hbatches] at hpb
  obtain rfl := List.mem_singleton.mp (List.mem_of_getElem? hpb)
  exact .inr (.inl ⟨by decide, fun _ => by decide, by decide⟩)

/-- The second record is larger than a message may be.  Alone, the first one is
stored; in a batch with the second one it is refused. -/
theorem large_record_fails_small :
    ∃ s, Run (Guarded (served castagnoli (limitedTo 40) fun _ => freshBroker)
        (Producer.step smallConfig castagnoli)) newProducer (sendBoth 7) s ∧
      s.sent = [(0, .error (.partitionError 7)), (1, .error (.partitionError 7))] ∧
      sendAlone smallConfig castagnoli (limitedTo 40) freshBroker 1 oneTopic small = .ok 0 ∧
      sendAlone smallConfig castagnoli (limitedTo 40) freshBroker 1 oneTopic large =
        .error (.partitionError 7) ∧
      ¬ OutcomesKept smallConfig castagnoli (limitedTo 40) (fun _ => freshBroker) s := by
  have hend : (execute (served castagnoli (limitedTo 40) fun _ => freshBroker)
      (Producer.step smallConfig castagnoli) newProducer (sendBoth 7)).map
        (fun s => (s.sent, s.flushes, s.batches, s.sends)) =
      some ([(0, .error (.partitionError 7)), (1, .error (.partitionError 7))],
        [⟨0, .answering (.error (.partitionError 7)) 2⟩],
        [⟨oneTopic, [small, large], 86, [0, 1], .stopped⟩],
        [⟨oneTopic, small, .waiting, [.error (.partitionError 7)]⟩,
          ⟨oneTopic, large, .waiting, [.error (.partitionError 7)]⟩]) := by
    decide +kernel
  have hsmall : sendAlone smallConfig castagnoli (limitedTo 40) freshBroker 1 oneTopic small =
      .ok 0 := by
    decide +kernel
  have hlarge : sendAlone smallConfig castagnoli (limitedTo 40) freshBroker 1 oneTopic large =
      .error (.partitionError 7) := by
    decide +kernel
  obtain ⟨s, hrun, hs⟩ := exists_run_of_execute hend
  obtain ⟨hsent, hrest⟩ := Prod.mk.inj hs
  obtain ⟨hflushes, hrest⟩ := Prod.mk.inj hrest
  obtain ⟨hbatches, hsends⟩ := Prod.mk.inj hrest
  refine ⟨s, hrun, hsent, hsmall, hlarge, fun hkept => ?_⟩
  have hfinished : s.finished ⟨0, .answering (.error (.partitionError 7)) 2⟩ = true := by
    simp [Producer.finished, hbatches]
  have hsame := hkept 0 _ (by rw [hflushes]; rfl) hfinished 0 (by simp [waitersOf, hbatches]) _
    (by rw [hsends]; rfl) 1
  obtain ⟨offset, hoffset⟩ := hsame.mpr ⟨0, hsmall⟩
  rw [resultsOf, hsent] at hoffset
  cases hoffset

end MiniKafka.BatchOutcomes
