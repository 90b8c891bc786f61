import MiniKafka.AcksAllQuorum
import MiniKafka.RecordStreams

/-!
Which record sets a produce request without acks=all gets stored.

`handleProduce` decodes the record set of a partition until the bytes are used
up or a record does not decode.  An end of file counts as the end of the set,
also when it comes right after the length of a record.  `AppendBatch` then has
a limit on the size of a record that is stricter than the one of the decoder.
-/

namespace MiniKafka.ProducedRecordSets

open BigEndian ReadLoop RecordCodec RecordStreams RecordSets SegmentStore SegmentContents
  SegmentWrites PartitionLog LogContents LogWrites BrokerHandlers Runs
open LogRefinement (reached_small)
open AcksAllQuorum (ran handlers_ran finish_run)

/-- The answer of a handler that is done, and the partition it leaves. -/
def produceAnswer : Task × Partition × Purgatory → Option (ErrorCode × Block × Partition)
  | (.produce _ _ (.answered code block), p, _) => some (code, block, p)
  | _ => none

/-- `handleProduce` for one partition.  Six steps are all it takes when it does
not wait for the replicas. -/
def handleProduce (crc : Checksum) (cfg : BrokerConfig) (request : ProduceRequest)
    (deadline : Int) (key : TopicPartition) (channel : Nat) (now : Int) (choice : Choice)
    (p : Partition) (q : Purgatory) : Option (ErrorCode × Block × Partition) :=
  produceAnswer (Task.finish crc cfg key channel now choice 6 (.produce request deadline .received)
    p q)

/-- The set is cut off after the length of the record that follows `rs`. -/
def CutAfterLength (crc : Checksum) (s : Bytes) (rs : List Record) : Prop :=
  ∃ body word, s = body ++ word ∧ Blocks (decodeRecord crc) body rs ∧ LengthWord word

section

variable {crc : Checksum} {s : Bytes} {rs : List Record}

theorem blocks_image {records : List Record}
    (h : ∀ r ∈ records, r.encodedSize ≤ 4 + maxRecordSize) :
    Blocks (decodeRecord crc) (image crc records) records := by
  induction records with
  | nil => exact .nil
  | cons r rest ih =>
    have hblock : decodeRecord crc (r.wireImage crc) = .ok (r, (r.wireImage crc).length) := by
      rw [length_wireImage, ← List.append_nil (r.wireImage crc)]
      exact decodeRecord_wireImage_of_le crc r [] (h r List.mem_cons_self)
    exact .cons hblock (ih fun t ht => h t (List.mem_cons_of_mem r ht))

theorem decodeRecordSet_append {body rest : Bytes} {e : DecodeError}
    (hbody : Blocks (decodeRecord crc) body rs) (hrest : decodeRecord crc rest = .error e) :
    decodeRecordSet crc (body ++ rest) = if e = .eof then .ok rs else .error .corruptMessage := by
  have hprogress := decodeRecord_progressive crc
  obtain ⟨blocks, hblocks, -, hitems⟩ :=
    items_of_blocks hprogress (decodeRecord_selfContained crc) hbody
  have hrecords : decodeRecords crc (body ++ rest) = (rs, some e) := by
    rw [decodeRecords_eq, hitems, items_of_error hprogress hrest, List.append_nil, hblocks]
  rw [decodeRecordSet, hrecords]
  cases e <;> rfl

theorem decodeRecordSet_blocks (h : Blocks (decodeRecord crc) s rs) :
    decodeRecordSet crc s = .ok rs := by
  have hset := decodeRecordSet_append h ((decodeRecord_eq_eof_iff crc []).mpr (.inl rfl))
  rwa [List.append_nil] at hset

theorem decodeRecordSet_cut (h : CutAfterLength crc s rs) : decodeRecordSet crc s = .ok rs := by
  obtain ⟨body, word, rfl, hbody, hword⟩ := h
  exact decodeRecordSet_append hbody ((decodeRecord_eq_eof_iff crc word).mpr (.inr hword))

theorem not_blocks_of_cut (h : CutAfterLength crc s rs) :
    ¬ ∃ rs', Blocks (decodeRecord crc) s rs' := by
  obtain ⟨body, word, rfl, hbody, hword⟩ := h
  rintro ⟨rs', hwhole⟩
  have hnil := rest_eq_nil (decodeRecord_progressive crc) (decodeRecord_selfContained crc)
    ((decodeRecord_eq_eof_iff crc []).mpr (.inl rfl)) hbody
    ((decodeRecord_eq_eof_iff crc word).mpr (.inr hword)) hwhole
  rw [hnil] at hword
  exact absurd hword.1 (by simp)

/-- A record set is one of blocks, one that is cut off, or corrupt. -/
theorem recordSet_cases (crc : Checksum) (s : Bytes) :
    (∃ rs, Blocks (decodeRecord crc) s rs) ∨ (∃ rs, CutAfterLength crc s rs) ∨
      decodeRecordSet crc s = .error .corruptMessage := by
  obtain ⟨body, rest, rs, e, rfl, hbody, hrest⟩ :=
    exists_blocks (decodeRecord_progressive crc) (decodeRecord_selfContained crc) s
  by_cases he : e = .eof
  · subst he
    rcases (decodeRecord_eq_eof_iff crc rest).mp hrest with rfl | hword
    · rw [List.append_nil]
      exact .inl ⟨rs, hbody⟩
    · exact .inr (.inl ⟨rs, body, rest, rfl, hbody, hword⟩)
  · exact .inr (.inr ((decodeRecordSet_append hbody hrest).trans (if_neg he)))

theorem length_le_of_decodeRecordSet (h : decodeRecordSet crc s = .ok rs) :
    rs.length ≤ s.length := by
  have hprogress := decodeRecord_progressive crc
  rcases recordSet_cases crc s with ⟨rs', hblocks⟩ | ⟨rs', hcut⟩ | hcorrupt
  · cases h.symm.trans (decodeRecordSet_blocks hblocks)
    exact hblocks.length_le hprogress
  · cases h.symm.trans (decodeRecordSet_cut hcut)
    obtain ⟨body, word, rfl, hbody, -⟩ := hcut
    rw [List.length_append]
    exact (hbody.length_le hprogress).trans (Nat.le_add_right _ _)
  · rw [hcorrupt] at h
    cases h

end

section

variable {crc : Checksum} {cfg : BrokerConfig} {request : ProduceRequest} {deadline now : Int}
  {key : TopicPartition} {channel : Nat} {choice : Choice} {p p' : Partition} {q q' : Purgatory}
  {block : Block}

variable {code : ErrorCode} {records rs : List Record} {log : Log} {base : Int64} {s : Bytes}

theorem handleProduce_received (hacks : request.acks ≠ -1) :
    handleProduce crc cfg request deadline key channel now choice p q =
      produceAnswer (Task.finish crc cfg key channel now choice 5
        (.produce request deadline .accepted) p q) := by
  have hreceived : ProducePhase.received.next crc cfg request deadline key channel now choice p q =
      some (.accepted, p, q) := if_neg fun h => hacks h.1
  rw [handleProduce, Task.finish, Task.next, hreceived]
  rfl

theorem handleProduce_answered (hacks : request.acks ≠ -1)
    (hnext : ProducePhase.accepted.next crc cfg request deadline key channel now choice p q =
      some (.answered code block, p', q')) :
    handleProduce crc cfg request deadline key channel now choice p q = some (code, block, p') := by
  rw [handleProduce_received hacks, Task.finish, Task.next, hnext]
  rfl

theorem handleProduce_appended (hacks : request.acks ≠ -1)
    (hnext : ProducePhase.accepted.next crc cfg request deadline key channel now choice p q =
      some (.appended block, p', q')) :
    ∃ p'', handleProduce crc cfg request deadline key channel now choice p q =
      some (.none, block, p'') ∧ p''.log = p'.log := by
  rw [handleProduce_received hacks, Task.finish, Task.next, hnext]
  simp only [Task.finish, Task.next, ProducePhase.next, if_neg hacks, Option.map_some, Prod.map,
    id_eq, produceAnswer]
  exact ⟨_, rfl, rfl⟩

theorem accepted_next {e : Option LogError} (hlimit : cfg.tooLarge request.recordSet = false)
    (hset : decodeRecordSet crc request.recordSet = .ok records) (hne : records ≠ [])
    (hleft : OffsetsLeft p.log records.length)
    (happend : p.log.appendRecords crc records choice.surroundings = (log, base, e)) :
    ProducePhase.accepted.next crc cfg request deadline key channel now choice p q =
      some (if e.isSome then .answered .unknown ⟨0, 0⟩ else .appended ⟨base, records.length⟩,
        { p with log := log }, q) := by
  obtain ⟨r, rest, rfl⟩ := List.exists_cons_of_ne_nil hne
  rw [ProducePhase.next, if_neg (by simp [hlimit]), hset]
  dsimp only
  rw [if_pos hleft, happend]
  cases e with
  | none => rfl
  | some e => rfl

theorem finish_produce (n : Nat) (phase : ProducePhase) (p : Partition) (q : Purgatory) :
    ∃ phase', (Task.finish crc cfg key channel now choice n (.produce request deadline phase)
      p q).1 = .produce request deadline phase' := by
  induction n generalizing phase p q with
  | zero => exact ⟨phase, rfl⟩
  | succ n ih =>
    rw [Task.finish, Task.next]
    cases phase.next crc cfg request deadline key channel now choice p q with
    | none => exact ⟨phase, rfl⟩
    | some next => exact ih next.1 next.2.1 next.2.2

theorem eq_of_produceAnswer {result : Task × Partition × Purgatory} {phase : ProducePhase}
    (hresult : result.1 = .produce request deadline phase)
    (h : produceAnswer result = some (code, block, p')) :
    result.1 = .produce request deadline (.answered code block) ∧ result.2.1 = p' := by
  obtain ⟨task, p, q⟩ := result
  cases hresult
  cases phase with
  | answered code' block' =>
    cases h
    exact ⟨rfl, rfl⟩
  | _ => cases h

/-- The handler is a run of the broker from the arrival of the request on, in which
no other thread takes part. -/
theorem handleProduce_run {b : Broker}
    (h : handleProduce crc cfg request (produceDeadline request.timeoutMs b.now) key
      b.handlers.length b.now choice (b.partitions key) b.purgatory = some (code, block, p')) :
    ∃ steps b', Run (Guarded (fun _ _ => true) (Broker.step crc cfg)) b
        (.arrive key (.produce request) :: steps) b' ∧
      b'.partitions key = p' ∧
      b'.handlers[b.handlers.length]? = some ⟨key, .produce request
        (produceDeadline request.timeoutMs b.now) (.answered code block)⟩ := by
  obtain ⟨steps, hsteps⟩ := @finish_run crc cfg ((Request.produce request).begin b.now) key
    b.handlers.length
    { b with handlers := b.handlers ++ [⟨key, (Request.produce request).begin b.now⟩] } choice 6
    List.getElem?_concat_length
  obtain ⟨phase, hphase⟩ := finish_produce 6 .received (b.partitions key) b.purgatory
  obtain ⟨htask, hpartition⟩ := eq_of_produceAnswer hphase h
  refine ⟨steps, _, Run.cons ⟨rfl, rfl⟩ hsteps, ?_, ?_⟩
  · exact (Function.update_self ..).trans hpartition
  · rw [handlers_ran List.getElem?_concat_length]
    exact congrArg (fun task => some (Handler.mk key task)) htask

theorem handleProduce_decoded (h : WellFormed crc p.log)
    (hsegment : p.log.config.segmentBytes.toInt ≤ maxUint32) (hacks : request.acks ≠ -1)
    (hlimit : cfg.tooLarge request.recordSet = false)
    (hfault : ∀ i, (choice.surroundings i).fault = none)
    (hset : decodeRecordSet crc request.recordSet = .ok records)
    (hleft : OffsetsLeft p.log records.length) :
    ∃ code block p', handleProduce crc cfg request deadline key channel now choice p q =
        some (code, block, p') ∧
      (code = .none ↔ records.all encodable = true) ∧
      Extends crc p.log p'.log (stampAll p.log.highestOffset (records.takeWhile encodable)) ∧
      (code = .none → records ≠ [] → block.base = p.log.highestOffset) := by
  by_cases hempty : records = []
  · subst hempty
    have hnext : ProducePhase.accepted.next crc cfg request deadline key channel now choice p q =
        some (.answered .none ⟨0, 0⟩, p, q) := by
      rw [ProducePhase.next, if_neg (by simp [hlimit]), hset]
    exact ⟨_, _, _, handleProduce_answered hacks hnext, by simp, Extends.refl h, by simp⟩
  · have hexact := appendRecords_exact h hsegment hempty hleft hfault
    obtain ⟨taken, -, -, hbase⟩ := appendRecords_spec h choice.surroundings hleft
    rcases happend : p.log.appendRecords crc records choice.surroundings with ⟨log, base, e⟩
    rw [happend] at hexact hbase
    obtain ⟨hextends, hall⟩ := hexact
    cases e with
    | some e =>
      refine ⟨_, _, _, handleProduce_answered hacks
        (accepted_next hlimit hset hempty hleft happend), ?_, hextends, by simp⟩
      rw [← hall]
      simp
    | none =>
      obtain ⟨p'', hrun, hlog⟩ :=
        handleProduce_appended hacks (accepted_next hlimit hset hempty hleft happend)
      refine ⟨_, _, p'', hrun, by simpa using hall, ?_, fun _ _ => (hbase rfl).2⟩
      rwa [hlog]

/-- A produce request is answered without an error exactly when its record set is
one of blocks, and then it stores the records of the blocks from `base` on. -/
structure TakenExactly (crc : Checksum) (s : Bytes) (log log' : Log) (code : ErrorCode)
    (base : Int64) : Prop where
  accepted : code = .none ↔ ∃ rs, Blocks (decodeRecord crc) s rs
  appended : ∀ rs, Blocks (decodeRecord crc) s rs → Extends crc log log' (stampAll base rs)
  unchanged : (¬ ∃ rs, Blocks (decodeRecord crc) s rs) → Extends crc log log' []

/-- Every record of a set of blocks can be written, and a set that is cut off
after a length starts with a record that cannot. -/
structure Storable (crc : Checksum) (s : Bytes) : Prop where
  blocks : ∀ rs, Blocks (decodeRecord crc) s rs → ∀ r ∈ rs, r.encodedSize ≤ maxRecordSize
  cut : ∀ rs, CutAfterLength crc s rs → ∃ r ∈ rs.head?, maxRecordSize < r.encodedSize

theorem storable_of_blocks (hblocks : Blocks (decodeRecord crc) s rs)
    (hfits : ∀ r ∈ rs, r.encodedSize ≤ maxRecordSize) :
    Storable crc s := by
  constructor
  · intro rs' hrs'
    cases (decodeRecordSet_blocks hblocks).symm.trans (decodeRecordSet_blocks hrs')
    exact hfits
  · exact fun rs' hcut => absurd ⟨rs, hblocks⟩ (not_blocks_of_cut hcut)

theorem storable_encoded (h : encodeRecords crc records = .ok s) : Storable crc s := by
  obtain ⟨hfits, rfl⟩ := encodeRecords_eq_ok h
  exact storable_of_blocks (blocks_image fun r hr => (hfits r hr).trans (by omega)) hfits

theorem takenExactly_corrupt (h : WellFormed crc log)
    (hset : decodeRecordSet crc s = .error .corruptMessage) :
    TakenExactly crc s log log .corruptMessage base ↔ Storable crc s := by
  have hnot (rs : List Record) : ¬ decodeRecordSet crc s = .ok rs := by
    rw [hset]
    simp
  have hblocks : ¬ ∃ rs, Blocks (decodeRecord crc) s rs := by
    rintro ⟨rs, hrs⟩
    exact hnot rs (decodeRecordSet_blocks hrs)
  refine iff_of_true ⟨by simp [hblocks], ?_, fun _ => Extends.refl h⟩ ⟨?_, ?_⟩
  · exact fun rs hrs => absurd ⟨rs, hrs⟩ hblocks
  · exact fun rs hrs => absurd ⟨rs, hrs⟩ hblocks
  · exact fun rs hcut => absurd (decodeRecordSet_cut hcut) (hnot rs)

theorem takenExactly_blocks {log' : Log} (hblocks : Blocks (decodeRecord crc) s rs)
    (hcode : code = .none ↔ rs.all encodable = true)
    (hextends : Extends crc log log' (stampAll log.highestOffset (rs.takeWhile encodable)))
    (hbase : code = .none → rs ≠ [] → base = log.highestOffset) :
    TakenExactly crc s log log' code base ↔ Storable crc s := by
  have hunique (rs' : List Record) (h : Blocks (decodeRecord crc) s rs') : rs' = rs :=
    Except.ok.inj ((decodeRecordSet_blocks h).symm.trans (decodeRecordSet_blocks hblocks))
  constructor
  · rintro ⟨haccepted, -, -⟩
    constructor
    · intro rs' hrs' r hr
      rw [hunique rs' hrs'] at hr
      exact of_decide_eq_true (List.all_eq_true.mp (hcode.mp (haccepted.mpr ⟨rs, hblocks⟩)) r hr)
    · intro rs' hcut
      exact absurd ⟨rs, hblocks⟩ (not_blocks_of_cut hcut)
  · rintro ⟨hfits, -⟩
    have hall : ∀ r ∈ rs, encodable r = true :=
      fun r hr => decide_eq_true (hfits rs hblocks r hr)
    have hnone : code = .none := hcode.mpr (List.all_eq_true.mpr hall)
    constructor
    · exact ⟨fun _ => ⟨rs, hblocks⟩, fun _ => hnone⟩
    · intro rs' hrs'
      rw [hunique rs' hrs']
      rw [List.takeWhile_eq_self_iff.mpr hall] at hextends
      by_cases hempty : rs = []
      · subst hempty
        exact hextends
      · rwa [hbase hnone hempty]
    · exact fun hnot => absurd ⟨rs, hblocks⟩ hnot

theorem takenExactly_cut {log' : Log} (hcut : CutAfterLength crc s rs)
    (hcode : code = .none ↔ rs.all encodable = true)
    (hextends : Extends crc log log' (stampAll log.highestOffset (rs.takeWhile encodable))) :
    TakenExactly crc s log log' code base ↔ Storable crc s := by
  have hnot := not_blocks_of_cut hcut
  have hunique (rs' : List Record) (h : CutAfterLength crc s rs') : rs' = rs :=
    Except.ok.inj ((decodeRecordSet_cut h).symm.trans (decodeRecordSet_cut hcut))
  constructor
  · rintro ⟨haccepted, -, hunchanged⟩
    constructor
    · exact fun rs' hrs' => absurd ⟨rs', hrs'⟩ hnot
    · intro rs' hrs'
      rw [hunique rs' hrs']
      have hrefused : ¬ rs.all encodable = true := fun hall => hnot (haccepted.mp (hcode.mpr hall))
      have hstored := hextends.stored.symm.trans (hunchanged hnot).stored
      rw [List.append_cancel_left_eq, ← List.length_eq_zero_iff, length_stampAll,
        List.length_eq_zero_iff] at hstored
      cases rs with
      | nil => exact absurd rfl hrefused
      | cons r rest =>
        refine ⟨r, rfl, ?_⟩
        rw [List.takeWhile_cons] at hstored
        split at hstored
        · cases hstored
        · rename_i hlarge
          simpa [encodable] using hlarge
  · rintro ⟨-, hlarge⟩
    obtain ⟨r, hhead, hsize⟩ := hlarge rs hcut
    obtain ⟨rest, rfl⟩ := List.head?_eq_some_iff.mp hhead
    have hrefused : encodable r = false := decide_eq_false (by omega)
    constructor
    · rw [hcode]
      simp [hrefused, hnot]
    · exact fun rs' hrs' => absurd ⟨rs', hrs'⟩ hnot
    · intro _
      rwa [List.takeWhile_cons_of_neg (by simp [hrefused])] at hextends

/-- Without acks=all a record set within the limit is taken for what it is exactly
when it is storable. -/
theorem produce_takes_exactly_iff (h : WellFormed crc p.log)
    (hsegment : p.log.config.segmentBytes.toInt ≤ maxUint32)
    (hleft : OffsetsLeft p.log request.recordSet.length)
    (hacks : request.acks = 0 ∨ request.acks = 1)
    (hlimit : cfg.tooLarge request.recordSet = false)
    (hfault : ∀ i, (choice.surroundings i).fault = none) :
    (∃ code block p', handleProduce crc cfg request deadline key channel now choice p q =
        some (code, block, p') ∧
      TakenExactly crc request.recordSet p.log p'.log code block.base) ↔
    Storable crc request.recordSet := by
  have hacks' : request.acks ≠ -1 := by
    rcases hacks with h | h <;> rw [h] <;> decide
  -- the answer is the one of the run, so the statement is about it alone
  have hanswer {code : ErrorCode} {block : Block} {p' : Partition} {P : Prop}
      (hrun : handleProduce crc cfg request deadline key channel now choice p q =
        some (code, block, p'))
      (hiff : TakenExactly crc request.recordSet p.log p'.log code block.base ↔ P) :
      (∃ code block p', handleProduce crc cfg request deadline key channel now choice p q =
          some (code, block, p') ∧
        TakenExactly crc request.recordSet p.log p'.log code block.base) ↔ P := by
    rw [← hiff, hrun]
    constructor
    · rintro ⟨code', block', p'', heq, htaken⟩
      cases heq
      exact htaken
    · exact fun htaken => ⟨code, block, p', rfl, htaken⟩
  have hroom {rs : List Record} (hset : decodeRecordSet crc request.recordSet = .ok rs) :
      OffsetsLeft p.log rs.length := by
    have hlength := length_le_of_decodeRecordSet hset
    rw [OffsetsLeft] at hleft ⊢
    omega
  rcases recordSet_cases crc request.recordSet with ⟨rs, hblocks⟩ | ⟨rs, hcut⟩ | hcorrupt
  · have hset := decodeRecordSet_blocks hblocks
    obtain ⟨code, block, p', hrun, hcode, hextends, hbase⟩ :=
      handleProduce_decoded h hsegment hacks' hlimit hfault hset (hroom hset)
    exact hanswer hrun (takenExactly_blocks hblocks hcode hextends hbase)
  · have hset := decodeRecordSet_cut hcut
    obtain ⟨code, block, p', hrun, hcode, hextends, -⟩ :=
      handleProduce_decoded h hsegment hacks' hlimit hfault hset (hroom hset)
    exact hanswer hrun (takenExactly_cut hcut hcode hextends)
  · have hnext : ProducePhase.accepted.next crc cfg request deadline key channel now choice p q =
        some (.answered .corruptMessage ⟨0, 0⟩, p, q) := by
      rw [ProducePhase.next, if_neg (by simp [hlimit]), hcorrupt]
    exact hanswer (handleProduce_answered hacks' hnext) (takenExactly_corrupt h hcorrupt)

end

def idle : Purgatory := ⟨[], 0, []⟩

def freshPartition : Partition := newPartition pairConfig emptyLog 0

theorem produce_takes_exactly_iff_oneRecord :
    encodeRecords castagnoli [bareRecord 7] = .ok (produceOne 1).recordSet ∧
      ∃ code block p', handleProduce castagnoli pairConfig (produceOne 1) 0 events 0 0 calm
          freshPartition idle = some (code, block, p') ∧
        TakenExactly castagnoli (produceOne 1).recordSet emptyLog p'.log code block.base := by
  have hencoded : encodeRecords castagnoli [bareRecord 7] = .ok (produceOne 1).recordSet := by
    decide +kernel
  exact ⟨hencoded, (produce_takes_exactly_iff (p := freshPartition) reached_small.wellFormed
    (by decide) (by decide +kernel) (.inr rfl) (by decide +kernel) fun _ => rfl).mpr
    (storable_encoded hencoded)⟩

/-- A record, and the length 29 of another that does not follow. -/
def cutRequest : ProduceRequest :=
  { produceOne 1 with recordSet := (produceOne 1).recordSet ++ [0, 0, 0, 29] }

/-- A record, and one that decodes but cannot be written. -/
def oversizeRequest : ProduceRequest :=
  { produceOne 1 with recordSet := image castagnoli [bareRecord 7, oversizeRecord] }

/-- A set that is cut off is stored and answered without an error.  One of two
blocks is answered with an error and stored in part. -/
theorem produce_accepts_cut_set :
    (¬ ∃ rs, Blocks (decodeRecord castagnoli) cutRequest.recordSet rs) ∧
      (∃ p', handleProduce castagnoli pairConfig cutRequest 0 events 0 0 calm freshPartition idle =
          some (.none, ⟨0, 1⟩, p') ∧
        storedRecords castagnoli p'.log = [bareRecord 7]) ∧
      Blocks (decodeRecord castagnoli) oversizeRequest.recordSet [bareRecord 7, oversizeRecord] ∧
      ∃ code block p', handleProduce castagnoli pairConfig oversizeRequest 0 events 0 0 calm
          freshPartition idle = some (code, block, p') ∧
        code ≠ .none ∧ storedRecords castagnoli p'.log = [bareRecord 7] := by
  have hcut : CutAfterLength castagnoli cutRequest.recordSet [bareRecord 7] := by
    refine ⟨image castagnoli [bareRecord 7], [0, 0, 0, 29], by decide +kernel, ?_,
      by decide +kernel⟩
    exact blocks_image (by decide)
  have hstored : (handleProduce castagnoli pairConfig cutRequest 0 events 0 0 calm freshPartition
      idle).map (fun a => (a.1, a.2.1, storedRecords castagnoli a.2.2.log)) =
      some (.none, ⟨0, 1⟩, [bareRecord 7]) := by decide +kernel
  have hblocks : Blocks (decodeRecord castagnoli) oversizeRequest.recordSet
      [bareRecord 7, oversizeRecord] := by
    refine blocks_image (List.forall_mem_cons.mpr ⟨by decide, List.forall_mem_singleton.mpr ?_⟩)
    rw [encodedSize_oversizeRecord]
    omega
  have hbare : encodable (bareRecord 7) = true := by decide
  have hlarge : encodable oversizeRecord = false := by
    rw [encodable, encodedSize_oversizeRecord]
    decide
  obtain ⟨code, block, p', hrun, hcode, hextends, -⟩ :=
    @handleProduce_decoded castagnoli pairConfig oversizeRequest 0 0 events 0 calm freshPartition
      idle _ reached_small.wellFormed (by decide) (by decide) rfl (fun _ => rfl)
      (decodeRecordSet_blocks hblocks) (by decide +kernel)
  refine ⟨not_blocks_of_cut hcut, ?_, hblocks, code, block, p', hrun, ?_, ?_⟩
  · obtain ⟨⟨code, block, p'⟩, hrun, heq⟩ := Option.map_eq_some_iff.mp hstored
    simp only [Prod.mk.injEq] at heq
    obtain ⟨rfl, rfl, hrecords⟩ := heq
    exact ⟨p', hrun, hrecords⟩
  · rw [ne_eq, hcode]
    simp [hlarge]
  · have hempty : storedRecords castagnoli freshPartition.log = [] := by decide +kernel
    have hstamped : stampAll freshPartition.log.highestOffset [bareRecord 7] = [bareRecord 7] := by
      decide +kernel
    rw [hextends.stored, hempty, List.nil_append, List.takeWhile_cons_of_pos hbare,
      List.takeWhile_cons_of_neg (by simp [hlarge]), hstamped]

end MiniKafka.ProducedRecordSets
