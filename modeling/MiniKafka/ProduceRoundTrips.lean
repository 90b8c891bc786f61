import MiniKafka.ProducedRecordSets
import MiniKafka.ProducerBatches

/-!
The round trip of a produce request: the client writes a frame, the server reads
it under its limit, `handleProduce` (`internal/broker/broker.go`) stores the
records and answers, and `produceRecords` makes an outcome of the answer.

The connection does not fail here.  What the handler finds of a partition is a
parameter of the request, so that two requests can be compared at the same
state of the broker.
-/

namespace MiniKafka.ProduceRoundTrips

open BigEndian ExactReaders WireCodec Frames RequestBodies ResponseBodies RecordCodec RecordSets
  ProducedRecordSets ProducerBatches
open SegmentContents (image length_image totalSize totalSize_ge)
open SegmentStore (maxUint32)
open LogContents (WellFormed OffsetsLeft)
open LogWrites (encodable appendRecords_exact)
open BrokerHandlers (BrokerConfig Choice ErrorCode Partition ProducePhase Purgatory)

def maxRequestBytes : Nat := 16777216

/-- A partition that the broker leads, when the handler comes to it.  The
`confirmation` is the code that waiting for the replicas would lead to. -/
structure Leadership where
  partition : Partition
  purgatory : Purgatory
  key : BrokerHandlers.TopicPartition
  channel : Nat
  deadline : Int
  now : Int
  logAppendTime : Int64
  choice : Choice
  confirmation : ErrorCode

inductive Finding where
  | invalidTopic
  | unknownPartition
  | notLeader
  | leading (l : Leadership)

/-- What the handler finds of the partitions of a request. -/
abbrev Findings := Bytes → Int32 → Finding

def errNotLeaderForPartition : Int16 := 5

def errInvalidTopicException : Int16 := 17

section Broker

variable (crc : Checksum) (cfg : BrokerConfig)

/-- There is no response when the offsets of the partition are used up. -/
def Leadership.respond (l : Leadership) (acks : Int16) (timeoutMs partitionID : Int32)
    (recordSet : Bytes) : Option ProduceResponsePartition :=
  let request : BrokerHandlers.ProduceRequest := ⟨acks, timeoutMs, recordSet⟩
  match ProducePhase.received.next crc cfg request l.deadline l.key l.channel l.now l.choice
    l.partition l.purgatory with
  | some (.answered code _, _) => some ⟨partitionID, code.code, 0, 0⟩
  | some (.accepted, p, q) =>
    match ProducePhase.accepted.next crc cfg request l.deadline l.key l.channel l.now l.choice
      p q with
    | some (.answered code _, _) => some ⟨partitionID, code.code, 0, 0⟩
    | some (.appended block, _) =>
      let code := if acks = -1 then l.confirmation else .none
      some ⟨partitionID, code.code, block.base, l.logAppendTime⟩
    | _ => none
  | _ => none

def producePartition (findings : Findings) (produceReq : ProduceRequest) (name : Bytes)
    (pReq : ProduceRequestPartition) : Option ProduceResponsePartition :=
  match findings name pReq.partitionID with
  | .invalidTopic => some ⟨pReq.partitionID, errInvalidTopicException, 0, 0⟩
  | .unknownPartition => some ⟨pReq.partitionID, BrokerHandlers.errUnknownTopicOrPartition, 0, 0⟩
  | .notLeader => some ⟨pReq.partitionID, errNotLeaderForPartition, 0, 0⟩
  | .leading l =>
    l.respond crc cfg produceReq.acks produceReq.timeoutMs pReq.partitionID
      (elements pReq.recordSet)

def produceTopic (findings : Findings) (produceReq : ProduceRequest)
    (t : TopicEntry ProduceRequestPartition) : Option (TopicEntry ProduceResponsePartition) :=
  ((elements t.partitions).mapM (producePartition crc cfg findings produceReq t.name)).map
    fun partitions => ⟨t.name, some partitions⟩

def dispatchProduce (findings : Findings) (req : RequestFrame) : Option ResponseFrame :=
  match ProduceRequest.decode (elements req.payload) with
  | .error _ => some ⟨0, req.correlationID, ErrorCode.unknown.code, none⟩
  | .ok (produceReq, _) =>
    ((elements produceReq.topics).mapM (produceTopic crc cfg findings produceReq)).map
      fun topics =>
        match (ProduceResponse.mk (some topics)).encode with
        | .error _ => ⟨0, req.correlationID, ErrorCode.unknown.code, none⟩
        | .ok body => ⟨0, req.correlationID, ErrorCode.none.code, some body⟩

/-- What `ReadResponseFrame` returns to a client that has written a frame.  The
server closes the connection on a frame that it cannot read. -/
def answerTo (findings : Findings) (frame : RequestFrame) : Option ResponseFrame :=
  match FrameKind.request.written frame with
  | .error _ => none
  | .ok request =>
    match readRequestFrameWithLimit (Int32.ofNat maxRequestBytes) request with
    | .error _ => none
    | .ok (req, _) =>
      match dispatchProduce crc cfg findings req with
      | none => none
      | some resp =>
        match FrameKind.response.written resp with
        | .error _ => none
        | .ok response => (readResponseFrame response).toOption.map Prod.fst

end Broker

section Client

variable (cfg : ProducerConfig) (crc : Checksum) (broker : BrokerConfig)

def outcomeOf (corrID : Int32) : Option ResponseFrame → Except ProducerError Int64
  | none => .error .readResponse
  | some resp => baseOffset corrID resp

/-- `produceRecords`, up to the base offset of the records. -/
def produceRecords (findings : Findings) (corrID : Int32) (tp : TopicPartition)
    (records : List Record) : Except ProducerError Int64 :=
  match produceRequest cfg crc tp records with
  | .error e => .error e
  | .ok payload =>
    let frame := requestFrame cfg corrID payload
    match frame.body with
    | .error _ => .error .writeFrame
    | .ok _ => outcomeOf corrID (answerTo crc broker findings frame)

def sendAlone (findings : Findings) (corrID : Int32) (tp : TopicPartition) (rec : Record) :
    BatchResult :=
  (produceRecords cfg crc broker findings corrID tp [rec]).map fun base =>
    (offsets base 1).head (by simp [offsets])

end Client

/-- The log of the partition is as its calls leave it, the disk does not fail and
the offsets last for a request. -/
structure Leadership.Healthy (crc : Checksum) (l : Leadership) : Prop where
  wellFormed : WellFormed crc l.partition.log
  segment : l.partition.log.config.segmentBytes.toInt ≤ maxUint32
  offsets : OffsetsLeft l.partition.log maxRequestBytes
  disk : ∀ i, (l.choice.surroundings i).fault = none

def Healthy (crc : Checksum) (findings : Findings) : Prop :=
  ∀ name partitionID l, findings name partitionID = .leading l → l.Healthy crc

/-- With acks=all, there are enough replicas in sync and they confirm in time. -/
def Finding.Willing (broker : BrokerConfig) (acks : Int16) : Finding → Prop
  | .leading l => acks = -1 → broker.minInsync.toInt ≤ l.partition.tracker.getISR.length ∧
      l.confirmation = .none
  | _ => False

/-- The broker takes records for the partition at all, and a request can name it. -/
structure Open (cfg : ProducerConfig) (broker : BrokerConfig) (findings : Findings)
    (tp : TopicPartition) : Prop where
  client : cfg.clientID.length ≤ maxInt16
  topic : tp.topic.length ≤ maxInt16
  willing : (findings tp.topic tp.partition).Willing broker cfg.acks

def requestSize (cfg : ProducerConfig) (tp : TopicPartition) (n : Nat) : Nat :=
  38 + cfg.clientID.length + tp.topic.length + n

def MessageFits (broker : BrokerConfig) (n : Nat) : Prop :=
  0 < broker.maxMessageBytes → (n : Int) ≤ broker.maxMessageBytes.toInt

/-- Every record is within its limit, and all together are within those of a
message and of a request. -/
structure WithinLimits (cfg : ProducerConfig) (broker : BrokerConfig) (tp : TopicPartition)
    (records : List Record) : Prop where
  record : ∀ r ∈ records, r.encodedSize ≤ maxRecordSize
  message : MessageFits broker (totalSize records)
  request : requestSize cfg tp (totalSize records) ≤ maxRequestBytes

section Requests

variable {cfg : ProducerConfig} {crc : Checksum} {tp : TopicPartition} {records : List Record}
  {payload recordSet : Bytes}

def requestBody (cfg : ProducerConfig) (tp : TopicPartition) (recordSet : Bytes) :
    ProduceRequest :=
  ⟨cfg.acks, cfg.timeoutMs, some [⟨tp.topic, some [⟨tp.partition, some recordSet⟩]⟩]⟩

theorem encodes_requestBody (cfg : ProducerConfig) (htopic : tp.topic.length ≤ maxInt16)
    (hset : recordSet.length ≤ maxInt32) :
    Encodes (requestBody cfg tp recordSet).encode (24 + tp.topic.length + recordSet.length) := by
  have hpartition : Encodes
      (ProduceRequestPartition.mk tp.partition (some recordSet)).encode
      (4 + (4 + recordSet.length + 0)) :=
    encodes_cons (encodes_int32 _) (encodes_cons (encodes_bytes hset) encodes_nil)
  obtain ⟨word, hword, hlength⟩ := encodes_cons (encodes_int16 cfg.acks)
    (encodes_cons (encodes_int32 cfg.timeoutMs)
      (encodes_cons (encodes_oneTopic htopic hpartition) encodes_nil))
  exact ⟨word, hword, by omega⟩

theorem fits_of_requestBody (h : (requestBody cfg tp recordSet).encode = .ok payload) :
    tp.topic.length ≤ maxInt16 ∧ recordSet.length ≤ maxInt32 := by
  obtain ⟨_, _, -, hrest, -⟩ := inOrder_cons_eq_ok h
  obtain ⟨_, _, -, htopics, -⟩ := inOrder_cons_eq_ok hrest
  obtain ⟨_, _, hone, -, -⟩ := inOrder_cons_eq_ok htopics
  obtain ⟨htopic, word, hpartition⟩ := fits_of_oneTopic hone
  obtain ⟨_, _, -, hset, -⟩ := inOrder_cons_eq_ok hpartition
  obtain ⟨_, _, hbytes, -, -⟩ := inOrder_cons_eq_ok hset
  exact ⟨htopic, (putBytes_eq_ok hbytes).1⟩

theorem produceRequest_eq_ok (h : produceRequest cfg crc tp records = .ok payload) :
    (∀ r ∈ records, r.encodedSize ≤ maxRecordSize) ∧
      (requestBody cfg tp (image crc records)).encode = .ok payload := by
  rw [produceRequest] at h
  split at h
  · cases h
  · rename_i recordSet hset
    obtain ⟨hrecords, rfl⟩ := encodeRecords_eq_ok hset
    refine ⟨hrecords, ?_⟩
    change (requestBody cfg tp (image crc records)).encode.mapError _ = _ at h
    cases hencode : (requestBody cfg tp (image crc records)).encode with
    | error e =>
      rw [hencode] at h
      cases h
    | ok word =>
      rw [hencode] at h
      cases h
      rfl

theorem produceRequest_isOk (hrecords : ∀ r ∈ records, r.encodedSize ≤ maxRecordSize)
    (hencode : (requestBody cfg tp (image crc records)).encode = .ok payload) :
    produceRequest cfg crc tp records = .ok payload := by
  have hset := encodeRecords_isOk fun r hr =>
    ⟨r.wireImage crc, (encode_eq_ok_iff crc r _).mpr ⟨hrecords r hr, rfl⟩⟩
  rw [produceRequest, hset]
  change (requestBody cfg tp (image crc records)).encode.mapError _ = _
  rw [hencode]
  rfl

theorem length_payload (h : produceRequest cfg crc tp records = .ok payload) :
    tp.topic.length ≤ maxInt16 ∧ payload.length = 24 + tp.topic.length + totalSize records := by
  obtain ⟨-, hencode⟩ := produceRequest_eq_ok h
  obtain ⟨htopic, hset⟩ := fits_of_requestBody hencode
  obtain ⟨word, hword, hlength⟩ := encodes_requestBody cfg htopic hset
  obtain rfl : word = payload := Except.ok.inj (hword.symm.trans hencode)
  rw [length_image] at hlength
  exact ⟨htopic, hlength⟩

theorem length_requestFrame {corrID : Int32} {body : Bytes}
    (h : produceRequest cfg crc tp records = .ok payload)
    (hbody : (requestFrame cfg corrID payload).body = .ok body) :
    cfg.clientID.length ≤ maxInt16 ∧ body.length = requestSize cfg tp (totalSize records) := by
  obtain ⟨hlength, hclient, -⟩ := RequestFrame.length_body hbody
  have hpayload := (length_payload h).2
  refine ⟨hclient, ?_⟩
  change body.length = 14 + cfg.clientID.length + payload.length at hlength
  rw [requestSize]
  omega

theorem decode_payload (h : produceRequest cfg crc tp records = .ok payload)
    (hset : totalSize records ≤ maxBytesLength) :
    ProduceRequest.decode payload = .ok (requestBody cfg tp (image crc records), []) := by
  have hfits : (requestBody cfg tp (image crc records)).Fits := by
    have hbytes : BytesFit (some (image crc records)) := by
      rw [BytesFit, elements, Option.getD_some, length_image]
      exact hset
    simp [ProduceRequest.Fits, requestBody, TopicsFit, ArrayFits, elements, Direction.Allows,
      maxRequestElements, hbytes]
  have hreads := (ProduceRequest.carries hfits payload (produceRequest_eq_ok h).2).reads []
  rwa [List.append_nil] at hreads

end Requests

section Responses

variable {crc : Checksum} {broker : BrokerConfig} {findings : Findings} {cfg : ProducerConfig}
  {tp : TopicPartition} {records : List Record} {payload : Bytes} {corrID : Int32}
  {partResp : ProduceResponsePartition}

def responseBody (name : Bytes) (partResp : ProduceResponsePartition) : ProduceResponse :=
  ⟨some [⟨name, some [partResp]⟩]⟩

theorem encodes_responseBody {name : Bytes} (hname : name.length ≤ maxInt16)
    (partResp : ProduceResponsePartition) :
    Encodes (responseBody name partResp).encode (32 + name.length) := by
  have hpartition : Encodes partResp.encode (4 + (2 + (8 + (8 + 0)))) :=
    encodes_cons (encodes_int32 _) (encodes_cons (encodes_int16 _)
      (encodes_cons (encodes_int64 _) (encodes_cons (encodes_int64 _) encodes_nil)))
  obtain ⟨word, hword, hlength⟩ := encodes_cons (encodes_oneTopic hname hpartition) encodes_nil
  exact ⟨word, hword, by omega⟩

theorem baseOffset_responseBody {name body : Bytes} (size : Int32)
    (hbody : (responseBody name partResp).encode = .ok body) :
    baseOffset corrID ⟨size, corrID, 0, some body⟩ =
      if partResp.errorCode ≠ 0 then .error (.partitionError partResp.errorCode)
      else .ok partResp.baseOffset := by
  have hreads := (ProduceResponse.carries (responseBody name partResp) body hbody).reads []
  rw [List.append_nil] at hreads
  have hdecode : ProduceResponse.decode (elements (some body)) =
      .ok (responseBody name partResp, []) := hreads
  rw [baseOffset, if_neg (by simp), if_neg (by simp), hdecode]
  rfl

theorem dispatchProduce_eq {req : RequestFrame} {body : Bytes}
    (hdecode : ProduceRequest.decode (elements req.payload) =
      .ok (requestBody cfg tp (image crc records), []))
    (hpart : producePartition crc broker findings (requestBody cfg tp (image crc records)) tp.topic
      ⟨tp.partition, some (image crc records)⟩ = some partResp)
    (hbody : (responseBody tp.topic partResp).encode = .ok body) :
    dispatchProduce crc broker findings req = some ⟨0, req.correlationID, 0, some body⟩ := by
  have htopic : produceTopic crc broker findings (requestBody cfg tp (image crc records))
      ⟨tp.topic, some [⟨tp.partition, some (image crc records)⟩]⟩ =
        some ⟨tp.topic, some [partResp]⟩ := by
    rw [produceTopic]
    simp only [elements, Option.getD_some, List.mapM_cons, List.mapM_nil, hpart]
    rfl
  have htopics : (elements (requestBody cfg tp (image crc records)).topics).mapM
      (produceTopic crc broker findings (requestBody cfg tp (image crc records))) =
        some [⟨tp.topic, some [partResp]⟩] := by
    simp only [requestBody, elements, Option.getD_some, List.mapM_cons, List.mapM_nil] at htopic ⊢
    rw [htopic]
    rfl
  rw [dispatchProduce, hdecode]
  dsimp only
  rw [htopics, Option.map_some, show (ProduceResponse.mk (some [⟨tp.topic, some [partResp]⟩])) =
    responseBody tp.topic partResp from rfl, hbody]
  rfl

theorem written_eq {frame : RequestFrame} {body : Bytes} (hbody : frame.body = .ok body) :
    FrameKind.request.written frame = .ok (putInt32 (Int32.ofNat body.length) ++ body) := by
  refine (FrameKind.written_eq_map (k := .request) frame).trans ?_
  change frame.body.map _ = _
  rw [hbody]
  rfl

theorem readResponseFrame_written {body : Bytes} (corrID : Int32) (hlength : body.length ≤ 65536) :
    ∃ response size, FrameKind.response.written (⟨0, corrID, 0, some body⟩ : ResponseFrame) =
        .ok response ∧
      readResponseFrame response = .ok (⟨size, corrID, 0, some body⟩, []) := by
  have hpayload : body.length ≤ maxInt32 := by
    rw [maxInt32]
    omega
  have hframe : 10 + body.length ≤ maxFrameSize := by
    rw [maxFrameSize]
    omega
  obtain ⟨response, hresponse, hreads⟩ := FrameKind.readsAs_written (k := .response)
    (ResponseFrame.encodes_body (f := ⟨0, corrID, 0, some body⟩) hpayload) hframe
  have hread := hreads.reads []
  rw [List.append_nil] at hread
  exact ⟨response, _, hresponse, hread⟩

theorem answerTo_of_read {frame req : RequestFrame} {resp answer : ResponseFrame}
    {request rest response left : Bytes}
    (hrequest : FrameKind.request.written frame = .ok request)
    (hread : readRequestFrameWithLimit (Int32.ofNat maxRequestBytes) request = .ok (req, rest))
    (hdispatch : dispatchProduce crc broker findings req = some resp)
    (hresponse : FrameKind.response.written resp = .ok response)
    (hanswer : readResponseFrame response = .ok (answer, left)) :
    answerTo crc broker findings frame = some answer := by
  simp only [answerTo, hrequest, hread, hdispatch, hresponse, hanswer]
  rfl

theorem answerTo_of_error {frame : RequestFrame} {request : Bytes} {e : FrameError}
    (hrequest : FrameKind.request.written frame = .ok request)
    (hread : readRequestFrameWithLimit (Int32.ofNat maxRequestBytes) request = .error e) :
    answerTo crc broker findings frame = none := by
  simp only [answerTo, hrequest, hread]

theorem answerTo_eq {body : Bytes} (h : produceRequest cfg crc tp records = .ok payload)
    (hbody : (requestFrame cfg corrID payload).body = .ok body)
    (hsize : requestSize cfg tp (totalSize records) ≤ maxRequestBytes)
    (hpart : producePartition crc broker findings (requestBody cfg tp (image crc records)) tp.topic
      ⟨tp.partition, some (image crc records)⟩ = some partResp) :
    ∃ resp, answerTo crc broker findings (requestFrame cfg corrID payload) = some resp ∧
      baseOffset corrID resp =
        if partResp.errorCode ≠ 0 then .error (.partitionError partResp.errorCode)
        else .ok partResp.baseOffset := by
  have hlength := (length_requestFrame h hbody).2
  have hset : totalSize records ≤ maxBytesLength := by
    rw [requestSize, maxRequestBytes] at hsize
    rw [maxBytesLength]
    omega
  have hread := (readsAs_withLimit hbody (by decide) (hlength.trans_le hsize)).reads []
  rw [List.append_nil] at hread
  obtain ⟨word, hword, hwordLength⟩ := encodes_responseBody (length_payload h).1 partResp
  have hdispatch : dispatchProduce crc broker findings (FrameKind.request.sent
      (requestFrame cfg corrID payload) (Int32.ofNat body.length)) =
        some ⟨0, corrID, 0, some word⟩ :=
    dispatchProduce_eq (decode_payload h hset) hpart hword
  have htopic := (length_payload h).1
  rw [maxInt16] at htopic
  obtain ⟨response, size, hresponse, hresp⟩ := readResponseFrame_written corrID
    (show word.length ≤ 65536 by omega)
  exact ⟨⟨size, corrID, 0, some word⟩,
    answerTo_of_read (written_eq hbody) hread hdispatch hresponse hresp,
    baseOffset_responseBody size hword⟩

theorem answerTo_eq_none {body : Bytes} (h : produceRequest cfg crc tp records = .ok payload)
    (hbody : (requestFrame cfg corrID payload).body = .ok body)
    (hsize : maxRequestBytes < requestSize cfg tp (totalSize records)) :
    answerTo crc broker findings (requestFrame cfg corrID payload) = none := by
  rw [← (length_requestFrame h hbody).2] at hsize
  have hpos : 0 < maxRequestBytes := by decide
  have hlimit : maxRequestBytes ≤ maxFrameSize := by decide
  obtain ⟨e, he⟩ := withLimit_tooLarge hbody hpos hlimit hsize []
  rw [List.append_nil] at he
  exact answerTo_of_error (written_eq hbody) he

end Responses

section Outcomes

variable {crc : Checksum} {broker : BrokerConfig} {findings : Findings} {cfg : ProducerConfig}
  {tp : TopicPartition} {records : List Record} {l : Leadership}

theorem tooLarge_eq_false_iff {recordSet : Bytes} :
    broker.tooLarge recordSet = false ↔ MessageFits broker recordSet.length := by
  rw [BrokerConfig.tooLarge, MessageFits, Bool.and_eq_false_imp]
  simp

theorem respond_spec (h : l.Healthy crc)
    (hrecords : ∀ r ∈ records, r.encodedSize ≤ maxRecordSize) (hne : records ≠ [])
    (hcount : records.length ≤ maxRequestBytes) (acks : Int16) (timeoutMs partitionID : Int32) :
    ∃ partResp, l.respond crc broker acks timeoutMs partitionID (image crc records) =
        some partResp ∧
      (partResp.errorCode = 0 ↔
        (Finding.leading l).Willing broker acks ∧ MessageFits broker (totalSize records)) := by
  rw [← length_image crc, ← tooLarge_eq_false_iff]
  by_cases hisr : acks = -1 ∧
      (l.partition.tracker.getISR.length : Int) < broker.minInsync.toInt
  · refine ⟨⟨partitionID, ErrorCode.notEnoughReplicas.code, 0, 0⟩, ?_, ?_⟩
    · simp only [Leadership.respond, ProducePhase.next, if_pos hisr]
    · refine iff_of_false (show ¬ ErrorCode.notEnoughReplicas.code = 0 by decide) ?_
      rintro ⟨hwilling, -⟩
      exact absurd (hwilling hisr.1).1 (Int.not_le.mpr hisr.2)
  cases hlarge : broker.tooLarge (image crc records) with
  | true =>
    refine ⟨⟨partitionID, ErrorCode.messageTooLarge.code, 0, 0⟩, ?_, ?_⟩
    · simp only [Leadership.respond, ProducePhase.next, if_neg hisr, hlarge, if_true]
    · refine iff_of_false (show ¬ ErrorCode.messageTooLarge.code = 0 by decide) ?_
      rintro ⟨-, hfits⟩
      cases hfits
  | false =>
    have hleft : OffsetsLeft l.partition.log records.length := by
      have hoffsets := h.offsets
      rw [OffsetsLeft] at hoffsets ⊢
      omega
    have hset : BrokerHandlers.decodeRecordSet crc (image crc records) = .ok records :=
      decodeRecordSet_blocks (blocks_image fun r hr => (hrecords r hr).trans (by omega))
    have hstored := (appendRecords_exact h.wellFormed h.segment hne hleft h.disk).2.mpr
      (List.all_eq_true.mpr fun r hr => decide_eq_true (hrecords r hr))
    rcases happend : l.partition.log.appendRecords crc records l.choice.surroundings with
      ⟨log, base, e⟩
    rw [happend] at hstored
    obtain rfl : e = none := hstored
    have hnext : ProducePhase.accepted.next crc broker ⟨acks, timeoutMs, image crc records⟩
        l.deadline l.key l.channel l.now l.choice l.partition l.purgatory =
          some (.appended ⟨base, records.length⟩, { l.partition with log := log },
            l.purgatory) :=
      accepted_next hlarge hset hne hleft happend
    have hreceived : ProducePhase.received.next crc broker ⟨acks, timeoutMs, image crc records⟩
        l.deadline l.key l.channel l.now l.choice l.partition l.purgatory =
          some (.accepted, l.partition, l.purgatory) := if_neg hisr
    refine ⟨⟨partitionID, (if acks = -1 then l.confirmation else .none).code, base,
      l.logAppendTime⟩, ?_, ?_⟩
    · simp only [Leadership.respond, hreceived, hnext]
    · change (if acks = -1 then l.confirmation else .none).code = 0 ↔ _
      rw [ErrorCode.code_eq_zero_iff]
      have hnot (hacks : acks = -1) :
          broker.minInsync.toInt ≤ l.partition.tracker.getISR.length :=
        Int.not_lt.mp fun hfew => hisr ⟨hacks, hfew⟩
      by_cases hacks : acks = -1
      · simp [Finding.Willing, hacks, hnot hacks]
      · simp [Finding.Willing, hacks]

theorem producePartition_spec (cfg : ProducerConfig) (broker : BrokerConfig) (tp : TopicPartition)
    (h : Healthy crc findings)
    (hrecords : ∀ r ∈ records, r.encodedSize ≤ maxRecordSize) (hne : records ≠ [])
    (hcount : records.length ≤ maxRequestBytes) :
    ∃ partResp, producePartition crc broker findings (requestBody cfg tp (image crc records))
        tp.topic ⟨tp.partition, some (image crc records)⟩ = some partResp ∧
      (partResp.errorCode = 0 ↔ (findings tp.topic tp.partition).Willing broker cfg.acks ∧
        MessageFits broker (totalSize records)) := by
  rw [producePartition]
  dsimp only
  cases hfinding : findings tp.topic tp.partition with
  | leading l =>
    exact respond_spec (h _ _ l hfinding) hrecords hne hcount cfg.acks cfg.timeoutMs tp.partition
  | invalidTopic => exact ⟨_, rfl, by simp [Finding.Willing, errInvalidTopicException]⟩
  | unknownPartition =>
    exact ⟨_, rfl, by simp [Finding.Willing, BrokerHandlers.errUnknownTopicOrPartition]⟩
  | notLeader => exact ⟨_, rfl, by simp [Finding.Willing, errNotLeaderForPartition]⟩

theorem produceRecords_written {payload body : Bytes} {corrID : Int32} (h : Healthy crc findings)
    (hne : records ≠ []) (hpayload : produceRequest cfg crc tp records = .ok payload)
    (hbody : (requestFrame cfg corrID payload).body = .ok body) :
    (∃ base, produceRecords cfg crc broker findings corrID tp records = .ok base) ↔
      (findings tp.topic tp.partition).Willing broker cfg.acks ∧
        MessageFits broker (totalSize records) ∧
        requestSize cfg tp (totalSize records) ≤ maxRequestBytes := by
  simp only [produceRecords, hpayload, hbody]
  rw [← and_assoc]
  by_cases hsize : requestSize cfg tp (totalSize records) ≤ maxRequestBytes
  · have hcount : records.length ≤ maxRequestBytes := by
      have hlength := totalSize_ge records
      rw [requestSize] at hsize
      omega
    obtain ⟨partResp, hpart, hcode⟩ :=
      producePartition_spec cfg broker tp h (produceRequest_eq_ok hpayload).1 hne hcount
    obtain ⟨resp, hresp, hbase⟩ := answerTo_eq hpayload hbody hsize hpart
    rw [hresp, outcomeOf, hbase, and_iff_left hsize, ← hcode]
    by_cases hzero : partResp.errorCode = 0
    · simp [hzero]
    · simp [hzero]
  · rw [answerTo_eq_none hpayload hbody (Nat.lt_of_not_le hsize), outcomeOf]
    simp [hsize]

/-- Records are stored if the broker takes any and all of them together are within
the limits. -/
theorem produceRecords_isOk_iff (h : Healthy crc findings) (corrID : Int32) (hne : records ≠ []) :
    (∃ base, produceRecords cfg crc broker findings corrID tp records = .ok base) ↔
      Open cfg broker findings tp ∧ WithinLimits cfg broker tp records := by
  constructor
  · intro hok
    obtain ⟨payload, hpayload⟩ : ∃ payload, produceRequest cfg crc tp records = .ok payload := by
      obtain ⟨base, hbase⟩ := hok
      rw [produceRecords] at hbase
      split at hbase
      · cases hbase
      · rename_i payload hpayload
        exact ⟨payload, hpayload⟩
    obtain ⟨body, hbody⟩ : ∃ body, (requestFrame cfg corrID payload).body = .ok body := by
      obtain ⟨base, hbase⟩ := hok
      simp only [produceRecords, hpayload] at hbase
      split at hbase
      · cases hbase
      · rename_i body hbody
        exact ⟨body, hbody⟩
    obtain ⟨hwilling, hmessage, hrequest⟩ :=
      (produceRecords_written h hne hpayload hbody).mp hok
    exact ⟨⟨(length_requestFrame hpayload hbody).1, (length_payload hpayload).1, hwilling⟩,
      (produceRequest_eq_ok hpayload).1, hmessage, hrequest⟩
  · rintro ⟨⟨hclient, htopic, hwilling⟩, hrecords, hmessage, hrequest⟩
    have hsize := hrequest
    rw [requestSize, maxRequestBytes] at hsize
    obtain ⟨payload, hencode, hlength⟩ := encodes_requestBody cfg htopic
      (show (image crc records).length ≤ maxInt32 by
        rw [length_image, maxInt32]
        omega)
    have hpayload := produceRequest_isOk hrecords hencode
    rw [length_image] at hlength
    obtain ⟨body, hbody, -⟩ := RequestFrame.encodes_body
      (f := requestFrame cfg corrID payload) hclient
      (show payload.length ≤ maxInt32 by
        rw [maxInt32]
        omega)
    exact (produceRecords_written h hne hpayload hbody).mpr ⟨hwilling, hmessage, hrequest⟩

theorem sendAlone_isOk_iff (h : Healthy crc findings) (corrID : Int32) (rec : Record) :
    (∃ offset, sendAlone cfg crc broker findings corrID tp rec = .ok offset) ↔
      Open cfg broker findings tp ∧ WithinLimits cfg broker tp [rec] := by
  rw [← produceRecords_isOk_iff h corrID (List.cons_ne_nil rec []), sendAlone]
  cases produceRecords cfg crc broker findings corrID tp [rec] with
  | error e => simp [Except.map]
  | ok base => simp [Except.map]

end Outcomes

end MiniKafka.ProduceRoundTrips
