import MiniKafka.WireCodec

/-!
The request bodies of `internal/protocol/requests.go` and the `ReplicaFetch`
request of `internal/replication/replication.go`.

A decoder starts from a fresh struct.  What it returns for an encoded body is the
body with its nil slices made empty, which is written down next to each body as
its normal form; only the topics of a `Metadata` request keep nil apart from
empty.
-/

namespace MiniKafka.RequestBodies

open BigEndian ExactReaders WireCodec

section Arrays

/-- Request arrays are read through `ReadArrayHeader`, response arrays through
`ArrayHeader`. -/
inductive Direction where
  | request
  | response
  deriving DecidableEq, Repr

def Direction.header : Direction → Decoder Int32
  | .request => readArrayHeader
  | .response => arrayHeader

def Direction.Allows : Direction → Nat → Prop
  | .request, n => n ≤ maxRequestElements
  | .response, _ => True

instance (d : Direction) (n : Nat) : Decidable (d.Allows n) :=
  match d with
  | .request => inferInstanceAs (Decidable (n ≤ maxRequestElements))
  | .response => inferInstanceAs (Decidable True)

variable {α P : Type}

def ArrayFits (d : Direction) (fits : α → Prop) (s : Slice α) : Prop :=
  d.Allows (elements s).length ∧ ∀ a ∈ elements s, fits a

instance (d : Direction) (fits : α → Prop) [DecidablePred fits] (s : Slice α) :
    Decidable (ArrayFits d fits s) :=
  inferInstanceAs (Decidable (_ ∧ _))

def BytesFit (v : Slice UInt8) : Prop := (elements v).length ≤ maxBytesLength

def normalizedArray (f : α → α) (s : Slice α) : Slice α := some ((elements s).map f)

theorem carries_header {d : Direction} {n : Nat} (h : d.Allows n) :
    Carries (putArrayHeader n) d.header (Int32.ofNat n) := by
  cases d with
  | request => exact carries_readArrayHeader h
  | response => exact carries_arrayHeader n

theorem carries_normalizedArray {encode : α → Except WireError Bytes} {decode : Decoder α}
    {f : α → α} {fits : α → Prop} {s : Slice α} (d : Direction) (hs : ArrayFits d fits s)
    (h : ∀ a, fits a → Carries (encode a) decode (f a)) :
    Carries (putArray encode s) (readArray d.header decode) (normalizedArray f s) :=
  carries_array (carries_header hs.1) fun a ha => h a (hs.2 a ha)

/-- A topic name with entries for some of its partitions: the shape of all the
topic structs below the `Produce`, `Fetch` and offset bodies. -/
structure TopicEntry (P : Type) where
  name : Bytes
  partitions : Slice P
  deriving DecidableEq, Repr

def putTopics (encode : P → Except WireError Bytes) :
    Slice (TopicEntry P) → Except WireError Bytes :=
  putArray fun t => inOrder [putString t.name, putArray encode t.partitions]

def readTopics (header : Decoder Int32) (decode : Decoder P) : Decoder (Slice (TopicEntry P)) :=
  readArray header do
    let name ← string
    let partitions ← readArray header decode
    return { name, partitions }

def normalizedTopics (f : P → P) : Slice (TopicEntry P) → Slice (TopicEntry P) :=
  normalizedArray fun t => { t with partitions := normalizedArray f t.partitions }

def TopicsFit (d : Direction) (fits : P → Prop) : Slice (TopicEntry P) → Prop :=
  ArrayFits d fun t => ArrayFits d fits t.partitions

instance (d : Direction) (fits : P → Prop) [DecidablePred fits] (topics : Slice (TopicEntry P)) :
    Decidable (TopicsFit d fits topics) :=
  inferInstanceAs (Decidable (ArrayFits d (fun t => ArrayFits d fits t.partitions) topics))

theorem carries_topics {encode : P → Except WireError Bytes} {decode : Decoder P} {f : P → P}
    {fits : P → Prop} {topics : Slice (TopicEntry P)} (d : Direction)
    (htopics : TopicsFit d fits topics) (h : ∀ p, fits p → Carries (encode p) decode (f p)) :
    Carries (putTopics encode topics) (readTopics d.header decode) (normalizedTopics f topics) := by
  apply carries_normalizedArray d htopics
  intro t ht
  apply carries_cons (carries_string t.name)
  apply carries_cons (carries_normalizedArray d ht h)
  exact carries_nil _

theorem encodes_oneTopic {encode : P → Except WireError Bytes} {name : Bytes} {p : P} {n : Nat}
    (hname : name.length ≤ maxInt16) (hp : Encodes (encode p) n) :
    Encodes (putTopics encode (some [⟨name, some [p]⟩])) (10 + name.length + n) := by
  have hpartitions : Encodes (putArray encode (some ([p].map id))) (4 + ([p].map fun _ => n).sum) :=
    encodes_array (by rw [List.length_singleton]; decide) fun q hq => by
      obtain rfl := List.mem_singleton.mp hq
      exact hp
  have htopics : Encodes (putTopics encode (some ([(⟨name, some [p]⟩ : TopicEntry P)].map id)))
      (4 + ([(⟨name, some [p]⟩ : TopicEntry P)].map fun _ =>
        2 + name.length + (4 + ([p].map fun _ => n).sum + 0)).sum) :=
    encodes_array (by rw [List.length_singleton]; decide) fun t ht => by
      obtain rfl := List.mem_singleton.mp ht
      exact encodes_cons (encodes_string hname) (encodes_cons hpartitions encodes_nil)
  obtain ⟨word, hword, hlength⟩ := htopics
  refine ⟨word, hword, ?_⟩
  simp only [List.map_cons, List.map_nil, List.sum_singleton] at hlength
  omega

theorem fits_of_oneTopic {encode : P → Except WireError Bytes} {name word : Bytes} {p : P}
    (h : putTopics encode (some [⟨name, some [p]⟩]) = .ok word) :
    name.length ≤ maxInt16 ∧ ∃ bs, encode p = .ok bs := by
  obtain ⟨topicWord, htopic⟩ := (fits_of_putArray h).2 _ List.mem_cons_self
  obtain ⟨_, _, hname, hrest, -⟩ := inOrder_cons_eq_ok htopic
  obtain ⟨_, _, hpartitions, -, -⟩ := inOrder_cons_eq_ok hrest
  exact ⟨(putString_eq_ok hname).1, (fits_of_putArray hpartitions).2 p List.mem_cons_self⟩

theorem carries_stringBytes {mk : Bytes → Slice UInt8 → α} {s : Bytes} {v : Slice UInt8}
    (hv : BytesFit v) :
    Carries (inOrder [putString s, putBytes v])
      (do
        let s ← string
        let v ← bytes
        return mk s v)
      (mk s (some (elements v))) := by
  apply carries_cons (carries_string s)
  apply carries_cons (carries_bytes hv)
  exact carries_nil _

end Arrays

structure ProduceRequestPartition where
  partitionID : Int32
  recordSet : Slice UInt8
  deriving DecidableEq, Repr

structure ProduceRequest where
  acks : Int16
  timeoutMs : Int32
  topics : Slice (TopicEntry ProduceRequestPartition)
  deriving DecidableEq, Repr

def ProduceRequestPartition.encode (p : ProduceRequestPartition) : Except WireError Bytes :=
  inOrder [.ok (putInt32 p.partitionID), putBytes p.recordSet]

def ProduceRequestPartition.decode : Decoder ProduceRequestPartition := do
  let partitionID ← int32
  let recordSet ← bytes
  return { partitionID, recordSet }

def ProduceRequestPartition.normalized (p : ProduceRequestPartition) : ProduceRequestPartition :=
  { p with recordSet := some (elements p.recordSet) }

def ProduceRequest.encode (r : ProduceRequest) : Except WireError Bytes :=
  inOrder [.ok (putInt16 r.acks), .ok (putInt32 r.timeoutMs),
    putTopics ProduceRequestPartition.encode r.topics]

def ProduceRequest.decode : Decoder ProduceRequest := do
  let acks ← int16
  let timeoutMs ← int32
  let topics ← readTopics readArrayHeader ProduceRequestPartition.decode
  return { acks, timeoutMs, topics }

def ProduceRequest.normalized (r : ProduceRequest) : ProduceRequest :=
  { r with topics := normalizedTopics ProduceRequestPartition.normalized r.topics }

def ProduceRequest.Fits (r : ProduceRequest) : Prop :=
  TopicsFit .request (fun p => BytesFit p.recordSet) r.topics

theorem ProduceRequestPartition.carries (p : ProduceRequestPartition) (h : BytesFit p.recordSet) :
    Carries p.encode decode p.normalized := by
  apply carries_cons (carries_int32 _)
  apply carries_cons (carries_bytes h)
  exact carries_nil _

theorem ProduceRequest.carries {r : ProduceRequest} (h : r.Fits) :
    Carries r.encode decode r.normalized := by
  apply carries_cons (carries_int16 _)
  apply carries_cons (carries_int32 _)
  apply carries_cons (carries_topics .request h ProduceRequestPartition.carries)
  exact carries_nil _

structure FetchRequestPartition where
  partitionID : Int32
  fetchOffset : Int64
  maxBytes : Int32
  deriving DecidableEq, Repr

structure FetchRequest where
  maxWaitMs : Int32
  minBytes : Int32
  maxBytes : Int32
  topics : Slice (TopicEntry FetchRequestPartition)
  deriving DecidableEq, Repr

def FetchRequestPartition.encode (p : FetchRequestPartition) : Except WireError Bytes :=
  inOrder [.ok (putInt32 p.partitionID), .ok (putInt64 p.fetchOffset), .ok (putInt32 p.maxBytes)]

def FetchRequestPartition.decode : Decoder FetchRequestPartition := do
  let partitionID ← int32
  let fetchOffset ← int64
  let maxBytes ← int32
  return { partitionID, fetchOffset, maxBytes }

def FetchRequest.encode (r : FetchRequest) : Except WireError Bytes :=
  inOrder [.ok (putInt32 r.maxWaitMs), .ok (putInt32 r.minBytes), .ok (putInt32 r.maxBytes),
    putTopics FetchRequestPartition.encode r.topics]

def FetchRequest.decode : Decoder FetchRequest := do
  let maxWaitMs ← int32
  let minBytes ← int32
  let maxBytes ← int32
  let topics ← readTopics readArrayHeader FetchRequestPartition.decode
  return { maxWaitMs, minBytes, maxBytes, topics }

def FetchRequest.normalized (r : FetchRequest) : FetchRequest :=
  { r with topics := normalizedTopics id r.topics }

def FetchRequest.Fits (r : FetchRequest) : Prop := TopicsFit .request (fun _ => True) r.topics

theorem FetchRequestPartition.carries (p : FetchRequestPartition) : Carries p.encode decode p := by
  apply carries_cons (carries_int32 _)
  apply carries_cons (carries_int64 _)
  apply carries_cons (carries_int32 _)
  exact carries_nil _

theorem FetchRequest.carries {r : FetchRequest} (h : r.Fits) :
    Carries r.encode decode r.normalized := by
  apply carries_cons (carries_int32 _)
  apply carries_cons (carries_int32 _)
  apply carries_cons (carries_int32 _)
  apply carries_cons (carries_topics .request h fun p _ => p.carries)
  exact carries_nil _

def putNullArray : Except WireError Bytes := .ok (putInt32 (-1))

structure MetadataRequest where
  topics : Slice Bytes
  deriving DecidableEq, Repr

def MetadataRequest.encode (r : MetadataRequest) : Except WireError Bytes :=
  if r.topics = none then putNullArray
  else putArray putString r.topics

def MetadataRequest.decode : Decoder MetadataRequest := do
  let topics ← readArray readArrayHeader string
  return { topics }

def MetadataRequest.Fits (r : MetadataRequest) : Prop :=
  ArrayFits .request (fun _ => True) r.topics

theorem readsAs_nullArray {α : Type} (decode : Decoder α) :
    ReadsAs (readArray readArrayHeader decode) (putInt32 (-1)) none := by
  have hheader : ReadsAs readArrayHeader (putInt32 (-1)) (-1) := by
    rw [← List.append_nil (putInt32 (-1))]
    apply (readsAs_int32 (-1)).bind
    rw [if_neg (by decide)]
    exact .pure (-1)
  rw [← List.append_nil (putInt32 (-1))]
  apply hheader.bind
  rw [if_pos (by decide)]
  exact .pure none

/-- Nil asks for all topics and is not the empty list of topics. -/
theorem MetadataRequest.carries {r : MetadataRequest} (h : r.Fits) :
    Carries r.encode decode r := by
  obtain ⟨topics⟩ := r
  cases topics with
  | none => exact carries_ok ((readsAs_nullArray string).map MetadataRequest.mk)
  | some names =>
    intro word hword
    have hnames := carries_normalizedArray .request h fun name _ => carries_string name
    rw [normalizedArray, List.map_id'] at hnames
    exact (hnames word hword).map MetadataRequest.mk

structure CreateTopicsRequestTopic where
  name : Bytes
  numPartitions : Int32
  replicationFactor : Int16
  deriving DecidableEq, Repr

structure CreateTopicsRequest where
  topics : Slice CreateTopicsRequestTopic
  deriving DecidableEq, Repr

def CreateTopicsRequestTopic.encode (t : CreateTopicsRequestTopic) : Except WireError Bytes :=
  inOrder [putString t.name, .ok (putInt32 t.numPartitions), .ok (putInt16 t.replicationFactor)]

def CreateTopicsRequestTopic.decode : Decoder CreateTopicsRequestTopic := do
  let name ← string
  let numPartitions ← int32
  let replicationFactor ← int16
  return { name, numPartitions, replicationFactor }

def CreateTopicsRequest.encode (r : CreateTopicsRequest) : Except WireError Bytes :=
  inOrder [putArray CreateTopicsRequestTopic.encode r.topics]

def CreateTopicsRequest.decode : Decoder CreateTopicsRequest := do
  let topics ← readArray readArrayHeader CreateTopicsRequestTopic.decode
  return { topics }

def CreateTopicsRequest.normalized (r : CreateTopicsRequest) : CreateTopicsRequest :=
  { r with topics := normalizedArray id r.topics }

def CreateTopicsRequest.Fits (r : CreateTopicsRequest) : Prop :=
  ArrayFits .request (fun _ => True) r.topics

theorem CreateTopicsRequestTopic.carries (t : CreateTopicsRequestTopic) :
    Carries t.encode decode t := by
  apply carries_cons (carries_string _)
  apply carries_cons (carries_int32 _)
  apply carries_cons (carries_int16 _)
  exact carries_nil _

theorem CreateTopicsRequest.carries {r : CreateTopicsRequest} (h : r.Fits) :
    Carries r.encode decode r.normalized := by
  apply carries_cons (carries_normalizedArray .request h fun t _ => t.carries)
  exact carries_nil _

structure JoinGroupProtocol where
  name : Bytes
  metadata : Slice UInt8
  deriving DecidableEq, Repr

structure JoinGroupRequest where
  groupID : Bytes
  sessionTimeoutMs : Int32
  memberID : Bytes
  protocolType : Bytes
  protocols : Slice JoinGroupProtocol
  deriving DecidableEq, Repr

def JoinGroupProtocol.encode (p : JoinGroupProtocol) : Except WireError Bytes :=
  inOrder [putString p.name, putBytes p.metadata]

def JoinGroupProtocol.decode : Decoder JoinGroupProtocol := do
  let name ← string
  let metadata ← bytes
  return { name, metadata }

def JoinGroupProtocol.normalized (p : JoinGroupProtocol) : JoinGroupProtocol :=
  { p with metadata := some (elements p.metadata) }

def JoinGroupRequest.encode (r : JoinGroupRequest) : Except WireError Bytes :=
  inOrder [putString r.groupID, .ok (putInt32 r.sessionTimeoutMs), putString r.memberID,
    putString r.protocolType, putArray JoinGroupProtocol.encode r.protocols]

def JoinGroupRequest.decode : Decoder JoinGroupRequest := do
  let groupID ← string
  let sessionTimeoutMs ← int32
  let memberID ← string
  let protocolType ← string
  let protocols ← readArray readArrayHeader JoinGroupProtocol.decode
  return { groupID, sessionTimeoutMs, memberID, protocolType, protocols }

def JoinGroupRequest.normalized (r : JoinGroupRequest) : JoinGroupRequest :=
  { r with protocols := normalizedArray JoinGroupProtocol.normalized r.protocols }

def JoinGroupRequest.Fits (r : JoinGroupRequest) : Prop :=
  ArrayFits .request (fun p => BytesFit p.metadata) r.protocols

theorem JoinGroupRequest.carries {r : JoinGroupRequest} (h : r.Fits) :
    Carries r.encode decode r.normalized := by
  apply carries_cons (carries_string _)
  apply carries_cons (carries_int32 _)
  apply carries_cons (carries_string _)
  apply carries_cons (carries_string _)
  apply carries_cons (carries_normalizedArray .request h fun p hp => carries_stringBytes hp)
  exact carries_nil _

structure SyncGroupAssignment where
  memberID : Bytes
  assignment : Slice UInt8
  deriving DecidableEq, Repr

structure SyncGroupRequest where
  groupID : Bytes
  generationID : Int32
  memberID : Bytes
  assignments : Slice SyncGroupAssignment
  deriving DecidableEq, Repr

def SyncGroupAssignment.encode (a : SyncGroupAssignment) : Except WireError Bytes :=
  inOrder [putString a.memberID, putBytes a.assignment]

def SyncGroupAssignment.decode : Decoder SyncGroupAssignment := do
  let memberID ← string
  let assignment ← bytes
  return { memberID, assignment }

def SyncGroupAssignment.normalized (a : SyncGroupAssignment) : SyncGroupAssignment :=
  { a with assignment := some (elements a.assignment) }

def SyncGroupRequest.encode (r : SyncGroupRequest) : Except WireError Bytes :=
  inOrder [putString r.groupID, .ok (putInt32 r.generationID), putString r.memberID,
    putArray SyncGroupAssignment.encode r.assignments]

def SyncGroupRequest.decode : Decoder SyncGroupRequest := do
  let groupID ← string
  let generationID ← int32
  let memberID ← string
  let assignments ← readArray readArrayHeader SyncGroupAssignment.decode
  return { groupID, generationID, memberID, assignments }

def SyncGroupRequest.normalized (r : SyncGroupRequest) : SyncGroupRequest :=
  { r with assignments := normalizedArray SyncGroupAssignment.normalized r.assignments }

def SyncGroupRequest.Fits (r : SyncGroupRequest) : Prop :=
  ArrayFits .request (fun a => BytesFit a.assignment) r.assignments

theorem SyncGroupRequest.carries {r : SyncGroupRequest} (h : r.Fits) :
    Carries r.encode decode r.normalized := by
  apply carries_cons (carries_string _)
  apply carries_cons (carries_int32 _)
  apply carries_cons (carries_string _)
  apply carries_cons (carries_normalizedArray .request h fun a ha => carries_stringBytes ha)
  exact carries_nil _

structure HeartbeatRequest where
  groupID : Bytes
  generationID : Int32
  memberID : Bytes
  deriving DecidableEq, Repr

def HeartbeatRequest.encode (r : HeartbeatRequest) : Except WireError Bytes :=
  inOrder [putString r.groupID, .ok (putInt32 r.generationID), putString r.memberID]

def HeartbeatRequest.decode : Decoder HeartbeatRequest := do
  let groupID ← string
  let generationID ← int32
  let memberID ← string
  return { groupID, generationID, memberID }

theorem HeartbeatRequest.carries (r : HeartbeatRequest) : Carries r.encode decode r := by
  apply carries_cons (carries_string _)
  apply carries_cons (carries_int32 _)
  apply carries_cons (carries_string _)
  exact carries_nil _

structure LeaveGroupRequest where
  groupID : Bytes
  memberID : Bytes
  deriving DecidableEq, Repr

def LeaveGroupRequest.encode (r : LeaveGroupRequest) : Except WireError Bytes :=
  inOrder [putString r.groupID, putString r.memberID]

def LeaveGroupRequest.decode : Decoder LeaveGroupRequest := do
  let groupID ← string
  let memberID ← string
  return { groupID, memberID }

theorem LeaveGroupRequest.carries (r : LeaveGroupRequest) : Carries r.encode decode r := by
  apply carries_cons (carries_string _)
  apply carries_cons (carries_string _)
  exact carries_nil _

structure OffsetCommitRequestPartition where
  partitionID : Int32
  offset : Int64
  metadata : Bytes
  deriving DecidableEq, Repr

structure OffsetCommitRequest where
  groupID : Bytes
  generationID : Int32
  memberID : Bytes
  topics : Slice (TopicEntry OffsetCommitRequestPartition)
  deriving DecidableEq, Repr

def OffsetCommitRequestPartition.encode (p : OffsetCommitRequestPartition) :
    Except WireError Bytes :=
  inOrder [.ok (putInt32 p.partitionID), .ok (putInt64 p.offset), putString p.metadata]

def OffsetCommitRequestPartition.decode : Decoder OffsetCommitRequestPartition := do
  let partitionID ← int32
  let offset ← int64
  let metadata ← string
  return { partitionID, offset, metadata }

def OffsetCommitRequest.encode (r : OffsetCommitRequest) : Except WireError Bytes :=
  inOrder [putString r.groupID, .ok (putInt32 r.generationID), putString r.memberID,
    putTopics OffsetCommitRequestPartition.encode r.topics]

def OffsetCommitRequest.decode : Decoder OffsetCommitRequest := do
  let groupID ← string
  let generationID ← int32
  let memberID ← string
  let topics ← readTopics readArrayHeader OffsetCommitRequestPartition.decode
  return { groupID, generationID, memberID, topics }

def OffsetCommitRequest.normalized (r : OffsetCommitRequest) : OffsetCommitRequest :=
  { r with topics := normalizedTopics id r.topics }

def OffsetCommitRequest.Fits (r : OffsetCommitRequest) : Prop :=
  TopicsFit .request (fun _ => True) r.topics

theorem OffsetCommitRequestPartition.carries (p : OffsetCommitRequestPartition) :
    Carries p.encode decode p := by
  apply carries_cons (carries_int32 _)
  apply carries_cons (carries_int64 _)
  apply carries_cons (carries_string _)
  exact carries_nil _

theorem OffsetCommitRequest.carries {r : OffsetCommitRequest} (h : r.Fits) :
    Carries r.encode decode r.normalized := by
  apply carries_cons (carries_string _)
  apply carries_cons (carries_int32 _)
  apply carries_cons (carries_string _)
  apply carries_cons (carries_topics .request h fun p _ => p.carries)
  exact carries_nil _

structure OffsetFetchRequest where
  groupID : Bytes
  topics : Slice (TopicEntry Int32)
  deriving DecidableEq, Repr

def OffsetFetchRequest.encode (r : OffsetFetchRequest) : Except WireError Bytes :=
  inOrder [putString r.groupID, putTopics (fun pID => .ok (putInt32 pID)) r.topics]

def OffsetFetchRequest.decode : Decoder OffsetFetchRequest := do
  let groupID ← string
  let topics ← readTopics readArrayHeader int32
  return { groupID, topics }

def OffsetFetchRequest.normalized (r : OffsetFetchRequest) : OffsetFetchRequest :=
  { r with topics := normalizedTopics id r.topics }

def OffsetFetchRequest.Fits (r : OffsetFetchRequest) : Prop :=
  TopicsFit .request (fun _ => True) r.topics

theorem OffsetFetchRequest.carries {r : OffsetFetchRequest} (h : r.Fits) :
    Carries r.encode decode r.normalized := by
  apply carries_cons (carries_string _)
  apply carries_cons (carries_topics .request h fun pID _ => carries_int32 pID)
  exact carries_nil _

structure ListOffsetsRequestPartition where
  partitionID : Int32
  timestamp : Int64
  deriving DecidableEq, Repr

structure ListOffsetsRequest where
  topics : Slice (TopicEntry ListOffsetsRequestPartition)
  deriving DecidableEq, Repr

def ListOffsetsRequestPartition.encode (p : ListOffsetsRequestPartition) :
    Except WireError Bytes :=
  inOrder [.ok (putInt32 p.partitionID), .ok (putInt64 p.timestamp)]

def ListOffsetsRequestPartition.decode : Decoder ListOffsetsRequestPartition := do
  let partitionID ← int32
  let timestamp ← int64
  return { partitionID, timestamp }

def ListOffsetsRequest.encode (r : ListOffsetsRequest) : Except WireError Bytes :=
  inOrder [putTopics ListOffsetsRequestPartition.encode r.topics]

def ListOffsetsRequest.decode : Decoder ListOffsetsRequest := do
  let topics ← readTopics readArrayHeader ListOffsetsRequestPartition.decode
  return { topics }

def ListOffsetsRequest.normalized (r : ListOffsetsRequest) : ListOffsetsRequest :=
  { r with topics := normalizedTopics id r.topics }

def ListOffsetsRequest.Fits (r : ListOffsetsRequest) : Prop :=
  TopicsFit .request (fun _ => True) r.topics

theorem ListOffsetsRequestPartition.carries (p : ListOffsetsRequestPartition) :
    Carries p.encode decode p := by
  apply carries_cons (carries_int32 _)
  apply carries_cons (carries_int64 _)
  exact carries_nil _

theorem ListOffsetsRequest.carries {r : ListOffsetsRequest} (h : r.Fits) :
    Carries r.encode decode r.normalized := by
  apply carries_cons (carries_topics .request h fun p _ => p.carries)
  exact carries_nil _

structure ApiVersionsRequest where
  deriving DecidableEq, Repr

def ApiVersionsRequest.encode (_ : ApiVersionsRequest) : Except WireError Bytes := inOrder []

def ApiVersionsRequest.decode : Decoder ApiVersionsRequest := return {}

theorem ApiVersionsRequest.carries (r : ApiVersionsRequest) : Carries r.encode decode r :=
  carries_nil r

structure ReplicaFetchRequest where
  replicaID : Int32
  maxWaitMs : Int32
  topic : Bytes
  partition : Int32
  fetchOffset : Int64
  deriving DecidableEq, Repr

def encodeReplicaFetchRequest (req : ReplicaFetchRequest) : Except WireError Bytes :=
  inOrder [.ok (putInt32 req.replicaID), .ok (putInt32 req.maxWaitMs), putString req.topic,
    .ok (putInt32 req.partition), .ok (putInt64 req.fetchOffset)]

def decodeReplicaFetchRequest : Decoder ReplicaFetchRequest := do
  let replicaID ← int32
  let maxWaitMs ← int32
  let topic ← string
  let part ← int32
  let fetchOffset ← int64
  return { replicaID, maxWaitMs, topic, partition := part, fetchOffset }

theorem ReplicaFetchRequest.carries (req : ReplicaFetchRequest) :
    Carries (encodeReplicaFetchRequest req) decodeReplicaFetchRequest req := by
  apply carries_cons (carries_int32 _)
  apply carries_cons (carries_int32 _)
  apply carries_cons (carries_string _)
  apply carries_cons (carries_int32 _)
  apply carries_cons (carries_int64 _)
  exact carries_nil _

end MiniKafka.RequestBodies
