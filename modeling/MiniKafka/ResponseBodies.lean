import MiniKafka.RequestBodies

/-!
The response bodies of `internal/protocol/responses.go`.  Their arrays are read
through `ArrayHeader`, so that only byte fields have a limit of their own.
-/

namespace MiniKafka.ResponseBodies

open BigEndian ExactReaders WireCodec RequestBodies

section Arrays

variable {α P : Type}

theorem arrayFits_response (s : Slice α) : ArrayFits .response (fun _ => True) s :=
  ⟨trivial, fun _ _ => trivial⟩

theorem topicsFit_response (topics : Slice (TopicEntry P)) :
    TopicsFit .response (fun _ => True) topics :=
  ⟨trivial, fun t _ => arrayFits_response t.partitions⟩

end Arrays

structure ProduceResponsePartition where
  partitionID : Int32
  errorCode : Int16
  baseOffset : Int64
  logAppendTime : Int64
  deriving DecidableEq, Repr

structure ProduceResponse where
  topics : Slice (TopicEntry ProduceResponsePartition)
  deriving DecidableEq, Repr

def ProduceResponsePartition.encode (p : ProduceResponsePartition) : Except WireError Bytes :=
  inOrder [.ok (putInt32 p.partitionID), .ok (putInt16 p.errorCode), .ok (putInt64 p.baseOffset),
    .ok (putInt64 p.logAppendTime)]

def ProduceResponsePartition.decode : Decoder ProduceResponsePartition := do
  let partitionID ← int32
  let errorCode ← int16
  let baseOffset ← int64
  let logAppendTime ← int64
  return { partitionID, errorCode, baseOffset, logAppendTime }

def ProduceResponse.encode (r : ProduceResponse) : Except WireError Bytes :=
  inOrder [putTopics ProduceResponsePartition.encode r.topics]

def ProduceResponse.decode : Decoder ProduceResponse := do
  let topics ← readTopics arrayHeader ProduceResponsePartition.decode
  return { topics }

def ProduceResponse.normalized (r : ProduceResponse) : ProduceResponse :=
  { r with topics := normalizedTopics id r.topics }

theorem ProduceResponsePartition.carries (p : ProduceResponsePartition) :
    Carries p.encode decode p := by
  apply carries_cons (carries_int32 _)
  apply carries_cons (carries_int16 _)
  apply carries_cons (carries_int64 _)
  apply carries_cons (carries_int64 _)
  exact carries_nil _

theorem ProduceResponse.carries (r : ProduceResponse) : Carries r.encode decode r.normalized := by
  apply carries_cons (carries_topics .response (topicsFit_response _) fun p _ => p.carries)
  exact carries_nil _

structure FetchResponsePartition where
  partitionID : Int32
  errorCode : Int16
  highWatermark : Int64
  logStartOffset : Int64
  recordSet : Slice UInt8
  deriving DecidableEq, Repr

structure FetchResponse where
  topics : Slice (TopicEntry FetchResponsePartition)
  deriving DecidableEq, Repr

def FetchResponsePartition.encode (p : FetchResponsePartition) : Except WireError Bytes :=
  inOrder [.ok (putInt32 p.partitionID), .ok (putInt16 p.errorCode),
    .ok (putInt64 p.highWatermark), .ok (putInt64 p.logStartOffset), putBytes p.recordSet]

def FetchResponsePartition.decode : Decoder FetchResponsePartition := do
  let partitionID ← int32
  let errorCode ← int16
  let highWatermark ← int64
  let logStartOffset ← int64
  let recordSet ← bytes
  return { partitionID, errorCode, highWatermark, logStartOffset, recordSet }

def FetchResponsePartition.normalized (p : FetchResponsePartition) : FetchResponsePartition :=
  { p with recordSet := some (elements p.recordSet) }

def FetchResponse.encode (r : FetchResponse) : Except WireError Bytes :=
  inOrder [putTopics FetchResponsePartition.encode r.topics]

def FetchResponse.decode : Decoder FetchResponse := do
  let topics ← readTopics arrayHeader FetchResponsePartition.decode
  return { topics }

def FetchResponse.normalized (r : FetchResponse) : FetchResponse :=
  { r with topics := normalizedTopics FetchResponsePartition.normalized r.topics }

def FetchResponse.Fits (r : FetchResponse) : Prop :=
  TopicsFit .response (fun p => BytesFit p.recordSet) r.topics

theorem FetchResponsePartition.carries (p : FetchResponsePartition) (h : BytesFit p.recordSet) :
    Carries p.encode decode p.normalized := by
  apply carries_cons (carries_int32 _)
  apply carries_cons (carries_int16 _)
  apply carries_cons (carries_int64 _)
  apply carries_cons (carries_int64 _)
  apply carries_cons (carries_bytes h)
  exact carries_nil _

theorem FetchResponse.carries {r : FetchResponse} (h : r.Fits) :
    Carries r.encode decode r.normalized := by
  apply carries_cons (carries_topics .response h FetchResponsePartition.carries)
  exact carries_nil _

structure ApiVersion where
  apiKey : Int16
  minVersion : Int16
  maxVersion : Int16
  deriving DecidableEq, Repr

structure ApiVersionsResponse where
  apiKeys : Slice ApiVersion
  deriving DecidableEq, Repr

def ApiVersion.encode (a : ApiVersion) : Except WireError Bytes :=
  inOrder [.ok (putInt16 a.apiKey), .ok (putInt16 a.minVersion), .ok (putInt16 a.maxVersion)]

def ApiVersion.decode : Decoder ApiVersion := do
  let apiKey ← int16
  let minVersion ← int16
  let maxVersion ← int16
  return { apiKey, minVersion, maxVersion }

def ApiVersionsResponse.encode (r : ApiVersionsResponse) : Except WireError Bytes :=
  inOrder [putArray ApiVersion.encode r.apiKeys]

def ApiVersionsResponse.decode : Decoder ApiVersionsResponse := do
  let apiKeys ← readArray arrayHeader ApiVersion.decode
  return { apiKeys }

def ApiVersionsResponse.normalized (r : ApiVersionsResponse) : ApiVersionsResponse :=
  { r with apiKeys := normalizedArray id r.apiKeys }

theorem ApiVersion.carries (a : ApiVersion) : Carries a.encode decode a := by
  apply carries_cons (carries_int16 _)
  apply carries_cons (carries_int16 _)
  apply carries_cons (carries_int16 _)
  exact carries_nil _

theorem ApiVersionsResponse.carries (r : ApiVersionsResponse) :
    Carries r.encode decode r.normalized := by
  apply carries_cons
    (carries_normalizedArray .response (arrayFits_response _) fun a _ => a.carries)
  exact carries_nil _

structure BrokerMetadata where
  nodeID : Int32
  host : Bytes
  port : Int32
  deriving DecidableEq, Repr

structure PartitionMetadata where
  partitionID : Int32
  leader : Int32
  replicas : Slice Int32
  isr : Slice Int32
  deriving DecidableEq, Repr

structure TopicMetadata where
  name : Bytes
  errorCode : Int16
  partitions : Slice PartitionMetadata
  deriving DecidableEq, Repr

structure MetadataResponse where
  brokers : Slice BrokerMetadata
  topics : Slice TopicMetadata
  deriving DecidableEq, Repr

def BrokerMetadata.encode (b : BrokerMetadata) : Except WireError Bytes :=
  inOrder [.ok (putInt32 b.nodeID), putString b.host, .ok (putInt32 b.port)]

def BrokerMetadata.decode : Decoder BrokerMetadata := do
  let nodeID ← int32
  let host ← string
  let port ← int32
  return { nodeID, host, port }

def PartitionMetadata.encode (p : PartitionMetadata) : Except WireError Bytes :=
  inOrder [.ok (putInt32 p.partitionID), .ok (putInt32 p.leader),
    putArray (fun rep => .ok (putInt32 rep)) p.replicas,
    putArray (fun isrNode => .ok (putInt32 isrNode)) p.isr]

def PartitionMetadata.decode : Decoder PartitionMetadata := do
  let partitionID ← int32
  let leader ← int32
  let replicas ← readArray arrayHeader int32
  let isr ← readArray arrayHeader int32
  return { partitionID, leader, replicas, isr }

def PartitionMetadata.normalized (p : PartitionMetadata) : PartitionMetadata :=
  { p with replicas := normalizedArray id p.replicas, isr := normalizedArray id p.isr }

def TopicMetadata.encode (t : TopicMetadata) : Except WireError Bytes :=
  inOrder [putString t.name, .ok (putInt16 t.errorCode),
    putArray PartitionMetadata.encode t.partitions]

def TopicMetadata.decode : Decoder TopicMetadata := do
  let name ← string
  let errorCode ← int16
  let partitions ← readArray arrayHeader PartitionMetadata.decode
  return { name, errorCode, partitions }

def TopicMetadata.normalized (t : TopicMetadata) : TopicMetadata :=
  { t with partitions := normalizedArray PartitionMetadata.normalized t.partitions }

def MetadataResponse.encode (r : MetadataResponse) : Except WireError Bytes :=
  inOrder [putArray BrokerMetadata.encode r.brokers, putArray TopicMetadata.encode r.topics]

def MetadataResponse.decode : Decoder MetadataResponse := do
  let brokers ← readArray arrayHeader BrokerMetadata.decode
  let topics ← readArray arrayHeader TopicMetadata.decode
  return { brokers, topics }

def MetadataResponse.normalized (r : MetadataResponse) : MetadataResponse where
  brokers := normalizedArray id r.brokers
  topics := normalizedArray TopicMetadata.normalized r.topics

theorem BrokerMetadata.carries (b : BrokerMetadata) : Carries b.encode decode b := by
  apply carries_cons (carries_int32 _)
  apply carries_cons (carries_string _)
  apply carries_cons (carries_int32 _)
  exact carries_nil _

theorem PartitionMetadata.carries (p : PartitionMetadata) :
    Carries p.encode decode p.normalized := by
  have hids (s : Slice Int32) : Carries (putArray (fun id => .ok (putInt32 id)) s)
      (readArray arrayHeader int32) (normalizedArray id s) :=
    carries_normalizedArray .response (arrayFits_response s) fun v _ => carries_int32 v
  apply carries_cons (carries_int32 _)
  apply carries_cons (carries_int32 _)
  apply carries_cons (hids p.replicas)
  apply carries_cons (hids p.isr)
  exact carries_nil _

theorem TopicMetadata.carries (t : TopicMetadata) : Carries t.encode decode t.normalized := by
  apply carries_cons (carries_string _)
  apply carries_cons (carries_int16 _)
  apply carries_cons
    (carries_normalizedArray .response (arrayFits_response _) fun p _ => p.carries)
  exact carries_nil _

theorem MetadataResponse.carries (r : MetadataResponse) :
    Carries r.encode decode r.normalized := by
  apply carries_cons
    (carries_normalizedArray .response (arrayFits_response _) fun b _ => b.carries)
  apply carries_cons
    (carries_normalizedArray .response (arrayFits_response _) fun t _ => t.carries)
  exact carries_nil _

structure CreateTopicResponseTopic where
  name : Bytes
  errorCode : Int16
  deriving DecidableEq, Repr

structure CreateTopicsResponse where
  topics : Slice CreateTopicResponseTopic
  deriving DecidableEq, Repr

def CreateTopicResponseTopic.encode (t : CreateTopicResponseTopic) : Except WireError Bytes :=
  inOrder [putString t.name, .ok (putInt16 t.errorCode)]

def CreateTopicResponseTopic.decode : Decoder CreateTopicResponseTopic := do
  let name ← string
  let errorCode ← int16
  return { name, errorCode }

def CreateTopicsResponse.encode (r : CreateTopicsResponse) : Except WireError Bytes :=
  inOrder [putArray CreateTopicResponseTopic.encode r.topics]

def CreateTopicsResponse.decode : Decoder CreateTopicsResponse := do
  let topics ← readArray arrayHeader CreateTopicResponseTopic.decode
  return { topics }

def CreateTopicsResponse.normalized (r : CreateTopicsResponse) : CreateTopicsResponse :=
  { r with topics := normalizedArray id r.topics }

theorem CreateTopicResponseTopic.carries (t : CreateTopicResponseTopic) :
    Carries t.encode decode t := by
  apply carries_cons (carries_string _)
  apply carries_cons (carries_int16 _)
  exact carries_nil _

theorem CreateTopicsResponse.carries (r : CreateTopicsResponse) :
    Carries r.encode decode r.normalized := by
  apply carries_cons
    (carries_normalizedArray .response (arrayFits_response _) fun t _ => t.carries)
  exact carries_nil _

structure JoinGroupMember where
  memberID : Bytes
  metadata : Slice UInt8
  deriving DecidableEq, Repr

structure JoinGroupResponse where
  errorCode : Int16
  generationID : Int32
  protocolName : Bytes
  leaderID : Bytes
  memberID : Bytes
  members : Slice JoinGroupMember
  deriving DecidableEq, Repr

def JoinGroupMember.encode (m : JoinGroupMember) : Except WireError Bytes :=
  inOrder [putString m.memberID, putBytes m.metadata]

def JoinGroupMember.decode : Decoder JoinGroupMember := do
  let memberID ← string
  let metadata ← bytes
  return { memberID, metadata }

def JoinGroupMember.normalized (m : JoinGroupMember) : JoinGroupMember :=
  { m with metadata := some (elements m.metadata) }

def JoinGroupResponse.encode (r : JoinGroupResponse) : Except WireError Bytes :=
  inOrder [.ok (putInt16 r.errorCode), .ok (putInt32 r.generationID), putString r.protocolName,
    putString r.leaderID, putString r.memberID, putArray JoinGroupMember.encode r.members]

def JoinGroupResponse.decode : Decoder JoinGroupResponse := do
  let errorCode ← int16
  let generationID ← int32
  let protocolName ← string
  let leaderID ← string
  let memberID ← string
  let members ← readArray arrayHeader JoinGroupMember.decode
  return { errorCode, generationID, protocolName, leaderID, memberID, members }

def JoinGroupResponse.normalized (r : JoinGroupResponse) : JoinGroupResponse :=
  { r with members := normalizedArray JoinGroupMember.normalized r.members }

def JoinGroupResponse.Fits (r : JoinGroupResponse) : Prop :=
  ArrayFits .response (fun m => BytesFit m.metadata) r.members

theorem JoinGroupResponse.carries {r : JoinGroupResponse} (h : r.Fits) :
    Carries r.encode decode r.normalized := by
  apply carries_cons (carries_int16 _)
  apply carries_cons (carries_int32 _)
  apply carries_cons (carries_string _)
  apply carries_cons (carries_string _)
  apply carries_cons (carries_string _)
  apply carries_cons (carries_normalizedArray .response h fun m hm => carries_stringBytes hm)
  exact carries_nil _

structure SyncGroupResponse where
  errorCode : Int16
  assignment : Slice UInt8
  deriving DecidableEq, Repr

def SyncGroupResponse.encode (r : SyncGroupResponse) : Except WireError Bytes :=
  inOrder [.ok (putInt16 r.errorCode), putBytes r.assignment]

def SyncGroupResponse.decode : Decoder SyncGroupResponse := do
  let errorCode ← int16
  let assignment ← bytes
  return { errorCode, assignment }

def SyncGroupResponse.normalized (r : SyncGroupResponse) : SyncGroupResponse :=
  { r with assignment := some (elements r.assignment) }

def SyncGroupResponse.Fits (r : SyncGroupResponse) : Prop := BytesFit r.assignment

theorem SyncGroupResponse.carries {r : SyncGroupResponse} (h : r.Fits) :
    Carries r.encode decode r.normalized := by
  apply carries_cons (carries_int16 _)
  apply carries_cons (carries_bytes h)
  exact carries_nil _

structure HeartbeatResponse where
  errorCode : Int16
  deriving DecidableEq, Repr

def HeartbeatResponse.encode (r : HeartbeatResponse) : Except WireError Bytes :=
  .ok (putInt16 r.errorCode)

def HeartbeatResponse.decode : Decoder HeartbeatResponse := do
  let errorCode ← int16
  return { errorCode }

theorem HeartbeatResponse.carries (r : HeartbeatResponse) : Carries r.encode decode r :=
  carries_ok ((readsAs_int16 r.errorCode).map HeartbeatResponse.mk)

structure LeaveGroupResponse where
  errorCode : Int16
  deriving DecidableEq, Repr

def LeaveGroupResponse.encode (r : LeaveGroupResponse) : Except WireError Bytes :=
  .ok (putInt16 r.errorCode)

def LeaveGroupResponse.decode : Decoder LeaveGroupResponse := do
  let errorCode ← int16
  return { errorCode }

theorem LeaveGroupResponse.carries (r : LeaveGroupResponse) : Carries r.encode decode r :=
  carries_ok ((readsAs_int16 r.errorCode).map LeaveGroupResponse.mk)

structure OffsetCommitResponsePartition where
  partitionID : Int32
  errorCode : Int16
  deriving DecidableEq, Repr

structure OffsetCommitResponse where
  topics : Slice (TopicEntry OffsetCommitResponsePartition)
  deriving DecidableEq, Repr

def OffsetCommitResponsePartition.encode (p : OffsetCommitResponsePartition) :
    Except WireError Bytes :=
  inOrder [.ok (putInt32 p.partitionID), .ok (putInt16 p.errorCode)]

def OffsetCommitResponsePartition.decode : Decoder OffsetCommitResponsePartition := do
  let partitionID ← int32
  let errorCode ← int16
  return { partitionID, errorCode }

def OffsetCommitResponse.encode (r : OffsetCommitResponse) : Except WireError Bytes :=
  inOrder [putTopics OffsetCommitResponsePartition.encode r.topics]

def OffsetCommitResponse.decode : Decoder OffsetCommitResponse := do
  let topics ← readTopics arrayHeader OffsetCommitResponsePartition.decode
  return { topics }

def OffsetCommitResponse.normalized (r : OffsetCommitResponse) : OffsetCommitResponse :=
  { r with topics := normalizedTopics id r.topics }

theorem OffsetCommitResponsePartition.carries (p : OffsetCommitResponsePartition) :
    Carries p.encode decode p := by
  apply carries_cons (carries_int32 _)
  apply carries_cons (carries_int16 _)
  exact carries_nil _

theorem OffsetCommitResponse.carries (r : OffsetCommitResponse) :
    Carries r.encode decode r.normalized := by
  apply carries_cons (carries_topics .response (topicsFit_response _) fun p _ => p.carries)
  exact carries_nil _

structure OffsetFetchResponsePartition where
  partitionID : Int32
  offset : Int64
  errorCode : Int16
  deriving DecidableEq, Repr

structure OffsetFetchResponse where
  topics : Slice (TopicEntry OffsetFetchResponsePartition)
  deriving DecidableEq, Repr

def OffsetFetchResponsePartition.encode (p : OffsetFetchResponsePartition) :
    Except WireError Bytes :=
  inOrder [.ok (putInt32 p.partitionID), .ok (putInt64 p.offset), .ok (putInt16 p.errorCode)]

def OffsetFetchResponsePartition.decode : Decoder OffsetFetchResponsePartition := do
  let partitionID ← int32
  let offset ← int64
  let errorCode ← int16
  return { partitionID, offset, errorCode }

def OffsetFetchResponse.encode (r : OffsetFetchResponse) : Except WireError Bytes :=
  inOrder [putTopics OffsetFetchResponsePartition.encode r.topics]

def OffsetFetchResponse.decode : Decoder OffsetFetchResponse := do
  let topics ← readTopics arrayHeader OffsetFetchResponsePartition.decode
  return { topics }

def OffsetFetchResponse.normalized (r : OffsetFetchResponse) : OffsetFetchResponse :=
  { r with topics := normalizedTopics id r.topics }

theorem OffsetFetchResponsePartition.carries (p : OffsetFetchResponsePartition) :
    Carries p.encode decode p := by
  apply carries_cons (carries_int32 _)
  apply carries_cons (carries_int64 _)
  apply carries_cons (carries_int16 _)
  exact carries_nil _

theorem OffsetFetchResponse.carries (r : OffsetFetchResponse) :
    Carries r.encode decode r.normalized := by
  apply carries_cons (carries_topics .response (topicsFit_response _) fun p _ => p.carries)
  exact carries_nil _

structure ListOffsetsResponsePartition where
  partitionID : Int32
  errorCode : Int16
  offset : Int64
  deriving DecidableEq, Repr

structure ListOffsetsResponse where
  topics : Slice (TopicEntry ListOffsetsResponsePartition)
  deriving DecidableEq, Repr

def ListOffsetsResponsePartition.encode (p : ListOffsetsResponsePartition) :
    Except WireError Bytes :=
  inOrder [.ok (putInt32 p.partitionID), .ok (putInt16 p.errorCode), .ok (putInt64 p.offset)]

def ListOffsetsResponsePartition.decode : Decoder ListOffsetsResponsePartition := do
  let partitionID ← int32
  let errorCode ← int16
  let offset ← int64
  return { partitionID, errorCode, offset }

def ListOffsetsResponse.encode (r : ListOffsetsResponse) : Except WireError Bytes :=
  inOrder [putTopics ListOffsetsResponsePartition.encode r.topics]

def ListOffsetsResponse.decode : Decoder ListOffsetsResponse := do
  let topics ← readTopics arrayHeader ListOffsetsResponsePartition.decode
  return { topics }

def ListOffsetsResponse.normalized (r : ListOffsetsResponse) : ListOffsetsResponse :=
  { r with topics := normalizedTopics id r.topics }

theorem ListOffsetsResponsePartition.carries (p : ListOffsetsResponsePartition) :
    Carries p.encode decode p := by
  apply carries_cons (carries_int32 _)
  apply carries_cons (carries_int16 _)
  apply carries_cons (carries_int64 _)
  exact carries_nil _

theorem ListOffsetsResponse.carries (r : ListOffsetsResponse) :
    Carries r.encode decode r.normalized := by
  apply carries_cons (carries_topics .response (topicsFit_response _) fun p _ => p.carries)
  exact carries_nil _

end MiniKafka.ResponseBodies
