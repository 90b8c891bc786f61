import MiniKafka.ResponseBodies

/-!
All bodies of the protocol as one family: for every API its request and its
response, and the `ReplicaFetch` request.
-/

namespace MiniKafka.MessageCodecs

open BigEndian ExactReaders WireCodec RequestBodies ResponseBodies

inductive Message where
  | produceRequest
  | produceResponse
  | fetchRequest
  | fetchResponse
  | metadataRequest
  | metadataResponse
  | createTopicsRequest
  | createTopicsResponse
  | joinGroupRequest
  | joinGroupResponse
  | syncGroupRequest
  | syncGroupResponse
  | heartbeatRequest
  | heartbeatResponse
  | leaveGroupRequest
  | leaveGroupResponse
  | offsetCommitRequest
  | offsetCommitResponse
  | offsetFetchRequest
  | offsetFetchResponse
  | listOffsetsRequest
  | listOffsetsResponse
  | replicaFetchRequest
  | apiVersionsRequest
  | apiVersionsResponse
  deriving DecidableEq, Repr

def Message.Body : Message → Type
  | .produceRequest => ProduceRequest
  | .produceResponse => ProduceResponse
  | .fetchRequest => FetchRequest
  | .fetchResponse => FetchResponse
  | .metadataRequest => MetadataRequest
  | .metadataResponse => MetadataResponse
  | .createTopicsRequest => CreateTopicsRequest
  | .createTopicsResponse => CreateTopicsResponse
  | .joinGroupRequest => JoinGroupRequest
  | .joinGroupResponse => JoinGroupResponse
  | .syncGroupRequest => SyncGroupRequest
  | .syncGroupResponse => SyncGroupResponse
  | .heartbeatRequest => HeartbeatRequest
  | .heartbeatResponse => HeartbeatResponse
  | .leaveGroupRequest => LeaveGroupRequest
  | .leaveGroupResponse => LeaveGroupResponse
  | .offsetCommitRequest => OffsetCommitRequest
  | .offsetCommitResponse => OffsetCommitResponse
  | .offsetFetchRequest => OffsetFetchRequest
  | .offsetFetchResponse => OffsetFetchResponse
  | .listOffsetsRequest => ListOffsetsRequest
  | .listOffsetsResponse => ListOffsetsResponse
  | .replicaFetchRequest => ReplicaFetchRequest
  | .apiVersionsRequest => ApiVersionsRequest
  | .apiVersionsResponse => ApiVersionsResponse

/-- The two methods of a body, what the decoder returns for an encoded body, and
the limits it sets beyond those of the encoder. -/
structure Codec (α : Type) where
  encode : α → Except WireError Bytes
  decode : Decoder α
  normalized : α → α
  Fits : α → Prop

def Message.codec : (m : Message) → Codec m.Body
  | .produceRequest => ⟨ProduceRequest.encode, ProduceRequest.decode,
      ProduceRequest.normalized, ProduceRequest.Fits⟩
  | .produceResponse => ⟨ProduceResponse.encode, ProduceResponse.decode,
      ProduceResponse.normalized, fun _ => True⟩
  | .fetchRequest => ⟨FetchRequest.encode, FetchRequest.decode,
      FetchRequest.normalized, FetchRequest.Fits⟩
  | .fetchResponse => ⟨FetchResponse.encode, FetchResponse.decode,
      FetchResponse.normalized, FetchResponse.Fits⟩
  | .metadataRequest => ⟨MetadataRequest.encode, MetadataRequest.decode,
      id, MetadataRequest.Fits⟩
  | .metadataResponse => ⟨MetadataResponse.encode, MetadataResponse.decode,
      MetadataResponse.normalized, fun _ => True⟩
  | .createTopicsRequest => ⟨CreateTopicsRequest.encode, CreateTopicsRequest.decode,
      CreateTopicsRequest.normalized, CreateTopicsRequest.Fits⟩
  | .createTopicsResponse => ⟨CreateTopicsResponse.encode, CreateTopicsResponse.decode,
      CreateTopicsResponse.normalized, fun _ => True⟩
  | .joinGroupRequest => ⟨JoinGroupRequest.encode, JoinGroupRequest.decode,
      JoinGroupRequest.normalized, JoinGroupRequest.Fits⟩
  | .joinGroupResponse => ⟨JoinGroupResponse.encode, JoinGroupResponse.decode,
      JoinGroupResponse.normalized, JoinGroupResponse.Fits⟩
  | .syncGroupRequest => ⟨SyncGroupRequest.encode, SyncGroupRequest.decode,
      SyncGroupRequest.normalized, SyncGroupRequest.Fits⟩
  | .syncGroupResponse => ⟨SyncGroupResponse.encode, SyncGroupResponse.decode,
      SyncGroupResponse.normalized, SyncGroupResponse.Fits⟩
  | .heartbeatRequest => ⟨HeartbeatRequest.encode, HeartbeatRequest.decode,
      id, fun _ => True⟩
  | .heartbeatResponse => ⟨HeartbeatResponse.encode, HeartbeatResponse.decode,
      id, fun _ => True⟩
  | .leaveGroupRequest => ⟨LeaveGroupRequest.encode, LeaveGroupRequest.decode,
      id, fun _ => True⟩
  | .leaveGroupResponse => ⟨LeaveGroupResponse.encode, LeaveGroupResponse.decode,
      id, fun _ => True⟩
  | .offsetCommitRequest => ⟨OffsetCommitRequest.encode, OffsetCommitRequest.decode,
      OffsetCommitRequest.normalized, OffsetCommitRequest.Fits⟩
  | .offsetCommitResponse => ⟨OffsetCommitResponse.encode, OffsetCommitResponse.decode,
      OffsetCommitResponse.normalized, fun _ => True⟩
  | .offsetFetchRequest => ⟨OffsetFetchRequest.encode, OffsetFetchRequest.decode,
      OffsetFetchRequest.normalized, OffsetFetchRequest.Fits⟩
  | .offsetFetchResponse => ⟨OffsetFetchResponse.encode, OffsetFetchResponse.decode,
      OffsetFetchResponse.normalized, fun _ => True⟩
  | .listOffsetsRequest => ⟨ListOffsetsRequest.encode, ListOffsetsRequest.decode,
      ListOffsetsRequest.normalized, ListOffsetsRequest.Fits⟩
  | .listOffsetsResponse => ⟨ListOffsetsResponse.encode, ListOffsetsResponse.decode,
      ListOffsetsResponse.normalized, fun _ => True⟩
  | .replicaFetchRequest => ⟨encodeReplicaFetchRequest, decodeReplicaFetchRequest,
      id, fun _ => True⟩
  | .apiVersionsRequest => ⟨ApiVersionsRequest.encode, ApiVersionsRequest.decode,
      id, fun _ => True⟩
  | .apiVersionsResponse => ⟨ApiVersionsResponse.encode, ApiVersionsResponse.decode,
      ApiVersionsResponse.normalized, fun _ => True⟩

theorem Message.carries (m : Message) (x : m.Body) (hx : m.codec.Fits x) :
    Carries (m.codec.encode x) m.codec.decode (m.codec.normalized x) := by
  cases m with
  | produceRequest => exact ProduceRequest.carries hx
  | produceResponse => exact ProduceResponse.carries x
  | fetchRequest => exact FetchRequest.carries hx
  | fetchResponse => exact FetchResponse.carries hx
  | metadataRequest => exact MetadataRequest.carries hx
  | metadataResponse => exact MetadataResponse.carries x
  | createTopicsRequest => exact CreateTopicsRequest.carries hx
  | createTopicsResponse => exact CreateTopicsResponse.carries x
  | joinGroupRequest => exact JoinGroupRequest.carries hx
  | joinGroupResponse => exact JoinGroupResponse.carries hx
  | syncGroupRequest => exact SyncGroupRequest.carries hx
  | syncGroupResponse => exact SyncGroupResponse.carries hx
  | heartbeatRequest => exact HeartbeatRequest.carries x
  | heartbeatResponse => exact HeartbeatResponse.carries x
  | leaveGroupRequest => exact LeaveGroupRequest.carries x
  | leaveGroupResponse => exact LeaveGroupResponse.carries x
  | offsetCommitRequest => exact OffsetCommitRequest.carries hx
  | offsetCommitResponse => exact OffsetCommitResponse.carries x
  | offsetFetchRequest => exact OffsetFetchRequest.carries hx
  | offsetFetchResponse => exact OffsetFetchResponse.carries x
  | listOffsetsRequest => exact ListOffsetsRequest.carries hx
  | listOffsetsResponse => exact ListOffsetsResponse.carries x
  | replicaFetchRequest => exact ReplicaFetchRequest.carries x
  | apiVersionsRequest => exact ApiVersionsRequest.carries x
  | apiVersionsResponse => exact ApiVersionsResponse.carries x

/-- Every body comes back in its normal form, whatever bytes follow, which are
left where they are, and a body that breaks off is refused. -/
theorem message_roundTrip (m : Message) (x : m.Body) (word : Bytes) (hx : m.codec.Fits x)
    (hword : m.codec.encode x = .ok word) :
    (∀ rest, m.codec.decode (word ++ rest) = .ok (m.codec.normalized x, rest)) ∧
      ∀ p, p <+: word → p ≠ word → ∃ e, m.codec.decode p = .error e :=
  ⟨(m.carries x hx word hword).reads, (m.carries x hx word hword).fails⟩

def oneOffset : OffsetFetchRequest where
  groupID := [103]
  topics := some [⟨[116], some [1]⟩]

theorem message_roundTrip_oneOffset :
    Message.offsetFetchRequest.codec.Fits oneOffset ∧
      ∃ word, Message.offsetFetchRequest.codec.encode oneOffset = .ok word ∧
        (∀ rest, Message.offsetFetchRequest.codec.decode (word ++ rest) = .ok (oneOffset, rest)) ∧
        ∀ p, p <+: word → p ≠ word →
          ∃ e, Message.offsetFetchRequest.codec.decode p = .error e := by
  have hfits : TopicsFit .request (fun _ => True) oneOffset.topics := by decide
  exact ⟨hfits, [0, 1, 103, 0, 0, 0, 1, 0, 1, 116, 0, 0, 0, 1, 0, 0, 0, 1], by decide,
    message_roundTrip .offsetFetchRequest oneOffset _ hfits (by decide)⟩

end MiniKafka.MessageCodecs
