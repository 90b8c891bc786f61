import MiniKafka.WireCodec

/-!
The partitions of a group member, as `internal/coordinator/assignor.go` writes
them into a `SyncGroup` request and reads them back.
-/

namespace MiniKafka.PartitionAssignments

open BigEndian WireCodec

structure PartitionAssignment where
  topic : Bytes
  partitions : List Int32
  deriving DecidableEq, Repr

structure MemberAssignment where
  topics : List PartitionAssignment
  deriving DecidableEq, Repr

/-- Decoding fails on the wire, or at a slice of negative length, where the
source panics. -/
inductive AssignmentError where
  | wire (e : WireError)
  | negativeLength
  deriving DecidableEq, Repr

def encodeTopic (t : PartitionAssignment) : Except WireError Bytes :=
  match putString t.topic with
  | .error e => .error e
  | .ok topic =>
    match putArrayHeader t.partitions.length with
    | .error e => .error e
    | .ok header => .ok (topic ++ (header ++ t.partitions.flatMap putInt32))

def encodeAssignment (ma : MemberAssignment) : Except WireError Bytes :=
  match putArrayHeader ma.topics.length with
  | .error e => .error e
  | .ok header =>
    match encodeMany encodeTopic ma.topics with
    | .error e => .error e
    | .ok topics => .ok (header ++ topics)

def decodePartitions (bs : Bytes) : Except AssignmentError (List Int32 × Bytes) :=
  match arrayHeader bs with
  | .error e => .error (.wire e)
  | .ok (count, rest) =>
    if count < 0 then .error .negativeLength
    else (decodeMany int32 count.toNatClampNeg rest).mapError .wire

def decodeTopic (bs : Bytes) : Except AssignmentError (PartitionAssignment × Bytes) :=
  match string bs with
  | .error e => .error (.wire e)
  | .ok (topic, rest) =>
    match decodePartitions rest with
    | .error e => .error e
    | .ok (partitions, rest) => .ok (⟨topic, partitions⟩, rest)

def decodeAssignment (data : Bytes) : Except AssignmentError MemberAssignment :=
  if data = [] then .ok ⟨[]⟩
  else
    match arrayHeader data with
    | .error e => .error (.wire e)
    | .ok (count, rest) =>
      if count < 0 then .ok ⟨[]⟩
      else
        match decodeMany decodeTopic count.toNatClampNeg rest with
        | .error e => .error e
        | .ok (topics, _) => .ok ⟨topics⟩

def MemberAssignment.partitions (ma : MemberAssignment) : List (Bytes × Int32) :=
  ma.topics.flatMap fun t => t.partitions.map fun p => (t.topic, p)

def owned (assignment : Option Bytes) : List (Bytes × Int32) :=
  match assignment.map decodeAssignment with
  | some (.ok ma) => ma.partitions
  | _ => []

theorem decodeMany_int32 (ps : List Int32) (rest : Bytes) :
    decodeMany int32 ps.length (ps.flatMap putInt32 ++ rest) = .ok (ps, rest) := by
  induction ps with
  | nil => rfl
  | cons p ps ih =>
    rw [List.length_cons, decodeMany, List.flatMap_cons, List.append_assoc, int32_append]
    dsimp only
    rw [ih]

theorem decodePartitions_append {ps : List Int32} {header : Bytes}
    (hput : putArrayHeader ps.length = .ok header) (rest : Bytes) :
    decodePartitions (header ++ (ps.flatMap putInt32 ++ rest)) = .ok (ps, rest) := by
  obtain ⟨hheader, hnonneg, hcount⟩ := arrayHeader_append hput (ps.flatMap putInt32 ++ rest)
  rw [decodePartitions, hheader]
  dsimp only
  rw [if_neg hnonneg, hcount, decodeMany_int32]
  rfl

theorem roundTrips_topic : RoundTrips encodeTopic decodeTopic := by
  intro t bs hencode rest
  rw [encodeTopic] at hencode
  split at hencode
  · cases hencode
  · rename_i topic htopic
    split at hencode
    · cases hencode
    · rename_i header hheader
      cases hencode
      rw [decodeTopic, List.append_assoc, roundTrips_string _ _ htopic, List.append_assoc]
      dsimp only
      rw [decodePartitions_append hheader]

theorem decodeAssignment_encodeAssignment {ma : MemberAssignment} {data : Bytes}
    (hencode : encodeAssignment ma = .ok data) : decodeAssignment data = .ok ma := by
  rw [encodeAssignment] at hencode
  split at hencode
  · cases hencode
  · rename_i header hheader
    split at hencode
    · cases hencode
    · rename_i topics htopics
      cases hencode
      obtain ⟨hread, hnonneg, hcount⟩ := arrayHeader_append hheader topics
      have hmany := roundTrips_many roundTrips_topic htopics []
      rw [List.append_nil] at hmany
      rw [decodeAssignment, if_neg, hread]
      · dsimp only
        rw [if_neg hnonneg, hcount, hmany]
      · intro hnil
        rw [hnil] at hread
        cases hread

theorem owned_encodeAssignment {ma : MemberAssignment} {data : Bytes}
    (hencode : encodeAssignment ma = .ok data) : owned (some data) = ma.partitions := by
  rw [owned, Option.map_some, decodeAssignment_encodeAssignment hencode]

end MiniKafka.PartitionAssignments
