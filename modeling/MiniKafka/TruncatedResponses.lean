import MiniKafka.CrashFiles
import MiniKafka.ReplicaCluster

/-!
Responses to `ReplicaFetch` that arrive in part.

`DecodeReplicaFetchResponse` stops without an error at the first record that does
not decode, so the payload may be cut anywhere behind the error code and the high
watermark.
-/

namespace MiniKafka.TruncatedResponses

open BigEndian RecordCodec RecordSets SegmentContents CrashFiles BrokerHandlers ReplicaCluster
open SegmentStore (bareRecord)

def headerSize : Nat := 10

/-- The payload consists of a header and the encodings of the records, and however
many bytes behind the header are kept, the records read are those that end within
them. -/
structure StaysTruthful (crc : Checksum) (errorCode : Int16) (hw : Int64) (records : List Record)
    (payload : Bytes) : Prop where
  layout : ∃ header, header.length = headerSize ∧ payload = header ++ image crc records
  inverts : decodeReplicaFetchResponse crc payload = .ok (errorCode, hw, records)
  cut : ∀ k, headerSize ≤ k → ∃ m,
    decodeReplicaFetchResponse crc (payload.take k) = .ok (errorCode, hw, records.take m) ∧
      ∀ i < records.length, i < m ↔ headerSize + totalSize (records.take (i + 1)) ≤ k

section

variable {crc : Checksum} {records : List Record}

theorem lt_length_wholeRecords_iff {n i : Nat} (hi : i < records.length) :
    i < (wholeRecords n records).length ↔ totalSize (records.take (i + 1)) ≤ n := by
  induction records generalizing n i with
  | nil => cases hi
  | cons r records ih =>
    have hsize : ∀ j, totalSize ((r :: records).take (j + 1)) =
        r.encodedSize + totalSize (records.take j) := by
      intro j
      simp [SegmentContents.totalSize]
    rw [wholeRecords, hsize]
    split
    · cases i with
      | zero => simpa [SegmentContents.totalSize]
      | succ i =>
        rw [List.length_cons, Nat.succ_lt_succ_iff, ih (Nat.lt_of_succ_lt_succ hi)]
        omega
    · rw [List.length_nil]
      omega

theorem decodeRecords_take (hfits : ∀ r ∈ records, r.encodedSize ≤ maxRecordSize) (n : Nat) :
    (decodeRecords crc ((image crc records).take n)).1 = wholeRecords n records := by
  obtain ⟨tail, htake, htail⟩ := take_image crc hfits n
  have hwhole : ∀ r ∈ wholeRecords n records, r.encodedSize ≤ maxRecordSize := fun r hr =>
    hfits r ((wholeRecords_initial n records).subset hr)
  rw [htake, decodeRecords_eq, items_image_append crc tail hwhole, htail, List.append_nil]
  simp [sized, Function.comp_def]

end

/-- Responses with encodable records are read back, and in part if they arrive in
part. -/
theorem replica_response_truthful (crc : Checksum) (errorCode : Int16) (hw : Int64)
    {records : List Record} (hencodable : ∀ r ∈ records, ∃ bytes, r.encode crc = .ok bytes) :
    ∃ payload, encodeReplicaFetchResponse crc errorCode hw records = .ok payload ∧
      StaysTruthful crc errorCode hw records payload := by
  have hset := encodeRecords_isOk hencodable
  have hpayload : encodeReplicaFetchResponse crc errorCode hw records =
      .ok (responseHeader errorCode hw ++ image crc records) := by
    rw [encodeReplicaFetchResponse, hset]
    rfl
  have hheader : (responseHeader errorCode hw).length = headerSize :=
    length_responseHeader errorCode hw
  obtain ⟨hfits, -⟩ := encodeRecords_eq_ok hset
  refine ⟨_, hpayload, ⟨_, hheader, rfl⟩, decodeReplicaFetchResponse_encoded hpayload, ?_⟩
  intro k hk
  have htake : (responseHeader errorCode hw ++ image crc records).take k =
      responseHeader errorCode hw ++ (image crc records).take (k - headerSize) := by
    rw [List.take_append, List.take_of_length_le (hheader.trans_le hk), hheader]
  have hinitial : records.take (wholeRecords (k - headerSize) records).length =
      wholeRecords (k - headerSize) records :=
    (List.prefix_iff_eq_take.mp (wholeRecords_initial _ _)).symm
  refine ⟨(wholeRecords (k - headerSize) records).length, ?_, ?_⟩
  · rw [htake, decodeReplicaFetchResponse_header, decodeRecords_take hfits, hinitial]
  · intro i hi
    rw [lt_length_wholeRecords_iff hi]
    omega

def unevenRecords : List Record :=
  [bareRecord 7, ⟨1, 8, 0, some [107], some [118, 119]⟩, ⟨2, 9, 0, none, some []⟩]

theorem replica_response_truthful_uneven :
    (∀ r ∈ unevenRecords, ∃ bytes, r.encode castagnoli = .ok bytes) ∧
      ∃ payload, encodeReplicaFetchResponse castagnoli 0 3 unevenRecords = .ok payload ∧
        StaysTruthful castagnoli 0 3 unevenRecords payload := by
  have hencodable : ∀ r ∈ unevenRecords, ∃ bytes, r.encode castagnoli = .ok bytes := by
    simp only [unevenRecords, List.forall_mem_cons]
    exact ⟨⟨_, rfl⟩, ⟨_, rfl⟩, ⟨_, rfl⟩, by simp⟩
  exact ⟨hencodable, replica_response_truthful castagnoli 0 3 hencodable⟩

end MiniKafka.TruncatedResponses
