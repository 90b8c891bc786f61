import MiniKafka.SegmentContents

/-!
Record sets: the encodings of some records, one after another, as produce
requests and the responses to fetches carry them.
-/

namespace MiniKafka.RecordSets

open BigEndian ReadLoop RecordCodec SegmentContents

def encodeRecords (crc : Checksum) : List Record → Except EncodeError Bytes
  | [] => return []
  | r :: rest => do
    let bytes ← r.encode crc
    let more ← encodeRecords crc rest
    return bytes ++ more

def decodeRecords (crc : Checksum) (bs : Bytes) : List Record × Option DecodeError :=
  readLoop (decodeRecord crc) (fun records r _ => .next (records ++ [r])) bs []

theorem decodeRecords_eq (crc : Checksum) (bs : Bytes) :
    decodeRecords crc bs =
      ((items (decodeRecord crc) bs).1.map Prod.fst, (items (decodeRecord crc) bs).2) := by
  rw [decodeRecords, readLoop_eq_runItems (decodeRecord_progressive crc), runItems_collect,
    List.nil_append]

theorem encodeRecords_eq_ok {crc : Checksum} {records : List Record} {bs : Bytes}
    (h : encodeRecords crc records = .ok bs) :
    (∀ r ∈ records, r.encodedSize ≤ maxRecordSize) ∧ bs = image crc records := by
  induction records generalizing bs with
  | nil =>
    cases h
    exact ⟨by simp, rfl⟩
  | cons r rest ih =>
    rw [encodeRecords] at h
    cases hr : r.encode crc with
    | error e =>
      rw [hr] at h
      cases h
    | ok bytes =>
      cases hrest : encodeRecords crc rest with
      | error e =>
        rw [hr, hrest] at h
        cases h
      | ok more =>
        rw [hr, hrest] at h
        cases h
        obtain ⟨hfits, rfl⟩ := ih hrest
        obtain ⟨hfit, rfl⟩ := (encode_eq_ok_iff crc r bytes).mp hr
        exact ⟨List.forall_mem_cons.mpr ⟨hfit, hfits⟩, rfl⟩

theorem encodeRecords_isOk {crc : Checksum} {records : List Record}
    (h : ∀ r ∈ records, ∃ bytes, r.encode crc = .ok bytes) :
    encodeRecords crc records = .ok (image crc records) := by
  induction records with
  | nil => rfl
  | cons r records ih =>
    obtain ⟨bytes, hbytes⟩ := h r List.mem_cons_self
    obtain ⟨-, rfl⟩ := (encode_eq_ok_iff crc r bytes).mp hbytes
    rw [encodeRecords, hbytes, ih fun t ht => h t (List.mem_cons_of_mem r ht)]
    rfl

theorem decodeRecords_encoded {crc : Checksum} {records : List Record} {bs : Bytes}
    (h : encodeRecords crc records = .ok bs) : decodeRecords crc bs = (records, some .eof) := by
  obtain ⟨hfits, rfl⟩ := encodeRecords_eq_ok h
  rw [decodeRecords_eq, items_image crc hfits]
  simp [sized, Function.comp_def]

end MiniKafka.RecordSets
