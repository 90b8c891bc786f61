import MiniKafka.SegmentWrites

/-!
What a failed `Segment.Append` leaves behind.

The record is written before the index is asked for room.  Where an entry is due
and the index has none left, the bytes of the record stay although its offset was
not given out.
-/

namespace MiniKafka.FailedAppends

open RecordCodec SegmentStore SegmentWrites

/-- Nothing that a segment tells its callers has changed. -/
structure SameToCallers (crc : Checksum) (s t : Segment) : Prop where
  size : t.bytesWritten = s.bytesWritten
  nextOffset : t.nextOffset = s.nextOffset
  read : ∀ offset, t.read crc offset = s.read crc offset
  readFrom : ∀ offset maxBytes, t.readFrom crc offset maxBytes = s.readFrom crc offset maxBytes

theorem SameToCallers.refl (crc : Checksum) (s : Segment) : SameToCallers crc s s where
  size := rfl
  nextOffset := rfl
  read _ := rfl
  readFrom _ _ := rfl

/-- A failed append is invisible exactly when it fails before the record is
written, or no index entry is due, or the index has room for one. -/
theorem failed_append_invisible_iff {crc : Checksum} {s : Segment} {r : Record}
    (hopen : s.closed = false) :
    (∀ t e, s.append crc r = (t, .error e) → SameToCallers crc s t) ↔
      maxUint32 < s.bytesWritten ∨ maxRecordSize < r.encodedSize ∨
        (EntryDue s r.encodedSize → HasRoom s.index) := by
  obtain ⟨-, hclosed⟩ | ⟨heq, -, hposition⟩ | ⟨heq, -, hsize⟩ |
      ⟨t, e, heq, -, hposition, hsize, hdue, hroom, hwritten⟩ | ⟨heq, -, -, -, hroom⟩ :=
    append_cases crc s r
  · rw [hopen] at hclosed
    cases hclosed
  · refine iff_of_true ?_ (.inl hposition)
    rintro t e happend
    rw [← (Prod.mk.inj (heq.symm.trans happend)).1]
    exact .refl crc s
  · refine iff_of_true ?_ (.inr (.inl hsize))
    rintro t e happend
    rw [← (Prod.mk.inj (heq.symm.trans happend)).1]
    exact .refl crc s
  · refine iff_of_false ?_ ?_
    · intro hsame
      have hge := encodedSize_ge r
      have hkept := (hsame t _ heq).size
      omega
    · rintro (hlate | hlarge | hfits)
      · omega
      · omega
      · exact hroom (hfits hdue)
  · refine iff_of_true ?_ (.inr (.inr hroom))
    rintro t e happend
    cases (Prod.mk.inj (heq.symm.trans happend)).2

def lateSegment : Segment := { emptySegment with bytesWritten := maxUint32 + 1 }

theorem failed_append_invisible_iff_lateSegment :
    lateSegment.append castagnoli (bareRecord 1) = (lateSegment, .error .positionOutOfRange) ∧
      SameToCallers castagnoli lateSegment lateSegment := by
  have happend : lateSegment.append castagnoli (bareRecord 1) =
      (lateSegment, .error .positionOutOfRange) := by decide +kernel
  have hopen : lateSegment.closed = false := rfl
  exact ⟨happend, (failed_append_invisible_iff hopen).mpr (.inl (by decide)) _ _ happend⟩

def oneEntryConfig : Config :=
  { smallConfig with indexMaxBytes := 8, indexIntervalBytes := 1 }

def oneEntrySegment : Segment :=
  ({ emptySegment with index := ⟨[], 8, true⟩, indexInterval := 1 }.append castagnoli
    (bareRecord 1)).1

/-- The second record is refused at offset 1 and counted; once the segment is
flushed it is read there, and a retry in the next segment has the same offset. -/
theorem refused_record_is_read :
    newSegment 0 [] [] 0 0 oneEntryConfig =
        .ok { emptySegment with index := ⟨[], 8, true⟩, indexInterval := 1 } ∧
      ∃ t u next, oneEntrySegment.append castagnoli (bareRecord 2) =
          (t, .error (.index .indexFull)) ∧
        oneEntrySegment.bytesWritten = 33 ∧ t.bytesWritten = 66 ∧
        oneEntrySegment.read castagnoli 1 = .error (.notFound 1) ∧
        t.flush = .ok u ∧ u.read castagnoli 1 = .ok (stamp 1 (bareRecord 2)) ∧
        newSegment t.nextOffset [] [] 0 0 oneEntryConfig = .ok next ∧
        (next.append castagnoli (bareRecord 2)).2 = .ok 1 := by
  refine ⟨by decide +kernel, (oneEntrySegment.append castagnoli (bareRecord 2)).1,
    { (oneEntrySegment.append castagnoli (bareRecord 2)).1 with
      writer := (oneEntrySegment.append castagnoli (bareRecord 2)).1.writer.flush },
    { emptySegment with
      baseOffset := 1, nextOffset := 1, index := ⟨[], 8, true⟩, indexInterval := 1 }, ?_⟩
  decide +kernel

end MiniKafka.FailedAppends
