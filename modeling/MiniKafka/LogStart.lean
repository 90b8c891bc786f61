import MiniKafka.LogContents

/-!
The start of a log.

Whatever the files hold that a log was opened on, its lowest offset is not
negative, and appending does not move it.  Nothing here asks for a log to be
well-formed: after a crash it need not be.
-/

namespace MiniKafka.LogStart

open RecordCodec SegmentStore SegmentWrites SegmentRebuild PartitionLog

theorem baseOffset_flush {s t : Segment} (h : s.flush = .ok t) : t.baseOffset = s.baseOffset := by
  rw [Segment.flush] at h
  split at h <;> cases h
  rfl

theorem baseOffset_append (crc : Checksum) (s : Segment) (r : Record) :
    (s.append crc r).1.baseOffset = s.baseOffset := by
  rw [Segment.append]
  dsimp only
  repeat' split
  all_goals rfl

theorem lowestOffset_active (l : Log) {s : Segment} (h : s.baseOffset = l.active.baseOffset) :
    ({ l with active := s } : Log).lowestOffset = l.lowestOffset := by
  rw [Log.lowestOffset, Log.lowestOffset]
  dsimp only
  rw [h]

theorem lowestOffset_rotate (l : Log) (env : Surroundings) :
    (l.rotate env).1.lowestOffset = l.lowestOffset := by
  rw [Log.rotate]
  split
  · rfl
  · rename_i flushed hflush
    have hbase := baseOffset_flush hflush
    split
    · exact lowestOffset_active l hbase
    dsimp only
    split
    · exact lowestOffset_active l hbase
    split
    · exact lowestOffset_active l hbase
    · rw [Log.lowestOffset, Log.lowestOffset]
      cases l.sealed with
      | nil => simp [hbase]
      | cons s rest => rfl

theorem lowestOffset_maybeRotate (l : Log) (env : Surroundings) :
    (l.maybeRotate env).1.lowestOffset = l.lowestOffset := by
  rw [Log.maybeRotate]
  split
  · exact lowestOffset_rotate l env
  · rfl

theorem lowestOffset_flushActive (l : Log) : l.flushActive.lowestOffset = l.lowestOffset := by
  rw [Log.flushActive]
  split
  · rfl
  · rename_i flushed hflush
    exact lowestOffset_active l (baseOffset_flush hflush)

theorem lowestOffset_countAppend (l : Log) : l.countAppend.lowestOffset = l.lowestOffset := by
  rw [Log.countAppend]
  dsimp only
  split
  · split
    · exact lowestOffset_flushActive l
    · rfl
  · rfl

theorem lowestOffset_appendOne (crc : Checksum) (l : Log) (record : Option Record)
    (env : Surroundings) : (l.appendOne crc record env).1.lowestOffset = l.lowestOffset := by
  have hrotate := lowestOffset_maybeRotate l env
  cases record with
  | none => rfl
  | some r =>
    rw [Log.appendOne]
    split
    · rename_i l' e heq
      rw [heq] at hrotate
      exact hrotate
    · rename_i l' heq
      rw [heq] at hrotate
      have hbase := baseOffset_append crc l'.active r
      split
      · rename_i active e happend
        rw [happend] at hbase
        exact (lowestOffset_active l' hbase).trans hrotate
      · rename_i active offset happend
        rw [happend] at hbase
        rw [lowestOffset_countAppend]
        exact (lowestOffset_active l' hbase).trans hrotate

theorem lowestOffset_appendLoop (crc : Checksum) (base : Option Int64)
    (xs : List (Option Record × Surroundings)) (l : Log) :
    (Log.appendLoop crc base xs l).1.lowestOffset = l.lowestOffset := by
  induction xs generalizing base l with
  | nil => rfl
  | cons x rest ih =>
    obtain ⟨record, env⟩ := x
    have hone := lowestOffset_appendOne crc l record env
    rw [Log.appendLoop]
    split
    · rename_i l' e heq
      rw [heq] at hone
      exact hone
    · rename_i l' offset heq
      rw [heq] at hone
      rw [ih]
      exact hone

theorem lowestOffset_appendBatch (crc : Checksum) (l : Log)
    (xs : List (Option Record × Surroundings)) :
    (l.appendBatch crc xs).1.lowestOffset = l.lowestOffset := by
  rw [Log.appendBatch]
  split
  · rfl
  split
  · rfl
  · exact lowestOffset_appendLoop crc none xs l

theorem baseOffset_rebuildSegment {crc : Checksum} {s t : Segment} {stopOffset : Int64}
    (h : rebuildSegment crc s stopOffset = .ok t) : t.baseOffset = s.baseOffset := by
  obtain ⟨index, -, rfl⟩ := rebuildSegment_eq_ok h
  exact (advanceAll_shape _ _).1.baseOffset

theorem baseOffsets_openSegments {cfg : Config} {modTime : Int64 → Int} {now : Int}
    {files : List SegmentFiles} {segments : List Segment}
    (h : openSegments cfg modTime now files = .ok segments) :
    segments.map Segment.baseOffset = files.map SegmentFiles.baseOffset := by
  induction files generalizing segments with
  | nil =>
    cases h
    rfl
  | cons f rest ih =>
    rw [openSegments] at h
    cases hnew : newSegment f.baseOffset f.logFile f.indexFile (modTime f.baseOffset) now cfg with
    | error e =>
      rw [hnew] at h
      cases h
    | ok s =>
      cases hrest : openSegments cfg modTime now rest with
      | error e =>
        rw [hnew, hrest] at h
        cases h
      | ok more =>
        rw [hnew, hrest] at h
        cases h
        obtain ⟨index, -, rfl⟩ := newSegment_eq_ok hnew
        rw [List.map_cons, List.map_cons, ih hrest]

theorem newLog_lowest {crc : Checksum} {cfg : Config} {dir : List SegmentFiles}
    {modTime : Int64 → Int} {now : Int} {l : Log} (h : newLog crc cfg dir modTime now = .ok l) :
    0 ≤ l.lowestOffset.toInt := by
  rw [newLog] at h
  split at h
  · cases h
  rename_i segments hopen
  have hbases := baseOffsets_openSegments hopen
  have hnonneg : ∀ s ∈ segments, 0 ≤ s.baseOffset.toInt := by
    intro s hs
    have hmem : s.baseOffset ∈ (scanSegments dir).map SegmentFiles.baseOffset := by
      rw [← hbases]
      exact List.mem_map_of_mem hs
    obtain ⟨f, hf, heq⟩ := List.mem_map.mp hmem
    have hkept := (List.mem_filter.mp ((List.mem_insertionSort _).mp hf)).2
    rw [decide_eq_true_eq, Int64.le_iff_toInt_le, heq] at hkept
    exact hkept
  split at h
  · split at h
    · cases h
    · rename_i active hactive
      cases h
      obtain ⟨index, -, rfl⟩ := newSegment_eq_ok hactive
      exact le_rfl
  · rename_i last hlast
    split at h
    · cases h
    · rename_i active hactive
      cases h
      rw [Log.lowestOffset, if_neg (by simp)]
      dsimp only
      split
      · rw [baseOffset_rebuildSegment hactive]
        exact hnonneg last (List.mem_of_getLast? hlast)
      · rename_i s rest hsealed
        have hmem : s ∈ segments.dropLast := by
          rw [hsealed]
          simp
        exact hnonneg s (List.dropLast_subset _ hmem)

end MiniKafka.LogStart
