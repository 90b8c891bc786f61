import MiniKafka.CrashFiles
import MiniKafka.LogRefinement

/-!
What a partition log can lose when its process ends without `Close`.

An append returns once the record is in the buffer of the segment, and `FlushMessages`
says how many may be waiting there.  The log therefore refines a list of records that a
crash between two calls shortens at its end, by records appended since the last flush or
rotation only.
-/

namespace MiniKafka.CrashDurability

open BigEndian BufferedWriter RecordCodec SegmentStore SegmentContents SegmentWrites PartitionLog
  LogContents LogWrites LogReopen CrashFiles LogRefinement Runs

/-- `rotated` tells whether a call leaves another active segment than it has found. -/
inductive Happening where
  | call (event : Event) (rotated : Bool)
  | crash (written : Nat) (modTime : Int64 → Int) (now : Int)

/-- The abstract log with the number of records that a crash could take. -/
structure LossyLog where
  log : ModelLog
  unflushed : Nat

def unflushed (crc : Checksum) (l : Log) : Nat :=
  (segmentRecords crc l.active).length - (onDisk crc l.active).length

/-- Where records are counted, every waiting one has been, and the count stays below
`FlushMessages`. -/
def Counted (crc : Checksum) (l : Log) : Prop :=
  0 < l.config.flushMessages.toInt →
    unflushed crc l ≤ l.messagesSinceFlush.toInt ∧
      l.messagesSinceFlush.toInt < l.config.flushMessages.toInt

section

variable {crc : Checksum} {l l' : Log}

/-- What a step that adds records does to the count.  In a new active segment only records
of the step itself are waiting. -/
structure Advances (crc : Checksum) (l l' : Log) : Prop where
  grows : (storedRecords crc l).length ≤ (storedRecords crc l').length
  moved : l'.active.baseOffset = l.active.baseOffset ∨
    unflushed crc l' + (storedRecords crc l).length ≤ (storedRecords crc l').length
  unflushed : unflushed crc l' + (storedRecords crc l).length ≤
    unflushed crc l + (storedRecords crc l').length
  counted : Counted crc l → Counted crc l'

theorem Advances.refl (crc : Checksum) (l : Log) : Advances crc l l :=
  ⟨le_rfl, .inl rfl, le_rfl, id⟩

theorem Advances.trans {l'' : Log} (h : Advances crc l l') (h' : Advances crc l' l'') :
    Advances crc l l'' := by
  have hgrows := h.grows
  have hgrows' := h'.grows
  have hwaiting := h.unflushed
  have hwaiting' := h'.unflushed
  refine ⟨by omega, ?_, by omega, fun hcounted => h'.counted (h.counted hcounted)⟩
  rcases h'.moved with hsame' | hmoved'
  · exact h.moved.imp hsame'.trans fun hmoved => by omega
  · exact .inr (by omega)

section Recovery

variable {modTime : Int64 → Int} {now : Int} (h : WellFormed crc l)
  (hrecovered : Recovered crc l.config modTime now l.sealed l.active (onDisk crc l.active) l')

include h hrecovered

end Recovery

def Held (crc : Checksum) (cfg : Config) (l : Log) (m : LossyLog) : Prop :=
  Represents crc cfg l m.log ∧ m.unflushed = unflushed crc l ∧ Counted crc l

end

def threeRecords : List Happening :=
  [.call (.append (some (bareRecord 7)) ⟨0, none⟩ 0 none) false,
    .call (.append (some (bareRecord 8)) ⟨0, none⟩ 1 none) false,
    .call (.append (some (bareRecord 9)) ⟨0, none⟩ 2 none) true]

end MiniKafka.CrashDurability
