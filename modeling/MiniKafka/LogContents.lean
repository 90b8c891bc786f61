import MiniKafka.PartitionLog
import MiniKafka.SegmentRebuild

/-!
What a partition log stores, and the invariant that ties its segments
together.

Every segment starts at the offset where the records of its predecessor end.
Sealed segments are not empty and are completely on disk; the active one is in
the state appending its records would have left.
-/

namespace MiniKafka.LogContents

open BufferedWriter RecordCodec OffsetIndex SegmentStore SegmentContents SegmentWrites
  SegmentRebuild PartitionLog

def segmentRecords (crc : Checksum) (s : Segment) : List Record :=
  (scanned crc s).map Prod.fst

def recordsOf (crc : Checksum) (segments : List Segment) : List Record :=
  segments.flatMap (segmentRecords crc)

def storedRecords (crc : Checksum) (l : Log) : List Record := recordsOf crc l.segments

/-- The segments follow each other without a gap, starting at `base`. -/
def Linked (crc : Checksum) : Int → List Segment → Prop
  | _, [] => True
  | base, s :: rest =>
    s.baseOffset.toInt = base ∧ Linked crc (base + (segmentRecords crc s).length) rest

/-- The parts of a segment that come from the configuration.  A sealed index
keeps no spare capacity, so its size is only bounded. -/
structure Configured (cfg : Config) (s : Segment) : Prop where
  indexInterval : s.indexInterval = cfg.indexIntervalBytes
  maxBytes : s.maxBytes = cfg.segmentBytes
  maxSize : s.index.maxSize ≤ indexCapacity cfg.indexMaxBytes

structure SealedSegment (crc : Checksum) (cfg : Config) (s : Segment) : Prop where
  stores : Stores crc s (segmentRecords crc s)
  nonempty : segmentRecords crc s ≠ []
  flushed : s.writer.buffer = []
  configured : Configured cfg s

structure WellFormed (crc : Checksum) (l : Log) : Prop where
  isOpen : l.closed = false
  config : l.config.withDefaults = l.config
  indexRoom : entrySize ≤ l.config.indexMaxBytes.toNatClampNeg
  sealed : ∀ s ∈ l.sealed, SealedSegment crc l.config s
  active : Writable crc l.active (segmentRecords crc l.active)
  configured : Configured l.config l.active
  linked : Linked crc l.lowestOffset.toInt l.segments
  lowest : 0 ≤ l.lowestOffset.toInt
  range : l.lowestOffset.toInt + (storedRecords crc l).length < 2 ^ 63

/-- The 64-bit offsets suffice for `n` more records. -/
def OffsetsLeft (l : Log) (n : Nat) : Prop := l.highestOffset.toInt + n < 2 ^ 63

instance (l : Log) (n : Nat) : Decidable (OffsetsLeft l n) :=
  inferInstanceAs (Decidable (l.highestOffset.toInt + n < 2 ^ 63))

def NextOffsetsKnown (crc : Checksum) (l : Log) : Prop :=
  ∀ s ∈ l.sealed, s.nextOffset = s.baseOffset + Int64.ofNat (segmentRecords crc s).length

/-- `l'` stores the records of `l` followed by `added`, and is otherwise the
same log. -/
structure Extends (crc : Checksum) (l l' : Log) (added : List Record) : Prop where
  wellFormed : WellFormed crc l'
  stored : storedRecords crc l' = storedRecords crc l ++ added
  lowest : l'.lowestOffset = l.lowestOffset
  config : l'.config = l.config
  nextOffsets : NextOffsetsKnown crc l → NextOffsetsKnown crc l'

theorem Extends.refl {crc : Checksum} {l : Log} (h : WellFormed crc l) : Extends crc l l [] :=
  ⟨h, by simp, rfl, rfl, id⟩

theorem Extends.trans {crc : Checksum} {l l' l'' : Log} {added more : List Record}
    (h : Extends crc l l' added) (k : Extends crc l' l'' more) :
    Extends crc l l'' (added ++ more) where
  wellFormed := k.wellFormed
  stored := by rw [k.stored, h.stored, List.append_assoc]
  lowest := k.lowest.trans h.lowest
  config := k.config.trans h.config
  nextOffsets := k.nextOffsets ∘ h.nextOffsets

theorem segmentRecords_eq {crc : Checksum} {s : Segment} {rs : List Record}
    (h : Stores crc s rs) : segmentRecords crc s = rs := by
  rw [segmentRecords, scanned, h.contents, items_image crc h.fits]
  simp [sized, Function.comp_def]

@[simp] theorem segmentRecords_close (crc : Checksum) (s : Segment) :
    segmentRecords crc s.close = segmentRecords crc s := by
  rw [segmentRecords, segmentRecords, scanned, scanned, Segment.close, contents_flush]

@[simp] theorem recordsOf_nil (crc : Checksum) : recordsOf crc [] = [] := rfl

@[simp] theorem recordsOf_cons (crc : Checksum) (s : Segment) (segments : List Segment) :
    recordsOf crc (s :: segments) = segmentRecords crc s ++ recordsOf crc segments := by
  simp [recordsOf]

@[simp] theorem recordsOf_append (crc : Checksum) (xs ys : List Segment) :
    recordsOf crc (xs ++ ys) = recordsOf crc xs ++ recordsOf crc ys := by
  simp [recordsOf]

theorem storedRecords_eq (crc : Checksum) (l : Log) :
    storedRecords crc l = recordsOf crc l.sealed ++ segmentRecords crc l.active := by
  simp [storedRecords, Log.segments]

theorem linked_append {crc : Checksum} {base : Int} {xs ys : List Segment} :
    Linked crc base (xs ++ ys) ↔
      Linked crc base xs ∧ Linked crc (base + (recordsOf crc xs).length) ys := by
  induction xs generalizing base with
  | nil => simp [Linked]
  | cons s xs ih =>
    simp only [List.cons_append, Linked, ih, recordsOf_cons, List.length_append, Nat.cast_add,
      and_assoc, Int.add_assoc]

theorem lowestOffset_eq {l : Log} (h : l.closed = false) :
    l.lowestOffset = (l.segments.headD l.active).baseOffset := by
  rw [Log.lowestOffset, if_neg (by simp [h]), Log.segments]
  cases l.sealed with
  | nil => rfl
  | cons s rest => rfl

section

variable {crc : Checksum} {l : Log}

theorem WellFormed.active_base (h : WellFormed crc l) :
    l.active.baseOffset.toInt = l.lowestOffset.toInt + (recordsOf crc l.sealed).length := by
  have hlinked := h.linked
  rw [Log.segments, linked_append] at hlinked
  exact hlinked.2.1

theorem WellFormed.active_range (h : WellFormed crc l) :
    l.active.baseOffset.toInt + (segmentRecords crc l.active).length < 2 ^ 63 := by
  have hrange := h.range
  rw [storedRecords_eq, List.length_append] at hrange
  rw [h.active_base]
  omega

theorem stored_fits (h : WellFormed crc l) :
    ∀ r ∈ storedRecords crc l, r.encodedSize ≤ maxRecordSize := by
  intro r hr
  rw [storedRecords_eq, List.mem_append, recordsOf, List.mem_flatMap] at hr
  rcases hr with ⟨s, hs, hmem⟩ | hmem
  · exact (h.sealed s hs).stores.fits r hmem
  · exact h.active.fits r hmem

theorem WellFormed.highestOffset (h : WellFormed crc l) :
    l.highestOffset.toInt = l.lowestOffset.toInt + (storedRecords crc l).length := by
  rw [Log.highestOffset, if_neg (by simp [h.isOpen]), h.active.nextOffset,
    toInt_add_ofNat h.active_range, h.active_base, storedRecords_eq, List.length_append]
  omega

theorem WellFormed.highestOffset_nonneg (h : WellFormed crc l) : 0 ≤ l.highestOffset.toInt := by
  rw [h.highestOffset]
  exact add_nonneg h.lowest (Int.natCast_nonneg _)

theorem Extends.highestOffset {l' : Log} {added : List Record} (h : WellFormed crc l)
    (hextends : Extends crc l l' added) :
    l'.highestOffset.toInt = l.highestOffset.toInt + added.length := by
  rw [hextends.wellFormed.highestOffset, h.highestOffset, hextends.lowest, hextends.stored,
    List.length_append]
  omega

theorem Extends.highestOffset_le {l' : Log} {added : List Record} (h : WellFormed crc l)
    (hextends : Extends crc l l' added) : l.highestOffset.toInt ≤ l'.highestOffset.toInt := by
  rw [hextends.highestOffset h]
  omega

theorem WellFormed.nextOffset (h : WellFormed crc l) : l.active.nextOffset = l.highestOffset := by
  rw [Log.highestOffset, if_neg (by simp [h.isOpen])]

end

end MiniKafka.LogContents
