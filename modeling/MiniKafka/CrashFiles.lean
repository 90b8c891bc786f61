import MiniKafka.LogReads
import MiniKafka.SegmentRecovery

/-!
A log after a crash of its process.

The `.log` files hold what the writers have passed on, and every mapped index file
still has its preallocated length.  `NewLog` reopens the sealed segments and scans
the last one, whichever that is.
-/

namespace MiniKafka.CrashFiles

open BigEndian ReadLoop BufferedWriter RecordCodec OffsetIndex SegmentStore SegmentContents
  SegmentWrites SegmentRebuild PartitionLog LogContents LogWrites LogReopen

def wholeRecords : Nat → List Record → List Record
  | _, [] => []
  | n, r :: rs => if r.encodedSize ≤ n then r :: wholeRecords (n - r.encodedSize) rs else []

def onDisk (crc : Checksum) (s : Segment) : List Record :=
  wholeRecords s.writer.file.length (segmentRecords crc s)

theorem newIndex_whole {es : List Entry} {maxBytes : Int64} (hentries : es ≠ [])
    (hfit : es.length * entrySize ≤ indexCapacity maxBytes)
    (hlast : 1 < es.length → es.getD (es.length - 1) ⟨0, 0⟩ ≠ ⟨0, 0⟩) (n : Nat) :
    newIndex (padded es n) maxBytes = .ok ⟨es, indexCapacity maxBytes, true⟩ := by
  have hlength := length_padded es n
  have hpos := List.length_pos_iff.mpr hentries
  simp only [indexCapacity, entrySize] at hfit hlength
  have hslots : es.length ≤ min (padded es n).length maxBytes.toNatClampNeg / entrySize := by
    simp only [entrySize]
    omega
  have hroom : entrySize ≤ maxBytes.toNatClampNeg := by
    simp only [entrySize]
    omega
  have hindex : newIndex ((padded es n).take (padded es n).length) maxBytes = .ok _ :=
    newIndex_padded hroom rfl (.inl hentries) (by
      rwa [List.take_length, Nat.min_eq_left hslots])
  rwa [List.take_length, List.take_of_length_le hslots] at hindex

theorem wholeRecords_initial (n : Nat) (rs : List Record) : wholeRecords n rs <+: rs := by
  induction rs generalizing n with
  | nil => exact List.nil_prefix
  | cons r rs ih =>
    rw [wholeRecords]
    split
    · exact (List.prefix_cons_inj r).mpr (ih _)
    · exact List.nil_prefix

theorem wholeRecords_of_le {n : Nat} {rs : List Record} (h : totalSize rs ≤ n) :
    wholeRecords n rs = rs := by
  induction rs generalizing n with
  | nil => rfl
  | cons r rs ih =>
    simp only [SegmentContents.totalSize, List.map_cons, List.sum_cons] at h ih
    rw [wholeRecords, if_pos (by omega), ih (by omega)]

/-- A file that was cut holds the whole records and a rest that does not decode. -/
theorem take_image (crc : Checksum) {rs : List Record}
    (hfits : ∀ r ∈ rs, r.encodedSize ≤ maxRecordSize) (n : Nat) :
    ∃ tail, (image crc rs).take n = image crc (wholeRecords n rs) ++ tail ∧
      (items (decodeRecord crc) tail).1 = [] := by
  induction rs generalizing n with
  | nil =>
    refine ⟨[], by simp [image, wholeRecords], ?_⟩
    rw [items_of_error (decodeRecord_progressive crc) (decodeRecord_nil crc)]
  | cons r rs ih =>
    have hcons : ∀ ts, image crc (r :: ts) = r.wireImage crc ++ image crc ts := by simp [image]
    have hlength := length_wireImage crc r
    rw [wholeRecords, hcons]
    split
    · obtain ⟨tail, htake, htail⟩ :=
        ih (fun t ht => hfits t (List.mem_cons_of_mem r ht)) (n - r.encodedSize)
      refine ⟨tail, ?_, htail⟩
      rw [List.take_append, List.take_of_length_le (by omega), hlength, htake, hcons,
        List.append_assoc]
    · rename_i hcut
      refine ⟨(r.wireImage crc).take n, ?_, ?_⟩
      · rw [List.take_append_of_le_length (by omega)]
        simp [image]
      · have hne : (r.wireImage crc).take n ≠ r.wireImage crc := by
          intro heq
          have := congrArg List.length heq
          rw [List.length_take] at this
          omega
        rcases decodeRecord_strictPrefix crc r _ (hfits r List.mem_cons_self)
          (List.take_prefix _ _) hne with herr | herr
        · rw [items_of_error (decodeRecord_progressive crc) herr]
        · rw [items_of_error (decodeRecord_progressive crc) herr]

def cutTo (crc : Checksum) (s : Segment) (rs : List Record) : Segment :=
  { s with
    writer := openAtEnd (image crc rs)
    index := { s.index with entries := (account s.indexInterval s.baseOffset (sized rs)).entries }
    bytesWritten := totalSize rs }

section

variable {crc : Checksum} {cfg : Config} {s : Segment} {rs : List Record}

theorem cutTo_stores (h : Stores crc s rs) {ks : List Record} (hinitial : ks <+: rs) :
    Stores crc (cutTo crc s ks) ks ∧ (cutTo crc s ks).index.size ≤ s.index.size := by
  obtain ⟨hnumbered, hfits, hpositions⟩ := h.initial hinitial
  obtain ⟨rest, rfl⟩ := hinitial
  have hfewer : (cutTo crc s ks).index.size ≤ s.index.size := by
    rw [Index.size, Index.size, h.entries, sized_append]
    exact Nat.mul_le_mul_right _ (account_entries_initial _ _ _ _).length_le
  refine ⟨?_, hfewer⟩
  exact
    { isOpen := h.isOpen
      numbered := hnumbered
      fits := hfits
      contents := contents_openAtEnd _
      bytesWritten := rfl
      positions := hpositions
      entries := rfl
      usable :=
        { mapped := h.usable.mapped
          room := h.usable.room
          whole := h.usable.whole
          range := h.usable.range
          capacity := hfewer.trans h.usable.capacity } }

theorem newSegment_padded (h : SealedSegment crc cfg s) (hcfg : cfg.withDefaults = cfg)
    (n : Nat) (modTime : Int64 → Int) (now : Int) :
    newSegment s.baseOffset s.writer.file (padded s.index.entries n) (modTime s.baseOffset) now
      cfg = .ok (reopened cfg modTime now s) := by
  have hindex := newIndex_whole (entries_ne_nil h.stores h.nonempty)
    (h.stores.usable.capacity.trans h.configured.maxSize) (getLast_entry_ne_zero h.stores) n
  have hfile : s.writer.file = s.writer.contents := by
    rw [Writer.contents, h.flushed, List.append_nil]
  rw [newSegment, hcfg, hindex, hfile]
  rfl

/-- The last segment of a directory comes back with the records that are on disk,
wherever its file ends and whatever its index holds. -/
theorem recover_cut (h : Stores crc s (segmentRecords crc s)) (hconfigured : Configured cfg s)
    (hcfg : cfg.withDefaults = cfg) (hroom : entrySize ≤ cfg.indexMaxBytes.toNatClampNeg)
    (cut : Nat) (indexFile : Bytes) (modTime now : Int) :
    ∃ t u, newSegment s.baseOffset (s.writer.contents.take cut) indexFile modTime now cfg = .ok t ∧
      rebuildSegment crc t (-1) = .ok u ∧ u.baseOffset = s.baseOffset ∧
      Writable crc u (wholeRecords cut (segmentRecords crc s)) ∧ Configured cfg u := by
  obtain ⟨t, ht⟩ := newSegment_isOk s.baseOffset (s.writer.contents.take cut) indexFile modTime now
    (show entrySize ≤ cfg.withDefaults.indexMaxBytes.toNatClampNeg by rwa [hcfg])
  obtain ⟨hconfigured', hbase⟩ := newSegment_configured hcfg ht
  obtain ⟨index, hindex, heq⟩ := newSegment_eq_ok ht
  rw [hcfg] at hindex heq
  obtain ⟨husable, hmax⟩ := newIndex_usable hindex
  generalize hks : wholeRecords cut (segmentRecords crc s) = ks
  obtain ⟨hcut, hfewer⟩ := cutTo_stores h (hks ▸ wholeRecords_initial cut _)
  obtain ⟨tail, htake, htail⟩ := take_image crc h.fits cut
  have hcontents : t.writer.contents = (cutTo crc s ks).writer.contents ++ tail := by
    rw [heq, hcut.contents, contents_openAtEnd, h.contents, htake, hks]
  have hindex' : t.index = index := by rw [heq]
  have hcap : (cutTo crc s ks).index.size ≤ t.index.maxSize := by
    have := h.usable.capacity
    have := hconfigured.maxSize
    rw [hindex', hmax]
    omega
  obtain ⟨u, hrebuild, hshape, -, hwritable⟩ :=
    rebuildSegment_stores hcut (by rw [heq]) hbase
      (hconfigured'.indexInterval.trans hconfigured.indexInterval.symm) hcontents htail
      (by rw [hindex']; exact husable) hcap (-1)
  rw [keptRecords_recovery] at hwritable
  exact ⟨t, u, ht, hrebuild, hshape.baseOffset.trans hbase, hwritable,
    configured_of_same hconfigured' hshape.indexInterval hshape.maxBytes hshape.maxSize.le⟩

end

/-- `l'` has the segments `init` reopened, and after them the records `rs` of the
segment `last`. -/
structure Recovered (crc : Checksum) (cfg : Config) (modTime : Int64 → Int) (now : Int)
    (init : List Segment) (last : Segment) (rs : List Record) (l' : Log) : Prop where
  isOpen : l'.closed = false
  config : l'.config = cfg
  sealed : l'.sealed = init.map (reopened cfg modTime now)
  baseOffset : l'.active.baseOffset = last.baseOffset
  active : Writable crc l'.active rs
  configured : Configured cfg l'.active

section

variable {crc : Checksum} {cfg : Config} {init : List Segment} {last : Segment}

end

end MiniKafka.CrashFiles
