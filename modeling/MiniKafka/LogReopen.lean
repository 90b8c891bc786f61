import MiniKafka.LogMaintenance

/-!
Closing a log and opening it again.

The records survive.  The sealed segments are opened without a scan and come
back with their next offset at their base.
-/

namespace MiniKafka.LogReopen

open ReadLoop BufferedWriter RecordCodec OffsetIndex SegmentStore SegmentContents SegmentWrites
  SegmentRebuild PartitionLog LogContents LogWrites LogMaintenance

def reopened (cfg : Config) (modTime : Int64 → Int) (now : Int) (s : Segment) : Segment :=
  { baseOffset := s.baseOffset
    nextOffset := s.baseOffset
    writer := openAtEnd s.writer.contents
    index := ⟨s.index.entries, indexCapacity cfg.indexMaxBytes, true⟩
    maxBytes := cfg.segmentBytes
    indexInterval := cfg.indexIntervalBytes
    bytesWritten := s.writer.contents.length
    bytesSinceLastIndex := 0
    createdAt := if 0 < s.writer.contents.length then modTime s.baseOffset else now
    closed := false }

section

variable {crc : Checksum} {cfg : Config} {s : Segment} {rs : List Record}

theorem getLast_entry_ne_zero (h : Stores crc s rs) (hlong : 1 < s.index.entries.length) :
    s.index.entries.getD (s.index.entries.length - 1) ⟨0, 0⟩ ≠ ⟨0, 0⟩ := by
  intro hzero
  have hlt := getD_lt_of_increasing h.increasing
    (show 0 < s.index.entries.length - 1 by omega) (by omega)
  rw [hzero, UInt32.lt_iff_toNat_lt] at hlt
  simp at hlt

theorem newSegment_files (h : Stores crc s rs) (hconfigured : Configured cfg s)
    (hcfg : cfg.withDefaults = cfg) (hroom : entrySize ≤ cfg.indexMaxBytes.toNatClampNeg)
    (modTime : Int64 → Int) (now : Int) :
    newSegment s.files.baseOffset s.files.logFile s.files.indexFile
      (modTime s.files.baseOffset) now cfg = .ok (reopened cfg modTime now s) := by
  have hindex := newIndex_close s.index cfg.indexMaxBytes
    (h.usable.capacity.trans hconfigured.maxSize) hroom (getLast_entry_ne_zero h)
  rw [newSegment, hcfg, Segment.files]
  dsimp only
  rw [hindex]
  rfl

theorem reopened_stores (h : Stores crc s rs) (hconfigured : Configured cfg s)
    (hroom : entrySize ≤ cfg.indexMaxBytes.toNatClampNeg) (modTime : Int64 → Int) (now : Int) :
    Stores crc (reopened cfg modTime now s) rs := by
  obtain ⟨husable, -⟩ := newIndex_usable (newIndex_nil cfg.indexMaxBytes hroom)
  exact
    { isOpen := rfl
      numbered := h.numbered
      fits := h.fits
      contents := by
        change (openAtEnd s.writer.contents).contents = _
        rw [contents_openAtEnd, h.contents]
      bytesWritten := by
        change s.writer.contents.length = _
        rw [h.contents, length_image]
      positions := h.positions
      entries := by
        change s.index.entries = (account cfg.indexIntervalBytes s.baseOffset _).entries
        rw [h.entries, hconfigured.indexInterval]
      usable :=
        { mapped := rfl
          room := husable.room
          whole := husable.whole
          range := husable.range
          capacity := h.usable.capacity.trans hconfigured.maxSize } }

theorem reopened_configured (modTime : Int64 → Int) (now : Int) :
    Configured cfg (reopened cfg modTime now s) := ⟨rfl, rfl, le_rfl⟩

end

theorem openSegments_map {cfg : Config} {files : Segment → SegmentFiles}
    {opened : Segment → Segment} {segments : List Segment} {modTime : Int64 → Int} {now : Int}
    (h : ∀ s ∈ segments, newSegment (files s).baseOffset (files s).logFile (files s).indexFile
      (modTime (files s).baseOffset) now cfg = .ok (opened s)) :
    openSegments cfg modTime now (segments.map files) = .ok (segments.map opened) := by
  induction segments with
  | nil => rfl
  | cons s rest ih =>
    have hrest := ih fun t ht => h t (List.mem_cons_of_mem s ht)
    rw [List.map_cons, openSegments, h s List.mem_cons_self, hrest]
    rfl

theorem openSegments_concat {cfg : Config} {modTime : Int64 → Int} {now : Int}
    {dir : List SegmentFiles} {segments : List Segment} {f : SegmentFiles} {t : Segment}
    (h : openSegments cfg modTime now dir = .ok segments)
    (hlast : newSegment f.baseOffset f.logFile f.indexFile (modTime f.baseOffset) now cfg = .ok t) :
    openSegments cfg modTime now (dir ++ [f]) = .ok (segments ++ [t]) := by
  induction dir generalizing segments with
  | nil =>
    obtain rfl : [] = segments := Except.ok.inj h
    rw [List.nil_append, openSegments, hlast]
    rfl
  | cons g rest ih =>
    rw [openSegments] at h
    cases hg : newSegment g.baseOffset g.logFile g.indexFile (modTime g.baseOffset) now cfg with
    | error e =>
      rw [hg] at h
      cases h
    | ok s =>
      rw [hg] at h
      cases hrest : openSegments cfg modTime now rest with
      | error e =>
        rw [hrest] at h
        cases h
      | ok opened =>
        rw [hrest] at h
        obtain rfl : s :: opened = segments := Except.ok.inj h
        rw [List.cons_append, openSegments, hg, ih hrest]
        rfl

theorem newLog_scanned {crc : Checksum} {cfg : Config} {dir : List SegmentFiles}
    {modTime : Int64 → Int} {now : Int} {init : List Segment} {last active : Segment}
    (hopened : openSegments cfg.withDefaults modTime now (scanSegments dir) = .ok (init ++ [last]))
    (hrebuild : rebuildSegment crc last (-1) = .ok active) :
    newLog crc cfg dir modTime now = .ok
      { config := cfg.withDefaults, sealed := init, active := active, activeCreatedAt := now,
        messagesSinceFlush := 0, lastFlush := now, closed := false } := by
  rw [newLog, hopened]
  dsimp only
  rw [List.getLast?_concat]
  dsimp only
  rw [hrebuild, List.dropLast_concat]

theorem linked_sorted {crc : Checksum} {base : Int} {segments : List Segment}
    (h : Linked crc base segments) :
    segments.Pairwise fun s t => s.baseOffset.toInt ≤ t.baseOffset.toInt := by
  induction segments generalizing base with
  | nil => exact List.Pairwise.nil
  | cons s rest ih =>
    refine List.pairwise_cons.mpr ⟨fun t ht => ?_, ih h.2⟩
    have := linked_ge h.2 t ht
    rw [h.1]
    omega

theorem linked_increasing {crc : Checksum} {base : Int} {segments : List Segment} {last : Segment}
    (h : Linked crc base (segments ++ [last]))
    (hrecords : ∀ s ∈ segments, segmentRecords crc s ≠ []) :
    (segments ++ [last]).Pairwise fun s t => s.baseOffset.toInt < t.baseOffset.toInt := by
  induction segments generalizing base with
  | nil => exact List.pairwise_singleton _ _
  | cons s rest ih =>
    refine List.pairwise_cons.mpr ⟨fun t ht => ?_, ih h.2 fun t ht =>
      hrecords t (List.mem_cons_of_mem s ht)⟩
    have hge := linked_ge h.2 t ht
    have hpos := List.length_pos_iff.mpr (hrecords s List.mem_cons_self)
    rw [h.1]
    omega

theorem scanSegments_map {files : Segment → SegmentFiles}
    (hfiles : ∀ s, (files s).baseOffset = s.baseOffset) {segments : List Segment}
    (hsorted : segments.Pairwise fun s t => s.baseOffset.toInt ≤ t.baseOffset.toInt)
    (hnonneg : ∀ s ∈ segments, 0 ≤ s.baseOffset.toInt) :
    scanSegments (segments.map files) = segments.map files := by
  have hfilter : ((segments.map files).filter fun f => decide (0 ≤ f.baseOffset)) =
      segments.map files := by
    refine List.filter_eq_self.mpr ?_
    intro f hf
    obtain ⟨s, hs, rfl⟩ := List.mem_map.mp hf
    rw [decide_eq_true_eq, Int64.le_iff_toInt_le, hfiles]
    exact hnonneg s hs
  rw [scanSegments, hfilter]
  apply List.Pairwise.insertionSort_eq
  refine List.pairwise_map.mpr (hsorted.imp fun {s t} hle => ?_)
  rw [hfiles, hfiles]
  exact hle

theorem base_nonneg {crc : Checksum} {l : Log} (h : WellFormed crc l) :
    ∀ s ∈ l.segments, 0 ≤ s.baseOffset.toInt := by
  intro s hs
  have hge := linked_ge h.linked s hs
  have hlow := h.lowest
  omega

theorem scanSegments_close {crc : Checksum} {l : Log} (h : WellFormed crc l) :
    scanSegments l.close.2 = l.segments.map Segment.files :=
  scanSegments_map (fun _ => rfl) (linked_sorted h.linked) (base_nonneg h)

theorem linked_map {crc : Checksum} (f : Segment → Segment) {segments : List Segment}
    (hbase : ∀ s ∈ segments, (f s).baseOffset = s.baseOffset)
    (hrecords : ∀ s ∈ segments, segmentRecords crc (f s) = segmentRecords crc s) {base : Int}
    (h : Linked crc base segments) : Linked crc base (segments.map f) := by
  induction segments generalizing base with
  | nil => trivial
  | cons s rest ih =>
    refine ⟨by rw [hbase s (by simp)]; exact h.1, ?_⟩
    rw [hrecords s (by simp)]
    exact ih (fun t ht => hbase t (by simp [ht])) (fun t ht => hrecords t (by simp [ht])) h.2

/-- `l'` is `l` with every segment reopened and the active one scanned. -/
structure Reopened (crc : Checksum) (modTime : Int64 → Int) (now : Int) (l l' : Log) : Prop where
  isOpen : l'.closed = false
  config : l'.config = l.config
  sealed : l'.sealed = l.sealed.map (reopened l.config modTime now)
  shape : SameShape (reopened l.config modTime now l.active) l'.active
  active : Writable crc l'.active (segmentRecords crc l.active)

section

variable {crc : Checksum} {modTime : Int64 → Int} {now : Int} {l l' : Log}

theorem Reopened.sealedRecords (h : WellFormed crc l) {s : Segment} (hs : s ∈ l.sealed) :
    segmentRecords crc (reopened l.config modTime now s) = segmentRecords crc s :=
  segmentRecords_eq (reopened_stores (h.sealed s hs).stores (h.sealed s hs).configured
    h.indexRoom modTime now)

theorem Reopened.stored (h : WellFormed crc l) (hreopen : Reopened crc modTime now l l') :
    storedRecords crc l' = storedRecords crc l := by
  have hsealed : recordsOf crc (l.sealed.map (reopened l.config modTime now)) =
      recordsOf crc l.sealed := by
    rw [recordsOf, recordsOf, List.flatMap_map]
    exact List.flatMap_congr fun s hs => Reopened.sealedRecords h hs
  rw [storedRecords_eq, storedRecords_eq, hreopen.sealed, hsealed,
    segmentRecords_eq hreopen.active.toStores]

theorem Reopened.lowest (h : WellFormed crc l) (hreopen : Reopened crc modTime now l l') :
    l'.lowestOffset = l.lowestOffset := by
  rw [Log.lowestOffset, Log.lowestOffset, hreopen.isOpen, h.isOpen, hreopen.sealed]
  cases l.sealed with
  | nil => exact hreopen.shape.baseOffset
  | cons s rest => rfl

theorem Reopened.wellFormed (h : WellFormed crc l) (hreopen : Reopened crc modTime now l l') :
    WellFormed crc l' where
  isOpen := hreopen.isOpen
  config := by rw [hreopen.config, h.config]
  indexRoom := by rw [hreopen.config]; exact h.indexRoom
  sealed := by
    rw [hreopen.sealed, hreopen.config]
    intro t ht
    obtain ⟨s, hs, rfl⟩ := List.mem_map.mp ht
    have hsealed := h.sealed s hs
    exact
      { stores := by
          rw [Reopened.sealedRecords h hs]
          exact reopened_stores hsealed.stores hsealed.configured h.indexRoom modTime now
        nonempty := by
          rw [Reopened.sealedRecords h hs]
          exact hsealed.nonempty
        flushed := rfl
        configured := reopened_configured modTime now }
  active := by
    rw [segmentRecords_eq hreopen.active.toStores]
    exact hreopen.active
  configured := by
    rw [hreopen.config]
    exact configured_of_same (reopened_configured modTime now) hreopen.shape.indexInterval
      hreopen.shape.maxBytes hreopen.shape.maxSize.le
  linked := by
    have hold := h.linked
    rw [Log.segments, linked_append] at hold
    rw [Reopened.lowest h hreopen, Log.segments, hreopen.sealed, linked_append]
    refine ⟨linked_map (reopened l.config modTime now) (fun _ _ => rfl)
      (fun s hs => Reopened.sealedRecords h hs) hold.1, ?_, trivial⟩
    rw [hreopen.shape.baseOffset, recordsOf, List.flatMap_map,
      List.flatMap_congr fun s hs => Reopened.sealedRecords h hs]
    exact hold.2.1
  lowest := by rw [Reopened.lowest h hreopen]; exact h.lowest
  range := by rw [Reopened.lowest h hreopen, Reopened.stored h hreopen]; exact h.range

/-- Closing a log and opening it again succeeds and keeps every record at its
offset. -/
theorem reopen_spec (h : WellFormed crc l) {cfg : Config} (hcfg : cfg.withDefaults = l.config)
    (modTime : Int64 → Int) (now : Int) :
    ∃ l', newLog crc cfg l.close.2 modTime now = .ok l' ∧ Reopened crc modTime now l l' := by
  have hactive := reopened_stores h.active.toStores h.configured h.indexRoom modTime now
  obtain ⟨active, hrebuild, hshape, -, hwritable⟩ :=
    rebuildSegment_stores hactive rfl rfl rfl (List.append_nil _).symm
      (by rw [items_of_error (decodeRecord_progressive crc) (decodeRecord_nil crc)])
      hactive.usable hactive.usable.capacity (-1)
  rw [keptRecords_recovery] at hwritable
  have hopened : openSegments cfg.withDefaults modTime now (scanSegments l.close.2) =
      .ok (l.sealed.map (reopened l.config modTime now) ++
        [reopened l.config modTime now l.active]) := by
    rw [hcfg, scanSegments_close h, openSegments_map fun s hs =>
      newSegment_files (segment_stores h hs).1 (segment_stores h hs).2 h.config h.indexRoom modTime
        now]
    simp [Log.segments]
  exact ⟨_, newLog_scanned hopened hrebuild, rfl, hcfg, rfl, hshape, hwritable⟩

end

end MiniKafka.LogReopen
