import MiniKafka.LogWrites

/-!
Truncating a log, deleting its oldest segments, and closing and reopening it.
-/

namespace MiniKafka.LogMaintenance

open ReadLoop Durations RecordCodec OffsetIndex SegmentStore SegmentContents SegmentWrites
  SegmentRebuild PartitionLog LogContents LogWrites

theorem newLog_unscanned (crc : Checksum) (cfg : Config) {dir : List SegmentFiles}
    (hscan : scanSegments dir = []) (modTime : Int64 → Int) (now : Int) :
    newLog crc cfg dir modTime now =
      ((newSegment 0 [] [] now now cfg.withDefaults).mapError .openSegment).map fun active =>
        { config := cfg.withDefaults, sealed := [], active := active, activeCreatedAt := now,
          messagesSinceFlush := 0, lastFlush := now, closed := false } := by
  have hopened : openSegments cfg.withDefaults modTime now [] = .ok [] := rfl
  rw [newLog, hscan, hopened]
  dsimp only [List.getLast?_nil]
  cases newSegment 0 [] [] now now cfg.withDefaults with
  | error e => rfl
  | ok active => rfl

theorem newLog_unscanned_ok {crc : Checksum} {cfg : Config} {dir : List SegmentFiles}
    {modTime : Int64 → Int} {now : Int} {l : Log} (hscan : scanSegments dir = [])
    (h : newLog crc cfg dir modTime now = .ok l) :
    l.closed = false ∧ l.config = cfg.withDefaults ∧ l.sealed = [] ∧
      newSegment 0 [] [] now now cfg.withDefaults = .ok l.active := by
  rw [newLog_unscanned crc cfg hscan] at h
  cases hnew : newSegment 0 [] [] now now cfg.withDefaults with
  | error e =>
    rw [hnew] at h
    cases h
  | ok active =>
    rw [hnew] at h
    obtain rfl := Except.ok.inj h
    exact ⟨rfl, rfl, rfl, rfl⟩

theorem newLog_empty {crc : Checksum} {cfg : Config} {modTime : Int64 → Int} {now : Int} {l : Log}
    (h : newLog crc cfg [] modTime now = .ok l) :
    WellFormed crc l ∧ storedRecords crc l = [] ∧ l.lowestOffset = 0 ∧ l.sealed = [] ∧
      l.config = cfg.withDefaults := by
  obtain ⟨hopen, hconfig, hsealed, hnew⟩ := newLog_unscanned_ok rfl h
  have hwritable := newSegment_writable crc hnew
  have hrecords := segmentRecords_eq hwritable.toStores
  obtain ⟨hconfigured, hbase⟩ := newSegment_configured (withDefaults_idem cfg) hnew
  obtain ⟨index, hindex, -⟩ := newSegment_eq_ok hnew
  rw [withDefaults_idem] at hindex
  have hlowest : l.lowestOffset = 0 := by
    rw [Log.lowestOffset, if_neg (by simp [hopen]), hsealed]
    exact hbase
  have hstored : storedRecords crc l = [] := by simp [storedRecords_eq, hsealed, hrecords]
  refine ⟨?_, hstored, hlowest, hsealed, hconfig⟩
  exact
    { isOpen := hopen
      config := by rw [hconfig, withDefaults_idem]
      indexRoom := by rw [hconfig]; exact (newIndex_eq_ok hindex).1
      sealed := by simp [hsealed]
      active := by rw [hrecords]; exact hwritable
      configured := by rw [hconfig]; exact hconfigured
      linked := by
        rw [Log.segments, hsealed, hlowest]
        exact ⟨congrArg Int64.toInt hbase, trivial⟩
      lowest := by rw [hlowest]; exact le_rfl
      range := by simp [hlowest, hstored] }

theorem keptRecords_eq_take {stopOffset base : Int64} {rs : List Record}
    (h : Numbered base rs) (hrange : base.toInt + rs.length < 2 ^ 63)
    (hstop : 0 ≤ stopOffset.toInt) :
    keptRecords stopOffset rs = rs.take (stopOffset.toInt - base.toInt).toNat := by
  induction rs generalizing base with
  | nil => simp [keptRecords]
  | cons r rs ih =>
    obtain ⟨hr, hrs⟩ := h
    rw [List.length_cons] at hrange
    have hnext : (base + 1).toInt = base.toInt + 1 := toInt_add_one (by omega)
    have hnonneg : (0 : Int64) ≤ stopOffset := by
      rw [Int64.le_iff_toInt_le, Int64.toInt_zero]
      exact hstop
    by_cases hreached : stopOffset.toInt ≤ base.toInt
    · have hle : stopOffset ≤ r.offset := by
        rw [Int64.le_iff_toInt_le, hr]
        exact hreached
      rw [show (stopOffset.toInt - base.toInt).toNat = 0 by omega, List.take_zero]
      exact keptRecords_cons_of_stop rs ⟨hnonneg, hle⟩
    · have hlt : ¬ stopOffset ≤ r.offset := by
        rw [Int64.le_iff_toInt_le, hr]
        exact hreached
      have hrest := ih hrs (by rw [hnext]; omega)
      rw [hnext] at hrest
      rw [show (stopOffset.toInt - base.toInt).toNat =
        (stopOffset.toInt - (base.toInt + 1)).toNat + 1 by omega, List.take_succ_cons, ← hrest]
      exact keptRecords_cons_of_go rs fun h => hlt h.2

theorem linked_ge {crc : Checksum} {base : Int} {segments : List Segment}
    (h : Linked crc base segments) : ∀ s ∈ segments, base ≤ s.baseOffset.toInt := by
  induction segments generalizing base with
  | nil => simp
  | cons s rest ih =>
    intro t ht
    rcases List.mem_cons.mp ht with rfl | hmem
    · exact h.1.ge
    · have := ih h.2 t hmem
      omega

theorem filter_linked {crc : Checksum} {base : Int} {segments : List Segment}
    (h : Linked crc base segments) (offset : Int64) :
    ∃ dropped, segments =
        (segments.filter fun s => decide (s.baseOffset < offset)) ++ dropped ∧
      ∀ s ∈ dropped, offset.toInt ≤ s.baseOffset.toInt := by
  induction segments generalizing base with
  | nil => exact ⟨[], rfl, by simp⟩
  | cons s rest ih =>
    by_cases hs : s.baseOffset < offset
    · obtain ⟨dropped, hsplit, hdropped⟩ := ih h.2
      refine ⟨dropped, ?_, hdropped⟩
      rw [List.filter_cons_of_pos (by simpa using hs), List.cons_append, ← hsplit]
    · have hge : offset.toInt ≤ s.baseOffset.toInt := by
        rw [Int64.lt_iff_toInt_lt] at hs
        omega
      have hall : ∀ t ∈ s :: rest, offset.toInt ≤ t.baseOffset.toInt := by
        intro t ht
        have := linked_ge h t ht
        rw [← h.1] at this
        omega
      refine ⟨s :: rest, ?_, hall⟩
      rw [List.filter_eq_nil_iff.mpr, List.nil_append]
      intro t ht
      have := hall t ht
      rw [decide_eq_true_eq, Int64.lt_iff_toInt_lt]
      omega

section

variable {crc : Checksum} {l : Log}

theorem segment_stores (h : WellFormed crc l) {s : Segment} (hs : s ∈ l.segments) :
    Stores crc s (segmentRecords crc s) ∧ Configured l.config s := by
  rcases List.mem_append.mp hs with hmem | hmem
  · exact ⟨(h.sealed s hmem).stores, (h.sealed s hmem).configured⟩
  · rw [List.mem_singleton.mp hmem]
    exact ⟨h.active.toStores, h.configured⟩

/-- `l'` holds exactly the records of `l` below `offset`. -/
structure Truncated (crc : Checksum) (l l' : Log) (offset : Int64) : Prop where
  wellFormed : WellFormed crc l'
  stored : storedRecords crc l' =
    (storedRecords crc l).take (offset.toInt - l.lowestOffset.toInt).toNat
  lowest : l'.lowestOffset.toInt = min l.lowestOffset.toInt offset.toInt
  config : l'.config = l.config
  nextOffsets : NextOffsetsKnown crc l → NextOffsetsKnown crc l'

theorem truncated_to_empty {l' : Log} {offset : Int64} {now : Int} (h : WellFormed crc l)
    (hoffset : 0 ≤ offset.toInt) (hbelow : offset.toInt ≤ l.lowestOffset.toInt)
    (hopen : l'.closed = false) (hconfig : l'.config = l.config) (hsealed : l'.sealed = [])
    (hnew : newSegment offset [] [] now now l.config = .ok l'.active) :
    Truncated crc l l' offset := by
  have hwritable := newSegment_writable crc hnew
  have hrecords := segmentRecords_eq hwritable.toStores
  obtain ⟨hconfigured, hbase⟩ := newSegment_configured h.config hnew
  have hlowest : l'.lowestOffset = offset := by
    rw [Log.lowestOffset, hopen, hsealed]
    exact hbase
  have hstored : storedRecords crc l' = [] := by simp [storedRecords_eq, hsealed, hrecords]
  exact
    { wellFormed :=
        { isOpen := hopen
          config := by rw [hconfig, h.config]
          indexRoom := by rw [hconfig]; exact h.indexRoom
          sealed := by simp [hsealed]
          active := by rw [hrecords]; exact hwritable
          configured := by rw [hconfig]; exact hconfigured
          linked := by
            rw [Log.segments, hsealed, hlowest]
            exact ⟨congrArg Int64.toInt hbase, trivial⟩
          lowest := by rw [hlowest]; exact hoffset
          range := by
            have := offset.toInt_lt
            rw [hlowest, hstored, List.length_nil]
            omega }
      stored := by
        rw [hstored, show (offset.toInt - l.lowestOffset.toInt).toNat = 0 by omega,
          List.take_zero]
      lowest := by rw [hlowest]; omega
      config := hconfig
      nextOffsets := by
        intro _ s hs
        simp [hsealed] at hs }

theorem take_recordsOf {init dropped : List Segment} {last : Segment} {offset : Int64}
    {base : Int} (hlinked : Linked crc base (init ++ [last] ++ dropped))
    (hlast : last.baseOffset.toInt < offset.toInt)
    (hdropped : ∀ s ∈ dropped, offset.toInt ≤ s.baseOffset.toInt) :
    (recordsOf crc (init ++ [last] ++ dropped)).take (offset.toInt - base).toNat =
      recordsOf crc init ++
        (segmentRecords crc last).take (offset.toInt - last.baseOffset.toInt).toNat := by
  rw [linked_append, linked_append] at hlinked
  obtain ⟨⟨-, hbase, -⟩, hrest⟩ := hlinked
  rw [recordsOf_append, recordsOf_append, List.append_assoc, List.take_append,
    List.take_of_length_le (by omega)]
  congr 1
  rw [show (offset.toInt - base).toNat - (recordsOf crc init).length =
    (offset.toInt - last.baseOffset.toInt).toNat by omega]
  cases dropped with
  | nil => simp
  | cons s rest =>
    have hs := hdropped s (by simp)
    have hsbase := hrest.1
    rw [recordsOf_append, List.length_append] at hsbase
    simp only [recordsOf_cons, recordsOf_nil, List.append_nil] at hsbase ⊢
    exact List.take_append_of_le_length (by omega)

theorem truncated_to_segment {l' : Log} {init dropped : List Segment} {last : Segment}
    {offset : Int64} (h : WellFormed crc l) (hoffset : 0 ≤ offset.toInt)
    (hsplit : l.segments = init ++ [last] ++ dropped) (hlast : last.baseOffset.toInt < offset.toInt)
    (hdropped : ∀ s ∈ dropped, offset.toInt ≤ s.baseOffset.toInt)
    (hopen : l'.closed = false) (hconfig : l'.config = l.config) (hsealed : l'.sealed = init)
    (hshape : SameShape last l'.active)
    (hactive : Writable crc l'.active (keptRecords offset (segmentRecords crc last))) :
    Truncated crc l l' offset := by
  have hlinked := h.linked
  rw [hsplit] at hlinked
  have hfront := (linked_append.mp (linked_append.mp hlinked).1)
  have hinit : init <+: l.sealed := by
    apply List.prefix_of_prefix_length_le
    · exact ⟨[last] ++ dropped, by rw [← List.append_assoc, ← hsplit]⟩
    · exact List.prefix_append l.sealed [l.active]
    · have hlen := congrArg List.length hsplit
      simp [Log.segments] at hlen
      omega
  obtain ⟨hstores, hconfigured⟩ := segment_stores h (s := last) (by rw [hsplit]; simp)
  have hbase := hfront.2.1
  have htotal := h.range
  rw [storedRecords, hsplit, recordsOf_append, recordsOf_append, List.length_append,
    List.length_append] at htotal
  have hlastRange : last.baseOffset.toInt + (segmentRecords crc last).length < 2 ^ 63 := by
    simp at htotal
    omega
  have hkept := keptRecords_eq_take hstores.numbered hlastRange hoffset
  have hrecords : segmentRecords crc l'.active =
      (segmentRecords crc last).take (offset.toInt - last.baseOffset.toInt).toNat := by
    rw [segmentRecords_eq hactive.toStores, hkept]
  have hstored : storedRecords crc l' =
      (storedRecords crc l).take (offset.toInt - l.lowestOffset.toInt).toNat := by
    rw [storedRecords_eq, hsealed, hrecords, storedRecords, hsplit,
      take_recordsOf hlinked hlast hdropped]
  have hlowest : l'.lowestOffset = l.lowestOffset := by
    rw [lowestOffset_eq h.isOpen, lowestOffset_eq hopen, hsplit, Log.segments, hsealed]
    cases init with
    | nil => exact hshape.baseOffset
    | cons s rest => rfl
  have hle : l.lowestOffset.toInt ≤ last.baseOffset.toInt := by omega
  exact
    { wellFormed :=
        { isOpen := hopen
          config := by rw [hconfig, h.config]
          indexRoom := by rw [hconfig]; exact h.indexRoom
          sealed := by
            intro s hs
            rw [hsealed] at hs
            rw [hconfig]
            exact h.sealed s (hinit.subset hs)
          active := by rwa [segmentRecords_eq hactive.toStores]
          configured := by
            rw [hconfig]
            exact configured_of_same hconfigured hshape.indexInterval hshape.maxBytes
              hshape.maxSize.le
          linked := by
            rw [hlowest, Log.segments, hsealed, linked_append]
            exact ⟨hfront.1, by rw [hshape.baseOffset]; exact hbase, trivial⟩
          lowest := by rw [hlowest]; exact h.lowest
          range := by
            have := h.range
            rw [hlowest, hstored, List.length_take]
            omega }
      stored := hstored
      lowest := by rw [hlowest]; omega
      config := hconfig
      nextOffsets := by
        intro hknown s hs
        rw [hsealed] at hs
        exact hknown s (hinit.subset hs) }

/-- `Truncate` succeeds whenever the file system lets the segments go, and
then keeps exactly the records below the offset. -/
theorem truncate_spec (h : WellFormed crc l) {offset : Int64} (hoffset : 0 ≤ offset.toInt)
    {refused : Int64 → Bool} (hremove : firstRefused offset refused l.segments = none)
    (now : Int) :
    ∃ l', l.truncate crc offset refused now = (l', none) ∧ Truncated crc l l' offset := by
  obtain ⟨dropped, hsplit, hdropped⟩ := filter_linked h.linked offset
  rw [Log.truncate, if_neg (by simp [h.isOpen]), hremove]
  dsimp only
  generalize hkept : (l.segments.filter fun s => decide (s.baseOffset < offset)) = kept at hsplit
  rcases List.eq_nil_or_concat' kept with rfl | ⟨init, last, rfl⟩
  · obtain ⟨active, hnew⟩ := newSegment_isOk offset [] [] now now (by
      rw [h.config]; exact h.indexRoom)
    rw [List.getLast?_nil, hnew]
    refine ⟨_, rfl, truncated_to_empty h hoffset ?_ h.isOpen rfl rfl hnew⟩
    rw [lowestOffset_eq h.isOpen]
    apply hdropped
    rw [List.nil_append] at hsplit
    rw [hsplit]
    cases hcase : dropped with
    | nil =>
      rw [hcase] at hsplit
      simp [Log.segments] at hsplit
    | cons s rest => simp
  · have hmem : last ∈ l.segments := by
      rw [hsplit]
      simp
    have hlast : last.baseOffset.toInt < offset.toInt := by
      have hin : last ∈ l.segments.filter fun s => decide (s.baseOffset < offset) := by
        rw [hkept]
        simp
      rw [← Int64.lt_iff_toInt_lt]
      simpa using (List.mem_filter.mp hin).2
    obtain ⟨hstores, hconfigured⟩ := segment_stores h hmem
    obtain ⟨active, hrebuild, hshape, -, hactive⟩ :=
      rebuildSegment_stores hstores hstores.isOpen rfl rfl (List.append_nil _).symm
        (by rw [items_of_error (decodeRecord_progressive crc) (decodeRecord_nil crc)])
        hstores.usable hstores.usable.capacity offset
    rw [List.getLast?_concat]
    dsimp only
    rw [hrebuild]
    exact ⟨_, rfl, truncated_to_segment h hoffset hsplit hlast hdropped h.isOpen rfl
      (List.dropLast_concat) hshape hactive⟩

theorem truncate_ok {l' : Log} (h : WellFormed crc l) {offset : Int64}
    (hoffset : 0 ≤ offset.toInt) {refused : Int64 → Bool} {now : Int}
    (hcall : l.truncate crc offset refused now = (l', none)) : Truncated crc l l' offset := by
  cases hremove : firstRefused offset refused l.segments with
  | some base =>
    rw [Log.truncate, if_neg (by simp [h.isOpen]), hremove] at hcall
    simp at hcall
  | none =>
    obtain ⟨l₁, heq, htruncated⟩ := truncate_spec h hoffset hremove now
    rw [heq] at hcall
    obtain rfl := (Prod.mk.inj hcall).1
    exact htruncated

theorem deleteOldest_spec (h : WellFormed crc l) (count : Nat) :
    WellFormed crc (l.deleteOldest count) ∧ (l.deleteOldest count).config = l.config ∧
      l.lowestOffset.toInt ≤ (l.deleteOldest count).lowestOffset.toInt ∧
      storedRecords crc (l.deleteOldest count) = (storedRecords crc l).drop
        ((l.deleteOldest count).lowestOffset.toInt - l.lowestOffset.toInt).toNat := by
  have hsplit : l.segments = l.sealed.take count ++ (l.deleteOldest count).segments := by
    rw [Log.segments, Log.segments, ← List.append_assoc]
    change _ = l.sealed.take count ++ l.sealed.drop count ++ [l.active]
    rw [List.take_append_drop]
  have hlinked := h.linked
  rw [hsplit, linked_append] at hlinked
  have hlowest : (l.deleteOldest count).lowestOffset.toInt =
      l.lowestOffset.toInt + (recordsOf crc (l.sealed.take count)).length := by
    have hrest := hlinked.2
    have hopen : (l.deleteOldest count).closed = false := h.isOpen
    rw [lowestOffset_eq hopen]
    cases hcase : (l.deleteOldest count).segments with
    | nil => simp [Log.segments] at hcase
    | cons s rest =>
      rw [hcase] at hrest
      exact hrest.1
  have hstored : storedRecords crc l =
      recordsOf crc (l.sealed.take count) ++ storedRecords crc (l.deleteOldest count) := by
    rw [storedRecords, hsplit, recordsOf_append]
    rfl
  refine ⟨?_, rfl, by omega, ?_⟩
  · exact
      { isOpen := h.isOpen
        config := h.config
        indexRoom := h.indexRoom
        sealed := fun s hs => h.sealed s (List.mem_of_mem_drop hs)
        active := h.active
        configured := h.configured
        linked := by rw [hlowest]; exact hlinked.2
        lowest := by have := h.lowest; omega
        range := by
          have := h.range
          rw [hstored, List.length_append] at this
          omega }
  · rw [hstored, hlowest]
    symm
    apply List.drop_left'
    omega

theorem dropOversize_eq_drop (retentionBytes total : Int64) (segments : List Segment) :
    ∃ count, dropOversize retentionBytes (fun _ => false) total segments = segments.drop count := by
  induction segments generalizing total with
  | nil => exact ⟨0, rfl⟩
  | cons oldest rest ih =>
    rw [dropOversize]
    split
    · obtain ⟨count, hcount⟩ := ih (total - Int64.ofNat oldest.bytesWritten)
      exact ⟨count + 1, hcount⟩
    · exact ⟨0, rfl⟩

theorem filter_eq_drop {p : Segment → Bool} {segments : List Segment}
    (h : segments.Pairwise fun s t => p s = true → p t = true) :
    ∃ count, segments.filter p = segments.drop count := by
  induction segments with
  | nil => exact ⟨0, rfl⟩
  | cons s rest ih =>
    obtain ⟨hs, hrest⟩ := List.pairwise_cons.mp h
    by_cases hkept : p s = true
    · refine ⟨0, List.filter_eq_self.mpr ?_⟩
      intro t ht
      rcases List.mem_cons.mp ht with rfl | ht
      · exact hkept
      · exact hs t ht hkept
    · obtain ⟨count, hcount⟩ := ih hrest
      exact ⟨count + 1, (List.filter_cons_of_neg hkept).trans hcount⟩

theorem dropExpired_eq_drop (now : Int)
    (hstamped : ∀ s ∈ l.sealed, s.createdAt ≠ zeroTime)
    (hcreated : l.sealed.Pairwise fun s t => s.createdAt ≤ t.createdAt) :
    ∃ count, l.dropExpired now (fun _ => false) = l.sealed.drop count := by
  have hfilter : l.dropExpired now (fun _ => false) = l.sealed.filter fun s => !l.expired now s := by
    rw [Log.dropExpired, ← List.filterMap_eq_filter]
    refine List.filterMap_congr fun s _ => ?_
    cases hexpired : l.expired now s <;> simp [hexpired, Option.guard]
  rw [hfilter]
  apply filter_eq_drop
  -- A segment created later is not older, so it is kept with every earlier one.
  refine List.Pairwise.imp_of_mem (fun {s t} hs ht hle hkept => ?_) hcreated
  rw [Bool.not_eq_true', ← Bool.not_eq_true] at hkept ⊢
  intro hexpired
  apply hkept
  simp only [Log.expired, Bool.and_eq_true, decide_eq_true_eq] at hexpired ⊢
  refine ⟨⟨hexpired.1.1, hstamped s hs⟩, ?_⟩
  have hage := hexpired.2
  rw [Int64.le_iff_toInt_le, toInt_elapsed] at hage ⊢
  omega

/-- Retention deletes the oldest segments as long as the file system lets them
go and no segment is older than its predecessors. -/
theorem runRetention_eq_deleteOldest (now : Int)
    (hstamped : ∀ s ∈ l.sealed, s.createdAt ≠ zeroTime)
    (hcreated : l.sealed.Pairwise fun s t => s.createdAt ≤ t.createdAt) :
    ∃ count, l.runRetention now (fun _ => false) = l.deleteOldest count := by
  rw [Log.runRetention, Log.runRetentionPasses]
  split
  · exact ⟨0, rfl⟩
  · obtain ⟨expired, hexpired⟩ := dropExpired_eq_drop now hstamped hcreated
    dsimp only
    split
    · obtain ⟨oversize, hoversize⟩ := dropOversize_eq_drop l.config.retentionBytes
        (totalSize (l.dropExpired now (fun _ => false) ++ [l.active])) (l.dropExpired now fun _ => false)
      refine ⟨expired + oversize, ?_⟩
      rw [hoversize, hexpired, List.drop_drop]
      rfl
    · exact ⟨expired, by rw [hexpired]; rfl⟩

end

end MiniKafka.LogMaintenance
