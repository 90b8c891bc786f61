import MiniKafka.LogContents

/-!
Appending to a partition log keeps its invariant and stores the records it
accepts at the end, whatever is rotated on the way.
-/

namespace MiniKafka.LogWrites

open BigEndian RecordCodec OffsetIndex SegmentStore SegmentContents SegmentWrites PartitionLog
  LogContents

def stampAll : Int64 → List Record → List Record
  | _, [] => []
  | base, r :: rs => stamp base r :: stampAll (base + 1) rs

@[simp] theorem length_stampAll (base : Int64) (rs : List Record) :
    (stampAll base rs).length = rs.length := by
  induction rs generalizing base with
  | nil => rfl
  | cons r rs ih => simp [stampAll, ih]

theorem stampAll_numbered {base : Int64} {rs : List Record} (h : Numbered base rs) :
    stampAll base rs = rs := by
  induction rs generalizing base with
  | nil => rfl
  | cons r rs ih =>
    obtain ⟨rfl, hrest⟩ := h
    rw [stampAll, ih hrest]
    rfl

theorem default_idem {α : Type} (missing : α → Prop) [DecidablePred missing] (c d : α)
    (hd : ¬ missing d) :
    (if missing (if missing c then d else c) then d else if missing c then d else c) =
      if missing c then d else c := by
  by_cases hc : missing c
  · simp [hc, hd]
  · simp [hc]

theorem withDefaults_idem (c : Config) : c.withDefaults.withDefaults = c.withDefaults := by
  simp only [Config.withDefaults, Config.mk.injEq]
  exact ⟨default_idem (· ≤ 0) _ _ (by decide), default_idem (· ≤ 0) _ _ (by decide),
    default_idem (· ≤ 0) _ _ (by decide), default_idem (· = 0) _ _ (by decide),
    default_idem (· = 0) _ _ (by decide), default_idem (· = 0) _ _ (by decide),
    default_idem (· < 0) _ _ (by decide), default_idem (· = 0) _ _ (by decide)⟩

theorem withDefaults_segmentBytes_pos (c : Config) : 0 < c.withDefaults.segmentBytes.toInt := by
  simp only [Config.withDefaults]
  split
  · decide
  · rename_i hpos
    rw [Int64.le_iff_toInt_le, Int64.toInt_zero] at hpos
    omega

/-- The active segment takes the next record. -/
structure Ready (l : Log) : Prop where
  isOpen : l.active.closed = false
  position : l.active.bytesWritten ≤ maxUint32
  room : HasRoom l.active.index

section

variable {crc : Checksum} {s : Segment} {rs : List Record}

theorem entries_ne_nil (h : Stores crc s rs) (hne : rs ≠ []) : s.index.entries ≠ [] := by
  obtain ⟨r, rest, rfl⟩ := List.exists_cons_of_ne_nil hne
  have hhead := account_entries_head s.indexInterval s.baseOffset (r, r.encodedSize) (sized rest)
  intro hnil
  rw [h.entries, show sized (r :: rest) = (r, r.encodedSize) :: sized rest from rfl] at hnil
  rw [hnil] at hhead
  simp at hhead

theorem writable_seal (h : Writable crc s rs) (hne : rs ≠ []) :
    Writable crc { s with index := s.index.seal } rs ∧
      s.index.seal.maxSize ≤ s.index.maxSize := by
  have hsize : s.index.size ≠ 0 := by
    have := List.length_pos_of_ne_nil (entries_ne_nil h.toStores hne)
    simp only [Index.size, entrySize]
    omega
  have hseal : s.index.seal = ⟨s.index.entries, s.index.size, true⟩ := by
    rw [Index.seal, if_neg hsize]
  have hcapacity := h.usable.capacity
  have hrange := h.usable.range
  rw [hseal]
  refine ⟨?_, hcapacity⟩
  exact
    { isOpen := h.isOpen
      numbered := h.numbered
      fits := h.fits
      contents := h.contents
      bytesWritten := h.bytesWritten
      positions := h.positions
      entries := h.entries
      usable :=
        { mapped := rfl
          room := by
            simp only [Index.size, entrySize] at hsize ⊢
            omega
          whole := Nat.mul_mod_left _ _
          range := by
            change s.index.size < 2 ^ 63
            omega
          capacity := le_rfl }
      nextOffset := h.nextOffset
      sinceLastIndex := h.sinceLastIndex }

end

section

variable {crc : Checksum} {l : Log}

variable {l' : Log} {cfg : Config} {s : Segment} {now : Int} {rs : List Record} {env : Surroundings}
  {r : Record}

theorem extends_of_active {added : List Record} (h : WellFormed crc l) (hopen : l'.closed = false)
    (hconfig : l'.config = l.config) (hsealed : l'.sealed = l.sealed)
    (hbase : l'.active.baseOffset = l.active.baseOffset)
    (hactive : Writable crc l'.active (segmentRecords crc l.active ++ added))
    (hconfigured : Configured l.config l'.active)
    (hrange : l.lowestOffset.toInt + (storedRecords crc l).length + added.length < 2 ^ 63) :
    Extends crc l l' added := by
  have hrecords := segmentRecords_eq hactive.toStores
  have hstored : storedRecords crc l' = storedRecords crc l ++ added := by
    rw [storedRecords_eq, storedRecords_eq, hsealed, hrecords, List.append_assoc]
  have hlowest : l'.lowestOffset = l.lowestOffset := by
    rw [Log.lowestOffset, Log.lowestOffset, hopen, h.isOpen, hsealed, hbase]
  have hlinked : Linked crc l.lowestOffset.toInt l'.segments := by
    rw [Log.segments, hsealed, linked_append]
    have hold := h.linked
    rw [Log.segments, linked_append] at hold
    exact ⟨hold.1, by rw [hbase]; exact hold.2.1, trivial⟩
  refine
    { wellFormed :=
        { isOpen := hopen
          config := by rw [hconfig, h.config]
          indexRoom := by rw [hconfig]; exact h.indexRoom
          sealed := by rw [hsealed, hconfig]; exact h.sealed
          active := by rw [hrecords]; exact hactive
          configured := by rw [hconfig]; exact hconfigured
          linked := by rw [hlowest]; exact hlinked
          lowest := by rw [hlowest]; exact h.lowest
          range := by rw [hlowest, hstored, List.length_append]; omega }
      stored := hstored
      lowest := hlowest
      config := hconfig
      nextOffsets := by
        intro hknown
        rw [NextOffsetsKnown, hsealed]
        exact hknown }

theorem flush_active (h : WellFormed crc l) :
    l.active.flush = .ok { l.active with writer := l.active.writer.flush } := by
  rw [Segment.flush, if_neg (by simp [h.active.isOpen])]

theorem configured_of_same {t : Segment} (h : Configured cfg s)
    (hinterval : t.indexInterval = s.indexInterval) (hbytes : t.maxBytes = s.maxBytes)
    (hsize : t.index.maxSize ≤ s.index.maxSize) : Configured cfg t :=
  ⟨hinterval.trans h.indexInterval, hbytes.trans h.maxBytes, hsize.trans h.maxSize⟩

theorem extends_of_same_records (h : WellFormed crc l) (hopen : l'.closed = false)
    (hconfig : l'.config = l.config) (hsealed : l'.sealed = l.sealed)
    (hbase : l'.active.baseOffset = l.active.baseOffset)
    (hactive : Writable crc l'.active (segmentRecords crc l.active))
    (hconfigured : Configured l.config l'.active) : Extends crc l l' [] :=
  extends_of_active h hopen hconfig hsealed hbase (by rwa [List.append_nil]) hconfigured
    (by simpa using h.range)

theorem flushActive_extends (h : WellFormed crc l) : Extends crc l l.flushActive [] := by
  rw [Log.flushActive, flush_active h]
  exact extends_of_same_records h h.isOpen rfl rfl rfl (writable_flush h.active)
    (configured_of_same h.configured rfl rfl le_rfl)

theorem extends_of_same_segments (h : WellFormed crc l) (hopen : l'.closed = false)
    (hconfig : l'.config = l.config) (hsealed : l'.sealed = l.sealed)
    (hactive : l'.active = l.active) : Extends crc l l' [] :=
  extends_of_same_records h hopen hconfig hsealed (by rw [hactive])
    (by rw [hactive]; exact h.active) (by rw [hactive]; exact h.configured)

theorem countAppend_extends (h : WellFormed crc l) : Extends crc l l.countAppend [] := by
  rw [Log.countAppend]
  split
  · dsimp only
    split
    · have hflush := flushActive_extends h
      exact hflush.trans (extends_of_same_segments hflush.wellFormed hflush.wellFormed.isOpen
        rfl rfl rfl)
    · exact extends_of_same_segments h h.isOpen rfl rfl rfl
  · exact Extends.refl h

theorem newSegment_configured (hcfg : cfg.withDefaults = cfg) {base : Int64}
    {logFile indexFile : Bytes} {modTime : Int}
    (h : newSegment base logFile indexFile modTime now cfg = .ok s) :
    Configured cfg s ∧ s.baseOffset = base := by
  obtain ⟨index, hindex, rfl⟩ := newSegment_eq_ok h
  rw [hcfg] at hindex ⊢
  exact ⟨⟨rfl, rfl, (newIndex_usable hindex).2.le⟩, rfl⟩

def outgoing (s : Segment) : Segment :=
  { s with writer := s.writer.flush, index := s.index.seal }

theorem outgoing_sealed (h : Writable crc s (segmentRecords crc s)) (hconfigured : Configured cfg s)
    (hne : segmentRecords crc s ≠ []) :
    Writable crc (outgoing s) (segmentRecords crc s) ∧ SealedSegment crc cfg (outgoing s) := by
  obtain ⟨hwritable, hsize⟩ := writable_seal (writable_flush h) hne
  have hrecords := segmentRecords_eq hwritable.toStores
  refine ⟨hwritable, ?_⟩
  exact
    { stores := by
        have hstores := hwritable.toStores
        rwa [← hrecords] at hstores
      nonempty := by
        change segmentRecords crc (outgoing s) = _ at hrecords
        rwa [hrecords]
      flushed := rfl
      configured := configured_of_same hconfigured rfl rfl hsize }

theorem rotated_extends (h : WellFormed crc l) (hne : segmentRecords crc l.active ≠ [])
    (hopen : l'.closed = false) (hconfig : l'.config = l.config)
    (hsealed : l'.sealed = l.sealed ++ [outgoing l.active])
    (hnew : newSegment l.active.nextOffset [] [] now now l.config = .ok l'.active) :
    Extends crc l l' [] ∧ segmentRecords crc l'.active = [] := by
  obtain ⟨hout, houtSealed⟩ := outgoing_sealed h.active h.configured hne
  have houtRecords := segmentRecords_eq hout.toStores
  have hin := newSegment_writable crc hnew
  have hinRecords := segmentRecords_eq hin.toStores
  obtain ⟨hinConfigured, hinBase⟩ := newSegment_configured h.config hnew
  have hstored : storedRecords crc l' = storedRecords crc l := by
    simp [storedRecords_eq, hsealed, houtRecords, hinRecords]
  have hlowest : l'.lowestOffset = l.lowestOffset := by
    rw [Log.lowestOffset, Log.lowestOffset, hopen, h.isOpen, hsealed]
    cases l.sealed with
    | nil => rfl
    | cons s rest => rfl
  have hnext : l.active.nextOffset.toInt =
      l.lowestOffset.toInt + (storedRecords crc l).length := by
    have := h.highestOffset
    rwa [Log.highestOffset, if_neg (by simp [h.isOpen])] at this
  have hlinked : Linked crc l.lowestOffset.toInt l'.segments := by
    have hold := h.linked
    rw [Log.segments, linked_append] at hold
    rw [Log.segments, hsealed, linked_append, linked_append]
    refine ⟨⟨hold.1, hold.2.1, trivial⟩, ?_, trivial⟩
    rw [hinBase, hnext, storedRecords_eq]
    simp [houtRecords]
  refine ⟨?_, hinRecords⟩
  exact
    { wellFormed :=
        { isOpen := hopen
          config := by rw [hconfig, h.config]
          indexRoom := by rw [hconfig]; exact h.indexRoom
          sealed := by
            rw [hsealed, hconfig]
            intro s hs
            rcases List.mem_append.mp hs with hmem | hmem
            · exact h.sealed s hmem
            · rw [List.mem_singleton.mp hmem]
              exact houtSealed
          active := by rw [hinRecords]; exact hin
          configured := by rw [hconfig]; exact hinConfigured
          linked := by rw [hlowest]; exact hlinked
          lowest := by rw [hlowest]; exact h.lowest
          range := by rw [hlowest, hstored]; exact h.range }
      stored := by rw [hstored, List.append_nil]
      lowest := hlowest
      config := hconfig
      nextOffsets := by
        intro hknown s hs
        rw [hsealed] at hs
        rcases List.mem_append.mp hs with hmem | hmem
        · exact hknown s hmem
        · rw [List.mem_singleton.mp hmem, houtRecords]
          exact hout.nextOffset }

theorem rotate_extends (h : WellFormed crc l) (hne : segmentRecords crc l.active ≠ [])
    (env : Surroundings) :
    Extends crc l (l.rotate env).1 [] ∧
      ((l.rotate env).2 = none → segmentRecords crc (l.rotate env).1.active = []) := by
  have hflushed : Extends crc l
      { l with active := { l.active with writer := l.active.writer.flush } } [] :=
    extends_of_same_records h h.isOpen rfl rfl rfl (writable_flush h.active)
      (configured_of_same h.configured rfl rfl le_rfl)
  have hout : Extends crc l { l with active := outgoing l.active } [] :=
    extends_of_same_records h h.isOpen rfl rfl rfl (outgoing_sealed h.active h.configured hne).1
      (outgoing_sealed h.active h.configured hne).2.configured
  rw [Log.rotate, flush_active h]
  dsimp only
  split
  · exact ⟨hflushed, by simp⟩
  · split
    · exact ⟨hout, by simp⟩
    · split
      · exact ⟨hout, by simp⟩
      · rename_i incoming hnew
        have hrotated : Extends crc l
            { l with
              sealed := l.sealed ++ [outgoing l.active]
              active := incoming
              activeCreatedAt := env.now
              messagesSinceFlush := 0 } [] ∧ segmentRecords crc incoming = [] :=
          rotated_extends h hne h.isOpen rfl rfl hnew
        exact ⟨hrotated.1, fun _ => hrotated.2⟩

/-- An empty segment has room, so rotation never leaves an empty sealed segment
behind. -/
theorem isFull_of_empty (hcfg : cfg.withDefaults = cfg) (h : Writable crc s [])
    (hconfigured : Configured cfg s) : s.isFull = false := by
  have hbytes : s.bytesWritten = 0 := h.bytesWritten
  have hsize : s.index.size = 0 := by
    rw [Index.size, h.entries]
    simp [sized]
  have hroom := h.usable.room
  have hpos := withDefaults_segmentBytes_pos cfg
  rw [hcfg, ← hconfigured.maxBytes] at hpos
  simp [Segment.isFull, h.isOpen, hbytes, hsize]
  omega

theorem nonempty_of_shouldRotate (hconfig : l.config.withDefaults = l.config)
    (hactive : Writable crc l.active rs) (hconfigured : Configured l.config l.active)
    (hrotate : l.shouldRotate now = true) : rs ≠ [] := by
  rintro rfl
  have hnext := hactive.nextOffset
  simp [Log.shouldRotate, isFull_of_empty hconfig hactive hconfigured, hnext] at hrotate

theorem isFull_of_not_shouldRotate (h : ¬ l.shouldRotate now = true) : l.active.isFull = false := by
  rw [Log.shouldRotate, Bool.not_eq_true, Bool.or_eq_false_iff] at h
  exact h.1

theorem maybeRotate_extends (h : WellFormed crc l) (env : Surroundings) :
    Extends crc l (l.maybeRotate env).1 [] ∧
      ((l.maybeRotate env).2 = none → (l.maybeRotate env).1.active.isFull = false) := by
  rw [Log.maybeRotate]
  by_cases hrotate : l.shouldRotate env.now = true
  · obtain ⟨hextends, hempty⟩ := rotate_extends h
      (nonempty_of_shouldRotate h.config h.active h.configured hrotate) env
    rw [if_pos hrotate]
    refine ⟨hextends, fun hok => ?_⟩
    have hactive := hextends.wellFormed.active
    rw [hempty hok] at hactive
    exact isFull_of_empty hextends.wellFormed.config hactive hextends.wellFormed.configured
  · rw [if_neg hrotate]
    exact ⟨Extends.refl h, fun _ => isFull_of_not_shouldRotate hrotate⟩

theorem hasRoom_of_not_full (h : WellFormed crc l) (hfull : l.active.isFull = false) :
    HasRoom l.active.index := by
  simp only [Segment.isFull, Bool.or_eq_false_iff, decide_eq_false_iff_not] at hfull
  exact ⟨by omega, h.active.usable.mapped⟩

theorem ready_of_not_full (hmapped : l.active.index.mapped = true)
    (hmax : l.active.maxBytes.toInt ≤ maxUint32) (hfull : l.active.isFull = false) : Ready l := by
  simp only [Segment.isFull, Bool.or_eq_false_iff, decide_eq_false_iff_not] at hfull
  exact ⟨hfull.1.1, by omega, by omega, hmapped⟩

theorem append_of_ready (crc : Checksum) (h : Ready l) (hsize : r.encodedSize ≤ maxRecordSize) :
    l.active.append crc r = (appended crc l.active r, .ok l.active.nextOffset) := by
  obtain ⟨-, hclosed⟩ | ⟨-, -, hpos⟩ | ⟨-, -, hlarge⟩ | ⟨_, _, -, -, -, -, -, hno, -⟩ |
      ⟨heq, -⟩ :=
    append_cases crc l.active r
  · rw [h.isOpen] at hclosed
    cases hclosed
  · exact absurd hpos (not_lt.mpr h.position)
  · omega
  · exact absurd h.room hno
  · exact heq

theorem append_active (h : WellFormed crc l) (hroom : HasRoom l.active.index)
    (hleft : OffsetsLeft l 1) (r : Record) :
    (∃ e, l.active.append crc r = (l.active, .error e)) ∨
    (l.active.append crc r = (appended crc l.active r, .ok l.highestOffset) ∧
      Extends crc l { l with active := appended crc l.active r }
        [stamp l.highestOffset r]) := by
  obtain ⟨heq, -⟩ | ⟨heq, -⟩ | ⟨heq, -⟩ | ⟨_, _, -, -, -, -, -, hfull, -⟩ |
      ⟨heq, -, hpos, hsize, hfits⟩ :=
    append_cases crc l.active r
  · exact .inl ⟨_, heq⟩
  · exact .inl ⟨_, heq⟩
  · exact .inl ⟨_, heq⟩
  · exact absurd hroom hfull
  · rw [h.nextOffset] at heq
    refine .inr ⟨heq, ?_⟩
    have hstored := appended_writable h.active hpos hsize hfits
    rw [h.nextOffset] at hstored
    have hshape := appended_shape crc l.active r
    refine extends_of_active h h.isOpen rfl rfl hshape.baseOffset hstored
      (configured_of_same h.configured hshape.indexInterval hshape.maxBytes hshape.maxSize.le) ?_
    rw [OffsetsLeft, h.highestOffset] at hleft
    simpa using hleft

/-- The outcome of one append: refused with nothing stored, or stored at the
log end offset. -/
theorem appendOne_cases (h : WellFormed crc l) (hleft : OffsetsLeft l 1)
    (record : Option Record) (env : Surroundings) :
    (∃ l' e, l.appendOne crc record env = (l', .error e) ∧ Extends crc l l' []) ∨
    (∃ l' r, record = some r ∧ l.appendOne crc record env = (l', .ok l.highestOffset) ∧
      Extends crc l l' [stamp l.highestOffset r]) := by
  cases record with
  | none => exact .inl ⟨l, .nilRecord, rfl, Extends.refl h⟩
  | some r =>
    obtain ⟨hrotated, hroom⟩ := maybeRotate_extends h env
    rw [Log.appendOne]
    cases hres : l.maybeRotate env with
    | mk m err =>
      rw [hres] at hrotated hroom
      cases err with
      | some e => exact .inl ⟨m, e, rfl, hrotated⟩
      | none =>
        have hm := hrotated.wellFormed
        have hhighest : m.highestOffset = l.highestOffset := by
          apply Int64.toInt_inj.mp
          rw [Extends.highestOffset h hrotated]
          simp
        rcases append_active hm (hasRoom_of_not_full hm (hroom rfl))
          (by rwa [OffsetsLeft, hhighest]) r with ⟨e, happend⟩ | ⟨happend, hstored⟩
        · simp only [happend]
          exact .inl ⟨_, _, rfl, hrotated⟩
        · simp only [happend, hhighest] at hstored ⊢
          exact .inr ⟨_, r, rfl, rfl,
            (hrotated.trans hstored).trans (countAppend_extends hstored.wellFormed)⟩

theorem append_spec (h : WellFormed crc l) (hleft : OffsetsLeft l 1) (record : Option Record)
    (env : Surroundings) :
    (∃ l' e, l.append crc record env = (l', 0, some e) ∧ Extends crc l l' []) ∨
    (∃ l' r, record = some r ∧ l.append crc record env = (l', l.highestOffset, none) ∧
      Extends crc l l' [stamp l.highestOffset r]) := by
  rw [Log.append, if_neg (by simp [h.isOpen])]
  obtain ⟨l', e, heq, hextends⟩ | ⟨l', r, hr, heq, hextends⟩ := appendOne_cases h hleft record env
  · rw [heq]
    exact .inl ⟨l', e, rfl, hextends⟩
  · rw [heq]
    exact .inr ⟨l', r, hr, rfl, hextends⟩

theorem maybeRotate_ok (h : WellFormed crc l) (hfault : env.fault = none) :
    (l.maybeRotate env).2 = none := by
  rw [Log.maybeRotate]
  split
  · obtain ⟨incoming, hnew⟩ := newSegment_isOk l.active.nextOffset [] [] env.now env.now
      (show entrySize ≤ l.config.withDefaults.indexMaxBytes.toNatClampNeg by
        rw [h.config]; exact h.indexRoom)
    rw [Log.rotate, Segment.flush, if_neg (by simp [h.active.isOpen])]
    dsimp only
    rw [if_neg (by simp [hfault]), if_neg (by simp [hfault]), hnew]
  · rfl

theorem append_ok (h : WellFormed crc l) (hsegment : l.config.segmentBytes.toInt ≤ maxUint32)
    (hsize : r.encodedSize ≤ maxRecordSize) (hfault : env.fault = none) :
    (l.append crc (some r) env).2.2 = none := by
  have hok := maybeRotate_ok h hfault
  obtain ⟨hextends, hfull⟩ := maybeRotate_extends h env
  rw [Log.append, if_neg (by simp [h.isOpen]), Log.appendOne]
  generalize l.maybeRotate env = rotated at *
  obtain ⟨m, err⟩ := rotated
  obtain rfl : err = none := hok
  have hready : Ready m := ready_of_not_full hextends.wellFormed.active.usable.mapped
    (by rw [hextends.wellFormed.configured.maxBytes, hextends.config]; exact hsegment) (hfull rfl)
  dsimp only
  rw [append_of_ready crc hready hsize]

theorem appendOne_accepted (h : WellFormed crc l)
    (hsegment : l.config.segmentBytes.toInt ≤ maxUint32) (hleft : OffsetsLeft l 1)
    (hsize : r.encodedSize ≤ maxRecordSize) (hfault : env.fault = none) :
    ∃ l', l.appendOne crc (some r) env = (l', .ok l.highestOffset) ∧
      Extends crc l l' [stamp l.highestOffset r] := by
  have hok := append_ok h hsegment hsize hfault
  rw [Log.append, if_neg (by simp [h.isOpen])] at hok
  obtain ⟨l', e, heq, -⟩ | ⟨l', s, hs, heq, hextends⟩ := appendOne_cases h hleft (some r) env
  · rw [heq] at hok
    cases hok
  · cases hs
    exact ⟨l', heq, hextends⟩

theorem appendOne_refused (h : WellFormed crc l) (hleft : OffsetsLeft l 1)
    (hsize : maxRecordSize < r.encodedSize) (env : Surroundings) :
    ∃ l' e, l.appendOne crc (some r) env = (l', .error e) ∧ Extends crc l l' [] := by
  obtain hrefused | ⟨l', s, hs, -, hextends⟩ := appendOne_cases h hleft (some r) env
  · exact hrefused
  · cases hs
    have hfits := stored_fits hextends.wellFormed (stamp l.highestOffset r)
      (by rw [hextends.stored]; simp)
    rw [encodedSize_stamp] at hfits
    omega

theorem appendLoop_base (crc : Checksum) (b : Int64) (xs : List (Option Record × Surroundings))
    (l : Log) : (Log.appendLoop crc (some b) xs l).2.1 = b := by
  induction xs generalizing l with
  | nil => rfl
  | cons x xs ih =>
    rw [Log.appendLoop]
    split
    · rfl
    · exact ih _

theorem highestOffset_of_stored {n : Nat} (h : WellFormed crc l) (hextends : Extends crc l l' [r])
    (hleft : OffsetsLeft l (n + 1)) :
    l'.highestOffset = l.highestOffset + 1 ∧ OffsetsLeft l' n := by
  have hhighest := Extends.highestOffset h hextends
  rw [OffsetsLeft] at hleft
  constructor
  · apply Int64.toInt_inj.mp
    rw [hhighest, toInt_add_one (by omega)]
    rfl
  · rw [OffsetsLeft, hhighest, List.length_singleton]
    omega

theorem appendLoop_spec (h : WellFormed crc l) (xs : List (Option Record × Surroundings))
    (hleft : OffsetsLeft l xs.length) (base : Option Int64) :
    ∃ rs : List Record, rs.map some <+: xs.map Prod.fst ∧
      Extends crc l (Log.appendLoop crc base xs l).1 (stampAll l.highestOffset rs) ∧
      ((Log.appendLoop crc base xs l).2.2 = none → rs.map some = xs.map Prod.fst) := by
  induction xs generalizing l base with
  | nil => exact ⟨[], List.nil_prefix, Extends.refl h, fun _ => rfl⟩
  | cons x xs ih =>
    obtain ⟨record, env⟩ := x
    have hleft' : l.highestOffset.toInt + (xs.length + 1 : Nat) < 2 ^ 63 := hleft
    rw [Log.appendLoop]
    obtain ⟨l', e, heq, hextends⟩ | ⟨l', r, rfl, heq, hextends⟩ :=
      appendOne_cases h (show l.highestOffset.toInt + (1 : Nat) < 2 ^ 63 by omega) record env
    · rw [heq]
      exact ⟨[], List.nil_prefix, hextends, by simp⟩
    · rw [heq]
      obtain ⟨hnext, hleft''⟩ := highestOffset_of_stored h hextends hleft
      obtain ⟨rs, hinitial, hrest, hall⟩ :=
        ih hextends.wellFormed hleft'' (some (base.getD l.highestOffset))
      refine ⟨r :: rs, ?_, ?_, ?_⟩
      · exact (List.prefix_cons_inj (some r)).mpr hinitial
      · rw [stampAll, ← hnext]
        exact hextends.trans hrest
      · intro hok
        rw [List.map_cons, hall hok]
        rfl

theorem appendBatch_spec (h : WellFormed crc l) (xs : List (Option Record × Surroundings))
    (hleft : OffsetsLeft l xs.length) :
    ∃ rs : List Record, rs.map some <+: xs.map Prod.fst ∧
      Extends crc l (l.appendBatch crc xs).1 (stampAll l.highestOffset rs) ∧
      ((l.appendBatch crc xs).2.2 = none →
        rs.map some = xs.map Prod.fst ∧ rs ≠ [] ∧
          (l.appendBatch crc xs).2.1 = l.highestOffset) := by
  rw [Log.appendBatch, if_neg (by simp [h.isOpen])]
  by_cases hempty : xs = []
  · rw [if_pos hempty]
    exact ⟨[], List.nil_prefix, Extends.refl h, by simp⟩
  · rw [if_neg hempty]
    obtain ⟨rs, hinitial, hextends, hall⟩ := appendLoop_spec h xs hleft none
    refine ⟨rs, hinitial, hextends, fun hok => ⟨hall hok, ?_, ?_⟩⟩
    · rintro rfl
      exact hempty (by simpa using (hall hok).symm)
    · obtain ⟨⟨record, env⟩, rest, rfl⟩ := List.exists_cons_of_ne_nil hempty
      rw [Log.appendLoop] at hok ⊢
      obtain ⟨l', e, heq, -⟩ | ⟨l', r, -, heq, -⟩ :=
        appendOne_cases h (show l.highestOffset.toInt + (1 : Nat) < 2 ^ 63 by
          rw [OffsetsLeft, List.length_cons] at hleft; omega) record env
      · rw [heq] at hok
        simp at hok
      · rw [heq]
        exact appendLoop_base crc _ rest l'

theorem appendRecords_spec (h : WellFormed crc l) {records : List Record}
    (env : Nat → Surroundings) (hleft : OffsetsLeft l records.length) :
    ∃ taken, taken <+: records ∧
      Extends crc l (l.appendRecords crc records env).1 (stampAll l.highestOffset taken) ∧
      ((l.appendRecords crc records env).2.2 = none → taken = records ∧
        (l.appendRecords crc records env).2.1 = l.highestOffset) := by
  have hfst : (records.mapIdx fun i r => (some r, env i)).map Prod.fst = records.map some := by
    apply List.ext_getElem <;> simp
  obtain ⟨rs, hinitial, hextends, hall⟩ :=
    appendBatch_spec h (records.mapIdx fun i r => (some r, env i)) (by simpa using hleft)
  rw [hfst] at hinitial hall
  have hinjective : Function.Injective (List.map (some : Record → Option Record)) :=
    List.map_injective_iff.mpr (Option.some_injective _)
  obtain ⟨taken, htaken, heq⟩ := List.prefix_map_iff.mp hinitial
  obtain rfl := hinjective heq
  exact ⟨rs, htaken, hextends, fun hok => ⟨hinjective (hall hok).1, (hall hok).2.2⟩⟩

def encodable (r : Record) : Bool := decide (r.encodedSize ≤ maxRecordSize)

/-- Without a fault of the file system the loop stops at the first record that
is too large, and only there. -/
theorem appendLoop_exact (h : WellFormed crc l)
    (hsegment : l.config.segmentBytes.toInt ≤ maxUint32) (xs : List (Record × Surroundings))
    (hleft : OffsetsLeft l xs.length) (hfault : ∀ x ∈ xs, x.2.fault = none)
    (base : Option Int64) :
    Extends crc l (Log.appendLoop crc base (xs.map fun x => (some x.1, x.2)) l).1
        (stampAll l.highestOffset ((xs.map Prod.fst).takeWhile encodable)) ∧
      ((Log.appendLoop crc base (xs.map fun x => (some x.1, x.2)) l).2.2 = none ↔
        (xs.map Prod.fst).all encodable = true) := by
  induction xs generalizing l base with
  | nil => exact ⟨Extends.refl h, by simp [Log.appendLoop]⟩
  | cons x xs ih =>
    obtain ⟨r, env⟩ := x
    have hone : OffsetsLeft l 1 := by
      rw [OffsetsLeft, List.length_cons] at hleft
      rw [OffsetsLeft]
      omega
    simp only [List.map_cons]
    rw [Log.appendLoop]
    rcases hsize : encodable r with _ | _
    · have hlarge : maxRecordSize < r.encodedSize := by simpa [encodable] using hsize
      obtain ⟨l', e, heq, hextends⟩ := appendOne_refused h hone hlarge env
      rw [heq, List.takeWhile_cons_of_neg (by simp [hsize])]
      exact ⟨hextends, by simp [hsize]⟩
    · obtain ⟨l', heq, hextends⟩ := appendOne_accepted h hsegment hone
        (of_decide_eq_true hsize) (hfault _ List.mem_cons_self)
      obtain ⟨hnext, hleft'⟩ := highestOffset_of_stored h hextends hleft
      obtain ⟨hrest, hall⟩ := ih hextends.wellFormed (hextends.config ▸ hsegment) hleft'
        (fun x hx => hfault x (List.mem_cons_of_mem _ hx)) (some (base.getD l.highestOffset))
      rw [heq, List.takeWhile_cons_of_pos hsize, stampAll, ← hnext]
      exact ⟨hextends.trans hrest, by simpa [hsize] using hall⟩

theorem appendRecords_exact (h : WellFormed crc l)
    (hsegment : l.config.segmentBytes.toInt ≤ maxUint32) {records : List Record}
    (hne : records ≠ []) {env : Nat → Surroundings} (hleft : OffsetsLeft l records.length)
    (hfault : ∀ i, (env i).fault = none) :
    Extends crc l (l.appendRecords crc records env).1
        (stampAll l.highestOffset (records.takeWhile encodable)) ∧
      ((l.appendRecords crc records env).2.2 = none ↔ records.all encodable = true) := by
  have hbatch : (records.mapIdx fun i r => (some r, env i)) =
      (records.mapIdx fun i r => (r, env i)).map fun x => (some x.1, x.2) := by
    apply List.ext_getElem <;> simp
  have hfst : (records.mapIdx fun i r => (r, env i)).map Prod.fst = records := by
    apply List.ext_getElem <;> simp
  have hloop := appendLoop_exact h hsegment (records.mapIdx fun i r => (r, env i))
    (by simpa using hleft) (by
      intro x hx
      obtain ⟨i, hi, rfl⟩ := List.mem_mapIdx.mp hx
      exact hfault i) none
  rw [hfst, ← hbatch] at hloop
  rwa [Log.appendRecords, Log.appendBatch, if_neg (by simp [h.isOpen]), if_neg (by simpa using hne)]

end

end MiniKafka.LogWrites
