import MiniKafka.LogDirectory
import MiniKafka.LogMaintenance

/-!
The arithmetic of the index entries of a log.

A segment is rotated before its positions or its index run out, and an index that was
shrunk is as large as the entries it gets when it is rebuilt.  The invariant speaks of
every segment alone and allows segments that a failed `Truncate` has closed.
-/

namespace MiniKafka.ExactIndexes

open ReadLoop RecordCodec OffsetIndex SegmentStore SegmentContents SegmentWrites PartitionLog
  LogContents LogWrites LogDirectory
open SegmentRebuild hiding kept

/-- Every entry holds the distance and the position of a record of the segment as they
are, and both grow from entry to entry. -/
structure ExactIndex (crc : Checksum) (s : Segment) : Prop where
  exact : ∀ e ∈ s.index.entries, ∃ i r, (segmentRecords crc s)[i]? = some r ∧
    (e.relativeOffset.toNat : Int) = r.offset.toInt - s.baseOffset.toInt ∧
    e.position.toNat = SegmentContents.totalSize ((segmentRecords crc s).take i)
  increasing : s.index.entries.Pairwise fun a b =>
    a.relativeOffset < b.relativeOffset ∧ a.position < b.position

/-- The errors by which an index that is full, or a position that does not fit, would
reach a caller of the log. -/
def indexOverflow : LogError → Bool
  | .append .positionOutOfRange => true
  | .append (.index .indexFull) => true
  | .openSegment (.index .indexFull) => true
  | .recover (.index .indexFull) => true
  | .truncateRebuild _ (.index .indexFull) => true
  | _ => false

def tried (offset base : Int64) (s : Segment) : Segment :=
  if offset ≤ s.baseOffset ∧ s.baseOffset ≤ base then s.close else s

def refusedLog (l : Log) (offset base : Int64) : Log :=
  { l with sealed := l.sealed.map (tried offset base), active := tried offset base l.active }

/-- What a log is opened with. -/
structure ValidConfig (cfg : Config) : Prop where
  defaults : cfg.withDefaults = cfg
  indexRoom : entrySize ≤ cfg.indexMaxBytes.toNatClampNeg
  positions : cfg.segmentBytes.toInt ≤ maxUint32

def unclosed (s : Segment) : Segment := { s with closed := false }

/-- A segment, closed or not, with what its `.log` and index hold. -/
structure SoundSegment (crc : Checksum) (cfg : Config) (s : Segment) : Prop where
  stores : Stores crc (unclosed s) (segmentRecords crc s)
  configured : Configured cfg s
  range : s.baseOffset.toInt + (segmentRecords crc s).length < 2 ^ 63

structure Sound (crc : Checksum) (cfg : Config) (l : Log) : Prop where
  isOpen : l.closed = false
  config : l.config = cfg
  segments : ∀ s ∈ l.segments, SoundSegment crc cfg s
  sealed : ∀ s ∈ l.sealed, segmentRecords crc s ≠ [] ∧ s.writer.buffer = []
  active : l.active.closed = false → Writable crc l.active (segmentRecords crc l.active)
  increasing : (l.segments.map fun s => s.baseOffset.toInt).Pairwise (· < ·)

section

variable {crc : Checksum} {cfg : Config} {s : Segment} {rs : List Record}

theorem unclosed_of_open (h : s.closed = false) : unclosed s = s := by
  rw [unclosed, ← h]

theorem soundSegment_of_stores (h : Stores crc s rs) (hconfigured : Configured cfg s)
    (hrange : s.baseOffset.toInt + rs.length < 2 ^ 63) : SoundSegment crc cfg s := by
  obtain rfl := segmentRecords_eq h
  exact ⟨by rwa [unclosed_of_open h.isOpen], hconfigured, hrange⟩

theorem SoundSegment.stores_of_open (h : SoundSegment crc cfg s) (hopen : s.closed = false) :
    Stores crc s (segmentRecords crc s) := by
  have hstores := h.stores
  rwa [unclosed_of_open hopen] at hstores

theorem SoundSegment.exactIndex (h : SoundSegment crc cfg s) : ExactIndex crc s where
  exact := by
    intro e he
    have hentries : s.index.entries = _ := h.stores.entries
    rw [hentries] at he
    obtain ⟨i, hi, rfl⟩ := mem_account_entries he
    obtain ⟨hdistance, hposition⟩ := h.stores.entry hi
    rw [length_sized] at hi
    refine ⟨i, (segmentRecords crc s)[i], List.getElem?_eq_getElem hi, ?_, hposition⟩
    have hoffset := numbered_toInt h.stores.numbered h.range.le i hi
    change _ = s.baseOffset.toInt + _ at hoffset
    rw [hoffset, hdistance]
    omega
  increasing := h.stores.increasing_both

theorem SoundSegment.unclosed_configured (h : SoundSegment crc cfg s) :
    Configured cfg (unclosed s) := configured_of_same h.configured rfl rfl le_rfl

theorem SoundSegment.close (h : SoundSegment crc cfg s) : SoundSegment crc cfg s.close where
  stores := by
    rw [segmentRecords_close]
    exact stores_flush h.stores
  configured := configured_of_same h.configured rfl rfl le_rfl
  range := by
    rw [segmentRecords_close]
    exact h.range

theorem ValidConfig.opens (h : ValidConfig cfg) (base : Int64) (now : Int) :
    ∃ s, newSegment base [] [] now now cfg = .ok s := by
  apply newSegment_isOk
  rw [h.defaults]
  exact h.indexRoom

end

section

variable {crc : Checksum} {cfg : Config} {l l' : Log} {rs : List Record}

@[simp]
theorem tried_baseOffset {offset base : Int64} (s : Segment) :
    (tried offset base s).baseOffset = s.baseOffset := by
  rw [tried]
  split <;> rfl

@[simp]
theorem tried_records {offset base : Int64} (s : Segment) :
    segmentRecords crc (tried offset base s) = segmentRecords crc s := by
  rw [tried]
  split
  · exact segmentRecords_close crc s
  · rfl

theorem segments_refusedLog {offset base : Int64} :
    (refusedLog l offset base).segments = l.segments.map (tried offset base) := by
  simp [refusedLog, Log.segments]

theorem sublist_sealed {init sealed : List Segment} {last active : Segment}
    (hsub : List.Sublist (init ++ [last]) (sealed ++ [active])) : List.Sublist init sealed := by
  obtain ⟨front, rear, heq, hfront, hrear⟩ := List.sublist_append_iff.mp hsub
  rcases List.sublist_singleton.mp hrear with rfl | rfl
  · rw [List.append_nil] at heq
    rw [← heq] at hfront
    exact (List.sublist_append_left init [last]).trans hfront
  · rw [(List.append_inj' heq rfl).1]
    exact hfront

theorem Sound.activeSound (h : Sound crc cfg l) : SoundSegment crc cfg l.active :=
  h.segments l.active (by simp [Log.segments])

theorem Sound.sealedSegment (h : Sound crc cfg l) {s : Segment} (hs : s ∈ l.sealed) :
    SealedSegment crc cfg (unclosed s) :=
  { stores := (h.segments s (by simp [Log.segments, hs])).stores
    nonempty := (h.sealed s hs).1
    flushed := (h.sealed s hs).2
    configured := (h.segments s (by simp [Log.segments, hs])).unclosed_configured }

theorem Sound.base_lt_active (h : Sound crc cfg l) {s : Segment} (hs : s ∈ l.sealed) :
    s.baseOffset.toInt < l.active.baseOffset.toInt := by
  have hincreasing := h.increasing
  rw [Log.segments, List.map_append, List.pairwise_append] at hincreasing
  exact hincreasing.2.2 _ (List.mem_map_of_mem hs) _ (by simp)

theorem Sound.of_front (h : Sound crc cfg l) {init : List Segment} {last : Segment}
    (hsub : List.Sublist (init ++ [last]) l.segments) (hopen : l'.closed = false)
    (hconfig : l'.config = l.config) (hsealed : l'.sealed = init)
    (hbase : l'.active.baseOffset = last.baseOffset) (hlast : SoundSegment crc cfg l'.active)
    (hactive : l'.active.closed = false → Writable crc l'.active (segmentRecords crc l'.active)) :
    Sound crc cfg l' where
  isOpen := hopen
  config := hconfig.trans h.config
  segments := by
    intro s hs
    rw [Log.segments, hsealed] at hs
    rcases List.mem_append.mp hs with hmem | hmem
    · exact h.segments s (hsub.subset (List.mem_append_left _ hmem))
    · rwa [List.mem_singleton.mp hmem]
  sealed := by
    rw [hsealed]
    exact fun s hs => h.sealed s ((sublist_sealed hsub).subset hs)
  active := hactive
  increasing := by
    have hbases := h.increasing.sublist (hsub.map fun s => s.baseOffset.toInt)
    rw [Log.segments, hsealed]
    simpa [hbase] using hbases

theorem Sound.of_active (h : Sound crc cfg l) (hopen : l'.closed = false)
    (hconfig : l'.config = l.config) (hsealed : l'.sealed = l.sealed)
    (hbase : l'.active.baseOffset = l.active.baseOffset) (hactive : Writable crc l'.active rs)
    (hconfigured : Configured cfg l'.active)
    (hrange : l.active.baseOffset.toInt + rs.length < 2 ^ 63) : Sound crc cfg l' := by
  refine h.of_front (List.Sublist.refl _) hopen hconfig hsealed hbase
    (soundSegment_of_stores hactive.toStores hconfigured (hbase ▸ hrange)) fun _ => ?_
  rwa [segmentRecords_eq hactive.toStores]

theorem sound_fresh {base : Int64} {now : Int} (hcfg : ValidConfig cfg) (hopen : l.closed = false)
    (hconfig : l.config = cfg) (hsealed : l.sealed = [])
    (hnew : newSegment base [] [] now now l.config = .ok l.active) : Sound crc cfg l := by
  rw [hconfig] at hnew
  have hwritable := newSegment_writable crc hnew
  obtain ⟨hconfigured, hbase⟩ := newSegment_configured hcfg.defaults hnew
  refine ⟨hopen, hconfig, ?_, by simp [hsealed], fun _ => ?_, by simp [Log.segments, hsealed]⟩
  · intro s hs
    rw [Log.segments, hsealed, List.nil_append, List.mem_singleton] at hs
    rw [hs]
    refine soundSegment_of_stores hwritable.toStores hconfigured ?_
    have := l.active.baseOffset.toInt_lt
    simpa using this
  · rwa [segmentRecords_eq hwritable.toStores]

theorem Sound.nextOffset (h : Sound crc cfg l) (hopen : l.active.closed = false) :
    l.active.nextOffset.toInt =
      l.active.baseOffset.toInt + (segmentRecords crc l.active).length := by
  rw [(h.active hopen).nextOffset]
  exact toInt_add_ofNat h.activeSound.range

theorem Sound.ready (hcfg : ValidConfig cfg) (h : Sound crc cfg l)
    (hfull : l.active.isFull = false) : Ready l := by
  have hopen : l.active.closed = false := by
    simp only [Segment.isFull, Bool.or_eq_false_iff] at hfull
    exact hfull.1.1
  refine ready_of_not_full (h.active hopen).usable.mapped ?_ hfull
  rw [h.activeSound.configured.maxBytes]
  exact hcfg.positions

theorem flushActive_sound (h : Sound crc cfg l) : Sound crc cfg l.flushActive := by
  rw [Log.flushActive, Segment.flush]
  by_cases hclosed : l.active.closed = true
  · rw [if_pos hclosed]
    exact h
  · rw [if_neg hclosed]
    have hactive := h.active (by simpa using hclosed)
    exact h.of_active h.isOpen rfl rfl rfl (writable_flush hactive)
      (configured_of_same h.activeSound.configured rfl rfl le_rfl) h.activeSound.range

theorem countAppend_sound (h : Sound crc cfg l) : Sound crc cfg l.countAppend := by
  have hflush := flushActive_sound h
  rw [Log.countAppend]
  split
  · dsimp only
    split
    · exact ⟨hflush.isOpen, hflush.config, hflush.segments, hflush.sealed, hflush.active,
        hflush.increasing⟩
    · exact ⟨h.isOpen, h.config, h.segments, h.sealed, h.active, h.increasing⟩
  · exact h

theorem rotated_sound (hcfg : ValidConfig cfg) (h : Sound crc cfg l)
    (hactive : l.active.closed = false) (hne : segmentRecords crc l.active ≠ [])
    {now : Int} (hopen : l'.closed = false) (hconfig : l'.config = l.config)
    (hsealed : l'.sealed = l.sealed ++ [outgoing l.active])
    (hnew : newSegment l.active.nextOffset [] [] now now l.config = .ok l'.active) :
    Sound crc cfg l' := by
  rw [h.config] at hnew
  obtain ⟨hout, houtSealed⟩ :=
    outgoing_sealed (h.active hactive) h.activeSound.configured hne
  have hin := newSegment_writable crc hnew
  obtain ⟨hconfigured, hbase⟩ := newSegment_configured hcfg.defaults hnew
  have hnext := h.nextOffset hactive
  have hpos := List.length_pos_iff.mpr hne
  have hlater : ∀ s ∈ l.segments, s.baseOffset.toInt < l'.active.baseOffset.toInt := by
    intro s hs
    rw [hbase, hnext]
    rcases List.mem_append.mp hs with hmem | hmem
    · have := h.base_lt_active hmem
      omega
    · rw [List.mem_singleton.mp hmem]
      omega
  refine ⟨hopen, hconfig.trans h.config, ?_, ?_, fun _ => ?_, ?_⟩
  · intro s hs
    rw [Log.segments, hsealed] at hs
    rcases List.mem_append.mp hs with hmem | hmem
    · rcases List.mem_append.mp hmem with hmem | hmem
      · exact h.segments s (List.mem_append_left _ hmem)
      · rw [List.mem_singleton.mp hmem]
        exact soundSegment_of_stores hout.toStores houtSealed.configured h.activeSound.range
    · rw [List.mem_singleton.mp hmem]
      refine soundSegment_of_stores hin.toStores hconfigured ?_
      have := l'.active.baseOffset.toInt_lt
      simpa using this
  · rw [hsealed]
    intro s hs
    rcases List.mem_append.mp hs with hmem | hmem
    · exact h.sealed s hmem
    · rw [List.mem_singleton.mp hmem]
      exact ⟨houtSealed.nonempty, houtSealed.flushed⟩
  · rwa [segmentRecords_eq hin.toStores]
  · have hbases : (l'.segments.map fun s => s.baseOffset.toInt) =
        (l.segments.map fun s => s.baseOffset.toInt) ++ [l'.active.baseOffset.toInt] := by
      simp [Log.segments, hsealed, outgoing]
    rw [hbases]
    refine List.pairwise_append.mpr ⟨h.increasing, List.pairwise_singleton _ _, ?_⟩
    intro a ha b hb
    obtain ⟨s, hs, rfl⟩ := List.mem_map.mp ha
    rw [List.mem_singleton.mp hb]
    exact hlater s hs

/-- A rotation that is due leaves a log that takes the record at the same offset, or
reports a fault. -/
theorem rotate_sound (hcfg : ValidConfig cfg) (h : Sound crc cfg l) (env : Surroundings)
    (hrotate : l.shouldRotate env.now = true) :
    ∃ m err, l.rotate env = (m, err) ∧ Sound crc cfg m ∧
      (∀ e, err = some e → indexOverflow e = false) ∧
      (err = none → Ready m ∧ m.active.nextOffset = l.active.nextOffset) := by
  rw [Log.rotate, Segment.flush]
  by_cases hclosed : l.active.closed = true
  · rw [if_pos hclosed]
    exact ⟨_, _, rfl, h, by rintro e ⟨⟩; rfl, by simp⟩
  rw [if_neg hclosed]
  have hopen : l.active.closed = false := by simpa using hclosed
  have hactive := h.active hopen
  have hconfigured := h.activeSound.configured
  have hne := nonempty_of_shouldRotate (by rw [h.config, hcfg.defaults]) hactive
    (by rwa [h.config]) hrotate
  obtain ⟨hout, houtSealed⟩ := outgoing_sealed hactive hconfigured hne
  obtain ⟨incoming, hnew⟩ := hcfg.opens l.active.nextOffset env.now
  have hempty := isFull_of_empty hcfg.defaults (newSegment_writable crc hnew)
    (newSegment_configured hcfg.defaults hnew).1
  rw [← h.config] at hnew
  dsimp only
  split
  · -- The sync fails: the segment is flushed and takes more records.
    refine ⟨_, _, rfl, ?_, by rintro e ⟨⟩; rfl, by simp⟩
    exact h.of_active h.isOpen rfl rfl rfl (writable_flush hactive)
      (configured_of_same hconfigured rfl rfl le_rfl) h.activeSound.range
  · split
    · -- No new files: the active segment stays, with an index that is sealed and so full.
      refine ⟨_, _, rfl, ?_, by rintro e ⟨⟩; rfl, by simp⟩
      exact h.of_active h.isOpen rfl rfl rfl hout houtSealed.configured h.activeSound.range
    · rw [hnew]
      have hsound : Sound crc cfg
          { l with
            sealed := l.sealed ++ [outgoing l.active]
            active := incoming
            activeCreatedAt := env.now
            messagesSinceFlush := 0 } :=
        rotated_sound hcfg h hopen hne h.isOpen rfl rfl hnew
      refine ⟨_, _, rfl, hsound, by simp, fun _ => ⟨hsound.ready hcfg hempty, ?_⟩⟩
      obtain ⟨index, -, rfl⟩ := newSegment_eq_ok hnew
      rfl

theorem maybeRotate_sound (hcfg : ValidConfig cfg) (h : Sound crc cfg l) (env : Surroundings) :
    ∃ m err, l.maybeRotate env = (m, err) ∧ Sound crc cfg m ∧
      (∀ e, err = some e → indexOverflow e = false) ∧
      (err = none → Ready m ∧ m.active.nextOffset = l.active.nextOffset) := by
  rw [Log.maybeRotate]
  by_cases hrotate : l.shouldRotate env.now = true
  · rw [if_pos hrotate]
    exact rotate_sound hcfg h env hrotate
  · rw [if_neg hrotate]
    exact ⟨l, none, rfl, h, by simp,
      fun _ => ⟨h.ready hcfg (isFull_of_not_shouldRotate hrotate), rfl⟩⟩

theorem appended_sound (h : Sound crc cfg l) (hready : Ready l) (hleft : OffsetsLeft l 1)
    {r : Record} (hsize : r.encodedSize ≤ maxRecordSize) :
    Sound crc cfg { l with active := appended crc l.active r } := by
  have hshape := appended_shape crc l.active r
  have hnext := h.nextOffset hready.isOpen
  have hwritable := appended_writable (h.active hready.isOpen) hready.position hsize
    fun _ => hready.room
  rw [OffsetsLeft, Log.highestOffset, if_neg (by simp [h.isOpen]), hnext] at hleft
  refine h.of_active h.isOpen rfl rfl hshape.baseOffset hwritable
    (configured_of_same h.activeSound.configured hshape.indexInterval hshape.maxBytes
      hshape.maxSize.le) ?_
  rw [List.length_append, List.length_singleton]
  omega

/-- One append keeps every index exact, and is never refused for an index or a
position. -/
theorem appendOne_sound (hcfg : ValidConfig cfg) (h : Sound crc cfg l) {record : Option Record}
    (hleft : record ≠ none → OffsetsLeft l 1) (env : Surroundings) :
    Sound crc cfg (l.appendOne crc record env).1 ∧
      ∀ e, (l.appendOne crc record env).2 = .error e → indexOverflow e = false := by
  cases record with
  | none => exact ⟨h, by rintro e ⟨⟩; rfl⟩
  | some r =>
    obtain ⟨m, err, hm, hsound, herror, hready⟩ := maybeRotate_sound hcfg h env
    rw [Log.appendOne, hm]
    cases err with
    | some e => exact ⟨hsound, by rintro e' ⟨⟩; exact herror e rfl⟩
    | none =>
      obtain ⟨hready, hnext⟩ := hready rfl
      have hleft' : OffsetsLeft m 1 := by
        have := hleft (by simp)
        rw [OffsetsLeft, Log.highestOffset, if_neg (by simp [h.isOpen])] at this
        rwa [OffsetsLeft, Log.highestOffset, if_neg (by simp [hsound.isOpen]), hnext]
      have hopen := hready.isOpen
      have hposition := hready.position
      dsimp only
      obtain ⟨-, hclosed⟩ | ⟨-, -, hbeyond⟩ | ⟨heq, -⟩ | ⟨_, _, -, -, -, -, -, hno, -⟩ |
          ⟨heq, -, -, hsize, -⟩ :=
        append_cases crc m.active r
      · rw [hopen] at hclosed
        cases hclosed
      · omega
      · rw [heq]
        exact ⟨hsound, by rintro e ⟨⟩; rfl⟩
      · exact absurd hready.room hno
      · rw [heq]
        exact ⟨countAppend_sound (appended_sound hsound hready hleft' hsize), by rintro e ⟨⟩⟩

theorem refusedLog_sound (h : Sound crc cfg l) (offset base : Int64) :
    Sound crc cfg (refusedLog l offset base) := by
  refine ⟨h.isOpen, h.config, ?_, ?_, ?_, ?_⟩
  · rw [segments_refusedLog]
    intro t ht
    obtain ⟨s, hs, rfl⟩ := List.mem_map.mp ht
    rw [tried]
    split
    · exact (h.segments s hs).close
    · exact h.segments s hs
  · intro t ht
    obtain ⟨s, hs, rfl⟩ := List.mem_map.mp ht
    rw [tried_records]
    refine ⟨(h.sealed s hs).1, ?_⟩
    rw [tried]
    split
    · rfl
    · exact (h.sealed s hs).2
  · intro hopen
    change (tried offset base l.active).closed = false at hopen
    change Writable crc (tried offset base l.active)
      (segmentRecords crc (tried offset base l.active))
    rw [tried] at hopen ⊢
    split at hopen
    · cases hopen
    · rename_i hspared
      rw [if_neg hspared]
      exact h.active hopen
  · rw [segments_refusedLog, List.map_map]
    simpa [Function.comp_def] using h.increasing

theorem truncate_sound (hcfg : ValidConfig cfg) (h : Sound crc cfg l) (offset : Int64)
    (refused : Int64 → Bool) (now : Int) :
    Sound crc cfg (l.truncate crc offset refused now).1 ∧
      ∀ e, (l.truncate crc offset refused now).2 = some e → indexOverflow e = false := by
  rw [Log.truncate, if_neg (by simp [h.isOpen])]
  cases firstRefused offset refused l.segments with
  | some base => exact ⟨refusedLog_sound h offset base, by rintro e ⟨⟩; rfl⟩
  | none =>
    have hsub : List.Sublist (kept l offset) l.segments := List.filter_sublist
    dsimp only
    rw [← kept]
    rcases List.eq_nil_or_concat' (kept l offset) with hkept | ⟨init, last, hkept⟩
    · obtain ⟨active, hnew⟩ := hcfg.opens offset now
      rw [← h.config] at hnew
      rw [hkept, List.getLast?_nil, hnew]
      exact ⟨sound_fresh hcfg h.isOpen h.config rfl hnew, by simp⟩
    · rw [hkept] at hsub
      have hlast := h.segments last (hsub.subset (by simp))
      rw [hkept, List.getLast?_concat, List.dropLast_concat]
      dsimp only
      by_cases hclosed : last.closed = true
      · -- A `Truncate` that failed before has closed the segment, and it is not rebuilt.
        rw [rebuildSegment, if_pos hclosed]
        refine ⟨?_, by rintro e ⟨⟩; rfl⟩
        exact h.of_front hsub h.isOpen rfl rfl rfl hlast fun hopen =>
          absurd hopen (by simp [hclosed])
      · have hstores := hlast.stores_of_open (by simpa using hclosed)
        obtain ⟨active, hrebuild, hshape, -, hactive⟩ :=
          rebuildSegment_stores hstores hstores.isOpen rfl rfl (List.append_nil _).symm
            (by rw [items_of_error (decodeRecord_progressive crc) (decodeRecord_nil crc)])
            hstores.usable hstores.usable.capacity offset
        have hfewer := (keptRecords_initial offset (segmentRecords crc last)).length_le
        have hrange := hlast.range
        rw [hrebuild]
        refine ⟨?_, by simp⟩
        refine h.of_front hsub h.isOpen rfl rfl hshape.baseOffset
          (soundSegment_of_stores hactive.toStores (configured_of_same hlast.configured
            hshape.indexInterval hshape.maxBytes hshape.maxSize.le) ?_) fun _ => ?_
        · change active.baseOffset.toInt + _ < _
          rw [hshape.baseOffset]
          omega
        · rwa [segmentRecords_eq hactive.toStores]

end

end MiniKafka.ExactIndexes
