import MiniKafka.SegmentRebuild

/-!
Recovery of the active segment after a crash.

A torn write leaves bytes from which no record decodes, so the rebuilt segment
is the one the appends had produced.  A damaged offset field is not noticed:
the scan keeps every record that decodes, whatever offset it carries.
-/

namespace MiniKafka.SegmentRecovery

open BigEndian ReadLoop BufferedWriter RecordCodec OffsetIndex SegmentStore SegmentContents
  SegmentWrites SegmentRebuild

/-- What a crash can leave of the record being written: a strict prefix of its
encoding, possibly nothing. -/
def TornWrite (crc : Checksum) (t : Bytes) : Prop :=
  ∃ r bytes, Record.encode crc r = .ok bytes ∧ t <+: bytes ∧ t ≠ bytes

theorem items_tornWrite {crc : Checksum} {t : Bytes} (h : TornWrite crc t) :
    (items (decodeRecord crc) t).1 = [] := by
  obtain ⟨r, bytes, hencode, hinitial, hne⟩ := h
  obtain ⟨hfits, rfl⟩ := (encode_eq_ok_iff crc r bytes).mp hencode
  rcases decodeRecord_strictPrefix crc r t hfits hinitial hne with herr | herr
  · rw [items_of_error (decodeRecord_progressive crc) herr]
  · rw [items_of_error (decodeRecord_progressive crc) herr]

/-- Reopening a segment after a torn write and rebuilding it restores the
state the appends had produced and cuts the torn bytes off the file. -/
theorem rebuildSegment_tornWrite {crc : Checksum} {base : Int64} {cfg : Config}
    {modTime now : Int} {fresh s : Segment} {rs : List Record} {t : Bytes}
    (hfresh : newSegment base [] [] modTime now cfg = .ok fresh)
    (happend : appendAll crc fresh rs = some s) (htorn : TornWrite crc t)
    (indexFile : Bytes) (modTime' now' : Int) :
    ∃ reopened recovered,
      newSegment base (s.writer.flush.file ++ t) indexFile modTime' now' cfg = .ok reopened ∧
      rebuildSegment crc reopened (-1) = .ok recovered ∧
      recovered.bytesWritten = s.bytesWritten ∧
      recovered.nextOffset = s.nextOffset ∧
      recovered.bytesSinceLastIndex = s.bytesSinceLastIndex ∧
      recovered.index.entries = s.index.entries ∧
      recovered.writer = openAtEnd ((s.writer.flush.file ++ t).take recovered.bytesWritten) ∧
      recovered.writer.file = s.writer.flush.file := by
  obtain ⟨hshape, stored, hstored⟩ := appendAll_writable (newSegment_writable crc hfresh) happend
  rw [List.nil_append] at hstored
  obtain ⟨index, hindex, rfl⟩ := newSegment_eq_ok hfresh
  obtain ⟨reopened, hreopen⟩ :=
    newSegment_isOk base (s.writer.flush.file ++ t) indexFile modTime' now'
      (newIndex_eq_ok hindex).1
  obtain ⟨index', hindex', heq⟩ := newSegment_eq_ok hreopen
  have hbase : reopened.baseOffset = s.baseOffset := by rw [heq, hshape.baseOffset]
  have hinterval : reopened.indexInterval = s.indexInterval := by
    rw [heq, hshape.indexInterval]
  have hcontents : reopened.writer.contents = s.writer.contents ++ t := by
    rw [heq, contents_openAtEnd, file_flush]
  have hmax : reopened.index.maxSize = s.index.maxSize := by
    rw [heq, hshape.maxSize, (newIndex_usable hindex').2, (newIndex_usable hindex).2]
  have husable : IndexUsable reopened.index := by
    rw [heq]
    exact (newIndex_usable hindex').1
  obtain ⟨recovered, hrebuild, hsame, hbuffer, hrecovered⟩ :=
    rebuildSegment_stores hstored.toStores (by rw [heq]) hbase hinterval hcontents
      (items_tornWrite htorn) husable (hmax ▸ hstored.usable.capacity) (-1)
  rw [keptRecords_recovery] at hrecovered
  have hbase' : recovered.baseOffset = s.baseOffset := hsame.baseOffset.trans hbase
  have hinterval' : recovered.indexInterval = s.indexInterval :=
    hsame.indexInterval.trans hinterval
  have hacc : accounting recovered = accounting s := by
    rw [accounting_of_writable hrecovered, accounting_of_writable hstored, hbase', hinterval']
  have hwriter : recovered.writer = openAtEnd s.writer.flush.file := by
    have hfile : recovered.writer.file = s.writer.contents := by
      rw [hstored.contents, ← hrecovered.contents, Writer.contents, hbuffer, List.append_nil]
    rw [openAtEnd, file_flush, ← hfile, ← hbuffer]
  refine ⟨reopened, recovered, hreopen, hrebuild, congrArg Accounting.bytesWritten hacc, ?_,
    congrArg Accounting.bytesSinceLastIndex hacc, congrArg Accounting.entries hacc, ?_, ?_⟩
  · rw [hrecovered.nextOffset, hstored.nextOffset, hbase']
  · rw [hwriter, hrecovered.bytesWritten, file_flush, hstored.contents,
      List.take_left' (length_image crc stored)]
  · rw [hwriter]
    rfl

theorem rebuildSegment_tornWrite_three :
    ∃ s reopened recovered,
      appendAll castagnoli emptySegment [bareRecord 7, bareRecord 8, bareRecord 9] = some s ∧
      newSegment 0 (s.writer.flush.file ++ [0, 0]) [] 0 0 smallConfig = .ok reopened ∧
      rebuildSegment castagnoli reopened (-1) = .ok recovered ∧
      recovered.bytesWritten = 99 ∧ recovered.nextOffset = 3 := by
  have hfresh : newSegment 0 [] [] 0 0 smallConfig = .ok emptySegment := by decide +kernel
  have hthree : (appendAll castagnoli emptySegment
      [bareRecord 7, bareRecord 8, bareRecord 9]).map (fun s => (s.bytesWritten, s.nextOffset)) =
      some (99, 3) := by
    decide +kernel
  obtain ⟨s, happend, hseen⟩ := Option.map_eq_some_iff.mp hthree
  obtain ⟨hwritten, hnext⟩ := Prod.mk.inj hseen
  have htorn : TornWrite castagnoli [0, 0] :=
    ⟨bareRecord 7, _, rfl, by decide +kernel, by decide +kernel⟩
  obtain ⟨reopened, recovered, hreopen, hrebuild, hbytes, hoffset, -⟩ :=
    rebuildSegment_tornWrite hfresh happend htorn [] 0 0
  exact ⟨s, reopened, recovered, happend, hreopen, hrebuild, hbytes.trans hwritten,
    hoffset.trans hnext⟩

/-- The ordinals of the records that get an index entry, from the sizes of the
records alone: the first one, and each one that completes an interval. -/
def indexedOrdinals (interval : Int64) : Nat → Nat → List Nat → List Nat
  | _, _, [] => []
  | ordinal, since, n :: sizes =>
    if ordinal = 0 ∨ interval.toInt ≤ (since + n : Nat) then
      ordinal :: indexedOrdinals interval (ordinal + 1) 0 sizes
    else indexedOrdinals interval (ordinal + 1) (since + n) sizes

/-- The records the file starts with number up from `base`, the offset after
them exists, and no index entry wraps below its predecessor. -/
def IntactFile (crc : Checksum) (base interval : Int64) (file : Bytes) : Prop :=
  let xs := (items (decodeRecord crc) file).1
  (∀ i (hi : i < xs.length), xs[i].1.offset.toInt = base.toInt + i) ∧
    base.toInt + xs.length < 2 ^ 63 ∧
    (indexedOrdinals interval 0 0 (xs.map Prod.snd)).Pairwise
      fun i j => i % 2 ^ 32 < j % 2 ^ 32

/-- The records kept in the segment carry exactly the offsets from its base to
below its next offset, the next offset is unused, and the index increases. -/
def OffsetChain (crc : Checksum) (s : Segment) : Prop :=
  let xs := scanned crc s
  (∀ i (hi : i < xs.length), xs[i].1.offset.toInt = s.baseOffset.toInt + i) ∧
    s.nextOffset.toInt = s.baseOffset.toInt + xs.length ∧
    (∀ x ∈ xs, x.1.offset ≠ s.nextOffset) ∧
    Increasing s.index.entries

instance (crc : Checksum) (s : Segment) : Decidable (OffsetChain crc s) :=
  inferInstanceAs (Decidable (_ ∧ _ ∧ _ ∧ List.Pairwise _ _))

theorem relativeOffset_of_toInt {offset base : Int64} {i : Nat}
    (h : offset.toInt = base.toInt + i) : relativeOffset offset base = UInt32.ofNat i := by
  have hadd : offset = base + Int64.ofNat i := by
    apply Int64.toInt_inj.mp
    rw [h, toInt_add_ofNat]
    have := offset.toInt_lt
    omega
  rw [hadd, relativeOffset, Int64.add_comm, Int64.add_sub_cancel]
  simp

theorem relativeOffsets_foldl {interval base : Int64} {xs : List (Record × Nat)}
    {a : Accounting} {k : Nat} (hk : a.entries.length = 0 ↔ k = 0)
    (hrel : ∀ j (hj : j < xs.length), relativeOffset xs[j].1.offset base = UInt32.ofNat (k + j)) :
    (xs.foldl (Accounting.step interval base) a).entries.map Entry.relativeOffset =
      a.entries.map Entry.relativeOffset ++
        (indexedOrdinals interval k a.bytesSinceLastIndex (xs.map Prod.snd)).map UInt32.ofNat := by
  induction xs generalizing a k with
  | nil => simp [indexedOrdinals]
  | cons x xs ih =>
    have hx : relativeOffset x.1.offset base = UInt32.ofNat k := hrel 0 (by simp)
    have hxs : ∀ j (hj : j < xs.length),
        relativeOffset xs[j].1.offset base = UInt32.ofNat (k + 1 + j) := by
      intro j hj
      rw [show k + 1 + j = k + (j + 1) by omega]
      exact hrel (j + 1) (by simpa using hj)
    rw [List.foldl_cons, List.map_cons, indexedOrdinals, Accounting.step]
    by_cases hentry : k = 0 ∨ interval.toInt ≤ (a.bytesSinceLastIndex + x.2 : Nat)
    · rw [if_pos hentry, if_pos (hentry.imp_left hk.mpr), ih (k := k + 1) (by simp) hxs]
      simp [hx]
    · rw [if_neg hentry, if_neg (fun h => hentry (h.imp_left hk.mp)),
        ih (k := k + 1) (by simpa using fun h => hentry (.inl (hk.mp (by simpa using h)))) hxs]

theorem increasing_iff_ordinals {interval base : Int64} {xs : List (Record × Nat)}
    (h : ∀ i (hi : i < xs.length), xs[i].1.offset.toInt = base.toInt + i) :
    Increasing (account interval base xs).entries ↔
      (indexedOrdinals interval 0 0 (xs.map Prod.snd)).Pairwise
        fun i j => i % 2 ^ 32 < j % 2 ^ 32 := by
  have hrel : (account interval base xs).entries.map Entry.relativeOffset =
      (indexedOrdinals interval 0 0 (xs.map Prod.snd)).map UInt32.ofNat := by
    refine (relativeOffsets_foldl (by simp) ?_).trans (List.nil_append _)
    intro j hj
    rw [Nat.zero_add]
    exact relativeOffset_of_toInt (h j hj)
  rw [Increasing, ← List.pairwise_map (R := (· < ·)), hrel, List.pairwise_map]
  simp only [UInt32.lt_iff_toNat_lt, UInt32.toNat_ofNat']

theorem kept_recovery (xs : List (Record × Nat)) : kept (-1) xs = xs := by
  rw [kept, List.takeWhile_eq_self_iff]
  intro x _
  simp

def offsetAfter (base : Int64) (xs : List (Record × Nat)) : Int64 :=
  match xs.getLast? with
  | none => base
  | some x => x.1.offset + 1

theorem offsetAfter_eq_iff {base : Int64} {xs : List (Record × Nat)}
    (h : ∀ i (hi : i < xs.length), xs[i].1.offset.toInt = base.toInt + i) :
    (offsetAfter base xs).toInt = base.toInt + xs.length ↔ base.toInt + xs.length < 2 ^ 63 := by
  constructor
  · intro hnext
    rw [← hnext]
    exact Int64.toInt_lt _
  · intro hrange
    induction xs using List.reverseRecOn with
    | nil => simp [offsetAfter]
    | append_singleton xs x _ =>
      have hx := h xs.length (by simp)
      rw [List.getElem_concat_length rfl] at hx
      simp only [List.length_append, List.length_singleton, Nat.cast_add,
        Nat.cast_one] at hrange ⊢
      rw [offsetAfter, List.getLast?_concat, toInt_add_one (by omega), hx]
      omega

theorem rebuildSegment_recovery {crc : Checksum} {s t : Segment}
    (h : rebuildSegment crc s (-1) = .ok t) :
    scanned crc t = scanned crc s ∧ t.baseOffset = s.baseOffset ∧
      t.index.entries = (account s.indexInterval s.baseOffset (scanned crc s)).entries ∧
      t.nextOffset = offsetAfter s.baseOffset (scanned crc s) := by
  obtain ⟨index, hindex, rfl⟩ := rebuildSegment_eq_ok h
  have hempty : index.entries = [] := by
    rw [newIndex_nil _ (newIndex_eq_ok hindex).1] at hindex
    rw [← Except.ok.inj hindex]
  rw [kept_recovery]
  have hacc : accounting (advanceAll (restarted s index) (scanned crc s)) =
      account s.indexInterval s.baseOffset (scanned crc s) := by
    rw [accounting_advanceAll]
    simp only [accounting, restarted, hempty]
    rfl
  have hbytes : (advanceAll (restarted s index) (scanned crc s)).bytesWritten =
      ((scanned crc s).map Prod.snd).sum := by
    rw [← account_bytesWritten s.indexInterval s.baseOffset]
    exact congrArg Accounting.bytesWritten hacc
  refine ⟨?_, (advanceAll_shape _ _).1.baseOffset, congrArg Accounting.entries hacc,
    nextOffset_advanceAll _ _⟩
  rw [rebuilt, scanned, hbytes, contents_openAtEnd]
  exact items_take_sum (decodeRecord_progressive crc) (decodeRecord_selfContained crc)
    (decodeRecord_nil crc) s.writer.contents

/-- Recovery leaves an unbroken chain of offsets exactly when the file already
held one. -/
theorem offsetChain_recovered_iff {crc : Checksum} {base : Int64} {file indexFile : Bytes}
    {modTime now : Int} {cfg : Config} {opened recovered : Segment}
    (hopen : newSegment base file indexFile modTime now cfg = .ok opened)
    (hrebuild : rebuildSegment crc opened (-1) = .ok recovered) :
    OffsetChain crc recovered ↔
      IntactFile crc base cfg.withDefaults.indexIntervalBytes file := by
  obtain ⟨hscanned, hbase, hentries, hnext⟩ := rebuildSegment_recovery hrebuild
  obtain ⟨index, -, rfl⟩ := newSegment_eq_ok hopen
  have hfile : scanned crc recovered = (items (decodeRecord crc) file).1 := by
    rw [hscanned, scanned, contents_openAtEnd]
  rw [← hscanned, hfile] at hnext hentries
  rw [OffsetChain, IntactFile, hfile, hbase, hentries, hnext]
  generalize (items (decodeRecord crc) file).1 = xs
  dsimp only
  constructor
  · rintro ⟨hchain, hafter, -, hincreasing⟩
    exact ⟨hchain, (offsetAfter_eq_iff hchain).mp hafter,
      (increasing_iff_ordinals hchain).mp hincreasing⟩
  · rintro ⟨hchain, hrange, hordinals⟩
    have hafter := (offsetAfter_eq_iff hchain).mpr hrange
    refine ⟨hchain, hafter, ?_, (increasing_iff_ordinals hchain).mpr hordinals⟩
    intro x hx heq
    obtain ⟨i, hi, rfl⟩ := List.mem_iff_getElem.mp hx
    have := hchain i hi
    rw [heq, hafter] at this
    omega

/-- Two records, the offset field of the second one overwritten with ones.
The checksum does not cover that field. -/
def damagedFile : Bytes :=
  image castagnoli [stamp 0 (bareRecord 7), stamp (-1) (bareRecord 8)]

def damagedSegment : Segment :=
  { emptySegment with writer := openAtEnd damagedFile, bytesWritten := 66 }

/-- What recovery makes of the damaged file.  The next append would be given
offset 0, which the first record already has. -/
def recoveredDamage : Segment :=
  { damagedSegment with index := ⟨[⟨0, 0⟩], 64, true⟩, bytesSinceLastIndex := 33, nextOffset := 0 }

theorem offsetChain_broken_by_recovery :
    newSegment 0 damagedFile [] 0 0 smallConfig = .ok damagedSegment ∧
      rebuildSegment castagnoli damagedSegment (-1) = .ok recoveredDamage ∧
      ¬ OffsetChain castagnoli recoveredDamage := by
  decide +kernel

theorem offsetChain_recovered_iff_damaged :
    newSegment 0 damagedFile [] 0 0 smallConfig = .ok damagedSegment ∧
      rebuildSegment castagnoli damagedSegment (-1) = .ok recoveredDamage ∧
      (OffsetChain castagnoli recoveredDamage ↔
        IntactFile castagnoli 0 smallConfig.withDefaults.indexIntervalBytes damagedFile) := by
  have hopen : newSegment 0 damagedFile [] 0 0 smallConfig = .ok damagedSegment := by
    decide +kernel
  have hrebuild : rebuildSegment castagnoli damagedSegment (-1) = .ok recoveredDamage := by
    decide +kernel
  exact ⟨hopen, hrebuild, offsetChain_recovered_iff hopen hrebuild⟩

end MiniKafka.SegmentRecovery
