import MiniKafka.SegmentStore

/-!
The index size that `internal/config/config.go` derives from the segment policy,
against the entries that `Segment.Append` writes.
-/

namespace MiniKafka.DerivedIndexSize

open RecordCodec OffsetIndex SegmentStore

def indexEntrySize : Int64 := 8

def indexMaxBytesMin : Int64 := 64 * 1024

def indexMaxBytesMax : Int64 := 10 * 1024 * 1024

/-- Two entries' room for every interval of a segment, and for one interval more. -/
def neededIndexBytes (segmentBytes indexIntervalBytes : Int64) : Int64 :=
  (segmentBytes / indexIntervalBytes + 1) * indexEntrySize * 2

def deriveIndexMaxBytes (segmentBytes indexIntervalBytes : Int64) : Int64 :=
  if indexIntervalBytes ≤ 0 then indexMaxBytesMax
  else
    let needed := neededIndexBytes segmentBytes indexIntervalBytes
    let needed := if needed < indexMaxBytesMin then indexMaxBytesMin else needed
    if indexMaxBytesMax < needed then indexMaxBytesMax else needed

def appends (crc : Checksum) (s : Segment) (rs : List Record) : Segment :=
  rs.foldl (fun s r => (s.append crc r).1) s

def indexFull (s : Segment) : Bool := decide (s.index.maxSize < s.index.size + entrySize)

/-- Between two entries an interval has been written. -/
def Spaced (interval : Int64) (s : Segment) : Prop :=
  s.indexInterval = interval ∧
    (s.index.entries.length - 1) * interval.toInt.toNat + s.bytesSinceLastIndex ≤ s.bytesWritten

section

variable {crc : Checksum} {s : Segment}

theorem append_counts (crc : Checksum) (s : Segment) (r : Record) :
    let t := (s.append crc r).1
    t.indexInterval = s.indexInterval ∧ t.index.maxSize = s.index.maxSize ∧
      ∃ n, t.bytesWritten = s.bytesWritten + n ∧
        (t.index.entries.length = s.index.entries.length ∧
            t.bytesSinceLastIndex = s.bytesSinceLastIndex + n ∨
          t.index.entries.length = s.index.entries.length + 1 ∧ t.bytesSinceLastIndex = 0 ∧
            (s.index.entries.length = 0 ∨
              s.indexInterval.toInt ≤ (s.bytesSinceLastIndex + n : Nat))) := by
  have hunchanged : s.indexInterval = s.indexInterval ∧ s.index.maxSize = s.index.maxSize ∧
      ∃ n, s.bytesWritten = s.bytesWritten + n ∧
        (s.index.entries.length = s.index.entries.length ∧
            s.bytesSinceLastIndex = s.bytesSinceLastIndex + n ∨
          s.index.entries.length = s.index.entries.length + 1 ∧ s.bytesSinceLastIndex = 0 ∧
            (s.index.entries.length = 0 ∨
              s.indexInterval.toInt ≤ (s.bytesSinceLastIndex + n : Nat))) :=
    ⟨rfl, rfl, 0, rfl, .inl ⟨rfl, rfl⟩⟩
  rw [Segment.append]
  split
  · exact hunchanged
  split
  · exact hunchanged
  dsimp only
  split
  · exact hunchanged
  rename_i image _
  split
  · rename_i hdue
    split
    · exact ⟨rfl, rfl, image.length, rfl, .inl ⟨rfl, rfl⟩⟩
    · rename_i index hindex
      obtain ⟨-, -, rfl⟩ := (append_eq_ok_iff _ _ _ _).mp hindex
      exact ⟨rfl, rfl, image.length, rfl, .inr ⟨List.length_append, rfl, hdue⟩⟩
  · exact ⟨rfl, rfl, image.length, rfl, .inl ⟨rfl, rfl⟩⟩

theorem spaced_append {interval : Int64} (h : Spaced interval s) (r : Record) :
    Spaced interval (s.append crc r).1 := by
  obtain ⟨hinterval, hspaced⟩ := h
  obtain ⟨hfixed, -, n, hbytes, ⟨hentries, hsince⟩ | ⟨hentries, hsince, hdue⟩⟩ :=
    append_counts crc s r
  · refine ⟨hfixed.trans hinterval, ?_⟩
    rw [hentries, hsince, hbytes]
    omega
  · refine ⟨hfixed.trans hinterval, ?_⟩
    rw [hentries, hsince, hbytes]
    rw [hinterval] at hdue
    cases hlength : s.index.entries.length with
    | zero => simp
    | succ k =>
      rw [hlength] at hspaced hdue
      simp only [Nat.add_sub_cancel, Nat.succ_mul] at hspaced ⊢
      omega

theorem spaced_appends {interval : Int64} (h : Spaced interval s) (rs : List Record) :
    Spaced interval (appends crc s rs) ∧ (appends crc s rs).index.maxSize = s.index.maxSize := by
  induction rs generalizing s with
  | nil => exact ⟨h, rfl⟩
  | cons r rs ih =>
    have hnext : Spaced interval (s.append crc r).1 := spaced_append h r
    obtain ⟨hspaced, hmax⟩ := ih hnext
    exact ⟨hspaced, hmax.trans (append_counts crc s r).2.1⟩

theorem entries_le_of_spaced {interval : Int64} (h : Spaced interval s) (hpos : 1 ≤ interval.toInt)
    {segmentBytes : Int} (hbytes : s.bytesWritten < segmentBytes) :
    (s.index.entries.length : Int) ≤ segmentBytes / interval.toInt + 1 := by
  obtain ⟨-, hspaced⟩ := h
  have hroom : ((s.index.entries.length - 1 : Nat) : Int) * interval.toInt ≤ segmentBytes := by
    rw [← Int.toNat_of_nonneg (show 0 ≤ interval.toInt by omega), ← Nat.cast_mul]
    omega
  have hquotient := (Int.le_ediv_iff_mul_le (by omega)).mpr hroom
  omega

end

section

variable {segmentBytes interval : Int64}

theorem one_le_iff {v : Int64} : 1 ≤ v ↔ 1 ≤ v.toInt := Int64.le_iff_toInt_le

/-- No product of the derivation wraps around for a segment below 4 GiB. -/
theorem toInt_neededIndexBytes (hlow : 1 ≤ segmentBytes.toInt)
    (hhigh : segmentBytes.toInt ≤ 4294967295) (hinterval : 1 ≤ interval.toInt) :
    (segmentBytes / interval + 1).toInt = segmentBytes.toInt / interval.toInt + 1 ∧
      (neededIndexBytes segmentBytes interval).toInt =
        (segmentBytes.toInt / interval.toInt + 1) * 16 := by
  have hquotient : segmentBytes.toInt / interval.toInt ≤ segmentBytes.toInt :=
    Int.ediv_le_self _ (by omega)
  have hnonneg : 0 ≤ segmentBytes.toInt / interval.toInt :=
    Int.ediv_nonneg (by omega) (by omega)
  have hdiv : (segmentBytes / interval).toInt = segmentBytes.toInt / interval.toInt := by
    rw [Int64.toInt_div, Int.tdiv_eq_ediv_of_nonneg (by omega),
      Int.bmod_eq_of_le (by omega) (by omega)]
  have hone : (segmentBytes / interval + 1).toInt = segmentBytes.toInt / interval.toInt + 1 := by
    rw [Int64.toInt_add, hdiv, Int64.toInt_one, Int.bmod_eq_of_le (by omega) (by omega)]
  have hsize : indexEntrySize.toInt = 8 := rfl
  have htwo : (2 : Int64).toInt = 2 := rfl
  refine ⟨hone, ?_⟩
  rw [neededIndexBytes, Int64.toInt_mul, Int64.toInt_mul, hone, hsize, htwo,
    Int.bmod_eq_of_le (n := _ * 8) (by omega) (by omega), Int.bmod_eq_of_le (by omega) (by omega)]
  omega

theorem toInt_deriveIndexMaxBytes (hinterval : 1 ≤ interval.toInt)
    (hclamp : neededIndexBytes segmentBytes interval ≤ indexMaxBytesMax) :
    (deriveIndexMaxBytes segmentBytes interval).toInt =
      max (neededIndexBytes segmentBytes interval).toInt 65536 := by
  have hmin : indexMaxBytesMin.toInt = 65536 := rfl
  have hmax : indexMaxBytesMax.toInt = 10485760 := rfl
  have hpos : ¬ interval ≤ 0 := by
    rw [Int64.le_iff_toInt_le, Int64.toInt_zero]
    omega
  rw [Int64.le_iff_toInt_le, hmax] at hclamp
  rw [deriveIndexMaxBytes, if_neg hpos]
  simp only [Int64.lt_iff_toInt_lt]
  split
  · rw [if_neg (by omega)]
    omega
  · rw [if_neg (by omega)]
    omega

theorem capacity_derived (hlow : 1 ≤ segmentBytes.toInt) (hhigh : segmentBytes.toInt ≤ 4294967295)
    (hinterval : 1 ≤ interval.toInt)
    (hclamp : neededIndexBytes segmentBytes interval ≤ indexMaxBytesMax) :
    ∃ index, newIndex [] (deriveIndexMaxBytes segmentBytes interval) = .ok index ∧
      index.entries = [] ∧
      (segmentBytes.toInt / interval.toInt + 1) * 16 ≤ index.maxSize ∧
      65536 ≤ index.maxSize := by
  have hderived := toInt_deriveIndexMaxBytes hinterval hclamp
  rw [(toInt_neededIndexBytes hlow hhigh hinterval).2] at hderived
  generalize deriveIndexMaxBytes segmentBytes interval = derived at hderived ⊢
  have hnat : (derived.toNatClampNeg : Int) = derived.toInt := by
    rw [Int64.toNatClampNeg]
    omega
  have hnonneg : ¬ derived < 0 := by
    rw [Int64.lt_iff_toInt_lt, Int64.toInt_zero]
    omega
  rw [newIndex, if_neg hnonneg]
  dsimp only
  rw [if_neg (by rw [entrySize]; omega)]
  refine ⟨_, rfl, ?_, ?_, ?_⟩
  · simp [trimZeroEntries]
  · dsimp only [entrySize]
    omega
  · dsimp only [entrySize]
    omega

end

section

variable {cfg : Config}

theorem newSegment_derived (base : Int64) (modTime now : Int) (hlow : 1 ≤ cfg.segmentBytes)
    (hhigh : cfg.segmentBytes ≤ 4294967295) (hinterval : 1 ≤ cfg.indexIntervalBytes)
    (hderived : cfg.indexMaxBytes = deriveIndexMaxBytes cfg.segmentBytes cfg.indexIntervalBytes)
    (hclamp : neededIndexBytes cfg.segmentBytes cfg.indexIntervalBytes ≤ indexMaxBytesMax) :
    ∃ fresh, newSegment base [] [] modTime now cfg = .ok fresh ∧
      Spaced cfg.indexIntervalBytes fresh ∧
      (cfg.segmentBytes.toInt / cfg.indexIntervalBytes.toInt + 1) * 16 ≤ fresh.index.maxSize ∧
      65536 ≤ fresh.index.maxSize := by
  have hmax : (4294967295 : Int64).toInt = 4294967295 := rfl
  rw [one_le_iff] at hlow hinterval
  rw [Int64.le_iff_toInt_le, hmax] at hhigh
  obtain ⟨index, hindex, hentries, hcapacity, hleast⟩ :=
    capacity_derived hlow hhigh hinterval hclamp
  have hsize := toInt_deriveIndexMaxBytes hinterval hclamp
  have hindexMaxBytes : cfg.withDefaults.indexMaxBytes = cfg.indexMaxBytes := by
    refine if_neg ?_
    rw [hderived, Int64.le_iff_toInt_le, Int64.toInt_zero]
    omega
  have hindexInterval : cfg.withDefaults.indexIntervalBytes = cfg.indexIntervalBytes := by
    refine if_neg ?_
    rw [Int64.le_iff_toInt_le, Int64.toInt_zero]
    omega
  rw [newSegment, hindexMaxBytes, hderived, hindex]
  refine ⟨_, rfl, ⟨hindexInterval, ?_⟩, hcapacity, hleast⟩
  simp [hentries]

theorem entries_derived (crc : Checksum) (base : Int64) (modTime now : Int)
    (hlow : 1 ≤ cfg.segmentBytes) (hhigh : cfg.segmentBytes ≤ 4294967295)
    (hinterval : 1 ≤ cfg.indexIntervalBytes)
    (hderived : cfg.indexMaxBytes = deriveIndexMaxBytes cfg.segmentBytes cfg.indexIntervalBytes)
    (hclamp : neededIndexBytes cfg.segmentBytes cfg.indexIntervalBytes ≤ indexMaxBytesMax) :
    ∃ fresh, newSegment base [] [] modTime now cfg = .ok fresh ∧
      ∀ rs, (appends crc fresh rs).bytesWritten < cfg.segmentBytes.toInt →
        ((appends crc fresh rs).index.entries.length : Int) ≤
            cfg.segmentBytes.toInt / cfg.indexIntervalBytes.toInt + 1 ∧
          (cfg.segmentBytes.toInt / cfg.indexIntervalBytes.toInt + 1) * 16 ≤
            (appends crc fresh rs).index.maxSize ∧
          65536 ≤ (appends crc fresh rs).index.maxSize := by
  obtain ⟨fresh, hfresh, hspaced, hcapacity, hleast⟩ :=
    newSegment_derived base modTime now hlow hhigh hinterval hderived hclamp
  rw [one_le_iff] at hinterval
  refine ⟨fresh, hfresh, fun rs hbytes => ?_⟩
  have hkept : Spaced cfg.indexIntervalBytes (appends crc fresh rs) ∧
      (appends crc fresh rs).index.maxSize = fresh.index.maxSize := spaced_appends hspaced rs
  rw [hkept.2]
  exact ⟨entries_le_of_spaced hkept.1 hinterval hbytes, hcapacity, hleast⟩

/-- As long as a segment is not full in bytes, neither is its index, and the entries
are as many as `deriveIndexMaxBytes` counts on. -/
theorem derived_index_suffices (crc : Checksum) (base : Int64) (modTime now : Int)
    (hlow : 1 ≤ cfg.segmentBytes) (hhigh : cfg.segmentBytes ≤ 4294967295)
    (hinterval : 1 ≤ cfg.indexIntervalBytes)
    (hderived : cfg.indexMaxBytes = deriveIndexMaxBytes cfg.segmentBytes cfg.indexIntervalBytes)
    (hclamp : neededIndexBytes cfg.segmentBytes cfg.indexIntervalBytes ≤ indexMaxBytesMax) :
    ∃ fresh, newSegment base [] [] modTime now cfg = .ok fresh ∧
      ∀ rs, (appends crc fresh rs).bytesWritten < cfg.segmentBytes.toInt →
        indexFull (appends crc fresh rs) = false ∧
          (appends crc fresh rs).index.entries.length ≤
            (cfg.segmentBytes / cfg.indexIntervalBytes + 1).toInt := by
  obtain ⟨fresh, hfresh, hbounds⟩ :=
    entries_derived crc base modTime now hlow hhigh hinterval hderived hclamp
  refine ⟨fresh, hfresh, fun rs hbytes => ?_⟩
  obtain ⟨hentries, hcapacity, hleast⟩ := hbounds rs hbytes
  rw [(toInt_neededIndexBytes (one_le_iff.mp hlow) (Int64.le_iff_toInt_le.mp hhigh)
    (one_le_iff.mp hinterval)).1]
  refine ⟨?_, hentries⟩
  rw [indexFull, decide_eq_false_iff_not, Index.size, entrySize]
  omega

def derivedConfig : Config :=
  { smallConfig with
    segmentBytes := 10240
    indexIntervalBytes := 100
    indexMaxBytes := deriveIndexMaxBytes 10240 100 }

theorem derived_index_suffices_derivedConfig :
    ∃ fresh, newSegment 0 [] [] 0 0 derivedConfig = .ok fresh ∧
      ∀ rs, (appends castagnoli fresh rs).bytesWritten < derivedConfig.segmentBytes.toInt →
        indexFull (appends castagnoli fresh rs) = false ∧
          (appends castagnoli fresh rs).index.entries.length ≤
            (derivedConfig.segmentBytes / derivedConfig.indexIntervalBytes + 1).toInt :=
  derived_index_suffices castagnoli 0 0 0 (by decide) (by decide) (by decide) rfl (by decide)

end

end MiniKafka.DerivedIndexSize
