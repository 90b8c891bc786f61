import MiniKafka.SparseIndex

/-!
Opening an index file again after a crash.

The file still has its preallocated length, or some of it: the entries and zeros
after them.  An all-zero file says nothing about the records, and every read then
starts at the first byte.
-/

namespace MiniKafka.IndexReopening

open BigEndian ReadLoop RecordCodec OffsetIndex SegmentStore SegmentContents SegmentReads
  SegmentWrites SparseIndex

/-- The file behind an index of the given entries that was preallocated to
`preallocated` bytes. -/
def fileImage (es : List Entry) (preallocated : Nat) : Bytes :=
  padded es (preallocated - es.length * entrySize)

def slotsOf (file : Bytes) (maxBytes : Int64) : Nat :=
  min file.length maxBytes.toNatClampNeg / entrySize

/-- A lookup returns the position of the greatest entry that is not beyond `x`, and
says whether that entry is `x` itself. -/
def FindsGreatest (i : Index) (x : UInt32) : Prop :=
  ∃ e ∈ i.entries, e.relativeOffset ≤ x ∧
    (∀ e' ∈ i.entries, e'.relativeOffset ≤ x → e'.relativeOffset ≤ e.relativeOffset) ∧
    i.lookup x = .ok (e.position, decide (e.relativeOffset = x))

/-- `NewIndex` on `file` has exactly those of the entries `es` that fit, and looks them
up.  A file shorter than an entry has none. -/
def Recovers (es : List Entry) (file : Bytes) (maxBytes : Int64) : Prop :=
  ∃ i, newIndex file maxBytes = .ok i ∧ i.entries = es.take (slotsOf file maxBytes) ∧
    ∀ x, (i.entries = [] → i.lookup x = .ok (0, false)) ∧ (i.entries ≠ [] → FindsGreatest i x)

section

variable {es : List Entry} {maxBytes : Int64}

theorem getD_ne_zero (hinc : Increasing es) {j : Nat} (hpos : 0 < j) (hj : j < es.length) :
    es.getD j ⟨0, 0⟩ ≠ ⟨0, 0⟩ := by
  intro hzero
  have hlt := getD_lt_of_increasing hinc hpos hj
  rw [hzero, UInt32.lt_iff_toNat_lt] at hlt
  simp at hlt

theorem findsGreatest_of_first {i : Index} (hmapped : i.mapped = true)
    (hinc : Increasing i.entries) (hfirst : ⟨0, 0⟩ ∈ i.entries) (x : UInt32) :
    FindsGreatest i x := by
  obtain ⟨hbeyond, -⟩ | hgreatest := lookup_greatest hmapped hinc x
  · have hlt := hbeyond _ hfirst
    rw [UInt32.lt_iff_toNat_lt] at hlt
    simp at hlt
  · exact hgreatest

theorem lookup_of_nil {i : Index} (hmapped : i.mapped = true) (hempty : i.entries = [])
    (x : UInt32) : i.lookup x = .ok (0, false) := by
  obtain ⟨-, hnone⟩ | ⟨e, he, -⟩ := lookup_greatest hmapped (by simp [Increasing, hempty]) x
  · exact hnone
  · rw [hempty] at he
    cases he

theorem first_mem_take {e : Entry} {k : Nat} (hsome : (e :: es).take k ≠ []) :
    e ∈ (e :: es).take k := by
  cases k with
  | zero => exact absurd rfl hsome
  | succ k => exact List.mem_cons_self

theorem recovers_of_image (hfirst : es.head? = some ⟨0, 0⟩) (hinc : Increasing es)
    (hroom : entrySize ≤ maxBytes.toNatClampNeg) (n cut : Nat) :
    Recovers es ((padded es n).take cut) maxBytes := by
  obtain ⟨rest, rfl⟩ := List.head?_eq_some_iff.mp hfirst
  refine ⟨_, newIndex_padded hroom rfl (.inl (List.cons_ne_nil _ _)) fun hlong => ?_, rfl,
    fun x => ?_⟩
  · exact getD_ne_zero hinc (by omega) (by omega)
  · refine ⟨fun hempty => lookup_of_nil rfl hempty x, fun hsome => ?_⟩
    exact findsGreatest_of_first rfl (List.Pairwise.sublist (List.take_sublist _ _) hinc)
      (first_mem_take hsome) x

/-- An all-zero file is the image of the single entry of a first record. -/
theorem replicate_eq_image (n : Nat) :
    List.replicate n 0 = (padded [⟨0, 0⟩] n).take n := by
  have hentry : ([⟨0, 0⟩] : List Entry).flatMap Entry.encode = List.replicate 8 0 := by decide
  rw [padded, hentry, List.replicate_append_replicate, List.take_replicate,
    Nat.min_eq_left (by omega)]

theorem lookup_of_zeros (hroom : entrySize ≤ maxBytes.toNatClampNeg) (n : Nat) :
    ∃ i, newIndex (List.replicate n 0) maxBytes = .ok i ∧
      ∀ x, ∃ found, i.lookup x = .ok (0, found) := by
  rw [replicate_eq_image]
  obtain ⟨i, hindex, hentries, hlookup⟩ :=
    recovers_of_image rfl (List.pairwise_singleton _ _) hroom n n
  refine ⟨i, hindex, fun x => ?_⟩
  obtain ⟨hnone, hgreatest⟩ := hlookup x
  by_cases hempty : i.entries = []
  · exact ⟨false, hnone hempty⟩
  · obtain ⟨e, he, -, -, hfound⟩ := hgreatest hempty
    rw [hentries] at he
    rw [List.mem_singleton.mp (List.mem_of_mem_take he)] at hfound
    exact ⟨_, hfound⟩

end

section

variable {crc : Checksum} {s : Segment} {offset : Int64}

theorem read_eq_plainRead_of_start (hopen : s.closed = false) (hle : s.baseOffset ≤ offset)
    (hlookup : ∀ x, ∃ found, s.index.lookup x = .ok (0, found)) :
    s.read crc offset = plainRead crc s.readHandle offset := by
  have hnot : ¬ offset < s.baseOffset := by
    rw [Int64.le_iff_toInt_le] at hle
    rw [Int64.lt_iff_toInt_lt]
    omega
  obtain ⟨found, hfound⟩ := hlookup (relativeOffset offset s.baseOffset)
  rw [Segment.read, if_neg (by simp [hopen]), if_neg hnot, hfound]
  dsimp only
  rw [readAt_eq_scanFrom, ite_self]
  rfl

theorem plainRead_of_mem {rs : List Record} (hfits : ∀ r ∈ rs, r.encodedSize ≤ maxRecordSize)
    (hinc : rs.Pairwise fun a b => a.offset < b.offset) (rest : Bytes) {r : Record} (hr : r ∈ rs) :
    plainRead crc (image crc rs ++ rest) r.offset = .ok r := by
  obtain ⟨pre, post, rfl⟩ := List.append_of_mem hr
  have hbefore : ∀ a ∈ pre, a.offset < r.offset := fun a ha =>
    (List.pairwise_append.mp hinc).2.2 a ha r List.mem_cons_self
  have hhit : scanFromBody r.offset none r r.encodedSize = .stop (some r) := if_pos rfl
  have hstop : ∀ more, runItems (scanFromBody r.offset) (sized (pre ++ r :: post) ++ more) none =
      .stop (some r) := by
    intro more
    rw [sized_append, List.append_assoc, runItems_scanFrom_skip hbefore]
    change runItems (scanFromBody r.offset) ((r, r.encodedSize) :: (sized post ++ more)) none = _
    rw [runItems, hhit]
  rw [plainRead, readLoop_eq_runItems (decodeRecord_progressive crc),
    items_image_append crc rest hfits, hstop]

theorem read_of_zero_index {base : Int64} {rs : List Record} {rest : Bytes} {n : Nat}
    {modTime now : Int} {cfg : Config}
    (hnew : newSegment base (image crc rs ++ rest) (List.replicate n 0) modTime now cfg = .ok s)
    (hfits : ∀ r ∈ rs, r.encodedSize ≤ maxRecordSize)
    (hinc : rs.Pairwise fun a b => a.offset < b.offset) {r : Record} (hr : r ∈ rs)
    (hle : base ≤ r.offset) : s.read crc r.offset = .ok r := by
  obtain ⟨index, hindex, heq⟩ := newSegment_eq_ok hnew
  obtain ⟨i, hi, hlookup⟩ := lookup_of_zeros (newIndex_eq_ok hindex).1 n
  have hopen : s.closed = false := by rw [heq]
  have hbase : s.baseOffset = base := by rw [heq]
  have hstart : s.index = i := by
    rw [heq]
    exact Except.ok.inj (hindex.symm.trans hi)
  have hfile : s.readHandle = image crc rs ++ rest := by
    rw [heq, Segment.readHandle]
    exact List.take_length
  rw [read_eq_plainRead_of_start hopen (hbase ▸ hle) (hstart ▸ hlookup), hfile]
  exact plainRead_of_mem hfits hinc rest hr

end

/-- Of the file of an index, whole or cut, `NewIndex` recovers the entries that fit and
looks them up; an all-zero index sends every reader to the first byte, where the scan
finds every record. -/
theorem reopened_index_recovers (crc : Checksum) :
    (∀ (es : List Entry) (preallocated cut : Nat) (maxBytes : Int64),
      es.head? = some ⟨0, 0⟩ → Increasing es → es.length * entrySize ≤ preallocated →
      entrySize ≤ maxBytes.toNatClampNeg →
        Recovers es ((fileImage es preallocated).take cut) maxBytes) ∧
      (∀ (n : Nat) (maxBytes : Int64), entrySize ≤ maxBytes.toNatClampNeg →
        ∃ i, newIndex (List.replicate n 0) maxBytes = .ok i ∧
          ∀ x, ∃ found, i.lookup x = .ok (0, found)) ∧
      ∀ (base : Int64) (rs : List Record) (rest : Bytes) (n : Nat) (modTime now : Int)
        (cfg : Config) (s : Segment),
        newSegment base (image crc rs ++ rest) (List.replicate n 0) modTime now cfg = .ok s →
        (∀ r ∈ rs, r.encodedSize ≤ maxRecordSize) →
        rs.Pairwise (fun a b => a.offset < b.offset) →
          ∀ r ∈ rs, base ≤ r.offset → s.read crc r.offset = .ok r :=
  ⟨fun _ _ cut _ hfirst hinc _ hroom => recovers_of_image hfirst hinc hroom _ cut,
    fun n _ hroom => lookup_of_zeros hroom n,
    fun _ _ _ _ _ _ _ _ hnew hfits hinc _ hr hle => read_of_zero_index hnew hfits hinc hr hle⟩

/-- The sizes cut an entry of the file and the last entry of the mapping; the second
file of records has a torn tail. -/
theorem reopened_index_recovers_cutFile :
    Recovers [⟨0, 0⟩, ⟨3, 99⟩, ⟨5, 170⟩]
        ((fileImage [⟨0, 0⟩, ⟨3, 99⟩, ⟨5, 170⟩] 40).take 33) 23 ∧
      (∃ i, newIndex (List.replicate 40 0) 23 = .ok i ∧
        ∀ x, ∃ found, i.lookup x = .ok (0, found)) ∧
      ∃ s, newSegment 7 (image castagnoli [stamp 7 (bareRecord 1), stamp 9 (bareRecord 2)] ++ [1])
          (List.replicate 40 0) 0 0 smallConfig = .ok s ∧
        s.read castagnoli 9 = .ok (stamp 9 (bareRecord 2)) := by
  obtain ⟨hcut, hzeros, hread⟩ := reopened_index_recovers castagnoli
  obtain ⟨s, hs⟩ := newSegment_isOk 7
    (image castagnoli [stamp 7 (bareRecord 1), stamp 9 (bareRecord 2)] ++ [1])
    (List.replicate 40 0) 0 0
    (show entrySize ≤ smallConfig.withDefaults.indexMaxBytes.toNatClampNeg by decide)
  refine ⟨hcut _ 40 33 23 rfl (by simp [Increasing]) (by decide) (by decide),
    hzeros 40 23 (by decide), s, hs, ?_⟩
  exact hread 7 _ [1] 40 0 0 smallConfig s hs (by decide) (by decide)
    (stamp 9 (bareRecord 2)) (by simp) (by decide)

end MiniKafka.IndexReopening
