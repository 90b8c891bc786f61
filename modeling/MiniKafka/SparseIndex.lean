import MiniKafka.SegmentReads
import MiniKafka.SegmentWrites

/-!
The index of a segment only says where to start.

A lookup starts a read at a record that does not lie beyond the target, so the
records it leaves out are ones the read would have passed over.
-/

namespace MiniKafka.SparseIndex

open BigEndian ReadLoop BufferedWriter RecordCodec SegmentStore SegmentContents SegmentReads
  SegmentWrites

/-- A read that knows no index: the scan of `Segment.scanFrom` over a whole `.log`
file. -/
def plainRead (crc : Checksum) (file : Bytes) (target : Int64) : Except SegmentError Record :=
  match readLoop (decodeRecord crc) (scanFromBody target) file none with
  | (some r, _) => .ok r
  | (none, none) => .error (.notFound target)
  | (none, some e) =>
    if e.isEnd then .error (.notFound target) else .error (.decode e)

def plainReadFrom (crc : Checksum) (file : Bytes) (offset : Int64) (maxBytes : Int32) :
    List Record × Option SegmentError :=
  if maxBytes ≤ 0 then ([], none)
  else
    match readLoop (decodeRecord crc) (readFromBody offset maxBytes) file ([], 0) with
    | ((records, _), none) => (records, none)
    | ((records, _), some e) =>
      if e.isEnd then (records, none) else (records, some (.decode e))

section

variable {crc : Checksum} {s : Segment} {rs : List Record} {offset : Int64}

/-- A loop over the file from a record that the body reaches unchanged ends as the
loop over the whole file does. -/
theorem readLoop_drop {σ : Type} {body : σ → Record → Nat → Flow σ} {st : σ}
    (hfits : ∀ r ∈ rs, r.encodedSize ≤ maxRecordSize) (i : Nat)
    (hskip : runItems body (sized (rs.take i) ++ sized (rs.drop i)) st =
      runItems body (sized (rs.drop i)) st) :
    readLoop (decodeRecord crc) body ((image crc rs).drop (totalSize (rs.take i))) st =
      readLoop (decodeRecord crc) body (image crc rs) st := by
  have hfits' : ∀ r ∈ rs.drop i, r.encodedSize ≤ maxRecordSize :=
    fun r hr => hfits r (List.mem_of_mem_drop hr)
  rw [← sized_append, List.take_append_drop] at hskip
  rw [drop_image, readLoop_eq_runItems (decodeRecord_progressive crc),
    readLoop_eq_runItems (decodeRecord_progressive crc), items_image crc hfits,
    items_image crc hfits', hskip]

theorem file_of_flushed (h : Stores crc s rs) (hflushed : s.writer.buffer = []) :
    s.writer.file = image crc rs := by
  rw [← h.contents, Writer.contents, hflushed, List.append_nil]

theorem scanFrom_eq_plainRead (h : Stores crc s rs) (hflushed : s.writer.buffer = []) {i : Nat}
    (hbefore : s.baseOffset.toInt + i ≤ offset.toInt) :
    s.scanFrom crc (totalSize (rs.take i)) offset = plainRead crc s.writer.file offset := by
  rewrite [Segment.scanFrom, plainRead, h.readHandle hflushed, file_of_flushed h hflushed,
    readLoop_drop h.fits i
      (runItems_scanFrom_skip (offset_lt_of_mem_take h.numbered hbefore) _)]
  rfl

theorem read_eq_plainRead (h : Stores crc s rs) (hflushed : s.writer.buffer = [])
    (hle : s.baseOffset ≤ offset) : s.read crc offset = plainRead crc s.writer.file offset := by
  obtain ⟨i, -, hbefore, hread⟩ := read_eq_scanFrom h hle
  rw [hread]
  exact scanFrom_eq_plainRead h hflushed hbefore

theorem readFrom_eq_plainReadFrom (h : Stores crc s rs) (hflushed : s.writer.buffer = [])
    (hle : s.baseOffset ≤ offset) (maxBytes : Int32) :
    s.readFrom crc offset maxBytes = plainReadFrom crc s.writer.file offset maxBytes := by
  rw [Int64.le_iff_toInt_le] at hle
  obtain ⟨pos, found, i, hlookup, -, hpos, hbefore⟩ := lookup_before h hle
  have hnot : ¬ offset < s.baseOffset := by
    rw [Int64.lt_iff_toInt_lt]
    omega
  rw [Segment.readFrom, if_neg (by simp [h.isOpen]), if_neg hnot, hlookup, plainReadFrom]
  dsimp only
  rewrite [hpos, h.readHandle hflushed, file_of_flushed h hflushed,
    readLoop_drop h.fits i
      (runItems_readFrom_skip (offset_lt_of_mem_take h.numbered hbefore) _ ([], 0))]
  rfl

end

/-- After any appends and a flush, both reads of a segment give what a scan of the
`.log` file from its first byte gives. -/
theorem sparse_index_transparent {crc : Checksum} {base : Int64} {modTime now : Int}
    {cfg : Config} {s t u : Segment} {records : List Record} {offset : Int64}
    (hnew : newSegment base [] [] modTime now cfg = .ok s)
    (happend : appendAll crc s records = some t) (hflush : t.flush = .ok u)
    (hle : base ≤ offset) (maxBytes : Int32) :
    u.read crc offset = plainRead crc u.writer.file offset ∧
      u.readFrom crc offset maxBytes = plainReadFrom crc u.writer.file offset maxBytes := by
  obtain ⟨hshape, rs, hstored⟩ := appendAll_writable (newSegment_writable crc hnew) happend
  have hbase : t.baseOffset = base := by
    obtain ⟨index, -, rfl⟩ := newSegment_eq_ok hnew
    exact hshape.baseOffset
  rw [Segment.flush, if_neg (by simp [hstored.isOpen])] at hflush
  obtain rfl := Except.ok.inj hflush
  have hstores := (writable_flush hstored).toStores
  rw [← hbase] at hle
  constructor
  · exact read_eq_plainRead hstores rfl hle
  · exact readFrom_eq_plainReadFrom hstores rfl hle maxBytes

def twoRecordSegment : Segment :=
  ((emptySegment.append castagnoli (bareRecord 1)).1.append castagnoli (bareRecord 2)).1

/-- The distance of the target is zero modulo 2^32, where the index has an entry. -/
theorem sparse_index_transparent_farOffset :
    newSegment 0 [] [] 0 0 smallConfig = .ok emptySegment ∧
      appendAll castagnoli emptySegment [bareRecord 1, bareRecord 2] = some twoRecordSegment ∧
      ∃ u, twoRecordSegment.flush = .ok u ∧
        u.read castagnoli 4294967296 = plainRead castagnoli u.writer.file 4294967296 ∧
        u.readFrom castagnoli 4294967296 100 =
          plainReadFrom castagnoli u.writer.file 4294967296 100 := by
  have hnew : newSegment 0 [] [] 0 0 smallConfig = .ok emptySegment := by decide +kernel
  have happend : appendAll castagnoli emptySegment [bareRecord 1, bareRecord 2] =
      some twoRecordSegment := by decide +kernel
  have hflush : twoRecordSegment.flush =
      .ok { twoRecordSegment with writer := twoRecordSegment.writer.flush } := by decide +kernel
  exact ⟨hnew, happend, _, hflush,
    sparse_index_transparent hnew happend hflush (by decide) 100⟩

end MiniKafka.SparseIndex
