import MiniKafka.SegmentContents

/-!
Appending to a segment.

`append_cases` says once what an append can do.  A record that is taken
advances the bookkeeping by one `Accounting.step` and is stored after the
others.
-/

namespace MiniKafka.SegmentWrites

open BigEndian BufferedWriter RecordCodec OffsetIndex SegmentStore SegmentContents

def accounting (s : Segment) : Accounting :=
  ⟨s.bytesWritten, s.bytesSinceLastIndex, s.index.entries⟩

def advance (s : Segment) (r : Record) (n : Nat) : Segment :=
  let a := (accounting s).step s.indexInterval s.baseOffset (r, n)
  { s with
    bytesWritten := a.bytesWritten
    bytesSinceLastIndex := a.bytesSinceLastIndex
    index := { s.index with entries := a.entries }
    nextOffset := r.offset + 1 }

def advanceAll (s : Segment) (xs : List (Record × Nat)) : Segment :=
  xs.foldl (fun s x => advance s x.1 x.2) s

/-- The record is the first of the segment, or the interval is up with it. -/
def EntryDue (s : Segment) (n : Nat) : Prop :=
  s.index.entries.length = 0 ∨ s.indexInterval.toInt ≤ (s.bytesSinceLastIndex + n : Nat)

theorem advance_of_entry {s : Segment} {r : Record} {n : Nat}
    (h : EntryDue s n) :
    advance s r n =
      { s with
        bytesWritten := s.bytesWritten + n
        bytesSinceLastIndex := 0
        index := { s.index with
          entries := s.index.entries ++
            [⟨relativeOffset r.offset s.baseOffset, UInt32.ofNat s.bytesWritten⟩] }
        nextOffset := r.offset + 1 } := by
  have hstep : (accounting s).step s.indexInterval s.baseOffset (r, n) =
      ⟨s.bytesWritten + n, 0, s.index.entries ++
        [⟨relativeOffset r.offset s.baseOffset, UInt32.ofNat s.bytesWritten⟩]⟩ := if_pos h
  rw [advance, hstep]

theorem advance_of_skip {s : Segment} {r : Record} {n : Nat}
    (h : ¬ EntryDue s n) :
    advance s r n =
      { s with
        bytesWritten := s.bytesWritten + n
        bytesSinceLastIndex := s.bytesSinceLastIndex + n
        nextOffset := r.offset + 1 } := by
  have hstep : (accounting s).step s.indexInterval s.baseOffset (r, n) =
      ⟨s.bytesWritten + n, s.bytesSinceLastIndex + n, s.index.entries⟩ := if_neg h
  rw [advance, hstep]

def stamp (offset : Int64) (r : Record) : Record := { r with offset := offset }

@[simp] theorem encodedSize_stamp (offset : Int64) (r : Record) :
    (stamp offset r).encodedSize = r.encodedSize := rfl

def appended (crc : Checksum) (s : Segment) (r : Record) : Segment :=
  { advance s (stamp s.nextOffset r) r.encodedSize with
    writer := s.writer.write writerSize ((stamp s.nextOffset r).wireImage crc) }

theorem appended_index (crc : Checksum) {s : Segment} {r : Record}
    (h : ¬ EntryDue s r.encodedSize) : (appended crc s r).index = s.index := by
  rw [appended, advance_of_skip h]

def HasRoom (i : Index) : Prop := i.size + entrySize ≤ i.maxSize ∧ i.mapped = true

theorem append_cases (crc : Checksum) (s : Segment) (r : Record) :
    (s.append crc r = (s, .error .segmentClosed) ∧ s.closed = true) ∨
    (s.append crc r = (s, .error .positionOutOfRange) ∧ s.closed = false ∧
      maxUint32 < s.bytesWritten) ∨
    (s.append crc r = (s, .error (.encode .recordTooLarge)) ∧ s.closed = false ∧
      maxRecordSize < r.encodedSize) ∨
    (∃ s' e, s.append crc r = (s', .error (.index e)) ∧ s.closed = false ∧
      s.bytesWritten ≤ maxUint32 ∧ r.encodedSize ≤ maxRecordSize ∧
      EntryDue s r.encodedSize ∧ ¬ HasRoom s.index ∧
      s'.bytesWritten = s.bytesWritten + r.encodedSize) ∨
    (s.append crc r = (appended crc s r, .ok s.nextOffset) ∧ s.closed = false ∧
      s.bytesWritten ≤ maxUint32 ∧ r.encodedSize ≤ maxRecordSize ∧
      (EntryDue s r.encodedSize → HasRoom s.index)) := by
  rw [Segment.append]
  by_cases hclosed : s.closed = true
  · rw [if_pos hclosed]
    exact .inl ⟨rfl, hclosed⟩
  rw [if_neg hclosed]
  have hopen : s.closed = false := by simpa using hclosed
  by_cases hpos : maxUint32 < s.bytesWritten
  · rw [if_pos hpos]
    exact .inr (.inl ⟨rfl, hopen, hpos⟩)
  rw [if_neg hpos]
  dsimp only
  change _ ∨ _ ∨ _ ∨ _ ∨ _
  by_cases hsize : maxRecordSize < r.encodedSize
  · have henc : Record.encode crc { r with offset := s.nextOffset } =
        .error .recordTooLarge := by
      rw [Record.encode]
      exact if_pos hsize
    rw [henc]
    exact .inr (.inr (.inl ⟨rfl, hopen, hsize⟩))
  have henc : Record.encode crc { r with offset := s.nextOffset } =
      .ok ((stamp s.nextOffset r).wireImage crc) := by
    rw [Record.encode]
    exact if_neg hsize
  rw [henc]
  dsimp only
  rw [length_wireImage, encodedSize_stamp]
  by_cases hentry : EntryDue s r.encodedSize
  · rw [if_pos (show s.index.entries.length = 0 ∨ s.indexInterval.toInt ≤ _ from hentry)]
    cases happ : s.index.append (relativeOffset s.nextOffset s.baseOffset)
        (UInt32.ofNat s.bytesWritten) with
    | error e =>
      refine .inr (.inr (.inr (.inl ⟨_, e, rfl, hopen, by omega, by omega, hentry, ?_, rfl⟩)))
      intro hroom
      have hok := (append_eq_ok_iff s.index (relativeOffset s.nextOffset s.baseOffset)
        (UInt32.ofNat s.bytesWritten) _).mpr ⟨hroom.1, hroom.2, rfl⟩
      rw [happ] at hok
      simp at hok
    | ok index =>
      obtain ⟨hroom, hmapped, rfl⟩ := (append_eq_ok_iff _ _ _ _).mp happ
      refine .inr (.inr (.inr (.inr ⟨?_, hopen, by omega, by omega, fun _ => ⟨hroom, hmapped⟩⟩)))
      rw [appended, advance_of_entry hentry]
      rfl
  · rw [if_neg (show ¬ (s.index.entries.length = 0 ∨ s.indexInterval.toInt ≤ _) from hentry)]
    refine .inr (.inr (.inr (.inr ⟨?_, hopen, by omega, by omega, fun hdue => absurd hdue hentry⟩)))
    rw [appended, advance_of_skip hentry]
    rfl

theorem append_ok {crc : Checksum} {s s' : Segment} {r : Record} {offset : Int64}
    (h : s.append crc r = (s', .ok offset)) :
    offset = s.nextOffset ∧ s' = appended crc s r ∧ s.bytesWritten ≤ maxUint32 ∧
      r.encodedSize ≤ maxRecordSize ∧
      (EntryDue s r.encodedSize → HasRoom s.index) := by
  obtain ⟨heq, -⟩ | ⟨heq, -⟩ | ⟨heq, -⟩ | ⟨_, _, heq, -⟩ | ⟨heq, -, hpos, hsize, hroom⟩ :=
    append_cases crc s r
  all_goals rw [heq] at h
  all_goals simp only [Prod.mk.injEq, reduceCtorEq, and_false, Except.ok.injEq] at h
  exact ⟨h.2.symm, h.1.symm, hpos, hsize, hroom⟩

theorem numbered_snoc {base : Int64} {rs : List Record} (h : Numbered base rs) (r : Record) :
    Numbered base (rs ++ [stamp (base + Int64.ofNat rs.length) r]) :=
  numbered_append.mpr ⟨h, rfl, trivial⟩

theorem account_sized_snoc (interval base : Int64) (rs : List Record) (r : Record) :
    account interval base (sized (rs ++ [r])) =
      (account interval base (sized rs)).step interval base (r, r.encodedSize) := by
  rw [sized_append]
  exact account_snoc interval base (sized rs) (r, r.encodedSize)

theorem accounting_of_writable {crc : Checksum} {s : Segment} {rs : List Record}
    (h : Writable crc s rs) :
    accounting s = account s.indexInterval s.baseOffset (sized rs) := by
  apply Accounting.ext
  · change s.bytesWritten = _
    rw [h.bytesWritten, account_bytesWritten, sum_sized]
  · exact h.sinceLastIndex
  · exact h.entries

theorem length_step_entries (interval base : Int64) (a : Accounting) (x : Record × Nat) :
    a.entries.length ≤ (a.step interval base x).entries.length ∧
      (a.step interval base x).entries.length ≤ a.entries.length + 1 := by
  rw [Accounting.step]
  split
  · simp
  · simp

theorem appended_writable {crc : Checksum} {s : Segment} {rs : List Record} {r : Record}
    (h : Writable crc s rs) (hpos : s.bytesWritten ≤ maxUint32)
    (hsize : r.encodedSize ≤ maxRecordSize)
    (hroom : EntryDue s r.encodedSize → HasRoom s.index) :
    Writable crc (appended crc s r) (rs ++ [stamp s.nextOffset r]) := by
  have hacc := accounting_of_writable h
  have hstep : accounting (appended crc s r) =
      account s.indexInterval s.baseOffset (sized (rs ++ [stamp s.nextOffset r])) := by
    rw [account_sized_snoc, encodedSize_stamp, ← hacc]
    rfl
  refine
    { isOpen := h.isOpen
      numbered := ?_
      fits := ?_
      contents := ?_
      bytesWritten := ?_
      positions := ?_
      entries := congrArg Accounting.entries hstep
      usable := ?_
      nextOffset := ?_
      sinceLastIndex := congrArg Accounting.bytesSinceLastIndex hstep }
  · rw [h.nextOffset]
    exact numbered_snoc h.numbered r
  · intro x hx
    rcases List.mem_append.mp hx with hx | hx
    · exact h.fits x hx
    · rw [List.mem_singleton] at hx
      rw [hx, encodedSize_stamp]
      exact hsize
  · change (s.writer.write writerSize ((stamp s.nextOffset r).wireImage crc)).contents = _
    rw [contents_write, h.contents, image_append]
    simp [image]
  · have hbytes := congrArg Accounting.bytesWritten hstep
    rw [account_bytesWritten, sum_sized] at hbytes
    exact hbytes
  · intro i hi
    rw [List.length_append, List.length_singleton] at hi
    rcases Nat.lt_or_ge i rs.length with hlt | hge
    · rw [List.take_append_of_le_length hlt.le]
      exact h.positions i hlt
    · rw [show i = rs.length by omega, List.take_left, ← h.bytesWritten]
      exact hpos
  · have hlen := length_step_entries s.indexInterval s.baseOffset (accounting s)
      (stamp s.nextOffset r, r.encodedSize)
    refine ⟨h.usable.mapped, h.usable.room, h.usable.whole, h.usable.range, ?_⟩
    by_cases hdue : EntryDue s r.encodedSize
    · have hgrow : (appended crc s r).index.size ≤ s.index.size + entrySize := by
        change (appended crc s r).index.entries.length * entrySize ≤
          s.index.entries.length * entrySize + entrySize
        have : (appended crc s r).index.entries.length ≤ s.index.entries.length + 1 := hlen.2
        simp only [entrySize]
        omega
      exact hgrow.trans (hroom hdue).1
    · rw [appended_index crc hdue]
      exact h.usable.capacity
  · change s.nextOffset + 1 = s.baseOffset + Int64.ofNat (rs ++ [stamp s.nextOffset r]).length
    rw [h.nextOffset, List.length_append, List.length_singleton, Int64.ofNat_add,
      Int64.add_assoc]
    rfl

theorem stores_flush {crc : Checksum} {s : Segment} {rs : List Record} (h : Stores crc s rs) :
    Stores crc { s with writer := s.writer.flush } rs :=
  { isOpen := h.isOpen
    numbered := h.numbered
    fits := h.fits
    contents := by rw [contents_flush, h.contents]
    bytesWritten := h.bytesWritten
    positions := h.positions
    entries := h.entries
    usable := h.usable }

theorem writable_flush {crc : Checksum} {s : Segment} {rs : List Record} (h : Writable crc s rs) :
    Writable crc { s with writer := s.writer.flush } rs :=
  { toStores := stores_flush h.toStores
    nextOffset := h.nextOffset
    sinceLastIndex := h.sinceLastIndex }

def indexCapacity (maxBytes : Int64) : Nat :=
  maxBytes.toNatClampNeg - maxBytes.toNatClampNeg % entrySize

theorem newIndex_usable {file : Bytes} {maxBytes : Int64} {i : Index}
    (h : newIndex file maxBytes = .ok i) :
    IndexUsable i ∧ i.maxSize = indexCapacity maxBytes := by
  obtain ⟨hroom, hmapped, hmax, hcap⟩ := newIndex_eq_ok h
  have hlt : maxBytes.toNatClampNeg < 2 ^ 63 := by
    have := maxBytes.toInt_lt
    simp only [Int64.toNatClampNeg]
    omega
  simp only [entrySize] at hroom hmax
  refine ⟨⟨hmapped, ?_, ?_, ?_, hcap⟩, hmax⟩
  · simp only [entrySize]
    omega
  · simp only [entrySize]
    omega
  · omega

theorem newSegment_eq_ok {base : Int64} {logFile indexFile : Bytes} {modTime now : Int}
    {cfg : Config} {s : Segment} (h : newSegment base logFile indexFile modTime now cfg = .ok s) :
    ∃ index, newIndex indexFile cfg.withDefaults.indexMaxBytes = .ok index ∧
      s =
        { baseOffset := base
          nextOffset := base
          writer := openAtEnd logFile
          index := index
          maxBytes := cfg.withDefaults.segmentBytes
          indexInterval := cfg.withDefaults.indexIntervalBytes
          bytesWritten := logFile.length
          bytesSinceLastIndex := 0
          createdAt := if 0 < logFile.length then modTime else now
          closed := false } := by
  cases hindex : newIndex indexFile cfg.withDefaults.indexMaxBytes with
  | error e =>
    simp only [newSegment, hindex] at h
    cases h
  | ok index =>
    simp only [newSegment, hindex] at h
    exact ⟨index, rfl, (Except.ok.inj h).symm⟩

theorem newSegment_isOk (base : Int64) (logFile indexFile : Bytes) (modTime now : Int)
    {cfg : Config} (hroom : entrySize ≤ cfg.withDefaults.indexMaxBytes.toNatClampNeg) :
    ∃ s, newSegment base logFile indexFile modTime now cfg = .ok s := by
  obtain ⟨index, hindex⟩ := newIndex_isOk indexFile hroom
  rw [newSegment, hindex]
  exact ⟨_, rfl⟩

theorem newSegment_writable (crc : Checksum) {base : Int64} {modTime now : Int} {cfg : Config}
    {s : Segment} (h : newSegment base [] [] modTime now cfg = .ok s) : Writable crc s [] := by
  obtain ⟨index, hindex, rfl⟩ := newSegment_eq_ok h
  have hempty : index.entries = [] := by
    rw [newIndex_nil _ (newIndex_eq_ok hindex).1] at hindex
    rw [← Except.ok.inj hindex]
  exact
    { isOpen := rfl
      numbered := trivial
      fits := by simp
      contents := by simp [image]
      bytesWritten := by simp [totalSize]
      positions := by simp
      entries := by simp [hempty, sized]
      usable := (newIndex_usable hindex).1
      nextOffset := by simp
      sinceLastIndex := by simp [sized] }

def appendAll (crc : Checksum) : Segment → List Record → Option Segment
  | s, [] => some s
  | s, r :: rs =>
    match s.append crc r with
    | (s', .ok _) => appendAll crc s' rs
    | (_, .error _) => none

/-- The parts of a segment that neither appending nor rebuilding changes. -/
structure SameShape (s t : Segment) : Prop where
  baseOffset : t.baseOffset = s.baseOffset
  indexInterval : t.indexInterval = s.indexInterval
  maxBytes : t.maxBytes = s.maxBytes
  createdAt : t.createdAt = s.createdAt
  maxSize : t.index.maxSize = s.index.maxSize

theorem SameShape.refl (s : Segment) : SameShape s s := ⟨rfl, rfl, rfl, rfl, rfl⟩

theorem SameShape.trans {s t u : Segment} (h : SameShape s t) (k : SameShape t u) :
    SameShape s u where
  baseOffset := k.baseOffset.trans h.baseOffset
  indexInterval := k.indexInterval.trans h.indexInterval
  maxBytes := k.maxBytes.trans h.maxBytes
  createdAt := k.createdAt.trans h.createdAt
  maxSize := k.maxSize.trans h.maxSize

theorem appended_shape (crc : Checksum) (s : Segment) (r : Record) :
    SameShape s (appended crc s r) := ⟨rfl, rfl, rfl, rfl, rfl⟩

theorem appendAll_writable {crc : Checksum} {rs : List Record} {s t : Segment}
    {stored : List Record} (h : Writable crc s stored) (happ : appendAll crc s rs = some t) :
    SameShape s t ∧ ∃ added, Writable crc t (stored ++ added) := by
  induction rs generalizing s stored with
  | nil =>
    obtain rfl : s = t := Option.some.inj happ
    exact ⟨.refl s, [], by simpa using h⟩
  | cons r rs ih =>
    rw [appendAll] at happ
    split at happ
    · rename_i s' offset hstep
      obtain ⟨-, rfl, hpos, hsize, hroom⟩ := append_ok hstep
      obtain ⟨hshape, added, hadded⟩ := ih (appended_writable h hpos hsize hroom) happ
      refine ⟨(appended_shape crc s r).trans hshape, stamp s.nextOffset r :: added, ?_⟩
      rwa [List.append_assoc] at hadded
    · simp at happ

end MiniKafka.SegmentWrites
