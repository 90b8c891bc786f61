import Mathlib.Data.List.TakeWhile
import MiniKafka.SegmentWrites

/-!
Rebuilding a segment from its `.log` file.

`rebuildBody_cases` says once what a round of the scan can do.  The scan keeps
the same bookkeeping as appending, so a rebuilt segment is `Writable`.
-/

namespace MiniKafka.SegmentRebuild

open BigEndian ReadLoop BufferedWriter RecordCodec OffsetIndex SegmentStore SegmentContents
  SegmentWrites

/-- The items `rebuildSegment` keeps: all that decode in recovery mode, and
those before the first one at or beyond `stopOffset` otherwise. -/
def kept (stopOffset : Int64) (xs : List (Record × Nat)) : List (Record × Nat) :=
  xs.takeWhile fun x => decide (¬ (0 ≤ stopOffset ∧ stopOffset ≤ x.1.offset))

theorem kept_cons_of_stop {stopOffset : Int64} {r : Record} (n : Nat) (xs : List (Record × Nat))
    (h : 0 ≤ stopOffset ∧ stopOffset ≤ r.offset) : kept stopOffset ((r, n) :: xs) = [] := by
  simp [kept, h]

theorem kept_cons_of_go {stopOffset : Int64} {r : Record} (n : Nat) (xs : List (Record × Nat))
    (h : ¬ (0 ≤ stopOffset ∧ stopOffset ≤ r.offset)) :
    kept stopOffset ((r, n) :: xs) = (r, n) :: kept stopOffset xs := by
  simp only [kept, List.takeWhile_cons, h, not_false_eq_true, decide_true]
  rfl

theorem rebuildBody_cases (stopOffset : Int64) (s : Segment) (r : Record) (n : Nat) :
    (rebuildBody stopOffset (s, none) r n = .stop (s, none) ∧
      0 ≤ stopOffset ∧ stopOffset ≤ r.offset) ∨
    (∃ s' e, rebuildBody stopOffset (s, none) r n = .stop (s', some e) ∧
      ¬ (0 ≤ stopOffset ∧ stopOffset ≤ r.offset) ∧ ¬ HasRoom s.index ∧
      (advance s r n).index.entries.length = s.index.entries.length + 1) ∨
    (rebuildBody stopOffset (s, none) r n = .next (advance s r n, none) ∧
      ¬ (0 ≤ stopOffset ∧ stopOffset ≤ r.offset)) := by
  rw [rebuildBody]
  dsimp only
  by_cases hstop : 0 ≤ stopOffset ∧ stopOffset ≤ r.offset
  · rw [if_pos hstop]
    exact .inl ⟨rfl, hstop⟩
  rw [if_neg hstop]
  by_cases hentry : s.index.entries.length = 0 ∨
      s.indexInterval.toInt ≤ (s.bytesSinceLastIndex + n : Nat)
  · rw [if_pos hentry]
    cases happ : s.index.append (relativeOffset r.offset s.baseOffset)
        (UInt32.ofNat s.bytesWritten) with
    | error e =>
      refine .inr (.inl ⟨_, e, rfl, hstop, ?_, ?_⟩)
      · intro hroom
        have hok := (append_eq_ok_iff s.index (relativeOffset r.offset s.baseOffset)
          (UInt32.ofNat s.bytesWritten) _).mpr ⟨hroom.1, hroom.2, rfl⟩
        rw [happ] at hok
        simp at hok
      · rw [advance_of_entry hentry]
        simp
    | ok index =>
      obtain ⟨-, -, rfl⟩ := (append_eq_ok_iff _ _ _ _).mp happ
      refine .inr (.inr ⟨?_, hstop⟩)
      rw [advance_of_entry hentry]
  · rw [if_neg hentry]
    refine .inr (.inr ⟨?_, hstop⟩)
    rw [advance_of_skip hentry]

theorem advanceAll_cons (s : Segment) (x : Record × Nat) (xs : List (Record × Nat)) :
    advanceAll s (x :: xs) = advanceAll (advance s x.1 x.2) xs := rfl

theorem runItems_rebuild_of_none {stopOffset : Int64} {xs : List (Record × Nat)} {s : Segment}
    (h : (runItems (rebuildBody stopOffset) xs (s, none)).state.2 = none) :
    (runItems (rebuildBody stopOffset) xs (s, none)).state =
      (advanceAll s (kept stopOffset xs), none) := by
  induction xs generalizing s with
  | nil => rfl
  | cons x xs ih =>
    obtain ⟨r, n⟩ := x
    rw [runItems] at h ⊢
    obtain ⟨heq, hstop⟩ | ⟨s', e, heq, -⟩ | ⟨heq, hgo⟩ := rebuildBody_cases stopOffset s r n
    · rw [heq, kept_cons_of_stop n xs hstop]
      rfl
    · rw [heq] at h
      simp [Flow.state] at h
    · rw [heq] at h ⊢
      rw [kept_cons_of_go n xs hgo, advanceAll_cons]
      exact ih h

theorem length_entries_advanceAll (s : Segment) (xs : List (Record × Nat)) :
    s.index.entries.length ≤ (advanceAll s xs).index.entries.length := by
  induction xs generalizing s with
  | nil => exact le_rfl
  | cons x xs ih =>
    have hstep := (length_step_entries s.indexInterval s.baseOffset (accounting s) x).1
    exact hstep.trans (ih (advance s x.1 x.2))

theorem runItems_rebuild_ok {stopOffset : Int64} {xs : List (Record × Nat)} {s : Segment}
    (hmapped : s.index.mapped = true)
    (hcap : (advanceAll s (kept stopOffset xs)).index.entries.length * entrySize ≤
      s.index.maxSize) :
    (runItems (rebuildBody stopOffset) xs (s, none)).state.2 = none := by
  induction xs generalizing s with
  | nil => rfl
  | cons x xs ih =>
    obtain ⟨r, n⟩ := x
    rw [runItems]
    obtain ⟨heq, hstop⟩ | ⟨s', e, heq, hgo, hfull, hgrow⟩ | ⟨heq, hgo⟩ :=
      rebuildBody_cases stopOffset s r n
    · rw [heq]
      rfl
    · rw [kept_cons_of_go n xs hgo, advanceAll_cons] at hcap
      have hmono := length_entries_advanceAll (advance s r n) (kept stopOffset xs)
      rw [hgrow] at hmono
      exfalso
      apply hfull
      refine ⟨le_trans ?_ hcap, hmapped⟩
      have := Nat.mul_le_mul_right entrySize hmono
      rw [Nat.add_mul, Nat.one_mul] at this
      exact this
    · rw [heq]
      rw [kept_cons_of_go n xs hgo, advanceAll_cons] at hcap
      exact ih hmapped hcap

theorem advance_shape (s : Segment) (r : Record) (n : Nat) : SameShape s (advance s r n) :=
  ⟨rfl, rfl, rfl, rfl, rfl⟩

theorem advanceAll_shape (s : Segment) (xs : List (Record × Nat)) :
    SameShape s (advanceAll s xs) ∧ (advanceAll s xs).closed = s.closed ∧
      (advanceAll s xs).index.mapped = s.index.mapped := by
  induction xs generalizing s with
  | nil => exact ⟨.refl s, rfl, rfl⟩
  | cons x xs ih =>
    obtain ⟨hshape, hclosed, hmapped⟩ := ih (advance s x.1 x.2)
    exact ⟨(advance_shape s x.1 x.2).trans hshape, hclosed, hmapped⟩

theorem accounting_advanceAll (s : Segment) (xs : List (Record × Nat)) :
    accounting (advanceAll s xs) =
      xs.foldl (Accounting.step s.indexInterval s.baseOffset) (accounting s) := by
  induction xs generalizing s with
  | nil => rfl
  | cons x xs ih =>
    rw [advanceAll_cons, ih, List.foldl_cons]
    rfl

theorem nextOffset_advanceAll (s : Segment) (xs : List (Record × Nat)) :
    (advanceAll s xs).nextOffset =
      match xs.getLast? with
      | none => s.nextOffset
      | some x => x.1.offset + 1 := by
  induction xs using List.reverseRecOn with
  | nil => rfl
  | append_singleton xs x ih => simp [advanceAll, advance]

def restarted (s : Segment) (index : Index) : Segment :=
  { s with
    writer := openAtEnd s.writer.contents
    index := index
    bytesWritten := 0
    bytesSinceLastIndex := 0
    nextOffset := s.baseOffset }

def scanned (crc : Checksum) (s : Segment) : List (Record × Nat) :=
  (items (decodeRecord crc) s.writer.contents).1

def rebuilt (s : Segment) (index : Index) (xs : List (Record × Nat)) : Segment :=
  { advanceAll (restarted s index) xs with
    writer := openAtEnd (s.writer.contents.take (advanceAll (restarted s index) xs).bytesWritten) }

theorem rebuildSegment_unfold {crc : Checksum} {s : Segment} {stopOffset : Int64} {index : Index}
    (hopen : s.closed = false) (hindex : newIndex [] (Int64.ofNat s.index.maxSize) = .ok index) :
    rebuildSegment crc s stopOffset =
      match (runItems (rebuildBody stopOffset) (scanned crc s) (restarted s index, none)).state with
      | (_, some e) => .error (.index e)
      | (scanned, none) =>
        .ok { scanned with
          writer := openAtEnd (s.writer.contents.take scanned.bytesWritten) } := by
  rw [rebuildSegment, if_neg (by simp [hopen])]
  dsimp only
  rw [hindex]
  dsimp only
  rw [readLoop_fst (decodeRecord_progressive crc)]
  rfl

theorem rebuildSegment_eq_ok {crc : Checksum} {s t : Segment} {stopOffset : Int64}
    (h : rebuildSegment crc s stopOffset = .ok t) :
    ∃ index, newIndex [] (Int64.ofNat s.index.maxSize) = .ok index ∧
      t = rebuilt s index (kept stopOffset (scanned crc s)) := by
  have hopen : s.closed = false := by
    by_contra hclosed
    rw [rebuildSegment, if_pos (by simpa using hclosed)] at h
    simp at h
  cases hindex : newIndex [] (Int64.ofNat s.index.maxSize) with
  | error e =>
    rw [rebuildSegment, if_neg (by simp [hopen])] at h
    dsimp only at h
    rw [hindex] at h
    simp at h
  | ok index =>
    refine ⟨index, rfl, ?_⟩
    rw [rebuildSegment_unfold hopen hindex] at h
    cases herr : (runItems (rebuildBody stopOffset) (scanned crc s)
        (restarted s index, none)).state.2 with
    | none =>
      rw [runItems_rebuild_of_none herr] at h
      exact (Except.ok.inj h).symm
    | some e =>
      rw [show (runItems (rebuildBody stopOffset) (scanned crc s)
        (restarted s index, none)).state = (_, some e) from Prod.ext rfl herr] at h
      simp at h

theorem rebuildSegment_ok {crc : Checksum} {s : Segment} {stopOffset : Int64} {index : Index}
    (hopen : s.closed = false) (hindex : newIndex [] (Int64.ofNat s.index.maxSize) = .ok index)
    (hcap : (advanceAll (restarted s index) (kept stopOffset (scanned crc s))).index.entries.length
      * entrySize ≤ index.maxSize) :
    rebuildSegment crc s stopOffset = .ok (rebuilt s index (kept stopOffset (scanned crc s))) := by
  obtain ⟨-, hmapped, -, -⟩ := newIndex_eq_ok hindex
  rw [rebuildSegment_unfold hopen hindex,
    runItems_rebuild_of_none (runItems_rebuild_ok hmapped hcap)]
  rfl

/-- The records of a list that come before the first one at or beyond
`stopOffset`; all of them in recovery mode. -/
def keptRecords (stopOffset : Int64) (rs : List Record) : List Record :=
  rs.takeWhile fun r => decide (¬ (0 ≤ stopOffset ∧ stopOffset ≤ r.offset))

theorem keptRecords_cons_of_stop {stopOffset : Int64} {r : Record} (rs : List Record)
    (h : 0 ≤ stopOffset ∧ stopOffset ≤ r.offset) : keptRecords stopOffset (r :: rs) = [] := by
  simp [keptRecords, h]

theorem keptRecords_cons_of_go {stopOffset : Int64} {r : Record} (rs : List Record)
    (h : ¬ (0 ≤ stopOffset ∧ stopOffset ≤ r.offset)) :
    keptRecords stopOffset (r :: rs) = r :: keptRecords stopOffset rs := by
  simp only [keptRecords, List.takeWhile_cons, h, not_false_eq_true, decide_true]
  rfl

theorem kept_sized (stopOffset : Int64) (rs : List Record) :
    kept stopOffset (sized rs) = sized (keptRecords stopOffset rs) := by
  simp [kept, keptRecords, sized, List.takeWhile_map, Function.comp_def]

theorem keptRecords_initial (stopOffset : Int64) (rs : List Record) :
    keptRecords stopOffset rs <+: rs := List.takeWhile_prefix _

theorem keptRecords_recovery (rs : List Record) : keptRecords (-1) rs = rs := by
  rw [keptRecords, List.takeWhile_eq_self_iff]
  intro r _
  simp

theorem newIndex_ofNat {n : Nat} (hroom : entrySize ≤ n) (hwhole : n % entrySize = 0)
    (hrange : n < 2 ^ 63) : newIndex [] (Int64.ofNat n) = .ok ⟨[], n, true⟩ := by
  have hclamp : (Int64.ofNat n).toNatClampNeg = n := by
    rw [Int64.toNatClampNeg, Int64.toInt_ofNat_of_lt hrange, Int.toNat_natCast]
  rw [newIndex_nil _ (by rwa [hclamp]), hclamp, hwhole, Nat.sub_zero]

theorem nextOffset_sized {base : Int64} {rs : List Record} (h : Numbered base rs) (s : Segment)
    (hs : s.nextOffset = base) :
    (advanceAll s (sized rs)).nextOffset = base + Int64.ofNat rs.length := by
  rw [nextOffset_advanceAll]
  induction rs using List.reverseRecOn with
  | nil => simp [sized, hs]
  | append_singleton rs r ih =>
    have hlast := (numbered_append.mp h).2.1
    rw [sized_append]
    simp only [sized, List.map_cons, List.map_nil, List.getLast?_append, List.getLast?_singleton,
      Option.some_or, List.length_append, List.length_cons, List.length_nil]
    rw [hlast, Int64.ofNat_add, Int64.add_assoc]
    rfl

/-- Rebuilding a segment whose file holds the bytes of `s`, followed by bytes
from which nothing decodes, stores the records of `s` before the stop offset. -/
theorem rebuildSegment_stores {crc : Checksum} {s t : Segment} {rs : List Record} {tail : Bytes}
    (h : Stores crc s rs) (hopen : t.closed = false) (hbase : t.baseOffset = s.baseOffset)
    (hinterval : t.indexInterval = s.indexInterval)
    (hcontents : t.writer.contents = s.writer.contents ++ tail)
    (htail : (items (decodeRecord crc) tail).1 = [])
    (husable : IndexUsable t.index) (hcap : s.index.size ≤ t.index.maxSize)
    (stopOffset : Int64) :
    ∃ u, rebuildSegment crc t stopOffset = .ok u ∧ SameShape t u ∧ u.writer.buffer = [] ∧
      Writable crc u (keptRecords stopOffset rs) := by
  have hbytes : t.writer.contents = image crc rs ++ tail := by rw [hcontents, h.contents]
  rw [Index.size, h.entries, ← hbase, ← hinterval] at hcap
  obtain ⟨rest, hrest⟩ := keptRecords_initial stopOffset rs
  generalize hks : keptRecords stopOffset rs = ks at hrest
  obtain ⟨hnumbered, hfits, hpositions⟩ := h.initial ⟨rest, hrest⟩
  rw [← hbase] at hnumbered
  have hindex := newIndex_ofNat husable.room husable.whole husable.range
  have hscan : kept stopOffset (scanned crc t) = sized ks := by
    rw [scanned, hbytes, items_image_append crc tail h.fits, htail, List.append_nil, kept_sized,
      hks]
  generalize hstart : restarted t ⟨[], t.index.maxSize, true⟩ = start
  obtain ⟨hshape, hclosed, hmapped⟩ := advanceAll_shape start (sized ks)
  have hacc : accounting (advanceAll start (sized ks)) =
      account t.indexInterval t.baseOffset (sized ks) := by
    rw [accounting_advanceAll, ← hstart]
    rfl
  have hwritten : (advanceAll start (sized ks)).bytesWritten = totalSize ks := by
    rw [← sum_sized, ← account_bytesWritten t.indexInterval t.baseOffset]
    exact congrArg Accounting.bytesWritten hacc
  have hentries : (advanceAll start (sized ks)).index.entries =
      (account t.indexInterval t.baseOffset (sized ks)).entries :=
    congrArg Accounting.entries hacc
  have hfewer : (advanceAll start (sized ks)).index.entries.length * entrySize ≤
      t.index.maxSize := by
    refine le_trans (Nat.mul_le_mul_right _ ?_) hcap
    rw [hentries, ← hrest, sized_append]
    exact (account_entries_initial t.indexInterval t.baseOffset _ _).length_le
  subst hstart
  refine ⟨rebuilt t ⟨[], t.index.maxSize, true⟩ (sized ks), ?_, ?_, rfl, ?_⟩
  · rw [← hscan]
    apply rebuildSegment_ok hopen hindex
    rw [hscan]
    exact hfewer
  · exact ⟨hshape.baseOffset, hshape.indexInterval, hshape.maxBytes, hshape.createdAt,
      hshape.maxSize⟩
  · have hbase : (rebuilt t ⟨[], t.index.maxSize, true⟩ (sized ks)).baseOffset = t.baseOffset :=
      hshape.baseOffset
    have hinterval : (rebuilt t ⟨[], t.index.maxSize, true⟩ (sized ks)).indexInterval =
        t.indexInterval := hshape.indexInterval
    have hmax : (rebuilt t ⟨[], t.index.maxSize, true⟩ (sized ks)).index.maxSize =
        t.index.maxSize := hshape.maxSize
    refine
      { isOpen := hclosed.trans hopen
        numbered := hbase.symm ▸ hnumbered
        fits := hfits
        contents := ?_
        bytesWritten := hwritten
        positions := hpositions
        entries := ?_
        usable := ⟨hmapped, ?_, ?_, ?_, ?_⟩
        nextOffset := ?_
        sinceLastIndex := ?_ }
    · change (openAtEnd
        (t.writer.contents.take (advanceAll _ (sized ks)).bytesWritten)).contents = _
      rw [contents_openAtEnd, hwritten, hbytes, ← hrest, image_append, List.append_assoc,
        List.take_left' (length_image crc ks)]
    · rw [hbase, hinterval]
      exact hentries
    · rw [hmax]
      exact husable.room
    · rw [hmax]
      exact husable.whole
    · rw [hmax]
      exact husable.range
    · rw [hmax]
      exact hfewer
    · rw [hbase]
      exact nextOffset_sized hnumbered _ rfl
    · rw [hbase, hinterval]
      exact congrArg Accounting.bytesSinceLastIndex hacc

end MiniKafka.SegmentRebuild
