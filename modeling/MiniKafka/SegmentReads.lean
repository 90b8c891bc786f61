import MiniKafka.SegmentContents

/-!
Reads of a segment are reads of the list of records it stores.
-/

namespace MiniKafka.SegmentReads

open ReadLoop RecordCodec SegmentStore SegmentContents

def recordAt (base : Int64) (rs : List Record) (target : Int64) : Option Record :=
  if base.toInt ≤ target.toInt then rs[(target.toInt - base.toInt).toNat]? else none

/-- The records a budget of `maxBytes` admits after `acc` bytes have been
taken.  The first one is admitted whatever its size. -/
def takeBudget (maxBytes : Int32) : Int32 → List Record → List Record
  | _, [] => []
  | acc, r :: rs =>
    if 0 < acc ∧ maxBytes < acc + Int32.ofNat r.encodedSize then []
    else r :: takeBudget maxBytes (acc + Int32.ofNat r.encodedSize) rs

theorem takeBudget_initial (maxBytes acc : Int32) (rs : List Record) :
    takeBudget maxBytes acc rs <+: rs := by
  induction rs generalizing acc with
  | nil => exact List.nil_prefix
  | cons r rs ih =>
    rw [takeBudget]
    split
    · exact List.nil_prefix
    · exact (List.prefix_cons_inj r).mpr (ih _)

theorem recordAt_cons_self (base : Int64) (r : Record) (rs : List Record) :
    recordAt base (r :: rs) base = some r := by
  simp [recordAt]

theorem recordAt_cons_of_lt {base target : Int64} (r : Record) (rs : List Record)
    (hlt : base < target) :
    recordAt base (r :: rs) target = recordAt (base + 1) rs target := by
  rw [Int64.lt_iff_toInt_lt] at hlt
  have hnext : (base + 1).toInt = base.toInt + 1 :=
    toInt_add_one (by have := target.toInt_lt; omega)
  rw [recordAt, recordAt, hnext, if_pos (by omega), if_pos (by omega),
    show (target.toInt - base.toInt).toNat =
      (target.toInt - (base.toInt + 1)).toNat + 1 by omega]
  rfl

theorem recordAt_eq_none_of_lt {base target : Int64} (rs : List Record)
    (hlt : target < base) : recordAt base rs target = none := by
  rw [Int64.lt_iff_toInt_lt] at hlt
  rw [recordAt, if_neg (by omega)]

theorem state_runItems_scanFrom {base : Int64} {xs : List Record} (h : Numbered base xs)
    (target : Int64) :
    (runItems (scanFromBody target) (sized xs) none).state = recordAt base xs target := by
  induction xs generalizing base with
  | nil => simp [sized, runItems, Flow.state, recordAt]
  | cons r xs ih =>
    obtain ⟨hr, hxs⟩ := h
    change (runItems (scanFromBody target) ((r, r.encodedSize) :: sized xs) none).state = _
    rw [runItems, scanFromBody, hr]
    by_cases heq : base = target
    · rw [if_pos heq, ← heq, recordAt_cons_self]
      rfl
    · rw [if_neg heq]
      by_cases hlt : target < base
      · rw [if_pos hlt, recordAt_eq_none_of_lt _ hlt]
        rfl
      · rw [if_neg hlt]
        have hgt : base < target := by
          rw [Int64.lt_iff_toInt_lt] at hlt ⊢
          have hne : base.toInt ≠ target.toInt := fun h => heq (Int64.toInt_inj.mp h)
          omega
        rw [recordAt_cons_of_lt r xs hgt]
        exact ih hxs

theorem state_runItems_readFrom_take {offset : Int64} {maxBytes : Int32} {xs : List Record}
    (h : ∀ r ∈ xs, offset ≤ r.offset) (out : List Record) (acc : Int32) :
    (runItems (readFromBody offset maxBytes) (sized xs) (out, acc)).state.1 =
      out ++ takeBudget maxBytes acc xs := by
  induction xs generalizing out acc with
  | nil => simp [sized, runItems, Flow.state, takeBudget]
  | cons r xs ih =>
    have hr : ¬ r.offset < offset := by
      have := h r (by simp)
      rw [Int64.le_iff_toInt_le] at this
      rw [Int64.lt_iff_toInt_lt]
      omega
    change (runItems (readFromBody offset maxBytes) ((r, r.encodedSize) :: sized xs)
      (out, acc)).state.1 = _
    rw [runItems, readFromBody, if_neg hr, takeBudget]
    by_cases hfull : 0 < acc ∧ maxBytes < acc + Int32.ofNat r.encodedSize
    · rw [if_pos hfull, if_pos hfull]
      simp [Flow.state]
    · rw [if_neg hfull, if_neg hfull]
      dsimp only
      rw [ih (fun x hx => h x (by simp [hx]))]
      simp

theorem offset_lt_of_mem_take {base offset : Int64} {rs : List Record} {i : Nat}
    (h : Numbered base rs) (hbefore : base.toInt + i ≤ offset.toInt) :
    ∀ r ∈ rs.take i, r.offset < offset := by
  intro r hr
  obtain ⟨j, hj, rfl⟩ := List.mem_iff_getElem.mp hr
  rw [List.length_take] at hj
  have hoffset := offset.toInt_lt
  rw [List.getElem_take, numbered_getElem h j (by omega), Int64.lt_iff_toInt_lt,
    toInt_add_ofNat (by omega)]
  omega

theorem runItems_scanFrom_skip {target : Int64} {xs : List Record}
    (h : ∀ r ∈ xs, r.offset < target) (ys : List (Record × Nat)) :
    runItems (scanFromBody target) (sized xs ++ ys) none =
      runItems (scanFromBody target) ys none := by
  apply runItems_skip
  intro x hx
  obtain ⟨r, hr, rfl⟩ := List.mem_map.mp hx
  have hlt := h r hr
  rw [Int64.lt_iff_toInt_lt] at hlt
  have hne : r.offset ≠ target := by
    rintro rfl
    omega
  have hnot : ¬ target < r.offset := by
    rw [Int64.lt_iff_toInt_lt]
    omega
  rw [scanFromBody, if_neg hne, if_neg hnot]

theorem runItems_readFrom_skip {offset : Int64} {maxBytes : Int32} {xs : List Record}
    (h : ∀ r ∈ xs, r.offset < offset) (ys : List (Record × Nat)) (st : List Record × Int32) :
    runItems (readFromBody offset maxBytes) (sized xs ++ ys) st =
      runItems (readFromBody offset maxBytes) ys st := by
  apply runItems_skip
  intro x hx
  obtain ⟨r, hr, rfl⟩ := List.mem_map.mp hx
  rw [readFromBody, if_pos (h r hr)]

section

variable {crc : Checksum} {s : Segment} {rs : List Record}

theorem scanFrom_eq (h : Stores crc s rs) (hflushed : s.writer.buffer = [])
    (i : Nat) (hi : i ≤ rs.length) (target : Int64) :
    s.scanFrom crc (totalSize (rs.take i)) target =
      match recordAt (s.baseOffset + Int64.ofNat i) (rs.drop i) target with
      | some r => .ok r
      | none => .error (.notFound target) := by
  have hfits : ∀ r ∈ rs.drop i, r.encodedSize ≤ maxRecordSize :=
    fun r hr => h.fits r (List.mem_of_mem_drop hr)
  have hstate := state_runItems_scanFrom (numbered_drop h.numbered i hi) target
  rw [Segment.scanFrom, h.readHandle hflushed, drop_image,
    readLoop_eq_runItems (decodeRecord_progressive crc), items_image crc hfits]
  dsimp only
  cases hrun : runItems (scanFromBody target) (sized (rs.drop i)) none with
  | stop found =>
    rw [hrun] at hstate
    change found = _ at hstate
    rw [← hstate]
    cases found with
    | some r => rfl
    | none => rfl
  | next found =>
    rw [hrun] at hstate
    change found = _ at hstate
    rw [← hstate]
    cases found with
    | some r => rfl
    | none => rfl

theorem readAt_eq_scanFrom (crc : Checksum) (s : Segment) (position : Nat) (target : Int64) :
    s.readAt crc position target = s.scanFrom crc position target := by
  rw [Segment.readAt]
  cases hdecode : decodeRecord crc (s.readHandle.drop position) with
  | error e =>
    rw [Segment.scanFrom, readLoop, readLoopFuel, hdecode]
  | ok item =>
    obtain ⟨r, n⟩ := item
    dsimp only
    by_cases htarget : r.offset = target
    · rw [if_neg (by simpa using htarget), Segment.scanFrom, readLoop, readLoopFuel, hdecode]
      dsimp only
      rw [scanFromBody, if_pos htarget]
    · rw [if_pos htarget]

theorem recordAt_drop {base target : Int64} {rs : List Record} {i : Nat}
    (htarget : base.toInt + i ≤ target.toInt) :
    recordAt (base + Int64.ofNat i) (rs.drop i) target = recordAt base rs target := by
  have hlt := target.toInt_lt
  rw [recordAt, recordAt, toInt_add_ofNat (by omega), if_pos htarget, if_pos (by omega),
    List.getElem?_drop]
  congr 1
  omega

theorem relativeOffset_toNat {offset base : Int64} (hle : base.toInt ≤ offset.toInt) :
    (relativeOffset offset base).toNat = (offset.toInt - base.toInt).toNat % 2 ^ 32 := by
  have hoff := offset.toInt_lt
  have hbase := base.le_toInt
  have hlt := (offset - base).toUInt64.toNat_lt
  have hbits : (offset - base).toInt = Int.bmod (offset - base).toUInt64.toNat (2 ^ 64) :=
    BitVec.toInt_eq_toNat_bmod _
  rw [Int64.toInt_sub, Int.bmod_def, Int.bmod_def] at hbits
  rw [relativeOffset, UInt64.toNat_toUInt32]
  generalize (offset - base).toUInt64.toNat = n at hlt hbits ⊢
  congr 1
  omega

theorem lookup_before {offset : Int64} (h : Stores crc s rs)
    (hle : s.baseOffset.toInt ≤ offset.toInt) :
    ∃ pos found i, s.index.lookup (relativeOffset offset s.baseOffset) = .ok (pos, found) ∧
      i ≤ rs.length ∧ pos.toNat = totalSize (rs.take i) ∧
      s.baseOffset.toInt + i ≤ offset.toInt := by
  obtain ⟨pos, found, i, hlookup, hi, hrel, hpos⟩ :=
    h.lookup (relativeOffset offset s.baseOffset)
  refine ⟨pos, found, i, hlookup, hi, hpos, ?_⟩
  rw [relativeOffset_toNat hle] at hrel
  have := Nat.mod_le (offset.toInt - s.baseOffset.toInt).toNat (2 ^ 32)
  omega

theorem read_eq_scanFrom {offset : Int64} (h : Stores crc s rs) (hle : s.baseOffset ≤ offset) :
    ∃ i, i ≤ rs.length ∧ s.baseOffset.toInt + i ≤ offset.toInt ∧
      s.read crc offset = s.scanFrom crc (totalSize (rs.take i)) offset := by
  rw [Int64.le_iff_toInt_le] at hle
  obtain ⟨pos, found, i, hlookup, hi, hpos, hbefore⟩ := lookup_before h hle
  have hnot : ¬ offset < s.baseOffset := by
    rw [Int64.lt_iff_toInt_lt]
    omega
  refine ⟨i, hi, hbefore, ?_⟩
  rw [Segment.read, if_neg (by simp [h.isOpen]), if_neg hnot, hlookup]
  dsimp only
  rw [hpos, readAt_eq_scanFrom, ite_self]

/-- `Segment.Read` returns the record stored at the offset and fails when
there is none. -/
theorem read_eq {offset : Int64} (h : Stores crc s rs) (hflushed : s.writer.buffer = [])
    (hle : s.baseOffset ≤ offset) :
    s.read crc offset =
      match recordAt s.baseOffset rs offset with
      | some r => .ok r
      | none => .error (.notFound offset) := by
  obtain ⟨i, hi, hbefore, hread⟩ := read_eq_scanFrom h hle
  rw [hread, scanFrom_eq h hflushed i hi, recordAt_drop hbefore]

/-- `Segment.ReadFrom` returns what the budget admits of the records stored
from the offset on. -/
theorem readFrom_eq {offset : Int64} {maxBytes : Int32} (h : Stores crc s rs)
    (hflushed : s.writer.buffer = []) (hrange : s.baseOffset.toInt + rs.length < 2 ^ 63)
    (hle : s.baseOffset ≤ offset) (hmax : 0 < maxBytes) :
    s.readFrom crc offset maxBytes =
      (takeBudget maxBytes 0 (rs.drop (offset.toInt - s.baseOffset.toInt).toNat), none) := by
  rw [Int64.le_iff_toInt_le] at hle
  obtain ⟨pos, found, i, hlookup, hi, hpos, hbefore⟩ := lookup_before h hle
  have hnot : ¬ offset < s.baseOffset := by
    rw [Int64.lt_iff_toInt_lt]
    omega
  have hpositive : ¬ maxBytes ≤ 0 := by
    rw [Int32.lt_iff_toInt_lt] at hmax
    rw [Int32.le_iff_toInt_le]
    omega
  have hfits : ∀ r ∈ rs.drop i, r.encodedSize ≤ maxRecordSize :=
    fun r hr => h.fits r (List.mem_of_mem_drop hr)
  generalize hk : (offset.toInt - s.baseOffset.toInt).toNat = k
  have hik : i ≤ k := by omega
  have hsplit : rs.drop i = (rs.drop i).take (k - i) ++ rs.drop k := by
    have hdrop : rs.drop k = (rs.drop i).drop (k - i) := by
      rw [List.drop_drop, Nat.add_sub_cancel' hik]
    rw [hdrop, List.take_append_drop]
  have hstate : (runItems (readFromBody offset maxBytes) (sized (rs.drop i)) ([], 0)).state.1 =
      takeBudget maxBytes 0 (rs.drop k) := by
    have hstart : (s.baseOffset + Int64.ofNat i).toInt + (k - i : Nat) ≤ offset.toInt := by
      rw [toInt_add_ofNat (by omega)]
      omega
    rw [hsplit, sized_append, runItems_readFrom_skip
      (offset_lt_of_mem_take (numbered_drop h.numbered i hi) hstart)]
    apply (state_runItems_readFrom_take ?_ [] 0).trans (List.nil_append _)
    intro r hr
    obtain ⟨j, hj, rfl⟩ := List.mem_iff_getElem.mp hr
    rw [List.length_drop] at hj
    rw [List.getElem_drop, Int64.le_iff_toInt_le,
      numbered_toInt h.numbered hrange.le (k + j) (by omega)]
    omega
  rw [Segment.readFrom, if_neg (by simp [h.isOpen]), if_neg hpositive, if_neg hnot, hlookup]
  dsimp only
  rw [hpos, h.readHandle hflushed, drop_image,
    readLoop_eq_runItems (decodeRecord_progressive crc), items_image crc hfits]
  cases hrun : runItems (readFromBody offset maxBytes) (sized (rs.drop i)) ([], 0) with
  | stop st =>
    rw [hrun] at hstate
    obtain ⟨records, acc⟩ := st
    change records = _ at hstate
    rw [hstate]
  | next st =>
    rw [hrun] at hstate
    obtain ⟨records, acc⟩ := st
    change records = _ at hstate
    simp [hstate, DecodeError.isEnd]

end

end MiniKafka.SegmentReads
