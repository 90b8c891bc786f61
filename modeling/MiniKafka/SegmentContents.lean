import Mathlib.Data.List.Induction
import MiniKafka.SegmentStore

/-!
What a segment stores, as a list of records.

`Accounting` states once which bytes are counted and which records get an
index entry.  Appending and rebuilding are both shown to keep it, and reads
are described by the stored list alone: neither the sparse index nor the split
between file and buffer shows through.
-/

namespace MiniKafka.SegmentContents

open BigEndian ReadLoop BufferedWriter RecordCodec OffsetIndex SegmentStore

@[ext]
structure Accounting where
  bytesWritten : Nat
  bytesSinceLastIndex : Nat
  entries : List Entry

def Accounting.step (interval base : Int64) (a : Accounting) (x : Record × Nat) : Accounting :=
  if a.entries.length = 0 ∨ interval.toInt ≤ (a.bytesSinceLastIndex + x.2 : Nat) then
    ⟨a.bytesWritten + x.2, 0,
      a.entries ++ [⟨relativeOffset x.1.offset base, UInt32.ofNat a.bytesWritten⟩]⟩
  else ⟨a.bytesWritten + x.2, a.bytesSinceLastIndex + x.2, a.entries⟩

def account (interval base : Int64) (xs : List (Record × Nat)) : Accounting :=
  xs.foldl (Accounting.step interval base) ⟨0, 0, []⟩

/-- The offsets of `rs` count up from `base`, in the arithmetic of the offset
type. -/
def Numbered : Int64 → List Record → Prop
  | _, [] => True
  | base, r :: rs => r.offset = base ∧ Numbered (base + 1) rs

def sized (rs : List Record) : List (Record × Nat) := rs.map fun r => (r, r.encodedSize)

def totalSize (rs : List Record) : Nat := (rs.map Record.encodedSize).sum

def image (crc : Checksum) (rs : List Record) : Bytes := rs.flatMap (Record.wireImage crc)

@[simp] theorem account_nil (interval base : Int64) : account interval base [] = ⟨0, 0, []⟩ := rfl

theorem account_snoc (interval base : Int64) (xs : List (Record × Nat)) (x : Record × Nat) :
    account interval base (xs ++ [x]) = (account interval base xs).step interval base x := by
  simp [account]

theorem account_bytesWritten (interval base : Int64) (xs : List (Record × Nat)) :
    (account interval base xs).bytesWritten = (xs.map Prod.snd).sum := by
  induction xs using List.reverseRecOn with
  | nil => rfl
  | append_singleton xs x ih =>
    rw [account_snoc, Accounting.step]
    split <;> simp [ih]

theorem account_entries_initial (interval base : Int64) (xs ys : List (Record × Nat)) :
    (account interval base xs).entries <+: (account interval base (xs ++ ys)).entries := by
  induction ys using List.reverseRecOn with
  | nil => simp
  | append_singleton ys y ih =>
    rw [← List.append_assoc, account_snoc, Accounting.step]
    split
    · exact ih.trans (List.prefix_append _ _)
    · exact ih

theorem mem_account_entries {interval base : Int64} {xs : List (Record × Nat)} {e : Entry}
    (he : e ∈ (account interval base xs).entries) :
    ∃ i, ∃ hi : i < xs.length, e = ⟨relativeOffset xs[i].1.offset base,
      UInt32.ofNat ((xs.take i).map Prod.snd).sum⟩ := by
  induction xs using List.reverseRecOn with
  | nil => simp at he
  | append_singleton xs x ih =>
    have hold : e ∈ (account interval base xs).entries →
        ∃ i, ∃ hi : i < (xs ++ [x]).length, e = ⟨relativeOffset (xs ++ [x])[i].1.offset base,
          UInt32.ofNat (((xs ++ [x]).take i).map Prod.snd).sum⟩ := by
      intro hmem
      obtain ⟨i, hi, rfl⟩ := ih hmem
      refine ⟨i, by simp; omega, ?_⟩
      rw [List.getElem_append_left hi, List.take_append_of_le_length (by omega)]
    rw [account_snoc, Accounting.step] at he
    split at he
    · rcases List.mem_append.mp he with hmem | hmem
      · exact hold hmem
      · rw [List.mem_singleton] at hmem
        refine ⟨xs.length, by simp, ?_⟩
        rw [hmem, account_bytesWritten]
        simp
    · exact hold he

theorem account_entries_head (interval base : Int64) (x : Record × Nat)
    (xs : List (Record × Nat)) :
    (account interval base (x :: xs)).entries.head? =
      some ⟨relativeOffset x.1.offset base, 0⟩ := by
  have hfirst : (account interval base [x]).entries =
      [⟨relativeOffset x.1.offset base, 0⟩] := by
    simp [account, Accounting.step]
  obtain ⟨rest, hrest⟩ := account_entries_initial interval base [x] xs
  rw [hfirst] at hrest
  change _ = (account interval base (x :: xs)).entries at hrest
  rw [← hrest]
  rfl

theorem account_entries_pairwise {interval base : Int64} {xs : List (Record × Nat)}
    {R : Entry → Entry → Prop}
    (hR : ∀ i j (hij : i < j) (hj : j < xs.length),
      R ⟨relativeOffset xs[i].1.offset base, UInt32.ofNat ((xs.take i).map Prod.snd).sum⟩
        ⟨relativeOffset xs[j].1.offset base, UInt32.ofNat ((xs.take j).map Prod.snd).sum⟩) :
    (account interval base xs).entries.Pairwise R := by
  induction xs using List.reverseRecOn with
  | nil => exact List.Pairwise.nil
  | append_singleton xs x ih =>
    have hold : (account interval base xs).entries.Pairwise R := by
      refine ih fun i j hij hj => ?_
      have := hR i j hij (by simp; omega)
      rwa [List.getElem_append_left (by omega), List.getElem_append_left hj,
        List.take_append_of_le_length (by omega), List.take_append_of_le_length hj.le] at this
    rw [account_snoc, Accounting.step]
    split
    · refine List.pairwise_append.mpr ⟨hold, List.pairwise_singleton _ _, ?_⟩
      intro e he e' he'
      rw [List.mem_singleton.mp he']
      obtain ⟨i, hi, rfl⟩ := mem_account_entries he
      have := hR i xs.length hi (by simp)
      rw [List.getElem_append_left hi, List.take_append_of_le_length hi.le] at this
      rw [account_bytesWritten]
      simpa using this
    · exact hold

theorem numbered_append {base : Int64} {rs ts : List Record} :
    Numbered base (rs ++ ts) ↔
      Numbered base rs ∧ Numbered (base + Int64.ofNat rs.length) ts := by
  induction rs generalizing base with
  | nil => simp [Numbered]
  | cons r rs ih =>
    have hbase : base + 1 + Int64.ofNat rs.length =
        base + Int64.ofNat (rs.length + 1) := by
      rw [Int64.ofNat_add, Int64.add_assoc, Int64.add_comm 1]
      rfl
    simp only [List.cons_append, Numbered, ih, List.length_cons, hbase, and_assoc]

theorem numbered_getElem {base : Int64} {rs : List Record} (h : Numbered base rs) (i : Nat)
    (hi : i < rs.length) : rs[i].offset = base + Int64.ofNat i := by
  have hsplit : rs = rs.take i ++ rs[i] :: rs.drop (i + 1) := by simp
  rw [hsplit, numbered_append] at h
  have hlen : (rs.take i).length = i := by simp; omega
  rw [hlen] at h
  exact h.2.1

theorem numbered_drop {base : Int64} {rs : List Record} (h : Numbered base rs) (i : Nat)
    (hi : i ≤ rs.length) : Numbered (base + Int64.ofNat i) (rs.drop i) := by
  rw [← List.take_append_drop i rs, numbered_append, List.length_take,
    Nat.min_eq_left hi] at h
  exact h.2

theorem toInt_add_ofNat {base : Int64} {n : Nat} (h : base.toInt + n < 2 ^ 63) :
    (base + Int64.ofNat n).toInt = base.toInt + n := by
  have hbase := base.le_toInt
  rw [Int64.toInt_add, Int64.toInt_ofNat', Int.add_bmod_bmod]
  exact Int.bmod_eq_of_le (by norm_num; omega) (by norm_num; omega)

theorem toInt_add_one {base : Int64} (h : base.toInt + 1 < 2 ^ 63) :
    (base + 1).toInt = base.toInt + 1 := toInt_add_ofNat (n := 1) h

theorem numbered_toInt {base : Int64} {rs : List Record} (h : Numbered base rs)
    (hrange : base.toInt + rs.length ≤ 2 ^ 63) (i : Nat) (hi : i < rs.length) :
    rs[i].offset.toInt = base.toInt + i := by
  rw [numbered_getElem h i hi]
  exact toInt_add_ofNat (by omega)

theorem numbered_nodup {base : Int64} {rs : List Record} (h : Numbered base rs)
    (hrange : base.toInt + rs.length ≤ 2 ^ 63) : rs.Nodup := by
  refine List.pairwise_iff_getElem.mpr fun i j hi hj hij heq => ?_
  have hoffset : rs[i].offset.toInt = rs[j].offset.toInt := by rw [heq]
  rw [numbered_toInt h hrange i hi, numbered_toInt h hrange j hj] at hoffset
  omega

theorem relativeOffset_numbered {base : Int64} {rs : List Record} (h : Numbered base rs)
    (i : Nat) (hi : i < rs.length) : relativeOffset rs[i].offset base = UInt32.ofNat i := by
  rw [numbered_getElem h i hi, relativeOffset, Int64.add_comm, Int64.add_sub_cancel]
  simp

@[simp] theorem image_append (crc : Checksum) (rs ts : List Record) :
    image crc (rs ++ ts) = image crc rs ++ image crc ts := by
  simp [image]

@[simp] theorem length_image (crc : Checksum) (rs : List Record) :
    (image crc rs).length = totalSize rs := by
  simp [image, totalSize, List.length_flatMap]

theorem sum_sized (rs : List Record) : ((sized rs).map Prod.snd).sum = totalSize rs := by
  simp [sized, totalSize, Function.comp_def]

@[simp] theorem length_sized (rs : List Record) : (sized rs).length = rs.length := by
  simp [sized]

theorem sized_append (rs ts : List Record) : sized (rs ++ ts) = sized rs ++ sized ts := by
  simp [sized]

theorem sized_take (rs : List Record) (i : Nat) : (sized rs).take i = sized (rs.take i) := by
  simp [sized, List.map_take]

theorem drop_image (crc : Checksum) (rs : List Record) (i : Nat) :
    (image crc rs).drop (totalSize (rs.take i)) = image crc (rs.drop i) := by
  conv_lhs => rw [← List.take_append_drop i rs, image_append]
  rw [List.drop_left' (by simp)]

theorem items_image_append (crc : Checksum) {rs : List Record} (rest : Bytes)
    (hfits : ∀ r ∈ rs, r.encodedSize ≤ maxRecordSize) :
    items (decodeRecord crc) (image crc rs ++ rest) =
      (sized rs ++ (items (decodeRecord crc) rest).1, (items (decodeRecord crc) rest).2) := by
  rw [image, items_flatMap_append (decodeRecord_progressive crc) (Record.wireImage crc) rs rest]
  · simp [sized]
  · intro r hr tail
    rw [length_wireImage]
    exact decodeRecord_wireImage_append crc r tail (hfits r hr)

theorem decodeRecord_nil (crc : Checksum) : decodeRecord crc [] = .error .eof := rfl

theorem items_image (crc : Checksum) {rs : List Record}
    (hfits : ∀ r ∈ rs, r.encodedSize ≤ maxRecordSize) :
    items (decodeRecord crc) (image crc rs) = (sized rs, some .eof) := by
  have h := items_image_append crc [] hfits
  rw [List.append_nil, items_of_error (decodeRecord_progressive crc) (decodeRecord_nil crc)] at h
  simpa using h

/-- An index a segment can work with: mapped, with a capacity that is a whole
number of entries and is not exceeded. -/
structure IndexUsable (i : Index) : Prop where
  mapped : i.mapped = true
  room : entrySize ≤ i.maxSize
  whole : i.maxSize % entrySize = 0
  range : i.maxSize < 2 ^ 63
  capacity : i.size ≤ i.maxSize

/-- The segment holds the records `rs` and nothing else. -/
structure Stores (crc : Checksum) (s : Segment) (rs : List Record) : Prop where
  isOpen : s.closed = false
  numbered : Numbered s.baseOffset rs
  fits : ∀ r ∈ rs, r.encodedSize ≤ maxRecordSize
  contents : s.writer.contents = image crc rs
  bytesWritten : s.bytesWritten = totalSize rs
  positions : ∀ i, i < rs.length → totalSize (rs.take i) ≤ maxUint32
  entries : s.index.entries = (account s.indexInterval s.baseOffset (sized rs)).entries
  usable : IndexUsable s.index

/-- The segment holds `rs` and its write side is where appending them would
have left it. -/
structure Writable (crc : Checksum) (s : Segment) (rs : List Record) : Prop
    extends Stores crc s rs where
  nextOffset : s.nextOffset = s.baseOffset + Int64.ofNat rs.length
  sinceLastIndex : s.bytesSinceLastIndex =
    (account s.indexInterval s.baseOffset (sized rs)).bytesSinceLastIndex

theorem Stores.initial {crc : Checksum} {s : Segment} {ks rs : List Record} (h : Stores crc s rs)
    (hinitial : ks <+: rs) :
    Numbered s.baseOffset ks ∧ (∀ r ∈ ks, r.encodedSize ≤ maxRecordSize) ∧
      ∀ i, i < ks.length → totalSize (ks.take i) ≤ maxUint32 := by
  obtain ⟨rest, rfl⟩ := hinitial
  refine ⟨(numbered_append.mp h.numbered).1, fun r hr => h.fits r (List.mem_append_left _ hr), ?_⟩
  intro i hi
  have hposition := h.positions i (by rw [List.length_append]; omega)
  rwa [List.take_append_of_le_length hi.le] at hposition

theorem totalSize_append (rs ts : List Record) :
    totalSize (rs ++ ts) = totalSize rs + totalSize ts := by
  simp [totalSize]

theorem totalSize_ge (rs : List Record) : 33 * rs.length ≤ totalSize rs := by
  induction rs with
  | nil => simp [totalSize]
  | cons r rs ih =>
    have hr := encodedSize_ge r
    simp only [totalSize, List.map_cons, List.sum_cons, List.length_cons] at ih ⊢
    omega

theorem length_lt_of_positions {rs : List Record}
    (h : ∀ i, i < rs.length → totalSize (rs.take i) ≤ maxUint32) : rs.length < 2 ^ 28 := by
  by_contra hge
  have hpos := h (rs.length - 1) (by omega)
  have hsize := totalSize_ge (rs.take (rs.length - 1))
  rw [List.length_take, Nat.min_eq_left (by omega)] at hsize
  simp only [maxUint32] at hpos
  omega

theorem Stores.entry {crc : Checksum} {s : Segment} {rs : List Record} (h : Stores crc s rs)
    {i : Nat} (hi : i < (sized rs).length) :
    (relativeOffset (sized rs)[i].1.offset s.baseOffset).toNat = i ∧
      (UInt32.ofNat (((sized rs).take i).map Prod.snd).sum).toNat = totalSize (rs.take i) := by
  rw [length_sized] at hi
  have hlen := length_lt_of_positions h.positions
  have hbound := h.positions i hi
  constructor
  · simp only [sized, List.getElem_map, relativeOffset_numbered h.numbered i hi,
      UInt32.toNat_ofNat']
    exact Nat.mod_eq_of_lt (by omega)
  · rw [sized_take, sum_sized, UInt32.toNat_ofNat']
    simp only [maxUint32] at hbound
    exact Nat.mod_eq_of_lt (by omega)

theorem totalSize_take_lt {rs : List Record} {i j : Nat} (hij : i < j) (hj : j < rs.length) :
    totalSize (rs.take i) < totalSize (rs.take j) := by
  have hsplit : rs.take j = rs.take i ++ (rs.take j).drop i := by
    conv_lhs => rw [← List.take_append_drop i (rs.take j), List.take_take, Nat.min_eq_left hij.le]
  have hrest := totalSize_ge ((rs.take j).drop i)
  rw [List.length_drop, List.length_take, Nat.min_eq_left hj.le] at hrest
  rw [hsplit, totalSize_append]
  omega

theorem Stores.increasing_both {crc : Checksum} {s : Segment} {rs : List Record}
    (h : Stores crc s rs) :
    s.index.entries.Pairwise fun a b =>
      a.relativeOffset < b.relativeOffset ∧ a.position < b.position := by
  rw [h.entries]
  refine account_entries_pairwise fun i j hij hj => ?_
  obtain ⟨hi₁, hi₂⟩ := h.entry (hij.trans hj)
  obtain ⟨hj₁, hj₂⟩ := h.entry hj
  rw [UInt32.lt_iff_toNat_lt, UInt32.lt_iff_toNat_lt, hi₁, hi₂, hj₁, hj₂]
  exact ⟨hij, totalSize_take_lt hij (by rwa [length_sized] at hj)⟩

theorem Stores.increasing {crc : Checksum} {s : Segment} {rs : List Record}
    (h : Stores crc s rs) : Increasing s.index.entries :=
  h.increasing_both.imp fun hlt => hlt.1

/-- Wherever a lookup sends a reader, it is the start of a record that does
not lie beyond the target, or the end of an empty segment. -/
theorem Stores.lookup {crc : Checksum} {s : Segment} {rs : List Record}
    (h : Stores crc s rs) (rel : UInt32) :
    ∃ pos found i, s.index.lookup rel = .ok (pos, found) ∧ i ≤ rs.length ∧
      i ≤ rel.toNat ∧ pos.toNat = totalSize (rs.take i) := by
  obtain ⟨pos, found, hlookup, hzero | ⟨e, he, hpos, hle⟩⟩ :=
    lookup_spec h.usable.mapped h.increasing rel
  · exact ⟨pos, found, 0, hlookup, by omega, by omega, by simp [hzero, totalSize]⟩
  · rw [h.entries] at he
    obtain ⟨i, hi, rfl⟩ := mem_account_entries he
    obtain ⟨hdistance, hposition⟩ := h.entry hi
    rw [UInt32.le_iff_toNat_le, hdistance] at hle
    rw [length_sized] at hi
    exact ⟨pos, found, i, hlookup, hi.le, hle, by rw [← hpos, hposition]⟩

theorem Stores.readHandle {crc : Checksum} {s : Segment} {rs : List Record}
    (h : Stores crc s rs) (hflushed : s.writer.buffer = []) :
    s.readHandle = image crc rs := by
  have hfile : s.writer.file = image crc rs := by
    rw [← h.contents, Writer.contents, hflushed, List.append_nil]
  rw [Segment.readHandle, hfile, h.bytesWritten, ← length_image crc, List.take_length]

end MiniKafka.SegmentContents
