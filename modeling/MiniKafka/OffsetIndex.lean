import MiniKafka.BinarySearch
import MiniKafka.BigEndian

/-!
The sparse offset index of `internal/storage/index.go`.

The preallocated tail of the mapped region is zero and never read through the
index, so an index is its list of entries together with the capacity of the
mapping.  Files are byte lists; `newIndex` reads one and `close` returns one.
-/

namespace MiniKafka.OffsetIndex

open BigEndian BinarySearch

def entrySize : Nat := 8

structure Entry where
  relativeOffset : UInt32
  position : UInt32
  deriving DecidableEq, Repr

inductive IndexError where
  | negativeMaxSize
  | maxSizeTooSmall
  | indexFull
  | notMapped
  deriving DecidableEq, Repr

/-- An open index.  `mapped` is false once an empty index has been sealed. -/
structure Index where
  entries : List Entry
  maxSize : Nat
  mapped : Bool
  deriving DecidableEq, Repr

def Index.size (i : Index) : Nat := i.entries.length * entrySize

def Entry.encode (e : Entry) : Bytes :=
  putUint32 e.relativeOffset ++ putUint32 e.position

def decodeEntry (data : Bytes) (j : Nat) : Entry :=
  ⟨getUint32 ((data.drop (j * entrySize)).take 4),
    getUint32 ((data.drop (j * entrySize + 4)).take 4)⟩

/-- Drop trailing zero entries, keeping the first slot whatever it holds. -/
def trimZeroEntries (data : Bytes) : Nat → Nat
  | 0 => 0
  | 1 => 1
  | n + 2 =>
    if decodeEntry data (n + 1) = ⟨0, 0⟩ then trimZeroEntries data (n + 1) else n + 2

def newIndex (file : Bytes) (maxBytes : Int64) : Except IndexError Index :=
  if maxBytes < 0 then .error .negativeMaxSize
  else
    let maxSize := maxBytes.toNatClampNeg - maxBytes.toNatClampNeg % entrySize
    if maxSize = 0 then .error .maxSizeTooSmall
    else
      let logical := min (file.length - file.length % entrySize) maxSize
      let n := trimZeroEntries file (logical / entrySize)
      .ok ⟨(List.range n).map (decodeEntry file), maxSize, true⟩

def Index.append (i : Index) (relativeOffset position : UInt32) : Except IndexError Index :=
  if i.maxSize < i.size + entrySize then .error .indexFull
  else if !i.mapped then .error .notMapped
  else .ok { i with entries := i.entries ++ [⟨relativeOffset, position⟩] }

/-- The position to start reading from for `relativeOffset`, and whether the
entry found is an exact match. -/
def Index.lookup (i : Index) (relativeOffset : UInt32) : Except IndexError (UInt32 × Bool) :=
  if !i.mapped then .error .notMapped
  else
    let n := i.entries.length
    if n = 0 then .ok (0, false)
    else
      let entry := fun j => i.entries.getD j ⟨0, 0⟩
      let idx := search n fun j => decide (relativeOffset ≤ (entry j).relativeOffset)
      if idx < n ∧ (entry idx).relativeOffset = relativeOffset then
        .ok ((entry idx).position, true)
      else if 0 < idx then .ok ((entry (idx - 1)).position, false)
      else .ok (0, false)

def Index.seal (i : Index) : Index :=
  if i.size = 0 then { i with maxSize := 0, mapped := false }
  else { i with maxSize := i.size, mapped := true }

/-- The file left behind by `Close`: the entries and no preallocated tail. -/
def Index.close (i : Index) : Bytes := i.entries.flatMap Entry.encode

@[simp] theorem length_encode (e : Entry) : e.encode.length = entrySize := by
  simp [Entry.encode, entrySize]

theorem length_flatMap_encode (es : List Entry) :
    (es.flatMap Entry.encode).length = es.length * entrySize := by
  induction es with
  | nil => rfl
  | cons e es ih =>
    simp only [List.flatMap_cons, List.length_append, length_encode, ih, List.length_cons,
      entrySize]
    omega

theorem decodeEntry_flatMap (es : List Entry) (j : Nat) (hj : j < es.length) :
    decodeEntry (es.flatMap Entry.encode) j = es[j] := by
  induction es generalizing j with
  | nil => simp at hj
  | cons e es ih =>
    cases j with
    | zero =>
      simp only [decodeEntry, List.flatMap_cons, Nat.zero_mul, List.drop_zero, Nat.zero_add,
        Entry.encode, List.append_assoc, List.getElem_cons_zero]
      rw [List.take_left' (by simp), List.drop_left' (by simp), List.take_left' (by simp)]
      simp
    | succ j =>
      have hstep : decodeEntry ((e :: es).flatMap Entry.encode) (j + 1) =
          decodeEntry (es.flatMap Entry.encode) j := by
        simp only [decodeEntry, List.flatMap_cons, entrySize]
        rw [show (j + 1) * 8 = 8 + j * 8 by omega,
          show 8 + j * 8 + 4 = 8 + (j * 8 + 4) by omega, ← List.drop_drop, ← List.drop_drop,
          List.drop_left' (by simp [entrySize])]
      rw [hstep, ih j (by simpa using hj)]
      rfl

theorem trimZeroEntries_eq {data : Bytes} {n : Nat}
    (h : 1 < n → decodeEntry data (n - 1) ≠ ⟨0, 0⟩) : trimZeroEntries data n = n := by
  match n with
  | 0 => rfl
  | 1 => rfl
  | n + 2 =>
    rw [trimZeroEntries, if_neg]
    simpa using h (by omega)

theorem getUint32_zeros (n : Nat) : getUint32 (List.replicate n 0) = 0 := by
  have hzero : getBE (List.replicate n 0) = 0 := by
    induction n with
    | zero => rfl
    | succ n ih => simp [List.replicate_succ, getBE, ih]
  rw [getUint32, hzero]
  rfl

theorem decodeEntry_take {data : Bytes} {cut j : Nat} (h : (j + 1) * entrySize ≤ cut) :
    decodeEntry (data.take cut) j = decodeEntry data j := by
  simp only [entrySize] at h
  simp only [decodeEntry, entrySize]
  rw [List.drop_take, List.drop_take, List.take_take, List.take_take,
    Nat.min_eq_left (by omega), Nat.min_eq_left (by omega)]

theorem decodeEntry_append_left {xs : Bytes} {j : Nat} (ys : Bytes)
    (h : (j + 1) * entrySize ≤ xs.length) : decodeEntry (xs ++ ys) j = decodeEntry xs j := by
  rw [← decodeEntry_take h, List.take_left]

theorem decodeEntry_padding {xs : Bytes} {n j : Nat} (h : xs.length ≤ j * entrySize) :
    decodeEntry (xs ++ List.replicate n 0) j = ⟨0, 0⟩ := by
  have hdrop : ∀ k, xs.length ≤ k →
      ((xs ++ List.replicate n 0).drop k).take 4 =
        List.replicate (min 4 (n - (k - xs.length))) 0 := by
    intro k hk
    rw [List.drop_append, List.drop_eq_nil_of_le hk, List.nil_append, List.drop_replicate,
      List.take_replicate]
  rw [decodeEntry, hdrop _ h, hdrop _ (by omega), getUint32_zeros, getUint32_zeros]

theorem trimZeroEntries_padding {data : Bytes} {n : Nat} (hpos : 0 < n)
    (hlast : 1 < n → decodeEntry data (n - 1) ≠ ⟨0, 0⟩) (p : Nat)
    (hzero : ∀ j, n ≤ j → j < n + p → decodeEntry data j = ⟨0, 0⟩) :
    trimZeroEntries data (n + p) = n := by
  induction p with
  | zero => exact trimZeroEntries_eq hlast
  | succ p ih =>
    obtain ⟨m, rfl⟩ : ∃ m, n = m + 1 := ⟨n - 1, by omega⟩
    rw [show m + 1 + (p + 1) = (m + p) + 2 by omega, trimZeroEntries,
      if_pos (hzero (m + p + 1) (by omega) (by omega)), show m + p + 1 = m + 1 + p by omega]
    exact ih fun j hle hlt => hzero j hle (by omega)

def padded (es : List Entry) (n : Nat) : Bytes := es.flatMap Entry.encode ++ List.replicate n 0

theorem length_padded (es : List Entry) (n : Nat) :
    (padded es n).length = es.length * entrySize + n := by
  rw [padded, List.length_append, length_flatMap_encode, List.length_replicate]

section

variable {es : List Entry} {n cut slots : Nat}

theorem decodeEntry_padded (hcut : slots * entrySize ≤ cut) {j : Nat} (hslot : j < slots) :
    decodeEntry ((padded es n).take cut) j = es.getD j ⟨0, 0⟩ := by
  simp only [entrySize] at hcut
  rw [decodeEntry_take (by simp only [entrySize]; omega), padded]
  rcases Nat.lt_or_ge j es.length with hj | hj
  · rw [decodeEntry_append_left _ (by rw [length_flatMap_encode]; simp only [entrySize]; omega),
      decodeEntry_flatMap _ _ hj]
    simp [List.getD_eq_getElem?_getD, hj]
  · rw [decodeEntry_padding (by rw [length_flatMap_encode]; simp only [entrySize]; omega)]
    simp [List.getD_eq_getElem?_getD, hj]

theorem trimZeroEntries_padded (hcut : slots * entrySize ≤ cut)
    (hfirst : es ≠ [] ∨ slots = 0)
    (hlast : 1 < min es.length slots →
      es.getD (min es.length slots - 1) ⟨0, 0⟩ ≠ ⟨0, 0⟩) :
    trimZeroEntries ((padded es n).take cut) slots = min es.length slots := by
  rcases Nat.eq_zero_or_pos slots with rfl | hpos
  · simp [trimZeroEntries]
  · have hlen : 0 < es.length := List.length_pos_iff.mpr (hfirst.resolve_right (by omega))
    obtain ⟨p, hp⟩ : ∃ p, slots = min es.length slots + p := ⟨slots - min es.length slots, by omega⟩
    have htrim : trimZeroEntries ((padded es n).take cut) (min es.length slots + p) =
        min es.length slots := by
      refine trimZeroEntries_padding (by omega) (fun hlong => ?_) p fun j hle hlt => ?_
      · rw [decodeEntry_padded hcut (by omega)]
        exact hlast hlong
      · rw [decodeEntry_padded hcut (by omega), List.getD_eq_getElem?_getD,
          List.getElem?_eq_none (by omega)]
        rfl
    rwa [← hp] at htrim

/-- Opening an index file that was cut keeps the entries that fit in what is left of
the file and in the maximum size. -/
theorem newIndex_padded {maxBytes : Int64} (hroom : entrySize ≤ maxBytes.toNatClampNeg)
    (hslots : slots = min ((padded es n).take cut).length maxBytes.toNatClampNeg / entrySize)
    (hfirst : es ≠ [] ∨ slots = 0)
    (hlast : 1 < min es.length slots →
      es.getD (min es.length slots - 1) ⟨0, 0⟩ ≠ ⟨0, 0⟩) :
    newIndex ((padded es n).take cut) maxBytes = .ok
      ⟨es.take slots, maxBytes.toNatClampNeg - maxBytes.toNatClampNeg % entrySize, true⟩ := by
  have hneg : ¬ maxBytes < 0 := by
    simp only [Int64.toNatClampNeg, entrySize] at hroom
    rw [Int64.lt_iff_toInt_lt, Int64.toInt_zero]
    omega
  have hcut : slots * entrySize ≤ cut := by
    rw [hslots, List.length_take]
    simp only [entrySize]
    omega
  have hlogical : min (((padded es n).take cut).length -
      ((padded es n).take cut).length % entrySize)
      (maxBytes.toNatClampNeg - maxBytes.toNatClampNeg % entrySize) / entrySize = slots := by
    rw [hslots]
    simp only [entrySize]
    omega
  rw [newIndex, if_neg hneg]
  dsimp only
  rw [if_neg (by simp only [entrySize] at hroom ⊢; omega), hlogical,
    trimZeroEntries_padded hcut hfirst hlast]
  congr 2
  apply List.ext_getElem
  · simp [Nat.min_comm]
  · intro j h₁ h₂
    rw [List.length_take] at h₂
    rw [List.getElem_map, List.getElem_range, decodeEntry_padded hcut (by omega),
      List.getElem_take]
    simp [List.getD_eq_getElem?_getD, show j < es.length by omega]

end

theorem newIndex_close (i : Index) (maxBytes : Int64)
    (hfit : i.size ≤ maxBytes.toNatClampNeg - maxBytes.toNatClampNeg % entrySize)
    (hroom : entrySize ≤ maxBytes.toNatClampNeg)
    (hlast : 1 < i.entries.length → i.entries.getD (i.entries.length - 1) ⟨0, 0⟩ ≠ ⟨0, 0⟩) :
    newIndex i.close maxBytes = .ok
      ⟨i.entries, maxBytes.toNatClampNeg - maxBytes.toNatClampNeg % entrySize, true⟩ := by
  have hfile : i.close = (padded i.entries 0).take i.size := by
    rw [List.take_of_length_le (by rw [length_padded]; exact le_rfl), padded, Index.close,
      List.replicate_zero, List.append_nil]
  have hslots : i.entries.length = min ((padded i.entries 0).take i.size).length
      maxBytes.toNatClampNeg / entrySize := by
    rw [← hfile, Index.close, length_flatMap_encode]
    simp only [Index.size, entrySize] at hfit ⊢
    omega
  rw [hfile, newIndex_padded hroom hslots, List.take_length]
  · rcases i.entries with _ | ⟨e, es⟩
    · exact .inr rfl
    · exact .inl (by simp)
  · rwa [Nat.min_self]

theorem newIndex_nil (maxBytes : Int64) (hroom : entrySize ≤ maxBytes.toNatClampNeg) :
    newIndex [] maxBytes = .ok
      ⟨[], maxBytes.toNatClampNeg - maxBytes.toNatClampNeg % entrySize, true⟩ := by
  exact newIndex_close ⟨[], 0, true⟩ maxBytes (by simp [Index.size]) hroom (by simp)

theorem trimZeroEntries_le (data : Bytes) (n : Nat) : trimZeroEntries data n ≤ n := by
  induction n using trimZeroEntries.induct data with
  | case1 => exact le_rfl
  | case2 => exact le_rfl
  | case3 n hzero ih =>
    rw [trimZeroEntries, if_pos hzero]
    omega
  | case4 n hzero => rw [trimZeroEntries, if_neg hzero]

theorem newIndex_eq_ok {file : Bytes} {maxBytes : Int64} {i : Index}
    (h : newIndex file maxBytes = .ok i) :
    entrySize ≤ maxBytes.toNatClampNeg ∧ i.mapped = true ∧
      i.maxSize = maxBytes.toNatClampNeg - maxBytes.toNatClampNeg % entrySize ∧
      i.size ≤ i.maxSize := by
  rw [newIndex] at h
  split at h
  · simp at h
  · dsimp only at h
    split at h
    · simp at h
    · rename_i hzero
      simp only [Except.ok.injEq] at h
      subst i
      refine ⟨?_, rfl, rfl, ?_⟩
      · by_contra hsmall
        exact hzero (by rw [Nat.mod_eq_of_lt (by omega), Nat.sub_self])
      · generalize maxBytes.toNatClampNeg - maxBytes.toNatClampNeg % entrySize = maxSize
        have htrim := trimZeroEntries_le file
          (min (file.length - file.length % entrySize) maxSize / entrySize)
        simp only [Index.size, List.length_map, List.length_range, entrySize] at htrim ⊢
        omega

theorem newIndex_isOk (file : Bytes) {maxBytes : Int64}
    (hroom : entrySize ≤ maxBytes.toNatClampNeg) : ∃ i, newIndex file maxBytes = .ok i := by
  have hneg : ¬ maxBytes < 0 := by
    simp only [Int64.toNatClampNeg, entrySize] at hroom
    rw [Int64.lt_iff_toInt_lt, Int64.toInt_zero]
    omega
  have hzero : ¬ maxBytes.toNatClampNeg - maxBytes.toNatClampNeg % entrySize = 0 := by
    have := Nat.mod_lt maxBytes.toNatClampNeg (show 0 < entrySize by decide)
    omega
  rw [newIndex, if_neg hneg]
  dsimp only
  rw [if_neg hzero]
  exact ⟨_, rfl⟩

theorem append_eq_ok_iff (i : Index) (rel pos : UInt32) (j : Index) :
    i.append rel pos = .ok j ↔
      i.size + entrySize ≤ i.maxSize ∧ i.mapped = true ∧
        j = { i with entries := i.entries ++ [⟨rel, pos⟩] } := by
  rw [Index.append]
  split
  · rename_i hfull
    simp only [reduceCtorEq, false_iff]
    rintro ⟨hroom, -⟩
    omega
  · rename_i hroom
    split
    · rename_i hmapped
      simp only [reduceCtorEq, false_iff]
      rintro ⟨-, htrue, -⟩
      simp [htrue] at hmapped
    · rename_i hmapped
      simp only [Bool.not_eq_true', Bool.not_eq_false] at hmapped
      simp only [Except.ok.injEq]
      constructor
      · rintro rfl
        exact ⟨by omega, hmapped, rfl⟩
      · rintro ⟨-, -, rfl⟩
        rfl

def Increasing (es : List Entry) : Prop :=
  es.Pairwise fun a b => a.relativeOffset < b.relativeOffset

theorem getD_lt_of_increasing {es : List Entry} (h : Increasing es) {a b : Nat}
    (hab : a < b) (hb : b < es.length) :
    (es.getD a ⟨0, 0⟩).relativeOffset < (es.getD b ⟨0, 0⟩).relativeOffset := by
  have ha : a < es.length := by omega
  simp only [List.getD_eq_getElem?_getD, List.getElem?_eq_getElem ha,
    List.getElem?_eq_getElem hb, Option.getD_some]
  exact List.pairwise_iff_getElem.mp h a b ha hb hab

/-- A lookup in an increasing index finds the greatest entry that does not lie beyond
the target, if there is one. -/
theorem lookup_greatest {i : Index} (hmapped : i.mapped = true) (hinc : Increasing i.entries)
    (rel : UInt32) :
    ((∀ e ∈ i.entries, rel < e.relativeOffset) ∧ i.lookup rel = .ok (0, false)) ∨
      ∃ e ∈ i.entries, e.relativeOffset ≤ rel ∧
        (∀ e' ∈ i.entries, e'.relativeOffset ≤ rel → e'.relativeOffset ≤ e.relativeOffset) ∧
        i.lookup rel = .ok (e.position, decide (e.relativeOffset = rel)) := by
  rw [Index.lookup, if_neg (by simp [hmapped])]
  dsimp only
  by_cases hn : i.entries.length = 0
  · rw [if_pos hn]
    exact .inl ⟨by simp [List.length_eq_zero_iff.mp hn], rfl⟩
  rw [if_neg hn]
  generalize hidx : search i.entries.length
    (fun j => decide (rel ≤ (i.entries.getD j ⟨0, 0⟩).relativeOffset)) = idx
  have hmono : Monotone i.entries.length
      (fun j => decide (rel ≤ (i.entries.getD j ⟨0, 0⟩).relativeOffset)) := by
    intro a b hab hb ha
    simp only [decide_eq_true_eq] at ha ⊢
    rcases Nat.lt_or_ge a b with hlt | hge
    · have := getD_lt_of_increasing hinc hlt hb
      rw [UInt32.le_iff_toNat_le] at ha ⊢
      rw [UInt32.lt_iff_toNat_lt] at this
      omega
    · rwa [show b = a by omega]
  obtain ⟨hle, hlow, hhigh⟩ := search_spec hmono
  rw [hidx] at hle hlow hhigh
  have hmem : ∀ j, j < i.entries.length → i.entries.getD j ⟨0, 0⟩ ∈ i.entries := by
    intro j hj
    rw [List.getD_eq_getElem?_getD, List.getElem?_eq_getElem hj]
    exact List.getElem_mem hj
  have hplace : ∀ e ∈ i.entries, ∃ j, j < i.entries.length ∧ i.entries.getD j ⟨0, 0⟩ = e := by
    intro e he
    obtain ⟨j, hj, rfl⟩ := List.mem_iff_getElem.mp he
    exact ⟨j, hj, by simp [List.getD_eq_getElem?_getD, hj]⟩
  have hbelow : ∀ j, j < idx → (i.entries.getD j ⟨0, 0⟩).relativeOffset < rel := by
    intro j hj
    simpa using hlow j hj
  have habove : ∀ j, idx ≤ j → j < i.entries.length →
      rel ≤ (i.entries.getD j ⟨0, 0⟩).relativeOffset := by
    intro j hj hlt
    simpa using hhigh j hj hlt
  by_cases hexact : idx < i.entries.length ∧ (i.entries.getD idx ⟨0, 0⟩).relativeOffset = rel
  · rw [if_pos hexact]
    refine .inr ⟨_, hmem idx hexact.1, hexact.2 ▸ UInt32.le_refl _, ?_,
      by rw [decide_eq_true hexact.2]⟩
    rw [hexact.2]
    exact fun _ _ hle => hle
  rw [if_neg hexact]
  -- Nothing from `idx` on is below the target or equal to it.
  have hbeyond : ∀ j, idx ≤ j → j < i.entries.length →
      rel < (i.entries.getD j ⟨0, 0⟩).relativeOffset := by
    intro j hj hlt
    have hge := habove j hj hlt
    rw [UInt32.le_iff_toNat_le] at hge
    rw [UInt32.lt_iff_toNat_lt]
    rcases Nat.lt_or_ge idx j with hlater | hsame
    · have hfirst := habove idx le_rfl (by omega)
      have hgrow := getD_lt_of_increasing hinc hlater hlt
      rw [UInt32.le_iff_toNat_le] at hfirst
      rw [UInt32.lt_iff_toNat_lt] at hgrow
      omega
    · obtain rfl : idx = j := by omega
      have hne : (i.entries.getD idx ⟨0, 0⟩).relativeOffset.toNat ≠ rel.toNat := fun heq =>
        hexact ⟨hlt, UInt32.toNat_inj.mp heq⟩
      omega
  by_cases hpos : 0 < idx
  · rw [if_pos hpos]
    have hlast := hbelow (idx - 1) (by omega)
    refine .inr ⟨_, hmem (idx - 1) (by omega), UInt32.le_of_lt hlast, ?_, ?_⟩
    · intro e' he' hle'
      obtain ⟨j, hj, rfl⟩ := hplace e' he'
      rcases Nat.lt_or_ge j idx with hbefore | hafter
      · rcases Nat.lt_or_ge j (idx - 1) with hlt | hge
        · exact UInt32.le_of_lt (getD_lt_of_increasing hinc hlt (by omega))
        · rw [show j = idx - 1 by omega]
          exact UInt32.le_refl _
      · have hlt := hbeyond j hafter hj
        rw [UInt32.le_iff_toNat_le] at hle'
        rw [UInt32.lt_iff_toNat_lt] at hlt
        omega
    · rw [decide_eq_false]
      rintro heq
      rw [heq] at hlast
      exact UInt32.lt_irrefl _ hlast
  · rw [if_neg hpos]
    refine .inl ⟨fun e he => ?_, rfl⟩
    obtain ⟨j, hj, rfl⟩ := hplace e he
    exact hbeyond j (by omega) hj

theorem lookup_spec {i : Index} (hmapped : i.mapped = true) (hinc : Increasing i.entries)
    (rel : UInt32) :
    ∃ pos found, i.lookup rel = .ok (pos, found) ∧
      (pos = 0 ∨ ∃ e ∈ i.entries, e.position = pos ∧ e.relativeOffset ≤ rel) := by
  obtain ⟨-, hlookup⟩ | ⟨e, he, hle, -, hlookup⟩ := lookup_greatest hmapped hinc rel
  · exact ⟨_, _, hlookup, .inl rfl⟩
  · exact ⟨_, _, hlookup, .inr ⟨e, he, rfl, hle⟩⟩

end MiniKafka.OffsetIndex
