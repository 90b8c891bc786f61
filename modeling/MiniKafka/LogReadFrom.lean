import MiniKafka.LogRefinement

/-!
`Log.ReadFrom` across segments.

Within one segment the records returned are a prefix of those stored.  When a
segment stops at its budget while bytes are left over, the loop still goes on
to the next segment and the records in between are skipped.
-/

namespace MiniKafka.LogReadFrom

open RecordCodec SegmentStore SegmentContents SegmentReads PartitionLog LogContents LogReopen
  LogReads LogRefinement Runs

/-- The bytes accumulated after the records of `rs`, in the 32-bit arithmetic
of the loop. -/
def accumulate (acc : Int32) (rs : List Record) : Int32 :=
  rs.foldl (fun acc r => acc + Int32.ofNat r.encodedSize) acc

/-- What a segment holding `rs` from the requested offset on returns for the
budget it is given. -/
def admitted (remaining : Int32) (rs : List Record) : List Record :=
  if remaining ≤ 0 then [] else takeBudget remaining 0 rs

def collect (maxBytes : Int32) : Int32 → List (List Record) → List Record
  | _, [] => []
  | acc, c :: rest =>
    let taken := admitted (maxBytes - acc) c
    let acc' := accumulate acc taken
    if maxBytes ≤ acc' then taken else taken ++ collect maxBytes acc' rest

def chunksFrom (crc : Checksum) (offset : Int64) : List Segment → List (List Record)
  | [] => []
  | s :: rest =>
    match rest with
    | [] => [(segmentRecords crc s).drop (offset.toInt - s.baseOffset.toInt).toNat]
    | t :: _ =>
      if t.baseOffset ≤ offset then chunksFrom crc offset rest
      else (segmentRecords crc s).drop (offset.toInt - s.baseOffset.toInt).toNat ::
        rest.map (segmentRecords crc)

theorem admitted_initial (remaining : Int32) (rs : List Record) : admitted remaining rs <+: rs := by
  rw [admitted]
  split
  · exact List.nil_prefix
  · exact takeBudget_initial _ _ _

section

variable {crc : Checksum} {l : Log} {pre post : List Segment} {s : Segment}

variable {offset : Int64} {maxBytes : Int32}

theorem readFrom_segment (h : WellFormed crc l) (hsplit : l.segments = pre ++ s :: post)
    (hle : s.baseOffset.toInt ≤ offset.toInt) (remaining : Int32) {t : Segment}
    (ht : Serves crc post.isEmpty s t) :
    t.readFrom crc offset remaining =
      (admitted remaining
        ((segmentRecords crc s).drop (offset.toInt - s.baseOffset.toInt).toNat), none) := by
  obtain ⟨-, hrange, hnonneg, -⟩ := base_of_split h hsplit
  rw [admitted]
  by_cases hpos : remaining ≤ 0
  · rw [if_pos hpos, Segment.readFrom, if_neg (by simp [ht.stores.isOpen]), if_pos hpos]
  · rw [if_neg hpos, ← ht.baseOffset]
    apply readFrom_eq ht.stores ht.flushed
    · rw [ht.baseOffset]
      exact hrange
    · rw [ht.baseOffset, Int64.le_iff_toInt_le]
      exact hle
    · rw [Int32.le_iff_toInt_le] at hpos
      rw [Int32.lt_iff_toInt_lt]
      omega

theorem mem_sealed_of_split {u : Segment} {rest : List Segment}
    (hsplit : l.segments = pre ++ s :: u :: rest) : s ∈ l.sealed := by
  rcases split_last hsplit with ⟨hnil, -⟩ | ⟨-, hmem⟩
  · cases hnil
  · exact hmem

theorem chunksFrom_base (h : WellFormed crc l) (hsplit : l.segments = pre ++ s :: post) :
    chunksFrom crc s.baseOffset (s :: post) = (s :: post).map (segmentRecords crc) := by
  cases post with
  | nil => simp [chunksFrom]
  | cons t rest =>
    obtain ⟨-, hrange, -, hpost⟩ := base_of_split h hsplit
    have hpos := List.length_pos_of_ne_nil (h.sealed s (mem_sealed_of_split hsplit)).nonempty
    have hnot : ¬ t.baseOffset ≤ s.baseOffset := by
      rw [Int64.le_iff_toInt_le, hpost t (by simp)]
      omega
    rw [chunksFrom, if_neg hnot]
    simp

def skips (post : List Segment) (offset : Int64) : Bool :=
  post.head?.any fun u => decide (u.baseOffset ≤ offset)

theorem lookahead_iff_skips (h : WellFormed crc l) (hsplit : l.segments = pre ++ s :: post)
    {next : Int64} (hnext : next = post.head?.elim (-1) Segment.baseOffset) :
    (0 ≤ next ∧ next ≤ offset) ↔ skips post offset = true := by
  subst hnext
  cases post with
  | nil => exact iff_of_false (fun hboth => absurd hboth.1 (by decide)) (by simp [skips])
  | cons u rest =>
    obtain ⟨-, -, hnonneg, hpost⟩ := base_of_split h hsplit
    have hu := hpost u (by simp)
    have hunonneg : (0 : Int64) ≤ u.baseOffset := by
      rw [Int64.le_iff_toInt_le, Int64.toInt_zero]
      omega
    simp [skips, hunonneg]

/-- One round of the loop: the segment is passed over, or starts beyond the offset,
or gives what the budget admits; then the loop goes on at the end it knows. -/
theorem readFromLoop_cons (h : WellFormed crc l) (hsplit : l.segments = pre ++ s :: post)
    (maxBytes : Int32) (offset : Int64) (out : List Record) (acc : Int32) :
    readFromLoop crc maxBytes (s :: post) offset out acc =
      if skips post offset then readFromLoop crc maxBytes post offset out acc
      else if offset < s.baseOffset then (out, none)
      else
        let taken := admitted (maxBytes - acc)
          ((segmentRecords crc s).drop (offset.toInt - s.baseOffset.toInt).toNat)
        if maxBytes ≤ accumulate acc taken then (out ++ taken, none)
        else if s.nextOffset ≤ offset then (out ++ taken, none)
        else readFromLoop crc maxBytes post s.nextOffset (out ++ taken) (accumulate acc taken) := by
  obtain ⟨t, ht⟩ := serves_of_split h hsplit
  have hround (hnot : ¬ offset < s.baseOffset) : t.readFrom crc offset (maxBytes - acc) =
      (admitted (maxBytes - acc)
        ((segmentRecords crc s).drop (offset.toInt - s.baseOffset.toInt).toNat), none) := by
    rw [Int64.lt_iff_toInt_lt, not_lt] at hnot
    exact readFrom_segment h hsplit hnot _ ht
  rw [readFromLoop.eq_def]
  dsimp only
  refine if_congr (lookahead_iff_skips h hsplit (by cases post <;> rfl)) rfl ?_
  split
  · rfl
  · rename_i hnot
    rw [ht.readable]
    dsimp only
    rewrite [hround hnot, ht.nextOffset]
    rfl

theorem readFromLoop_eq (h : WellFormed crc l) (hnext : NextOffsetsKnown crc l) (maxBytes : Int32)
    (hsplit : l.segments = pre ++ s :: post) (hle : s.baseOffset.toInt ≤ offset.toInt)
    (out : List Record) (acc : Int32) :
    readFromLoop crc maxBytes (s :: post) offset out acc =
      (out ++ collect maxBytes acc (chunksFrom crc offset (s :: post)), none) := by
  induction post generalizing pre s offset out acc with
  | nil =>
    have hnot : ¬ offset < s.baseOffset := by
      rw [Int64.lt_iff_toInt_lt]
      omega
    rw [readFromLoop_cons h hsplit, if_neg (by simp [skips]), if_neg hnot]
    simp only [readFromLoop, ite_self, chunksFrom, collect, List.append_nil]
  | cons u rest ih =>
    obtain ⟨-, hrange, -, hpost⟩ := base_of_split h hsplit
    have hu := hpost u (by simp)
    have hsplit' : l.segments = (pre ++ [s]) ++ u :: rest := by
      rw [List.append_assoc]
      exact hsplit
    rw [readFromLoop_cons h hsplit, chunksFrom]
    by_cases hskip : u.baseOffset ≤ offset
    · rw [if_pos (by simpa [skips] using hskip), if_pos hskip]
      exact ih hsplit' (Int64.le_iff_toInt_le.mp hskip) out acc
    · have hnot : ¬ offset < s.baseOffset := by
        rw [Int64.lt_iff_toInt_lt]
        omega
      have hend : s.nextOffset = u.baseOffset := by
        apply Int64.toInt_inj.mp
        rw [hnext s (mem_sealed_of_split hsplit), toInt_add_ofNat hrange, hu]
      rw [if_neg (by simpa [skips] using hskip), if_neg hnot, if_neg hskip, collect, hend]
      dsimp only
      generalize admitted (maxBytes - acc) _ = taken
      by_cases hfull : maxBytes ≤ accumulate acc taken
      · rw [if_pos hfull, if_pos hfull]
      · rw [if_neg hfull, if_neg hfull, if_neg hskip, ih hsplit' le_rfl,
          chunksFrom_base h hsplit', List.append_assoc]

theorem mem_readFromLoop (h : WellFormed crc l) {segments : List Segment}
    (hsplit : l.segments = pre ++ segments) {out : List Record} {acc : Int32} {r : Record}
    (hr : r ∈ (readFromLoop crc maxBytes segments offset out acc).1) :
    r ∈ out ∨ r ∈ storedRecords crc l := by
  induction segments generalizing pre offset out acc with
  | nil => exact .inl hr
  | cons s rest ih =>
    have hsplit' : l.segments = (pre ++ [s]) ++ rest := by
      rw [List.append_assoc]
      exact hsplit
    have hcollected (hmem : r ∈ out ++ admitted (maxBytes - acc)
        ((segmentRecords crc s).drop (offset.toInt - s.baseOffset.toInt).toNat)) :
        r ∈ out ∨ r ∈ storedRecords crc l := by
      rcases List.mem_append.mp hmem with hout | hnew
      · exact .inl hout
      · refine .inr ?_
        rw [storedRecords, hsplit, recordsOf_append, recordsOf_cons]
        have hseg := List.mem_of_mem_drop ((admitted_initial _ _).subset hnew)
        exact List.mem_append_right _ (List.mem_append_left _ hseg)
    rw [readFromLoop_cons h hsplit] at hr
    split at hr
    · exact ih hsplit' hr
    split at hr
    · exact .inl hr
    dsimp only at hr
    split at hr
    · exact hcollected hr
    split at hr
    · exact hcollected hr
    · exact (ih hsplit' hr).elim hcollected .inr

theorem mem_readFrom (h : WellFormed crc l) {r : Record}
    (hr : r ∈ (l.readFrom crc offset maxBytes).1) : r ∈ storedRecords crc l := by
  rw [Log.readFrom] at hr
  split at hr
  · cases hr
  split at hr
  · cases hr
  split at hr
  · cases hr
  have hsplit : l.segments = [] ++ l.segments := rfl
  rcases mem_readFromLoop h hsplit hr with hnil | hstored
  · cases hnil
  · exact hstored

theorem exists_first (h : WellFormed crc l) :
    ∃ s post, l.segments = [] ++ s :: post ∧ l.lowestOffset = s.baseOffset := by
  obtain ⟨s, post, hsegments⟩ : ∃ s post, l.segments = [] ++ s :: post :=
    List.exists_cons_of_ne_nil (by simp [Log.segments])
  refine ⟨s, post, hsegments, ?_⟩
  rw [lowestOffset_eq h.isOpen, hsegments]
  rfl

theorem readFrom_eq_loop (h : WellFormed crc l) (hle : l.lowestOffset.toInt ≤ offset.toInt)
    (hmax : 0 < maxBytes) :
    l.readFrom crc offset maxBytes = readFromLoop crc maxBytes l.segments offset [] 0 := by
  have hbelow : ¬ offset < l.lowestOffset := by
    rw [Int64.lt_iff_toInt_lt]
    omega
  have hpos : ¬ maxBytes ≤ 0 := by
    rw [Int32.lt_iff_toInt_lt] at hmax
    rw [Int32.le_iff_toInt_le]
    omega
  rw [Log.readFrom, if_neg (by simp [h.isOpen]), if_neg hpos, if_neg hbelow]

theorem readFrom_log (h : WellFormed crc l) (hnext : NextOffsetsKnown crc l)
    (hle : l.lowestOffset.toInt ≤ offset.toInt) (hmax : 0 < maxBytes) :
    l.readFrom crc offset maxBytes =
      (collect maxBytes 0 (chunksFrom crc offset l.segments), none) := by
  obtain ⟨s, post, hsegments, hfirst⟩ := exists_first h
  rw [readFrom_eq_loop h hle hmax, hsegments, List.nil_append]
  rw [hfirst] at hle
  exact readFromLoop_eq h hnext maxBytes hsegments hle [] 0

theorem flatten_chunksFrom (h : WellFormed crc l) (hsplit : l.segments = pre ++ s :: post)
    (hle : s.baseOffset.toInt ≤ offset.toInt) :
    (chunksFrom crc offset (s :: post)).flatten =
      (recordsOf crc (s :: post)).drop (offset.toInt - s.baseOffset.toInt).toNat := by
  induction post generalizing pre s with
  | nil => simp [chunksFrom]
  | cons u rest ih =>
    obtain ⟨-, -, -, hpost⟩ := base_of_split h hsplit
    have hu := hpost u (by simp)
    have hsplit' : l.segments = (pre ++ [s]) ++ u :: rest := by
      rw [List.append_assoc]
      exact hsplit
    rw [chunksFrom, recordsOf_cons, List.drop_append]
    by_cases hskip : u.baseOffset ≤ offset
    · rw [Int64.le_iff_toInt_le] at hskip
      have hpast : (segmentRecords crc s).drop (offset.toInt - s.baseOffset.toInt).toNat = [] :=
        List.drop_eq_nil_of_le (by omega)
      rw [if_pos (Int64.le_iff_toInt_le.mpr hskip), ih hsplit' hskip, hpast, List.nil_append]
      congr 1
      omega
    · rw [if_neg hskip]
      rw [Int64.le_iff_toInt_le] at hskip
      rw [show (offset.toInt - s.baseOffset.toInt).toNat - (segmentRecords crc s).length = 0 by
        omega, List.drop_zero, recordsOf, List.flatten_cons, List.flatMap_def]

theorem flatten_chunksFrom_log (h : WellFormed crc l) (hle : l.lowestOffset.toInt ≤ offset.toInt) :
    (chunksFrom crc offset l.segments).flatten =
      (storedRecords crc l).drop (offset.toInt - l.lowestOffset.toInt).toNat := by
  obtain ⟨s, post, hsegments, hfirst⟩ := exists_first h
  rw [storedRecords, hsegments, List.nil_append]
  rw [hfirst] at hle ⊢
  exact flatten_chunksFrom h hsegments hle

end

/-- The bytes one segment spends of a budget, given the sizes of its records,
and whether it refused a record. -/
def spend (remaining : Int32) : Int32 → List Nat → Int32 × Bool
  | spent, [] => (spent, false)
  | spent, n :: sizes =>
    if 0 < spent ∧ remaining < spent + Int32.ofNat n then (spent, true)
    else spend remaining (spent + Int32.ofNat n) sizes

def spendSegment (remaining : Int32) (sizes : List Nat) : Int32 × Bool :=
  if remaining ≤ 0 then (0, !sizes.isEmpty) else spend remaining 0 sizes

/-- Whether a read with the given budget skips a record, from the sizes of the
records in each segment: some segment refuses a record, yet budget is left and
a later segment has a record to spend it on. -/
def skipsRecord (maxBytes : Int32) : Int32 → List (List Nat) → Bool
  | _, [] => false
  | acc, sizes :: rest =>
    let outcome := spendSegment (maxBytes - acc) sizes
    if maxBytes ≤ acc + outcome.1 then false
    else if outcome.2 then
      decide (0 < maxBytes - (acc + outcome.1)) && rest.any fun sizes => !sizes.isEmpty
    else skipsRecord maxBytes (acc + outcome.1) rest

def sizes (rs : List Record) : List Nat := rs.map Record.encodedSize

theorem accumulate_eq_add (acc : Int32) (rs : List Record) :
    accumulate acc rs = acc + accumulate 0 rs := by
  induction rs generalizing acc with
  | nil => simp [accumulate]
  | cons r rs ih =>
    change accumulate (acc + _) rs = acc + accumulate (0 + _) rs
    rw [ih (acc + _), ih (0 + _), Int32.zero_add, Int32.add_assoc]

theorem spend_eq (remaining spent : Int32) (rs : List Record) :
    spend remaining spent (sizes rs) =
      (accumulate spent (takeBudget remaining spent rs),
        decide (takeBudget remaining spent rs ≠ rs)) := by
  induction rs generalizing spent with
  | nil => simp [sizes, spend, takeBudget, accumulate]
  | cons r rs ih =>
    change spend remaining spent (r.encodedSize :: sizes rs) = _
    rw [spend, takeBudget]
    by_cases hrefused : 0 < spent ∧ remaining < spent + Int32.ofNat r.encodedSize
    · rw [if_pos hrefused, if_pos hrefused]
      simp [accumulate]
    · rw [if_neg hrefused, if_neg hrefused, ih]
      simp [accumulate]

theorem spendSegment_eq (remaining : Int32) (rs : List Record) :
    spendSegment remaining (sizes rs) =
      (accumulate 0 (admitted remaining rs), decide (admitted remaining rs ≠ rs)) := by
  rw [spendSegment, admitted]
  split
  · cases rs with
    | nil => rfl
    | cons r rs => rfl
  · exact spend_eq remaining 0 rs

theorem skipsRecord_cons (maxBytes acc : Int32) (c : List Record) (rest : List (List Nat)) :
    skipsRecord maxBytes acc (sizes c :: rest) =
      if maxBytes ≤ accumulate acc (admitted (maxBytes - acc) c) then false
      else if admitted (maxBytes - acc) c = c then
        skipsRecord maxBytes (accumulate acc (admitted (maxBytes - acc) c)) rest
      else
        decide (0 < maxBytes - accumulate acc (admitted (maxBytes - acc) c)) &&
          rest.any fun sizes => !sizes.isEmpty := by
  rw [skipsRecord, spendSegment_eq]
  dsimp only
  rw [← accumulate_eq_add]
  by_cases heq : admitted (maxBytes - acc) c = c
  · simp [heq]
  · simp [heq]

theorem collect_of_exhausted {maxBytes acc : Int32} (h : maxBytes - acc ≤ 0)
    (chunks : List (List Record)) : collect maxBytes acc chunks = [] := by
  induction chunks with
  | nil => rfl
  | cons c rest ih =>
    rw [collect, admitted, if_pos h]
    simp [accumulate, ih]

theorem collect_of_empty (maxBytes acc : Int32) {chunks : List (List Record)}
    (h : ∀ c ∈ chunks, c = []) : collect maxBytes acc chunks = [] := by
  induction chunks with
  | nil => rfl
  | cons c rest ih =>
    obtain rfl := h c (by simp)
    have hnone : admitted (maxBytes - acc) [] = [] :=
      List.prefix_nil.mp (admitted_initial (maxBytes - acc) [])
    rw [collect, hnone]
    simp [accumulate, ih fun d hd => h d (by simp [hd])]

theorem head?_collect {maxBytes acc : Int32} (hleft : ¬ maxBytes ≤ acc)
    (hpos : 0 < maxBytes - acc) (chunks : List (List Record)) :
    (collect maxBytes acc chunks).head? = chunks.flatten.head? := by
  have hnot : ¬ maxBytes - acc ≤ 0 := by
    rw [Int32.lt_iff_toInt_lt] at hpos
    rw [Int32.le_iff_toInt_le]
    omega
  induction chunks with
  | nil => rfl
  | cons c rest ih =>
    rw [collect, admitted, if_neg hnot]
    cases c with
    | nil =>
      rw [show accumulate acc (takeBudget (maxBytes - acc) 0 []) = acc from rfl, if_neg hleft]
      exact ih
    | cons r rs =>
      have htaken : takeBudget (maxBytes - acc) 0 (r :: rs) =
          r :: takeBudget (maxBytes - acc) (0 + Int32.ofNat r.encodedSize) rs := by
        rw [takeBudget, if_neg (by simp)]
      rw [htaken]
      split
      · rfl
      · rfl

theorem collect_prefix_iff (maxBytes acc : Int32) {chunks : List (List Record)}
    (hnodup : chunks.flatten.Nodup) :
    collect maxBytes acc chunks <+: chunks.flatten ↔
      skipsRecord maxBytes acc (chunks.map sizes) = false := by
  induction chunks generalizing acc with
  | nil => simp [collect, skipsRecord]
  | cons c rest ih =>
    rw [List.flatten_cons] at hnodup
    have hrest : rest.flatten.Nodup := (List.nodup_append.mp hnodup).2.1
    obtain ⟨missing, hmissing⟩ := admitted_initial (maxBytes - acc) c
    rw [List.map_cons, skipsRecord_cons, collect, List.flatten_cons]
    generalize admitted (maxBytes - acc) c = taken at hmissing ⊢
    generalize accumulate acc taken = acc'
    by_cases hfull : maxBytes ≤ acc'
    · rw [if_pos hfull, if_pos hfull]
      simp only [iff_true]
      exact ⟨missing ++ rest.flatten, by rw [← List.append_assoc, hmissing]⟩
    rw [if_neg hfull, if_neg hfull]
    by_cases hall : taken = c
    · rw [if_pos hall, ← hall, List.prefix_append_right_inj]
      exact ih acc' hrest
    rw [if_neg hall]
    have hne : missing ≠ [] := by
      rintro rfl
      exact hall (by rw [← hmissing, List.append_nil])
    rw [← hmissing, List.append_assoc, List.prefix_append_right_inj, Bool.and_eq_false_iff,
      decide_eq_false_iff_not]
    by_cases hempty : ∀ d ∈ rest, d = []
    · rw [collect_of_empty maxBytes acc' hempty]
      simpa [sizes] using Or.inr hempty
    by_cases hpos : 0 < maxBytes - acc'
    · have hsome : ¬ ((rest.map sizes).any fun sizes => !sizes.isEmpty) = false := by
        simpa [sizes] using hempty
      refine iff_of_false ?_ fun h => h.elim (absurd hpos) hsome
      intro hinitial
      have hflat : rest.flatten ≠ [] := by
        simpa using hempty
      obtain ⟨m, ms, rfl⟩ := List.exists_cons_of_ne_nil hne
      obtain ⟨r, rs, hr⟩ := List.exists_cons_of_ne_nil hflat
      have hhead := head?_collect hfull hpos rest
      rw [hr, List.head?_cons] at hhead
      obtain ⟨tail, htail⟩ := List.head?_eq_some_iff.mp hhead
      rw [htail, List.cons_append, List.cons_prefix_cons] at hinitial
      have hdisjoint := (List.nodup_append.mp hnodup).2.2 m (by rw [← hmissing]; simp) r
        (by rw [hr]; simp)
      exact hdisjoint hinitial.1.symm
    · have hnonpos : maxBytes - acc' ≤ 0 := by
        rw [Int32.lt_iff_toInt_lt] at hpos
        rw [Int32.le_iff_toInt_le]
        omega
      rw [collect_of_exhausted hnonpos]
      simp [hpos]

/-- `ReadFrom` returns the records stored from `offset` on, without a gap and
up to some point, and at least one if there is one. -/
def Contiguous (crc : Checksum) (l : Log) (offset : Int64) (maxBytes : Int32) : Prop :=
  ∃ records, l.readFrom crc offset maxBytes = (records, none) ∧
    records <+: (storedRecords crc l).drop (offset.toInt - l.lowestOffset.toInt).toNat ∧
    (∀ i (hi : i < records.length), records[i].offset.toInt = offset.toInt + i) ∧
    (offset < l.highestOffset → records ≠ [])

theorem Contiguous.offset_at {crc : Checksum} {l : Log} {offset : Int64} {maxBytes : Int32}
    (h : Contiguous crc l offset maxBytes) {i : Nat} {o : Int64}
    (hi : ((l.readFrom crc offset maxBytes).1.map Record.offset)[i]? = some o) :
    o.toInt = offset.toInt + i := by
  obtain ⟨records, hread, -, hconsecutive, -⟩ := h
  rw [hread, List.getElem?_map, Option.map_eq_some_iff] at hi
  obtain ⟨r, hr, rfl⟩ := hi
  obtain ⟨hlt, rfl⟩ := List.getElem?_eq_some_iff.mp hr
  exact hconsecutive i hlt

def sizesFrom (crc : Checksum) (l : Log) (offset : Int64) : List (List Nat) :=
  (chunksFrom crc offset l.segments).map sizes

theorem contiguous_of_initial {crc : Checksum} {l : Log} (h : WellFormed crc l) {offset : Int64}
    (hle : l.lowestOffset.toInt ≤ offset.toInt) {maxBytes : Int32} {records : List Record}
    (hread : l.readFrom crc offset maxBytes = (records, none))
    (hinitial : records <+: (storedRecords crc l).drop (offset.toInt - l.lowestOffset.toInt).toNat)
    (hne : offset < l.highestOffset → records ≠ []) : Contiguous crc l offset maxBytes := by
  refine ⟨records, hread, hinitial, ?_, hne⟩
  intro i hi
  have hlen := hinitial.length_le
  rw [List.length_drop] at hlen
  rw [List.IsPrefix.getElem hinitial hi, List.getElem_drop,
    numbered_toInt (numbered_stored h) h.range.le _ (by omega)]
  omega

theorem contiguous_iff {crc : Checksum} {l : Log} (h : WellFormed crc l)
    (hknown : NextOffsetsKnown crc l) {offset : Int64} (hle : l.lowestOffset ≤ offset)
    {maxBytes : Int32} (hmax : 0 < maxBytes) :
    Contiguous crc l offset maxBytes ↔
      skipsRecord maxBytes 0 (sizesFrom crc l offset) = false := by
  rw [Int64.le_iff_toInt_le] at hle
  have hflat := flatten_chunksFrom_log h hle
  have hread := readFrom_log h hknown hle hmax
  have hnodup : (chunksFrom crc offset l.segments).flatten.Nodup := by
    rw [hflat]
    exact (numbered_nodup (numbered_stored h) h.range.le).sublist (List.drop_sublist _ _)
  rw [sizesFrom, ← collect_prefix_iff maxBytes 0 hnodup, hflat]
  constructor
  · rintro ⟨records, hrecords, hinitial, -⟩
    rw [hread] at hrecords
    obtain rfl := (Prod.mk.inj hrecords).1
    exact hinitial
  · intro hinitial
    refine contiguous_of_initial h hle hread hinitial ?_
    intro hbelow hnil
    rw [Int64.lt_iff_toInt_lt, h.highestOffset] at hbelow
    have hpos : 0 < maxBytes - 0 := by rwa [Int32.sub_zero]
    have hnot : ¬ maxBytes ≤ 0 := by
      rw [Int32.lt_iff_toInt_lt] at hmax
      rw [Int32.le_iff_toInt_le]
      omega
    have hhead := head?_collect hnot hpos (chunksFrom crc offset l.segments)
    rw [hnil, hflat, List.head?_nil, eq_comm, List.head?_eq_none_iff,
      List.drop_eq_nil_iff] at hhead
    omega

/-- On every log that was not reopened, a read is contiguous exactly when its
budget does not skip a record. -/
theorem readFrom_contiguous_iff {crc : Checksum} {cfg : Config} {modTime : Int64 → Int} {now : Int}
    {l₀ l : Log} {events : List Event} (hnew : newLog crc cfg [] modTime now = .ok l₀)
    (hrun : Run (Step crc cfg) l₀ events l) (hevents : ∀ e ∈ events, e.isReopen = false)
    {offset : Int64} (hlow : l.lowestOffset ≤ offset) {maxBytes : Int32} (hmax : 0 < maxBytes) :
    Contiguous crc l offset maxBytes ↔
      skipsRecord maxBytes 0 (sizesFrom crc l offset) = false :=
  contiguous_iff (wellFormed_of_run hnew hrun).1 (nextOffsetsKnown_of_run hnew hrun hevents)
    hlow hmax

def threeRecords : List (Option Record × Surroundings) :=
  [(some (bareRecord 1), ⟨0, none⟩), (some (bareRecord 2), ⟨0, none⟩),
    (some (bareRecord 3), ⟨0, none⟩)]

def threeRecordLog : Log := (emptyLog.appendBatch castagnoli threeRecords).1

theorem step_threeRecords :
    Step castagnoli smallConfig emptyLog (.appendBatch threeRecords 0 none) threeRecordLog := by
  have hleft : OffsetsLeft emptyLog threeRecords.length := by
    rw [OffsetsLeft]
    decide +kernel
  have hcall : (emptyLog.appendBatch castagnoli threeRecords).2 = (0, none) := by decide +kernel
  exact ⟨hleft, Prod.ext rfl hcall⟩

/-- With a budget of 50 bytes the first segment gives up its first record and
refuses the second; the 17 bytes left go to the next segment. -/
theorem readFrom_skips_record :
    newLog castagnoli smallConfig [] (fun _ => 0) 0 = .ok emptyLog ∧
      Step castagnoli smallConfig emptyLog (.appendBatch threeRecords 0 none) threeRecordLog ∧
      (threeRecordLog.readFrom castagnoli 0 50).1.map Record.offset = [0, 2] ∧
      ¬ Contiguous castagnoli threeRecordLog 0 50 := by
  have hoffsets : (threeRecordLog.readFrom castagnoli 0 50).1.map Record.offset = [0, 2] := by
    decide +kernel
  refine ⟨newLog_small, step_threeRecords, hoffsets, ?_⟩
  intro hcontiguous
  have hsecond := hcontiguous.offset_at (i := 1) (o := 2) (by rw [hoffsets]; rfl)
  exact absurd hsecond (by decide)

theorem readFrom_contiguous_iff_threeRecords :
    Contiguous castagnoli threeRecordLog 0 50 ↔
      skipsRecord 50 0 (sizesFrom castagnoli threeRecordLog 0) = false := by
  refine readFrom_contiguous_iff newLog_small (Run.nil.snoc step_threeRecords) ?_ ?_ ?_
  · simp [Event.isReopen]
  · decide +kernel
  · decide

end MiniKafka.LogReadFrom
