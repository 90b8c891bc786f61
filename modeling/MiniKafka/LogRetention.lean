import MiniKafka.LogReads

/-!
Retention (`Log.runRetention`).

The pass by size deletes the oldest segments while the total is over the limit,
and the total is a 64-bit sum.  The pass by age goes on after a segment that it
could not remove and keeps it, closed, in the list.
-/

namespace MiniKafka.LogRetention

open BigEndian BufferedWriter Durations OffsetIndex RecordCodec SegmentStore SegmentContents
  PartitionLog LogContents LogWrites LogMaintenance LogReads

def bytesOf (segments : List Segment) : Nat := (segments.map Segment.bytesWritten).sum

/-- The segments, with the active one after them, are over the limit as
`totalSizeLocked` adds them up. -/
def exceeds (l : Log) (segments : List Segment) : Bool :=
  0 < l.config.retentionBytes && l.config.retentionBytes < totalSize (segments ++ [l.active])

def oversize (l : Log) : List Segment → List Segment
  | [] => []
  | s :: rest => if exceeds l (s :: rest) then s :: oversize l rest else []

theorem totalSize_eq (segments : List Segment) :
    totalSize segments = Int64.ofNat (bytesOf segments) := by
  have h : ∀ total : Int64, segments.foldl (fun total s => total + Int64.ofNat s.bytesWritten) total =
      total + Int64.ofNat (bytesOf segments) := by
    induction segments with
    | nil => simp [bytesOf]
    | cons s rest ih =>
      intro total
      rw [List.foldl_cons, ih, bytesOf, bytesOf, List.map_cons, List.sum_cons, Int64.ofNat_add,
        Int64.add_assoc]
  rw [PartitionLog.totalSize, h, Int64.zero_add]

theorem totalSize_cons_sub (s : Segment) (rest : List Segment) :
    totalSize (s :: rest) - Int64.ofNat s.bytesWritten = totalSize rest := by
  rw [totalSize_eq, totalSize_eq, bytesOf, List.map_cons, List.sum_cons, Int64.ofNat_add,
    Int64.add_comm, Int64.add_sub_cancel]
  rfl

section

variable {l : Log}

theorem oversize_initial (segments : List Segment) : oversize l segments <+: segments := by
  induction segments with
  | nil => exact List.nil_prefix
  | cons s rest ih =>
    rw [oversize]
    split
    · exact (List.prefix_cons_inj s).mpr ih
    · exact List.nil_prefix

theorem dropOversize_cases (hlimit : 0 < l.config.retentionBytes) (refused : Int64 → Bool)
    (segments : List Segment) :
    ((∀ s ∈ oversize l segments, refused s.baseOffset = false) ∧
      dropOversize l.config.retentionBytes refused (totalSize (segments ++ [l.active])) segments =
        segments.drop (oversize l segments).length) ∨
    ∃ pre s post, segments = pre ++ s :: post ∧ s ∈ oversize l segments ∧
      refused s.baseOffset = true ∧
      dropOversize l.config.retentionBytes refused (totalSize (segments ++ [l.active])) segments =
        s.close :: post := by
  induction segments with
  | nil => exact .inl ⟨by simp [oversize], rfl⟩
  | cons s rest ih =>
    rw [oversize, dropOversize, exceeds, decide_eq_true hlimit, Bool.true_and,
      List.cons_append, totalSize_cons_sub]
    by_cases hover : l.config.retentionBytes < totalSize (s :: (rest ++ [l.active]))
    · rw [if_pos hover, if_pos (decide_eq_true hover)]
      by_cases hrefused : refused s.baseOffset = true
      · rw [if_pos hrefused]
        exact .inr ⟨[], s, rest, rfl, List.mem_cons_self, hrefused, rfl⟩
      · rw [if_neg hrefused]
        rcases ih with ⟨hnone, hdrop⟩ | ⟨pre, t, post, rfl, ht, hrefused', hdrop⟩
        · refine .inl ⟨?_, hdrop⟩
          intro t ht
          rcases List.mem_cons.mp ht with rfl | ht
          · simpa using hrefused
          · exact hnone t ht
        · exact .inr ⟨s :: pre, t, post, rfl, List.mem_cons_of_mem s ht, hrefused', hdrop⟩
    · rw [if_neg hover, if_neg (by simpa using hover)]
      exact .inl ⟨by simp, rfl⟩

theorem exceeds_drop_of_lt {segments : List Segment} {m : Nat}
    (h : m < (oversize l segments).length) : exceeds l (segments.drop m) = true := by
  induction segments generalizing m with
  | nil => simp [oversize] at h
  | cons s rest ih =>
    rw [oversize] at h
    split at h
    · rename_i hover
      cases m with
      | zero => exact hover
      | succ m => exact ih (by simpa using h)
    · simp at h

theorem oversize_drop (segments : List Segment) :
    oversize l (segments.drop (oversize l segments).length) = [] := by
  induction segments with
  | nil => rfl
  | cons s rest ih =>
    rw [oversize]
    split
    · exact ih
    · rename_i hover
      rw [List.length_nil, List.drop_zero, oversize, if_neg hover]

theorem oversize_deleteOldest (n : Nat) (segments : List Segment) :
    oversize (l.deleteOldest n) segments = oversize l segments := by
  induction segments with
  | nil => rfl
  | cons s rest ih =>
    rw [oversize, oversize, ih]
    rfl

theorem dropExpired_of_disabled (h : l.config.retentionMs ≤ 0) (now : Int)
    (refused : Int64 → Bool) : l.dropExpired now refused = l.sealed := by
  have hnever : ∀ s, l.expired now s = false := by
    intro s
    have hnot : ¬ 0 < l.config.retentionMs := by
      rw [Int64.le_iff_toInt_le] at h
      rw [Int64.lt_iff_toInt_lt]
      omega
    simp [Log.expired, hnot]
  simp [Log.dropExpired, hnever]

theorem runRetention_bySize (hopen : l.closed = false) (hage : l.config.retentionMs ≤ 0)
    (hlimit : 0 < l.config.retentionBytes) (now : Int) :
    l.runRetention now (fun _ => false) = l.deleteOldest (oversize l l.sealed).length := by
  rw [Log.runRetention, Log.runRetentionPasses, dropExpired_of_disabled hage]
  dsimp only
  by_cases hnil : l.sealed = []
  · rw [if_pos (.inr hnil), hnil]
    rfl
  · rw [if_neg (by simp [hopen, hnil]), if_pos hlimit]
    rcases dropOversize_cases hlimit (fun _ => false) l.sealed with
      ⟨-, hdrop⟩ | ⟨_, _, _, -, -, hrefused, -⟩
    · rw [hdrop]
      rfl
    · cases hrefused

end

/-- Deleting `n` segments leaves the longest end of the list that is within the
limit, or the active segment alone. -/
structure LongestFitting (l : Log) (n : Nat) : Prop where
  within : n ≤ l.sealed.length
  fits : n < l.sealed.length →
    (bytesOf (l.sealed.drop n ++ [l.active]) : Int) ≤ l.config.retentionBytes.toInt
  longest : ∀ m, m < n →
    l.config.retentionBytes.toInt < (bytesOf (l.sealed.drop m ++ [l.active]) : Int)

section

variable {l : Log}

theorem bytesOf_append (xs ys : List Segment) : bytesOf (xs ++ ys) = bytesOf xs + bytesOf ys := by
  simp [bytesOf]

theorem bytesOf_drop_le (segments : List Segment) {m n : Nat} (h : m ≤ n) (active : Segment) :
    bytesOf (segments.drop n ++ [active]) ≤ bytesOf (segments.drop m ++ [active]) := by
  have hsplit : segments.drop m = (segments.drop m).take (n - m) ++ segments.drop n := by
    rw [← Nat.add_sub_cancel' h, Nat.add_sub_cancel_left, ← List.drop_drop, List.take_append_drop]
  rw [hsplit, bytesOf_append, bytesOf_append, bytesOf_append]
  omega

theorem toInt_totalSize {segments : List Segment} {limit : Int64}
    (h : (bytesOf segments : Int) ≤ limit.toInt) :
    (PartitionLog.totalSize segments).toInt = bytesOf segments := by
  have hlt := limit.toInt_lt
  rw [totalSize_eq]
  exact Int64.toInt_ofNat_of_lt (by omega)

theorem exceeds_iff (hlimit : 0 < l.config.retentionBytes) (segments : List Segment) :
    exceeds l segments = true ↔
      l.config.retentionBytes.toInt < (PartitionLog.totalSize (segments ++ [l.active])).toInt := by
  rw [exceeds, decide_eq_true hlimit, Bool.true_and, decide_eq_true_eq, Int64.lt_iff_toInt_lt]

/-- Retention by size is exact, and repeating it changes nothing, exactly if no end
of the list that is over the limit has a 64-bit total within it. -/
theorem size_retention_exact_iff (hopen : l.closed = false) (hage : l.config.retentionMs ≤ 0)
    (hlimit : 0 < l.config.retentionBytes) (now : Int) :
    (∃ n, l.runRetention now (fun _ => false) = l.deleteOldest n ∧ LongestFitting l n ∧
        ∀ later, (l.deleteOldest n).runRetention later (fun _ => false) = l.deleteOldest n) ↔
      ∀ m, m < l.sealed.length →
        l.config.retentionBytes.toInt < (bytesOf (l.sealed.drop m ++ [l.active]) : Int) →
          l.config.retentionBytes.toInt <
            (PartitionLog.totalSize (l.sealed.drop m ++ [l.active])).toInt := by
  have hrun := runRetention_bySize hopen hage hlimit now
  have hwithin : (oversize l l.sealed).length ≤ l.sealed.length :=
    (oversize_initial l.sealed).length_le
  constructor
  · rintro ⟨n, hn, hfitting, -⟩ m hm hover
    have hsame : n = (oversize l l.sealed).length := by
      have hlength := congrArg (fun l' : Log => l'.sealed.length) (hn.symm.trans hrun)
      simp only [Log.deleteOldest, List.length_drop] at hlength
      have := hfitting.within
      omega
    rcases Nat.lt_or_ge m n with hlt | hge
    · rw [hsame] at hlt
      exact (exceeds_iff hlimit _).mp (exceeds_drop_of_lt hlt)
    · have hfits := hfitting.fits (by omega)
      have hle := bytesOf_drop_le l.sealed hge l.active
      omega
  · intro hexact
    refine ⟨(oversize l l.sealed).length, hrun, ⟨hwithin, ?_, ?_⟩, ?_⟩
    · intro hlt
      by_contra hover
      have hexceeds := (exceeds_iff hlimit _).mpr (hexact _ hlt (by omega))
      have hstop : oversize l (l.sealed.drop (oversize l l.sealed).length) = [] :=
        oversize_drop l.sealed
      rw [List.drop_eq_getElem_cons hlt] at hexceeds hstop
      rw [oversize, if_pos hexceeds] at hstop
      cases hstop
    · intro m hm
      by_contra hle
      have hover := (exceeds_iff hlimit _).mp (exceeds_drop_of_lt hm)
      have hfits : (bytesOf (l.sealed.drop m ++ [l.active]) : Int) ≤
          l.config.retentionBytes.toInt := by omega
      rw [toInt_totalSize hfits] at hover
      omega
    · intro later
      have hnone : oversize (l.deleteOldest (oversize l l.sealed).length)
          (l.deleteOldest (oversize l l.sealed).length).sealed = [] :=
        (oversize_deleteOldest _ _).trans (oversize_drop l.sealed)
      rw [runRetention_bySize (l := l.deleteOldest _) hopen hage hlimit later, hnone]
      rfl

end

def fiveRecords : List (Option Record × Surroundings) :=
  [1, 2, 3, 4, 5].map fun i => (some (bareRecord i), ⟨0, none⟩)

def sizedLog : Log :=
  ({ emptyLog with config := { smallConfig with retentionBytes := 100 } }.appendBatch castagnoli
    fiveRecords).1

theorem size_retention_exact_iff_sizedLog :
    sizedLog.segments.map Segment.bytesWritten = [66, 66, 33] ∧
      ∃ n, sizedLog.runRetention 0 (fun _ => false) = sizedLog.deleteOldest n ∧
        LongestFitting sizedLog n ∧ ∀ later,
          (sizedLog.deleteOldest n).runRetention later (fun _ => false) = sizedLog.deleteOldest n := by
  have hopen : sizedLog.closed = false := by decide +kernel
  have hage : sizedLog.config.retentionMs ≤ 0 := by decide +kernel
  have hlimit : 0 < sizedLog.config.retentionBytes := by decide +kernel
  exact ⟨by decide +kernel, (size_retention_exact_iff hopen hage hlimit 0).mpr (by decide +kernel)⟩

def sparseConfig : Config := { smallConfig with retentionBytes := 1000 }

def reopenedSegment (base : Int64) (file : Bytes) : Segment :=
  { emptySegment with
    baseOffset := base, nextOffset := base, writer := openAtEnd file, bytesWritten := file.length
    createdAt := if 0 < file.length then 0 else 0 }

def reopenedLog (f g : Bytes) : Log :=
  { emptyLog with
    config := sparseConfig
    sealed := [reopenedSegment 0 f, reopenedSegment 2 g]
    active := reopenedSegment 4 [] }

theorem newSegment_reopenedSegment (base : Int64) (file : Bytes) :
    newSegment base file [] 0 0 sparseConfig = .ok (reopenedSegment base file) := by
  have hcfg : sparseConfig.withDefaults = sparseConfig := by decide +kernel
  have hindex : newIndex [] sparseConfig.indexMaxBytes = .ok emptySegment.index := by decide +kernel
  rw [newSegment, hcfg]
  simp only [hindex]
  rfl

theorem newLog_reopenedLog (f g : Bytes) :
    newLog castagnoli sparseConfig [⟨0, f, []⟩, ⟨2, g, []⟩, ⟨4, [], []⟩] (fun _ => 0) 0 =
      .ok (reopenedLog f g) := by
  have hcfg : sparseConfig.withDefaults = sparseConfig := by decide +kernel
  have hsorted : scanSegments [⟨0, f, []⟩, ⟨2, g, []⟩, ⟨4, [], []⟩] =
      [⟨0, f, []⟩, ⟨2, g, []⟩, ⟨4, [], []⟩] := rfl
  have hopened : openSegments sparseConfig (fun _ => 0) 0
      [⟨0, f, []⟩, ⟨2, g, []⟩, ⟨4, [], []⟩] = .ok (reopenedLog f g).segments := by
    simp only [openSegments, newSegment_reopenedSegment]
    rfl
  have hlast : (reopenedLog f g).segments.getLast? = some (reopenedSegment 4 []) := rfl
  have hactive : rebuildSegment castagnoli (reopenedSegment 4 []) (-1) =
      .ok (reopenedSegment 4 []) := by
    decide +kernel
  simp only [newLog, hcfg, hsorted, hopened, hlast, hactive]
  rfl

theorem sizes_reopenedLog {f : Bytes} (hf : f.length = 2 ^ 62) :
    (reopenedLog f f).segments.map Segment.bytesWritten = [2 ^ 62, 2 ^ 62, 0] := by
  rw [← hf]
  rfl

theorem runRetention_reopenedLog {f : Bytes} (hf : f.length = 2 ^ 62) :
    (reopenedLog f f).runRetention 0 (fun _ => false) = reopenedLog f f := by
  have hwithin : exceeds (reopenedLog f f) (reopenedLog f f).sealed = false := by
    have hwraps : Int64.ofNat [2 ^ 62, 2 ^ 62, 0].sum = Int64.minValue := by decide +kernel
    have htotal : PartitionLog.totalSize (reopenedLog f f).segments = Int64.minValue := by
      rw [totalSize_eq, bytesOf, sizes_reopenedLog hf, hwraps]
    have hlow : (0 < sparseConfig.retentionBytes &&
        sparseConfig.retentionBytes < Int64.minValue) = false := by decide
    rw [exceeds, ← Log.segments, htotal]
    exact hlow
  have hage : sparseConfig.retentionMs ≤ 0 := by decide
  have hlimit : 0 < sparseConfig.retentionBytes := by decide
  have hnone : oversize (reopenedLog f f) (reopenedLog f f).sealed = [] :=
    if_neg (Bool.eq_false_iff.mp hwithin)
  rw [runRetention_bySize (l := reopenedLog f f) rfl hage hlimit, hnone]
  rfl

/-- Two sealed files of 2^62 bytes: the 64-bit total is negative, and nothing of
2^63 bytes is deleted to keep 1000. -/
theorem wrapped_total_keeps_all :
    ∃ f g l, newLog castagnoli sparseConfig [⟨0, f, []⟩, ⟨2, g, []⟩, ⟨4, [], []⟩] (fun _ => 0) 0 =
        .ok l ∧
      l.config.retentionBytes = 1000 ∧ l.segments.map Segment.bytesWritten = [2 ^ 62, 2 ^ 62, 0] ∧
      l.runRetention 0 (fun _ => false) = l ∧
      ¬ ∃ n, l.runRetention 0 (fun _ => false) = l.deleteOldest n ∧ LongestFitting l n := by
  have hlength : (List.replicate (2 ^ 62) (0 : UInt8)).length = 2 ^ 62 := by
    rw [List.length_replicate]
  generalize List.replicate (2 ^ 62) (0 : UInt8) = f at hlength
  refine ⟨f, f, reopenedLog f f, newLog_reopenedLog f f, rfl, sizes_reopenedLog hlength,
    runRetention_reopenedLog hlength, ?_⟩
  rintro ⟨n, hn, hfitting⟩
  rw [runRetention_reopenedLog hlength] at hn
  have hkept : 2 = 2 - n :=
    (congrArg (fun l : Log => l.sealed.length) hn).trans List.length_drop
  obtain rfl : n = 0 := by omega
  have hfits := hfitting.fits Nat.zero_lt_two
  rw [List.drop_zero, ← Log.segments, bytesOf, sizes_reopenedLog hlength] at hfits
  have hover : ¬ (([2 ^ 62, 2 ^ 62, 0].sum : Nat) : Int) ≤ sparseConfig.retentionBytes.toInt := by
    decide +kernel
  exact hover hfits

def left (l : Log) (now : Int) (refusedByAge : Int64 → Bool) : List Segment :=
  l.sealed.filter fun s => !l.expired now s || refusedByAge s.baseOffset

/-- `Remove` closes a segment before it can fail. -/
def tried (l : Log) (now : Int) (s : Segment) : Segment := if l.expired now s then s.close else s

/-- The segments listed are an end of the previous list with the same active
segment, and every offset between the lowest and the highest is read. -/
structure NoHoles (crc : Checksum) (l l' : Log) : Prop where
  suffix : l'.segments.map Segment.baseOffset <:+ l.segments.map Segment.baseOffset
  active : l'.active = l.active
  readable : ∀ x, l'.lowestOffset ≤ x → x < l'.highestOffset → ∃ r, l'.read crc x = .ok r

/-- Every removal that matters succeeds: the segments over the limit are let go, and
they include what the pass by age could not remove and what it does not look at. -/
structure Removable (l : Log) (now : Int) (refusedByAge refusedBySize : Int64 → Bool) : Prop where
  bySize : ∀ s ∈ oversize l (left l now refusedByAge), refusedBySize s.baseOffset = false
  byAge : ∀ s ∈ l.sealed, l.expired now s = true → refusedByAge s.baseOffset = true →
    s ∈ oversize l (left l now refusedByAge)
  stamped : ∀ pre s post, l.sealed = pre ++ s :: post → s.createdAt = zeroTime →
    (∃ t ∈ post, l.expired now t = true) → s ∈ oversize l (left l now refusedByAge)

section

variable {crc : Checksum} {l l' : Log} {now : Int} {refusedByAge refusedBySize : Int64 → Bool}

@[simp]
theorem tried_baseOffset (s : Segment) : (tried l now s).baseOffset = s.baseOffset := by
  rw [tried]
  split <;> rfl

@[simp]
theorem tried_bytesWritten (s : Segment) : (tried l now s).bytesWritten = s.bytesWritten := by
  rw [tried]
  split <;> rfl

theorem tried_of_expired {s : Segment} (h : l.expired now s = true) :
    (tried l now s).closed = true := by
  rw [tried, if_pos h]
  rfl

theorem dropExpired_eq (l : Log) (now : Int) (refusedByAge : Int64 → Bool) :
    l.dropExpired now refusedByAge = (left l now refusedByAge).map (tried l now) := by
  rw [Log.dropExpired, left, ← List.filterMap_eq_map, ← List.filterMap_eq_filter,
    List.filterMap_filterMap]
  refine List.filterMap_congr fun s _ => ?_
  cases hexpired : l.expired now s <;> cases hrefused : refusedByAge s.baseOffset <;>
    simp [Option.guard, tried, hexpired, hrefused]

theorem oversize_map {f : Segment → Segment} (hf : ∀ s, (f s).bytesWritten = s.bytesWritten)
    (segments : List Segment) : oversize l (segments.map f) = (oversize l segments).map f := by
  have hbytes : ∀ xs : List Segment, bytesOf (xs.map f) = bytesOf xs := by
    intro xs
    rw [bytesOf, bytesOf, List.map_map]
    congr 2
    funext s
    exact hf s
  induction segments with
  | nil => rfl
  | cons s rest ih =>
    have hsame : exceeds l ((s :: rest).map f) = exceeds l (s :: rest) := by
      simp only [exceeds, totalSize_eq, bytesOf_append, hbytes]
    rw [List.map_cons, oversize, ← List.map_cons, hsame, oversize, ih]
    split <;> rfl

theorem oversize_append_drop (segments : List Segment) :
    oversize l segments ++ segments.drop (oversize l segments).length = segments := by
  obtain ⟨rest, hrest⟩ := oversize_initial (l := l) segments
  generalize oversize l segments = front at hrest ⊢
  rw [← hrest, List.drop_left]

theorem oversize_of_disabled (h : ¬ 0 < l.config.retentionBytes) (segments : List Segment) :
    oversize l segments = [] := by
  cases segments with
  | nil => rfl
  | cons s rest => rw [oversize, if_neg (by simp [exceeds, h])]

/-- Both passes: either what is over the limit is gone, or the pass by size stopped
at a segment it could not remove. -/
theorem runRetentionPasses_cases (hopen : l.closed = false) (hsealed : l.sealed ≠ []) :
    ((∀ s ∈ oversize l (left l now refusedByAge), refusedBySize s.baseOffset = false) ∧
      l.runRetentionPasses now refusedByAge refusedBySize =
        { l with
          sealed := ((left l now refusedByAge).drop
            (oversize l (left l now refusedByAge)).length).map (tried l now) }) ∨
    (∃ s ∈ oversize l (left l now refusedByAge), refusedBySize s.baseOffset = true) ∧
      ∃ s ∈ (l.runRetentionPasses now refusedByAge refusedBySize).sealed, s.closed = true := by
  rw [Log.runRetentionPasses, if_neg (by simp [hopen, hsealed])]
  dsimp only
  rw [dropExpired_eq]
  generalize left l now refusedByAge = kept
  by_cases hlimit : 0 < l.config.retentionBytes
  · rw [if_pos hlimit]
    rcases dropOversize_cases hlimit refusedBySize (kept.map (tried l now)) with
      ⟨hlet, hdrop⟩ | ⟨pre, s, post, -, hs, hrefused, hdrop⟩
    · rw [oversize_map tried_bytesWritten] at hlet
      rw [hdrop, oversize_map tried_bytesWritten, List.length_map, List.map_drop]
      refine .inl ⟨fun s hs => ?_, rfl⟩
      have := hlet _ (List.mem_map_of_mem hs)
      rwa [tried_baseOffset] at this
    · rw [oversize_map tried_bytesWritten] at hs
      obtain ⟨u, hu, rfl⟩ := List.mem_map.mp hs
      rw [tried_baseOffset] at hrefused
      rw [hdrop]
      exact .inr ⟨⟨u, hu, hrefused⟩, _, List.mem_cons_self, rfl⟩
  · rw [if_neg hlimit, oversize_of_disabled hlimit]
    exact .inl ⟨by simp, rfl⟩

theorem runRetentionPasses_closed :
    (l.runRetentionPasses now refusedByAge refusedBySize).closed = l.closed := by
  rw [Log.runRetentionPasses]
  dsimp only
  split
  · rfl
  · split <;> rfl

theorem NoHoles.all_open (h : WellFormed crc l) (hopen : l'.closed = false)
    (hholes : NoHoles crc l l') {s : Segment} (hs : s ∈ l'.sealed) : s.closed = false := by
  have hbases : l'.segments.Pairwise fun s t => s.baseOffset.toInt < t.baseOffset.toInt := by
    have hall : (l.segments.map Segment.baseOffset).Pairwise fun a b => a.toInt < b.toInt :=
      List.pairwise_map.mpr (bases_increasing h)
    have hsome := hall.sublist hholes.suffix.sublist
    rwa [List.pairwise_map] at hsome
  by_contra hclosed
  have herror : ∃ e, l'.read crc s.baseOffset = .error e :=
    read_closed hopen hbases hs (by simpa using hclosed)
  have hlow := lowestOffset_le hopen hbases (List.mem_append_left [l'.active] hs)
  have hhigh : s.baseOffset.toInt < l'.highestOffset.toInt := by
    have hbelow := (List.pairwise_append.mp hbases).2.2 s hs l'.active List.mem_cons_self
    have hsame : l'.highestOffset = l.highestOffset := by
      rw [Log.highestOffset, Log.highestOffset, hopen, h.isOpen, hholes.active]
    rw [hholes.active, h.active_base] at hbelow
    rw [hsame, h.highestOffset, storedRecords_eq, List.length_append]
    omega
  obtain ⟨e, he⟩ := herror
  obtain ⟨r, hr⟩ := hholes.readable s.baseOffset (Int64.le_iff_toInt_le.mpr hlow)
    (Int64.lt_iff_toInt_lt.mpr hhigh)
  rw [he] at hr
  cases hr

theorem noHoles_deleteOldest (h : WellFormed crc l) (n : Nat) : NoHoles crc l (l.deleteOldest n) := by
  refine ⟨?_, rfl, ?_⟩
  · have hsegments : (l.deleteOldest n).segments <:+ l.segments :=
      ⟨l.sealed.take n, by
        rw [Log.segments, Log.segments, Log.deleteOldest, ← List.append_assoc,
          List.take_append_drop]⟩
    exact hsegments.map _
  · intro x hlow hhigh
    rw [Int64.le_iff_toInt_le] at hlow
    rw [Int64.lt_iff_toInt_lt] at hhigh
    obtain ⟨r, -, hr⟩ := read_present (deleteOldest_spec h n).1 hlow hhigh
    exact ⟨r, hr⟩

/-- Of two segments in order only the later one expired if the earlier one has no
creation time. -/
theorem expired_of_later {s t : Segment} (hle : s.createdAt ≤ t.createdAt)
    (ht : l.expired now t = true) : l.expired now s = true ∨ s.createdAt = zeroTime := by
  by_cases hzero : s.createdAt = zeroTime
  · exact .inr hzero
  · left
    simp only [Log.expired, Bool.and_eq_true, decide_eq_true_eq] at ht ⊢
    refine ⟨⟨ht.1.1, hzero⟩, ?_⟩
    have hage := ht.2
    rw [Int64.le_iff_toInt_le, toInt_elapsed] at hage ⊢
    omega

theorem mem_left {s : Segment} :
    s ∈ left l now refusedByAge ↔
      s ∈ l.sealed ∧ (l.expired now s = false ∨ refusedByAge s.baseOffset = true) := by
  simp [left]

theorem base_injective (h : WellFormed crc l) {s t : Segment} (hs : s ∈ l.segments)
    (ht : t ∈ l.segments) (hsame : s.baseOffset = t.baseOffset) : s = t := by
  have hnodup : (l.segments.map Segment.baseOffset).Nodup := by
    refine List.pairwise_map.mpr ((bases_increasing h).imp ?_)
    intro a b hlt heq
    rw [heq] at hlt
    exact lt_irrefl _ hlt
  exact List.inj_on_of_nodup_map hnodup hs ht hsame

section

variable {rest : List Segment}

theorem kept_of_mem (hrest : oversize l (left l now refusedByAge) ++ rest = left l now refusedByAge)
    {s : Segment} (hs : s ∈ rest) :
    s ∈ l.sealed ∧ (l.expired now s = false ∨ refusedByAge s.baseOffset = true) := by
  rw [← mem_left, ← hrest]
  exact List.mem_append_right _ hs

theorem later_mem (h : WellFormed crc l) (hsub : ∀ s ∈ rest, s ∈ l.sealed)
    (hholes : NoHoles crc l { l with sealed := rest.map (tried l now) }) {s t : Segment}
    (hs : s ∈ rest) (ht : t ∈ l.sealed) (hlt : s.baseOffset.toInt < t.baseOffset.toInt) :
    t ∈ rest := by
  have hlisted : (rest ++ [l.active]).map Segment.baseOffset <:+
      l.segments.map Segment.baseOffset := by
    have hsame : (rest.map (tried l now)).map Segment.baseOffset = rest.map Segment.baseOffset := by
      rw [List.map_map]
      exact List.map_congr_left fun s _ => tried_baseOffset s
    have hsuffix := hholes.suffix
    rw [Log.segments, List.map_append, hsame] at hsuffix
    rwa [List.map_append]
  obtain ⟨front, hfront⟩ := hlisted
  have hall : (l.segments.map Segment.baseOffset).Pairwise fun a b => a.toInt < b.toInt :=
    List.pairwise_map.mpr (bases_increasing h)
  have ht' : t ∈ l.segments := List.mem_append_left _ ht
  have hmem := List.mem_map_of_mem (f := Segment.baseOffset) ht'
  rw [← hfront] at hall hmem
  rcases List.mem_append.mp hmem with hearly | hlate
  · have := (List.pairwise_append.mp hall).2.2 _ hearly _
      (List.mem_map_of_mem (List.mem_append_left _ hs))
    omega
  · obtain ⟨u, hu, hbase⟩ := List.mem_map.mp hlate
    rcases List.mem_append.mp hu with hu | hu
    · obtain rfl := base_injective h (List.mem_append_left _ (hsub u hu)) ht' hbase
      exact hu
    · obtain rfl := List.mem_singleton.mp hu
      have hbelow := (List.pairwise_append.mp (bases_increasing h)).2.2 t ht l.active
        List.mem_cons_self
      rw [hbase] at hbelow
      exact absurd hbelow (lt_irrefl _)

theorem removable_of_noHoles (h : WellFormed crc l)
    (hrest : oversize l (left l now refusedByAge) ++ rest = left l now refusedByAge)
    (hlet : ∀ s ∈ oversize l (left l now refusedByAge), refusedBySize s.baseOffset = false)
    (hholes : NoHoles crc l { l with sealed := rest.map (tried l now) }) :
    Removable l now refusedByAge refusedBySize := by
  have hsub := fun s hs => kept_of_mem (s := s) hrest hs
  have hfresh : ∀ s ∈ rest, l.expired now s = false := by
    intro s hs
    by_contra hexpired
    have hopen : (tried l now s).closed = false :=
      NoHoles.all_open h (show Log.closed { l with sealed := rest.map (tried l now) } = false
        from h.isOpen) hholes (List.mem_map_of_mem hs)
    rw [tried_of_expired (by simpa using hexpired)] at hopen
    cases hopen
  refine ⟨hlet, ?_, ?_⟩
  · intro s hs hexpired hrefused
    have hleft : s ∈ left l now refusedByAge := mem_left.mpr ⟨hs, .inr hrefused⟩
    rw [← hrest] at hleft
    refine (List.mem_append.mp hleft).resolve_right fun hmem => ?_
    rw [hfresh s hmem] at hexpired
    cases hexpired
  · rintro pre s post hsplit hzero ⟨t, ht, hexpired⟩
    have hs : s ∈ l.sealed := by simp [hsplit]
    have ht' : t ∈ l.sealed := by simp [hsplit, ht]
    have hleft : s ∈ left l now refusedByAge :=
      mem_left.mpr ⟨hs, .inl (by simp [Log.expired, hzero])⟩
    rw [← hrest] at hleft
    refine (List.mem_append.mp hleft).resolve_right fun hmem => ?_
    have hbases := bases_increasing h
    rw [Log.segments, hsplit, List.append_assoc] at hbases
    have hlt := (List.pairwise_cons.mp (List.pairwise_append.mp hbases).2.1).1 t
      (List.mem_append_left _ ht)
    rw [hfresh t (later_mem h (fun u hu => (hsub u hu).1) hholes hmem ht' hlt)] at hexpired
    cases hexpired

theorem deleteOldest_of_removable (h : WellFormed crc l)
    (hcreated : l.segments.Pairwise fun s t => s.createdAt ≤ t.createdAt)
    (hrest : oversize l (left l now refusedByAge) ++ rest = left l now refusedByAge)
    (hremovable : Removable l now refusedByAge refusedBySize) :
    ∃ n, { l with sealed := rest.map (tried l now) } = l.deleteOldest n := by
  have hapart : ∀ s ∈ rest, s ∉ oversize l (left l now refusedByAge) := by
    have hnodup : (left l now refusedByAge).Nodup := by
      have hall : l.segments.Nodup := (bases_increasing h).imp fun hlt heq => by
        rw [heq] at hlt
        exact lt_irrefl _ hlt
      exact (hall.sublist (List.sublist_append_left _ _)).filter _
    rw [← hrest] at hnodup
    intro s hs hover
    exact (List.nodup_append.mp hnodup).2.2 s hover s hs rfl
  have hfresh : ∀ s ∈ rest, l.expired now s = false := by
    intro s hs
    obtain ⟨hmem, hkept⟩ := kept_of_mem hrest hs
    refine hkept.elim id fun hrefused => ?_
    by_contra hexpired
    exact hapart s hs (hremovable.byAge s hmem (by simpa using hexpired) hrefused)
  have hsame : rest.map (tried l now) = rest := by
    refine List.map_congr_left (g := id) ?_ |>.trans (List.map_id rest)
    intro s hs
    rw [tried, hfresh s hs]
    rfl
  suffices hsuffix : rest <:+ l.sealed by
    obtain ⟨front, hfront⟩ := hsuffix
    refine ⟨front.length, ?_⟩
    rw [hsame, Log.deleteOldest, ← hfront, List.drop_left]
  cases rest with
  | nil => exact List.nil_suffix
  | cons s later =>
    obtain ⟨before, after, hsplit, -, hafter⟩ := List.filter_eq_append_iff.mp hrest.symm
    obtain ⟨gap, post, rfl, -, -, hpost⟩ := List.filter_eq_cons_iff.mp hafter
    have hall : post.filter (fun t => !l.expired now t || refusedByAge t.baseOffset) = post := by
      refine List.filter_eq_self.mpr fun t ht => ?_
      have hle : s.createdAt ≤ t.createdAt := by
        rw [Log.segments, hsplit, List.append_assoc, List.append_assoc] at hcreated
        have hlater := (List.pairwise_append.mp (List.pairwise_append.mp hcreated).2.1).2.1
        exact (List.pairwise_cons.mp hlater).1 t (List.mem_append_left _ ht)
      have hkept : l.expired now t = false := by
        by_contra hexpired
        rw [Bool.not_eq_false] at hexpired
        rcases expired_of_later hle hexpired with hearlier | hzero
        · rw [hfresh s List.mem_cons_self] at hearlier
          cases hearlier
        · refine hapart s List.mem_cons_self
            (hremovable.stamped (before ++ gap) s post ?_ hzero ⟨t, ht, hexpired⟩)
          rw [hsplit, List.append_assoc]
      simp [hkept]
    rw [hall] at hpost
    rw [hsplit, ← hpost]
    exact ⟨before ++ gap, by simp⟩

end

/-- Retention leaves no hole exactly if the removals that matter succeed. -/
theorem retention_without_holes_iff (h : WellFormed crc l) (hsealed : l.sealed ≠ [])
    (hcreated : l.segments.Pairwise fun s t => s.createdAt ≤ t.createdAt) :
    NoHoles crc l (l.runRetentionPasses now refusedByAge refusedBySize) ↔
      Removable l now refusedByAge refusedBySize := by
  have hrest := oversize_append_drop (l := l) (left l now refusedByAge)
  constructor
  · intro hholes
    rcases runRetentionPasses_cases h.isOpen hsealed with ⟨hlet, hrun⟩ | ⟨-, s, hs, hclosed⟩
    · rw [hrun] at hholes
      exact removable_of_noHoles h hrest hlet hholes
    · have hopen := hholes.all_open h (runRetentionPasses_closed.trans h.isOpen) hs
      rw [hclosed] at hopen
      cases hopen
  · intro hremovable
    rcases runRetentionPasses_cases h.isOpen hsealed with ⟨-, hrun⟩ | ⟨⟨s, hs, hrefused⟩, -⟩
    · obtain ⟨n, hn⟩ := deleteOldest_of_removable h hcreated hrest hremovable
      rw [hrun, hn]
      exact noHoles_deleteOldest h n
    · rw [hremovable.bySize s hs] at hrefused
      cases hrefused

end

def agedConfig : Config := { smallConfig with retentionMs := 1, retentionBytes := 1 }

def agedLog : Log := ({ emptyLog with config := agedConfig }.appendBatch castagnoli fiveRecords).1

theorem wellFormed_agedLog : WellFormed castagnoli agedLog := by
  have hnew : newLog castagnoli agedConfig [] (fun _ => 0) 0 =
      .ok { emptyLog with config := agedConfig } := by
    decide +kernel
  obtain ⟨_, -, hextends, -⟩ :=
    appendBatch_spec (newLog_empty hnew).1 fiveRecords (by decide +kernel)
  exact hextends.wellFormed

/-- The pass by age cannot remove the first segment, and the pass by size can. -/
theorem retention_without_holes_iff_agedLog :
    agedLog.segments.map Segment.baseOffset = [0, 2, 4] ∧
      NoHoles castagnoli agedLog
        (agedLog.runRetentionPasses 1000000 (fun base => base = 0) (fun _ => false)) := by
  have hstamped : ∀ s ∈ agedLog.sealed, s.createdAt ≠ zeroTime := by decide +kernel
  have hcreated : agedLog.segments.Pairwise fun s t => s.createdAt ≤ t.createdAt := by
    decide +kernel
  refine ⟨by decide +kernel, (retention_without_holes_iff wellFormed_agedLog (by decide +kernel)
    hcreated).mpr ⟨by decide +kernel, by decide +kernel, ?_⟩⟩
  intro pre s post hsplit hzero
  exact absurd hzero (hstamped s (by simp [hsplit]))

/-- The first of three segments cannot be removed.  The second one is removed all
the same, and none of their four records can be read any more. -/
theorem refused_removal_leaves_hole :
    agedLog.segments.map Segment.createdAt = [0, 0, 0] ∧
      (agedLog.runRetention 1000000 fun base => base = 0).segments.map Segment.baseOffset = [0, 4] ∧
      (agedLog.runRetention 1000000 fun base => base = 0).lowestOffset = 0 ∧
      (agedLog.runRetention 1000000 fun base => base = 0).highestOffset = 5 ∧
      [0, 1, 2, 3].map ((agedLog.runRetention 1000000 fun base => base = 0).read castagnoli) =
        List.replicate 4 (.error (.read .segmentClosed)) ∧
      ¬ NoHoles castagnoli agedLog (agedLog.runRetention 1000000 fun base => base = 0) := by
  have hread : (agedLog.runRetention 1000000 fun base => base = 0).read castagnoli 2 =
      .error (.read .segmentClosed) := by
    decide +kernel
  refine ⟨by decide +kernel, by decide +kernel, by decide +kernel, by decide +kernel,
    by decide +kernel, ?_⟩
  intro hholes
  obtain ⟨r, hr⟩ := hholes.readable 2 (by decide +kernel) (by decide +kernel)
  rw [hread] at hr
  cases hr

end MiniKafka.LogRetention
