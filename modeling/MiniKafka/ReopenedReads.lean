import MiniKafka.LogReadFrom

/-!
Reads before closing a log and after opening it again.

A reopened sealed segment claims to end where it starts, so `ReadFrom` does
not get past the first segment it reads.  What it returns is never with a gap.
-/

namespace MiniKafka.ReopenedReads

open RecordCodec SegmentStore PartitionLog LogContents SegmentReads LogReopen LogReads LogRefinement
  LogReadFrom Runs

/-- `l'` answers every `ReadFrom` like `l`, and each of its segments ends where
the next one starts. -/
def ReopenNeutral (crc : Checksum) (l l' : Log) : Prop :=
  (∀ offset maxBytes, l'.readFrom crc offset maxBytes = l.readFrom crc offset maxBytes) ∧
    ∀ i (hi : i + 1 < l'.segments.length),
      l'.segments[i].nextOffset = l'.segments[i + 1].baseOffset

section

variable {crc : Checksum} {modTime : Int64 → Int} {now : Int} {l l' : Log}

theorem nextOffset_reopened (h : WellFormed crc l) (hreopen : Reopened crc modTime now l l')
    {s : Segment} {rest : List Segment} (hsealed : l.sealed = s :: rest) :
    ∃ hi : 0 + 1 < l'.segments.length,
      l'.segments[0].nextOffset ≠ l'.segments[0 + 1].baseOffset := by
  have hfirst : l'.sealed = reopened l.config modTime now s ::
      rest.map (reopened l.config modTime now) := by
    rw [hreopen.sealed, hsealed]
    rfl
  have hlen : 0 + 1 < l'.segments.length := by
    rw [Log.segments, hfirst]
    simp
  have hne := (h.sealed s (by rw [hsealed]; simp)).nonempty
  have hpos := List.length_pos_of_ne_nil hne
  have hrecords : segmentRecords crc (reopened l.config modTime now s) = segmentRecords crc s :=
    Reopened.sealedRecords h (by rw [hsealed]; simp)
  obtain ⟨t, ts, htail⟩ :
      ∃ t ts, l'.segments = [] ++ reopened l.config modTime now s :: t :: ts := by
    rw [Log.segments, hfirst]
    cases rest with
    | nil => exact ⟨_, _, rfl⟩
    | cons u us => exact ⟨_, _, rfl⟩
  obtain ⟨-, hrange, -, hpost⟩ := base_of_split (Reopened.wellFormed h hreopen) htail
  have ht := hpost t (by simp)
  rw [hrecords] at ht
  refine ⟨hlen, ?_⟩
  simp only [htail, List.nil_append, List.getElem_cons_zero, List.getElem_cons_succ]
  intro heq
  rw [← heq] at ht
  change s.baseOffset.toInt = s.baseOffset.toInt + _ at ht
  omega

theorem readFrom_reopened_single (h : WellFormed crc l) (hreopen : Reopened crc modTime now l l')
    (hsealed : l.sealed = []) (offset : Int64) (maxBytes : Int32) :
    l'.readFrom crc offset maxBytes = l.readFrom crc offset maxBytes := by
  have h' := Reopened.wellFormed h hreopen
  have hsealed' : l'.sealed = [] := by rw [hreopen.sealed, hsealed]; rfl
  have hlowest := Reopened.lowest h hreopen
  by_cases hmax : 0 < maxBytes
  · by_cases hlow : l.lowestOffset.toInt ≤ offset.toInt
    · have hchunks : chunksFrom crc offset l'.segments = chunksFrom crc offset l.segments := by
        rw [Log.segments, Log.segments, hsealed, hsealed']
        simp only [List.nil_append, chunksFrom, segmentRecords_eq hreopen.active.toStores,
          hreopen.shape.baseOffset]
        rfl
      rw [readFrom_log h (by simp [NextOffsetsKnown, hsealed]) hlow hmax,
        readFrom_log h' (by simp [NextOffsetsKnown, hsealed']) (by rw [hlowest]; exact hlow) hmax,
        hchunks]
    · have hbelow : offset < l.lowestOffset := by
        rw [Int64.lt_iff_toInt_lt]
        omega
      rw [Log.readFrom, Log.readFrom, hlowest, h.isOpen, h'.isOpen, if_pos hbelow, if_pos hbelow]
  · have hnot : maxBytes ≤ 0 := by
      rw [Int32.lt_iff_toInt_lt] at hmax
      rw [Int32.le_iff_toInt_le]
      omega
    rw [Log.readFrom, Log.readFrom, h.isOpen, h'.isOpen, if_pos hnot, if_pos hnot]

end

/-- No sealed segment knows more than where it starts. -/
def EndsForgotten (l : Log) : Prop := ∀ s ∈ l.sealed, s.nextOffset = s.baseOffset

section

variable {crc : Checksum} {modTime : Int64 → Int} {now : Int} {l l' : Log}

theorem endsForgotten_reopened (hreopen : Reopened crc modTime now l l') : EndsForgotten l' := by
  intro s hs
  rw [hreopen.sealed] at hs
  obtain ⟨t, -, rfl⟩ := List.mem_map.mp hs
  rfl

theorem readFromLoop_forgotten (h : WellFormed crc l) (hends : EndsForgotten l)
    (maxBytes : Int32) {pre post : List Segment} {s : Segment}
    (hsplit : l.segments = pre ++ s :: post) {offset : Int64}
    (hle : s.baseOffset.toInt ≤ offset.toInt) :
    readFromLoop crc maxBytes (s :: post) offset [] 0 =
      (admitted maxBytes ((chunksFrom crc offset (s :: post)).headD []), none) := by
  have hnot : ¬ offset < s.baseOffset := by
    rw [Int64.lt_iff_toInt_lt]
    omega
  rw [readFromLoop_cons h hsplit]
  induction post generalizing pre s with
  | nil =>
    rw [if_neg (by simp [skips]), if_neg hnot]
    simp only [readFromLoop, ite_self, chunksFrom, List.nil_append, Int32.sub_zero,
      List.headD_cons]
  | cons u rest ih =>
    rw [chunksFrom]
    by_cases hskip : u.baseOffset ≤ offset
    · have hsplit' : l.segments = (pre ++ [s]) ++ u :: rest := by
        rw [List.append_assoc]
        exact hsplit
      have hnot' : ¬ offset < u.baseOffset := by
        rw [Int64.lt_iff_toInt_lt]
        rw [Int64.le_iff_toInt_le] at hskip
        omega
      rw [if_pos (by simpa [skips] using hskip), if_pos hskip, readFromLoop_cons h hsplit']
      exact ih hsplit' (Int64.le_iff_toInt_le.mp hskip) hnot'
    · have hstop : s.nextOffset ≤ offset := by
        rw [hends s (mem_sealed_of_split hsplit), Int64.le_iff_toInt_le]
        exact hle
      rw [if_neg (by simpa [skips] using hskip), if_neg hnot, if_neg hskip]
      simp only [if_pos hstop, ite_self, List.nil_append, Int32.sub_zero, List.headD_cons]

theorem headD_chunksFrom_ne_nil (h : WellFormed crc l) {pre post : List Segment} {s : Segment}
    (hsplit : l.segments = pre ++ s :: post) {offset : Int64}
    (hle : s.baseOffset.toInt ≤ offset.toInt) (hbelow : offset.toInt < l.highestOffset.toInt) :
    (chunksFrom crc offset (s :: post)).headD [] ≠ [] := by
  induction post generalizing pre s with
  | nil =>
    obtain ⟨hbase, -⟩ := base_of_split h hsplit
    rw [h.highestOffset, storedRecords, hsplit, recordsOf_append, recordsOf_cons, recordsOf_nil,
      List.append_nil, List.length_append] at hbelow
    rw [chunksFrom, List.headD_cons, ne_eq, List.drop_eq_nil_iff]
    omega
  | cons u rest ih =>
    obtain ⟨-, -, -, hpost⟩ := base_of_split h hsplit
    have hu := hpost u (by simp)
    rw [chunksFrom]
    by_cases hskip : u.baseOffset ≤ offset
    · have hsplit' : l.segments = (pre ++ [s]) ++ u :: rest := by
        rw [List.append_assoc]
        exact hsplit
      rw [if_pos hskip]
      exact ih hsplit' (Int64.le_iff_toInt_le.mp hskip)
    · rw [if_neg hskip, List.headD_cons, ne_eq, List.drop_eq_nil_iff]
      rw [Int64.le_iff_toInt_le] at hskip
      omega

/-- A log that has forgotten its ends is read without a gap: a read does not go
past the segment it starts in. -/
theorem contiguous_forgotten (h : WellFormed crc l) (hends : EndsForgotten l) {offset : Int64}
    (hle : l.lowestOffset.toInt ≤ offset.toInt) {maxBytes : Int32} (hmax : 0 < maxBytes) :
    Contiguous crc l offset maxBytes := by
  have hpos : ¬ maxBytes ≤ 0 := by
    rw [Int32.lt_iff_toInt_lt] at hmax
    rw [Int32.le_iff_toInt_le]
    omega
  obtain ⟨s, post, hsegs, hfirst⟩ := exists_first h
  have hbase : s.baseOffset.toInt ≤ offset.toInt := by rwa [← hfirst]
  have hread : l.readFrom crc offset maxBytes =
      (admitted maxBytes ((chunksFrom crc offset (s :: post)).headD []), none) := by
    rw [readFrom_eq_loop h hle hmax, hsegs]
    exact readFromLoop_forgotten h hends maxBytes hsegs hbase
  have hflat := flatten_chunksFrom_log h hle
  rw [hsegs, List.nil_append] at hflat
  refine contiguous_of_initial h hle hread ?_ ?_
  · rw [← hflat]
    refine (admitted_initial _ _).trans ?_
    cases chunksFrom crc offset (s :: post) with
    | nil => exact List.nil_prefix
    | cons c cs => exact List.prefix_append c cs.flatten
  · intro hlt
    obtain ⟨r, rs, hchunk⟩ := List.exists_cons_of_ne_nil
      (headD_chunksFrom_ne_nil h hsegs hbase (Int64.lt_iff_toInt_lt.mp hlt))
    rw [hchunk, admitted, if_neg hpos, takeBudget, if_neg (by simp)]
    simp

end

/-- Reopening is neutral exactly for logs that were never rotated, or whose
other segments are gone. -/
theorem reopen_neutral_iff {crc : Checksum} {cfg : Config} {modTime modTime' : Int64 → Int}
    {now now' : Int} {l₀ l l' : Log} {events : List Event}
    (hnew : newLog crc cfg [] modTime now = .ok l₀) (hrun : Run (Step crc cfg) l₀ events l)
    (hreopen : newLog crc cfg l.close.2 modTime' now' = .ok l') :
    ReopenNeutral crc l l' ↔ l.sealed = [] := by
  obtain ⟨h, hcfg⟩ := wellFormed_of_run hnew hrun
  obtain ⟨l₁, hnew', hreopened⟩ := reopen_spec h hcfg.symm modTime' now'
  obtain rfl : l₁ = l' := Except.ok.inj (hnew'.symm.trans hreopen)
  constructor
  · rintro ⟨-, hnext⟩
    by_contra hne
    obtain ⟨s, rest, hsealed⟩ := List.exists_cons_of_ne_nil hne
    obtain ⟨hi, hwrong⟩ := nextOffset_reopened h hreopened hsealed
    exact hwrong (hnext 0 hi)
  · intro hsealed
    refine ⟨readFrom_reopened_single h hreopened hsealed, ?_⟩
    intro i hi
    rw [Log.segments, hreopened.sealed, hsealed] at hi
    simp at hi

/-- Two segments hold three records; after reopening, a read from the start
returns the first two and stops. -/
theorem reopen_loses_second_segment :
    ∃ l', newLog castagnoli smallConfig threeRecordLog.close.2 (fun _ => 0) 0 = .ok l' ∧
      (threeRecordLog.readFrom castagnoli 0 500).1.map Record.offset = [0, 1, 2] ∧
      (l'.readFrom castagnoli 0 500).1.map Record.offset = [0, 1] ∧
      ¬ ReopenNeutral castagnoli threeRecordLog l' := by
  have hbefore : (threeRecordLog.readFrom castagnoli 0 500).1.map Record.offset = [0, 1, 2] := by
    decide +kernel
  have hafter : (newLog castagnoli smallConfig threeRecordLog.close.2 (fun _ => 0) 0).toOption.map
      (fun l' => (l'.readFrom castagnoli 0 500).1.map Record.offset) = some [0, 1] := by
    decide +kernel
  cases hnew : newLog castagnoli smallConfig threeRecordLog.close.2 (fun _ => 0) 0 with
  | error e =>
    rw [hnew] at hafter
    simp [Except.toOption] at hafter
  | ok l' =>
    rw [hnew] at hafter
    have hreads : (l'.readFrom castagnoli 0 500).1.map Record.offset = [0, 1] :=
      Option.some.inj hafter
    refine ⟨l', rfl, hbefore, hreads, ?_⟩
    rintro ⟨hsame, -⟩
    rw [hsame, hbefore] at hreads
    simp at hreads

theorem reopen_neutral_iff_threeRecords :
    ∃ l', newLog castagnoli smallConfig threeRecordLog.close.2 (fun _ => 0) 0 = .ok l' ∧
      (ReopenNeutral castagnoli threeRecordLog l' ↔ threeRecordLog.sealed = []) := by
  have hrun := Run.nil.snoc step_threeRecords
  obtain ⟨h, hcfg⟩ := wellFormed_of_run newLog_small hrun
  obtain ⟨l', hnew, -⟩ := reopen_spec h hcfg.symm (fun _ => 0) 0
  exact ⟨l', hnew, reopen_neutral_iff newLog_small hrun hnew⟩

end MiniKafka.ReopenedReads
