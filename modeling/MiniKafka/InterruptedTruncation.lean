import MiniKafka.AcceptedAppends

/-!
`Log.Truncate` cut short.

The segments beyond the offset are removed from the oldest on.  What is left of them
when a removal fails, or the process dies, stands apart from the segments that are
kept.  A removal that dies halfway has flushed the buffer of its segment, or leaves an
index without its `.log` file.
-/

namespace MiniKafka.InterruptedTruncation

open BufferedWriter ReadLoop RecordCodec OffsetIndex SegmentStore SegmentContents SegmentWrites
  SegmentReads PartitionLog LogContents LogWrites LogMaintenance LogReopen LogReads CrashFiles
  ExactIndexes LogDirectory IndexArithmetic AcceptedAppends

/-- How `Truncate` is cut short: the segment at `base` cannot be removed, or the process
dies after some removals and the directory is opened again.  `half` means that the
`.log` file of the segment that was next is gone, and only its index is left. -/
inductive Interruption where
  | removeError (base : Int64) (half : Bool) (now : Int)
  | crash (removals : Nat) (half : Bool) (written : Nat) (padding : Int64 → Nat)
      (modTime : Int64 → Int) (now : Int)

def Interruption.left (l : Log) (offset : Int64) : Interruption → List Segment
  | .removeError base _ _ => (doomed l offset).filter fun s => decide (base < s.baseOffset)
  | .crash removals half _ _ _ _ => (doomed l offset).drop (removals + half.toNat)

/-- The records of a segment that the interruption does not take. -/
def Interruption.held (crc : Checksum) (l : Log) : Interruption → Segment → List Record
  | .removeError _ _ _ => segmentRecords crc
  | .crash _ _ written _ _ _ => remains crc l written

/-- Nothing is kept, or nothing has been removed, or nothing is left beyond it; the
active segment has the records below `offset` on disk, and has not been closed. -/
structure Harmless (crc : Checksum) (l : Log) (offset : Int64) (i : Interruption) : Prop where
  joined : offset ≤ l.lowestOffset ∨ i.left l offset = doomed l offset ∨
    ∀ s ∈ i.left l offset, i.held crc l s = []
  written : ∀ r ∈ segmentRecords crc l.active, r.offset < offset → r ∈ i.held crc l l.active
  writable : ∀ base half now, i = .removeError base half now → base ≠ l.active.baseOffset

/-- The segments are in order and apart, and those that are open can be read. -/
structure Spaced (crc : Checksum) (l : Log) : Prop where
  isOpen : l.closed = false
  increasing : l.segments.Pairwise fun s t => s.baseOffset.toInt < t.baseOffset.toInt
  apart : l.segments.Pairwise fun s t =>
    s.baseOffset.toInt + (segmentRecords crc s).length ≤ t.baseOffset.toInt
  stores : ∀ s ∈ l.segments, s.closed = false → Stores crc s (segmentRecords crc s)
  flushed : ∀ s ∈ l.sealed, s.closed = false → s.writer.buffer = []

section

variable {crc : Checksum} {l : Log}

theorem recordAt_isSome_iff {base : Int64} {rs : List Record} {x : Int64} :
    (∃ r, recordAt base rs x = some r) ↔
      base.toInt ≤ x.toInt ∧ x.toInt < base.toInt + rs.length := by
  rw [recordAt]
  constructor
  · rintro ⟨r, hr⟩
    split at hr
    · rename_i hle
      obtain ⟨hlt, -⟩ := List.getElem?_eq_some_iff.mp hr
      omega
    · cases hr
  · rintro ⟨hle, hlt⟩
    rw [if_pos hle]
    exact ⟨_, List.getElem?_eq_getElem (by omega)⟩

end

section

variable {crc : Checksum} {l : Log} {offset base : Int64}

end

section

variable {crc : Checksum} {l : Log} {offset base : Int64}

theorem sound_of_wellFormed (h : WellFormed crc l) : Sound crc l.config l where
  isOpen := h.isOpen
  config := rfl
  segments := by
    intro s hs
    obtain ⟨pre, post, hsplit⟩ := List.append_of_mem hs
    exact soundSegment_of_stores (segment_stores h hs).1 (segment_stores h hs).2
      (base_of_split h hsplit).2.1
  sealed := fun s hs => ⟨(h.sealed s hs).nonempty, (h.sealed s hs).flushed⟩
  active := fun _ => h.active
  increasing := List.pairwise_map.mpr (bases_increasing h)

end

section

variable {crc : Checksum} {l l' : Log} {modTime : Int64 → Int} {now : Int} {init : List Segment}
  {last : Segment} {rs : List Record}

variable (h : WellFormed crc l) (hsub : List.Sublist (init ++ [last]) l.segments)
  (hrecovered : Recovered crc l.config modTime now init last rs l')

include h hsub

include hrecovered

end

section

variable {crc : Checksum} {l : Log} {offset : Int64}

theorem kept_append_doomed (h : WellFormed crc l) (offset : Int64) :
    kept l offset ++ doomed l offset = l.segments := by
  obtain ⟨dropped, hsplit, hdropped⟩ := filter_linked h.linked offset
  have hdoomed : doomed l offset = dropped := by
    have hall : doomed l offset =
        (kept l offset ++ dropped).filter fun s => decide (offset ≤ s.baseOffset) := by
      rw [doomed, kept, ← hsplit]
    rw [hall, List.filter_append, List.filter_eq_nil_iff.mpr, List.filter_eq_self.mpr,
      List.nil_append]
    · intro s hs
      rw [decide_eq_true_eq, Int64.le_iff_toInt_le]
      exact hdropped s hs
    · intro s hs
      have hlt := (List.mem_filter.mp hs).2
      rw [decide_eq_true_eq, Int64.lt_iff_toInt_lt] at hlt
      rw [decide_eq_true_eq, Int64.le_iff_toInt_le]
      omega
  rw [hdoomed]
  exact hsplit.symm

theorem mem_sealed_of_append {xs ys : List Segment} (hsplit : l.segments = xs ++ ys) (hys : ys ≠ [])
    {s : Segment} (hs : s ∈ xs) : s ∈ l.sealed := by
  obtain ⟨pre, post, rfl⟩ := List.append_of_mem hs
  rw [List.append_assoc] at hsplit
  rcases split_last hsplit with ⟨hnil, -⟩ | ⟨-, hmem⟩
  · exact absurd (List.append_eq_nil_iff.mp hnil).2 hys
  · exact hmem

theorem held_initial (crc : Checksum) (l : Log) (i : Interruption) (s : Segment) :
    i.held crc l s <+: segmentRecords crc s := by
  cases i with
  | removeError base half now => exact List.prefix_rfl
  | crash removals half written padding modTime now => exact remains_initial crc l written s

theorem held_sealed (h : WellFormed crc l) (i : Interruption) {s : Segment} (hs : s ∈ l.sealed) :
    i.held crc l s = segmentRecords crc s := by
  cases i with
  | removeError base half now => rfl
  | crash removals half written padding modTime now =>
    refine if_neg fun hbase => ?_
    exact ((sound_of_wellFormed h).base_lt_active hs).ne (congrArg Int64.toInt hbase)

theorem left_eq_drop (h : WellFormed crc l) (offset : Int64) (i : Interruption) :
    ∃ k, i.left l offset = (doomed l offset).drop k := by
  cases i with
  | removeError base half now =>
    refine filter_eq_drop (((bases_increasing h).filter _).imp fun {s t} hlt hs => ?_)
    rw [decide_eq_true_eq, Int64.lt_iff_toInt_lt] at hs ⊢
    omega
  | crash removals half written padding modTime now => exact ⟨_, rfl⟩

section Crash

variable {removals written : Nat} {half : Bool} {padding : Int64 → Nat} {modTime : Int64 → Int}
  {now : Int}

end Crash

end

theorem held_range {crc : Checksum} {held : Segment → List Record} {base : Int}
    {segments : List Segment} (hlinked : Linked crc base segments)
    (hfull : ∀ pre s post, segments = pre ++ s :: post → post ≠ [] → held s = segmentRecords crc s)
    (x : Int64) :
    (∃ s ∈ segments, ∃ r, recordAt s.baseOffset (held s) x = some r) ↔
      base ≤ x.toInt ∧ x.toInt < base + (segments.flatMap held).length := by
  induction segments generalizing base with
  | nil =>
    constructor
    · rintro ⟨s, hs, -⟩
      simp at hs
    · simp only [List.flatMap_nil, List.length_nil]
      omega
  | cons s rest ih =>
    have hrest := ih hlinked.2 fun pre t post hsplit hpost =>
      hfull (s :: pre) t post (by rw [hsplit]; rfl) hpost
    have hbase := hlinked.1
    simp only [List.mem_cons, exists_eq_or_imp]
    rw [hrest, recordAt_isSome_iff, List.flatMap_cons, List.length_append]
    cases rest with
    | nil =>
      simp only [List.flatMap_nil, List.length_nil]
      omega
    | cons t later =>
      rw [hfull [] s (t :: later) rfl (by simp)]
      omega

theorem range_union_iff {a b c d : Int} (hab : a ≤ b) (hbc : b ≤ c) (hcd : c ≤ d)
    (hlow : 0 ≤ a) (hhigh : d < 2 ^ 63) :
    (∃ lo hi : Int, ∀ x : Int64, (a ≤ x.toInt ∧ x.toInt < b ∨ c ≤ x.toInt ∧ x.toInt < d) ↔
        lo ≤ x.toInt ∧ x.toInt < hi) ↔ a = b ∨ c = d ∨ b = c := by
  constructor
  · rintro ⟨lo, hi, hrange⟩
    have hvalue : ∀ y : Int, a ≤ y → y ≤ d → (Int64.ofInt y).toInt = y := by
      intro y _ _
      exact Int64.toInt_ofInt_of_le (by omega) (by omega)
    have ha := hrange (Int64.ofInt a)
    have hb := hrange (Int64.ofInt b)
    have hc := hrange (Int64.ofInt c)
    rw [hvalue a (by omega) (by omega)] at ha
    rw [hvalue b (by omega) (by omega)] at hb
    rw [hvalue c (by omega) (by omega)] at hc
    omega
  · rintro (rfl | rfl | rfl)
    · exact ⟨c, d, fun x => by omega⟩
    · exact ⟨a, b, fun x => by omega⟩
    · exact ⟨a, d, fun x => by omega⟩

section

variable {crc : Checksum} {l l' : Log} {offset : Int64} {i : Interruption}

theorem kept_eq_nil_iff (h : WellFormed crc l) :
    kept l offset = [] ↔ offset ≤ l.lowestOffset := by
  have hsplit := kept_append_doomed h offset
  constructor
  · intro hnil
    rw [hnil, List.nil_append] at hsplit
    cases hsegments : l.segments with
    | nil => simp [Log.segments] at hsegments
    | cons s rest =>
      have hs : s ∈ doomed l offset := by simp [hsplit, hsegments]
      have hge := (List.mem_filter.mp hs).2
      rw [lowestOffset_eq h.isOpen, hsegments]
      simpa using hge
  · intro hle
    refine List.filter_eq_nil_iff.mpr fun s hs => ?_
    have hlow := linked_ge h.linked s hs
    rw [Int64.le_iff_toInt_le] at hle
    rw [decide_eq_true_eq, Int64.lt_iff_toInt_lt]
    omega

theorem length_held_le (crc : Checksum) (l : Log) (i : Interruption) (segments : List Segment) :
    (segments.flatMap (i.held crc l)).length ≤ (recordsOf crc segments).length := by
  induction segments with
  | nil => exact le_rfl
  | cons s rest ih =>
    have := (held_initial crc l i s).length_le
    rw [List.flatMap_cons, recordsOf_cons, List.length_append, List.length_append]
    omega

section

variable {front gone left : List Segment}

theorem held_of_split (h : WellFormed crc l) (i : Interruption) {xs pre post : List Segment}
    {s : Segment} (hsplit : l.segments = xs ++ (pre ++ s :: post)) (hpost : post ≠ []) :
    i.held crc l s = segmentRecords crc s := by
  refine held_sealed h i ?_
  rw [show xs ++ (pre ++ s :: post) = (xs ++ (pre ++ [s])) ++ post by simp] at hsplit
  exact mem_sealed_of_append hsplit hpost (by simp)

theorem present_iff (h : WellFormed crc l) (i : Interruption)
    (hsplit : l.segments = front ++ (gone ++ left)) (x : Int64) :
    (∃ r, ∃ s ∈ front ++ left, recordAt s.baseOffset (i.held crc l s) x = some r) ↔
      (l.lowestOffset.toInt ≤ x.toInt ∧
          x.toInt < l.lowestOffset.toInt + (front.flatMap (i.held crc l)).length) ∨
        l.lowestOffset.toInt + (recordsOf crc front).length + (recordsOf crc gone).length ≤
            x.toInt ∧
          x.toInt < l.lowestOffset.toInt + (recordsOf crc front).length +
            (recordsOf crc gone).length + (left.flatMap (i.held crc l)).length := by
  have hlinked := h.linked
  rw [hsplit, linked_append, linked_append] at hlinked
  obtain ⟨hfront, -, hleft⟩ := hlinked
  rw [← held_range hfront, ← held_range hleft]
  · constructor
    · rintro ⟨r, s, hs, hat⟩
      exact (List.mem_append.mp hs).imp (fun hs => ⟨s, hs, r, hat⟩) fun hs => ⟨s, hs, r, hat⟩
    · rintro (⟨s, hs, r, hat⟩ | ⟨s, hs, r, hat⟩)
      · exact ⟨r, s, List.mem_append_left _ hs, hat⟩
      · exact ⟨r, s, List.mem_append_right _ hs, hat⟩
  · rintro pre s post rfl hpost
    rw [← List.append_assoc] at hsplit
    exact held_of_split h i hsplit hpost
  · rintro pre s post rfl hpost
    have hwhole : l.segments = [] ++ (pre ++ s :: (post ++ (gone ++ left))) := by
      rw [hsplit]
      simp
    exact held_of_split h i hwhole (by simp [hpost])

theorem held_of_sealed (h : WellFormed crc l) (i : Interruption)
    (hsealed : ∀ s ∈ front, s ∈ l.sealed) : front.flatMap (i.held crc l) = recordsOf crc front :=
  List.flatMap_congr fun s hs => held_sealed h i (hsealed s hs)

theorem eq_nil_of_sealed (h : WellFormed crc l) (hsealed : ∀ s ∈ front, s ∈ l.sealed)
    (hnone : (recordsOf crc front).length = 0) : front = [] := by
  cases front with
  | nil => rfl
  | cons s rest =>
    have hpos := List.length_pos_iff.mpr (h.sealed s (hsealed s List.mem_cons_self)).nonempty
    rw [recordsOf_cons, List.length_append] at hnone
    omega

theorem joined_iff (h : WellFormed crc l) (i : Interruption)
    (hsplit : l.segments = front ++ (gone ++ left)) :
    ((front.flatMap (i.held crc l)).length = 0 ∨ (left.flatMap (i.held crc l)).length = 0 ∨
        (front.flatMap (i.held crc l)).length =
          (recordsOf crc front).length + (recordsOf crc gone).length) ↔
      front = [] ∨ gone = [] ∨ ∀ s ∈ left, i.held crc l s = [] := by
  have hsealed : gone ++ left ≠ [] → ∀ s ∈ front, s ∈ l.sealed := fun hne s hs =>
    mem_sealed_of_append hsplit hne hs
  have hsealed' : left ≠ [] → ∀ s ∈ gone, s ∈ l.sealed := by
    intro hne s hs
    rw [← List.append_assoc] at hsplit
    exact mem_sealed_of_append hsplit hne (List.mem_append_right _ hs)
  constructor
  · rintro (hfront | hleft | hbetween)
    · by_cases hnil : gone ++ left = []
      · exact .inr (.inl (List.append_eq_nil_iff.mp hnil).1)
      · rw [held_of_sealed h i (hsealed hnil)] at hfront
        exact .inl (eq_nil_of_sealed h (hsealed hnil) hfront)
    · exact .inr (.inr (List.flatMap_eq_nil_iff.mp (List.length_eq_zero_iff.mp hleft)))
    · have := length_held_le crc l i front
      by_cases hnil : left = []
      · exact .inr (.inr (by simp [hnil]))
      · exact .inr (.inl (eq_nil_of_sealed h (hsealed' hnil) (by omega)))
  · rintro (rfl | rfl | hempty)
    · exact .inl rfl
    · by_cases hnil : left = []
      · exact .inr (.inl (by simp [hnil]))
      · rw [held_of_sealed h i (hsealed (by simpa using hnil))]
        exact .inr (.inr rfl)
    · exact .inr (.inl (List.length_eq_zero_iff.mpr (List.flatMap_eq_nil_iff.mpr hempty)))

end

/-- What is present is a range exactly if nothing stands apart. -/
theorem contiguous_iff (h : WellFormed crc l)
    (hread : ∀ x r, l'.read crc x = .ok r ↔
      ∃ s ∈ kept l offset ++ i.left l offset, recordAt s.baseOffset (i.held crc l s) x = some r) :
    (∃ lo hi : Int, ∀ x : Int64, (∃ r, l'.read crc x = .ok r) ↔ lo ≤ x.toInt ∧ x.toInt < hi) ↔
      offset ≤ l.lowestOffset ∨ i.left l offset = doomed l offset ∨
        ∀ s ∈ i.left l offset, i.held crc l s = [] := by
  obtain ⟨k, hk⟩ := left_eq_drop h offset i
  have hdoomed : doomed l offset = (doomed l offset).take k ++ i.left l offset := by
    rw [hk, List.take_append_drop]
  generalize (doomed l offset).take k = gone at hdoomed
  have hsplit : l.segments = kept l offset ++ (gone ++ i.left l offset) := by
    rw [← hdoomed, kept_append_doomed h]
  have hgone : gone = [] ↔ i.left l offset = doomed l offset := by
    rw [hdoomed]
    simp
  have hrange := h.range
  rw [storedRecords, hsplit, recordsOf_append, recordsOf_append, List.length_append,
    List.length_append] at hrange
  have hfront := length_held_le crc l i (kept l offset)
  have hleft := length_held_le crc l i (i.left l offset)
  have hlow := h.lowest
  simp only [hread, present_iff h i hsplit]
  rw [range_union_iff (by omega) (by omega) (by omega) (by omega) (by omega), ← kept_eq_nil_iff h,
    ← hgone, ← joined_iff h i hsplit]
  omega

end

end MiniKafka.InterruptedTruncation
