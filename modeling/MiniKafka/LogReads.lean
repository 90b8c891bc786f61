import MiniKafka.LogReopen
import MiniKafka.SegmentReads

/-!
`Log.Read` returns the record stored at an offset.
-/

namespace MiniKafka.LogReads

open BinarySearch RecordCodec SegmentStore SegmentContents SegmentReads SegmentWrites PartitionLog
  LogContents LogWrites LogMaintenance LogReopen

/-- `t` is what a reader of segment `s` works on. -/
structure Serves (crc : Checksum) (isActive : Bool) (s t : Segment) : Prop where
  readable : readable isActive s = .ok t
  stores : Stores crc t (segmentRecords crc s)
  flushed : t.writer.buffer = []
  baseOffset : t.baseOffset = s.baseOffset
  nextOffset : t.nextOffset = s.nextOffset

section

variable {crc : Checksum} {l : Log} {pre post : List Segment} {s : Segment}

theorem split_last (hsplit : l.segments = pre ++ s :: post) :
    (post = [] ∧ s = l.active ∧ pre = l.sealed) ∨ (post ≠ [] ∧ s ∈ l.sealed) := by
  rcases List.eq_nil_or_concat' post with rfl | ⟨init, last, rfl⟩
  · obtain ⟨rfl, hs⟩ := List.append_inj' hsplit rfl
    exact .inl ⟨rfl, (List.cons.inj hs).1.symm, rfl⟩
  · have hsplit' : l.sealed ++ [l.active] = (pre ++ s :: init) ++ [last] := by
      rw [List.append_assoc]
      exact hsplit
    obtain ⟨hsealed, -⟩ := List.append_inj' hsplit' rfl
    refine .inr ⟨by simp, ?_⟩
    rw [hsealed]
    simp

theorem getD_of_split (hsplit : l.segments = pre ++ s :: post) :
    l.segments.getD pre.length l.active = s := by
  rw [hsplit]
  simp [List.getD_eq_getElem?_getD]

theorem isActive_of_split (hsplit : l.segments = pre ++ s :: post) :
    decide (pre.length = l.sealed.length) = post.isEmpty := by
  have hlen := congrArg List.length hsplit
  simp only [Log.segments, List.length_append, List.length_cons, List.length_nil] at hlen
  cases post with
  | nil => simp at hlen ⊢; omega
  | cons u rest => simp at hlen ⊢; omega

theorem serves_of_split (h : WellFormed crc l) (hsplit : l.segments = pre ++ s :: post) :
    ∃ t, Serves crc post.isEmpty s t := by
  rcases split_last hsplit with ⟨rfl, rfl, -⟩ | ⟨hpost, hmem⟩
  · exact ⟨_, flush_active h, (writable_flush h.active).toStores, rfl, rfl, rfl⟩
  · have hsealed := h.sealed s hmem
    refine ⟨s, ?_, hsealed.stores, hsealed.flushed, rfl, rfl⟩
    rw [readable, if_neg (by simpa using hpost)]

theorem base_of_split (h : WellFormed crc l) (hsplit : l.segments = pre ++ s :: post) :
    s.baseOffset.toInt = l.lowestOffset.toInt + (recordsOf crc pre).length ∧
      s.baseOffset.toInt + (segmentRecords crc s).length < 2 ^ 63 ∧ 0 ≤ s.baseOffset.toInt ∧
      ∀ t ∈ post.head?,
        t.baseOffset.toInt = s.baseOffset.toInt + (segmentRecords crc s).length := by
  have hlinked := h.linked
  rw [hsplit, linked_append] at hlinked
  obtain ⟨-, hbase, hpost⟩ := hlinked
  have hrange := h.range
  rw [storedRecords, hsplit, recordsOf_append, recordsOf_cons, List.length_append,
    List.length_append] at hrange
  have hlow := h.lowest
  refine ⟨hbase, by omega, by omega, ?_⟩
  intro t ht
  cases post with
  | nil => simp at ht
  | cons u rest =>
    obtain rfl : u = t := by simpa using ht
    rw [hpost.1, hbase]

theorem findSegment_of_sorted (hopen : l.closed = false)
    (hsorted : l.segments.Pairwise fun s t => s.baseOffset.toInt ≤ t.baseOffset.toInt) {x : Int64}
    (hx : l.lowestOffset.toInt ≤ x.toInt) :
    ∃ pre s post, l.segments = pre ++ s :: post ∧ l.findSegment x = some pre.length ∧
      s.baseOffset.toInt ≤ x.toInt ∧ ∀ t ∈ post.head?, x.toInt < t.baseOffset.toInt := by
  generalize hf : (fun i => decide (x < (l.segments.getD i l.active).baseOffset)) = f
  have hval : ∀ i (hi : i < l.segments.length),
      f i = decide (x.toInt < l.segments[i].baseOffset.toInt) := by
    intro i hi
    rw [← hf]
    simp [List.getD_eq_getElem?_getD, hi, Int64.lt_iff_toInt_lt]
  have hmono : Monotone l.segments.length f := by
    intro i j hij hj hi
    rw [hval i (by omega), decide_eq_true_eq] at hi
    rw [hval j hj, decide_eq_true_eq]
    rcases Nat.lt_or_ge i j with hlt | hge
    · have := List.pairwise_iff_getElem.mp hsorted i j (by omega) hj hlt
      omega
    · obtain rfl : i = j := by omega
      exact hi
  obtain ⟨hle, hlow, hhigh⟩ := search_spec hmono
  have hpos : 0 < l.segments.length := by simp [Log.segments]
  have hfirst : f 0 = false := by
    have hhead : l.segments[0].baseOffset = l.lowestOffset := by
      rw [lowestOffset_eq hopen, List.headD_eq_head?_getD, List.head?_eq_getElem?,
        List.getElem?_eq_getElem hpos]
      rfl
    rw [hval 0 hpos, decide_eq_false_iff_not, hhead]
    omega
  generalize hidx : search l.segments.length f = idx at hle hlow hhigh
  have hidxpos : 0 < idx := by
    by_contra hzero
    have := hhigh 0 (by omega) hpos
    rw [hfirst] at this
    simp at this
  have hi : idx - 1 < l.segments.length := by omega
  refine ⟨l.segments.take (idx - 1), l.segments[idx - 1], l.segments.drop idx, ?_, ?_, ?_, ?_⟩
  · have hdrop : l.segments.drop (idx - 1) = l.segments[idx - 1] :: l.segments.drop idx := by
      rw [List.drop_eq_getElem_cons hi, show idx - 1 + 1 = idx by omega]
    rw [← hdrop, List.take_append_drop]
  · have hnot : ¬ x < l.lowestOffset := by
      rw [Int64.lt_iff_toInt_lt]
      omega
    rw [Log.findSegment, if_neg hnot, hf, hidx]
    dsimp only
    rw [if_neg (by omega), List.length_take, Nat.min_eq_left (by omega)]
  · have := hlow (idx - 1) (by omega)
    rw [hval _ hi, decide_eq_false_iff_not] at this
    omega
  · intro t ht
    rw [List.head?_drop] at ht
    obtain ⟨hlt, rfl⟩ := List.getElem?_eq_some_iff.mp ht
    have := hhigh idx le_rfl hlt
    rwa [hval _ hlt, decide_eq_true_eq] at this

theorem findSegment_spec (h : WellFormed crc l) {x : Int64}
    (hx : l.lowestOffset.toInt ≤ x.toInt) :
    ∃ pre s post, l.segments = pre ++ s :: post ∧ l.findSegment x = some pre.length ∧
      s.baseOffset.toInt ≤ x.toInt ∧ ∀ t ∈ post.head?, x.toInt < t.baseOffset.toInt :=
  findSegment_of_sorted h.isOpen (linked_sorted h.linked) hx

theorem recordAt_segment (h : WellFormed crc l) (hsplit : l.segments = pre ++ s :: post)
    {x : Int64} (hle : s.baseOffset.toInt ≤ x.toInt)
    (hnext : ∀ t ∈ post.head?, x.toInt < t.baseOffset.toInt) :
    recordAt l.lowestOffset (storedRecords crc l) x =
      recordAt s.baseOffset (segmentRecords crc s) x := by
  obtain ⟨hbase, -, -, hpost⟩ := base_of_split h hsplit
  have hlow := h.lowest
  rw [recordAt, recordAt, if_pos (by omega), if_pos hle, storedRecords, hsplit,
    recordsOf_append, recordsOf_cons]
  rw [List.getElem?_append_right (by omega)]
  rw [show (x.toInt - l.lowestOffset.toInt).toNat - (recordsOf crc pre).length =
    (x.toInt - s.baseOffset.toInt).toNat by omega]
  cases post with
  | nil => simp
  | cons t rest =>
    have ht := hnext t (by simp)
    rw [hpost t (by simp)] at ht
    exact List.getElem?_append_left (by omega)

theorem read_of_found (hopen : l.closed = false) (hsplit : l.segments = pre ++ s :: post)
    {x : Int64} (hlow : l.lowestOffset.toInt ≤ x.toInt) (hfind : l.findSegment x = some pre.length) :
    l.read crc x =
      match readable post.isEmpty s with
      | .error e => .error (.flushForRead e)
      | .ok t =>
        match t.read crc x with
        | .error e => .error (.read e)
        | .ok r => .ok r := by
  have hnot : ¬ x < l.lowestOffset := by
    rw [Int64.lt_iff_toInt_lt]
    omega
  rw [Log.read, if_neg (by simp [hopen]), if_neg hnot, hfind]
  dsimp only
  rewrite [getD_of_split hsplit, isActive_of_split hsplit]
  rfl

/-- `Read` returns the record with the given offset, and an error when the log
has none. -/
theorem read_spec (h : WellFormed crc l) (x : Int64) :
    match recordAt l.lowestOffset (storedRecords crc l) x with
    | some r => l.read crc x = .ok r
    | none => ∃ e, l.read crc x = .error e := by
  by_cases hbelow : x < l.lowestOffset
  · rw [recordAt_eq_none_of_lt _ hbelow, Log.read, if_neg (by simp [h.isOpen]), if_pos hbelow]
    exact ⟨_, rfl⟩
  · have hlow : l.lowestOffset.toInt ≤ x.toInt := by
      rw [Int64.lt_iff_toInt_lt] at hbelow
      omega
    obtain ⟨pre, s, post, hsplit, hfind, hle, hnext⟩ := findSegment_spec h hlow
    obtain ⟨t, ht⟩ := serves_of_split h hsplit
    have hread := read_eq ht.stores ht.flushed
      (show t.baseOffset ≤ x by rw [ht.baseOffset, Int64.le_iff_toInt_le]; exact hle)
    rw [recordAt_segment h hsplit hle hnext, read_of_found h.isOpen hsplit hlow hfind, ht.readable]
    dsimp only
    rw [hread, ht.baseOffset]
    cases recordAt s.baseOffset (segmentRecords crc s) x with
    | some r => rfl
    | none => exact ⟨_, rfl⟩

theorem read_present (h : WellFormed crc l) {x : Int64} (hlow : l.lowestOffset.toInt ≤ x.toInt)
    (hhigh : x.toInt < l.highestOffset.toInt) :
    ∃ r, recordAt l.lowestOffset (storedRecords crc l) x = some r ∧ l.read crc x = .ok r := by
  rw [h.highestOffset] at hhigh
  have hi : (x.toInt - l.lowestOffset.toInt).toNat < (storedRecords crc l).length := by omega
  have hat : recordAt l.lowestOffset (storedRecords crc l) x =
      some (storedRecords crc l)[(x.toInt - l.lowestOffset.toInt).toNat] := by
    rw [recordAt, if_pos hlow, List.getElem?_eq_getElem hi]
  have hread := read_spec h x
  rw [hat] at hread
  exact ⟨_, hat, hread⟩

theorem bases_increasing (h : WellFormed crc l) :
    l.segments.Pairwise fun s t => s.baseOffset.toInt < t.baseOffset.toInt :=
  linked_increasing h.linked fun s hs => (h.sealed s hs).nonempty

theorem lowestOffset_le (hopen : l.closed = false)
    (hbases : l.segments.Pairwise fun s t => s.baseOffset.toInt < t.baseOffset.toInt)
    (hs : s ∈ l.segments) : l.lowestOffset.toInt ≤ s.baseOffset.toInt := by
  rw [lowestOffset_eq hopen]
  cases hsegments : l.segments with
  | nil => simp [hsegments] at hs
  | cons t rest =>
    rw [hsegments] at hs hbases
    rcases List.mem_cons.mp hs with rfl | hrest
    · exact le_rfl
    · exact ((List.pairwise_cons.mp hbases).1 s hrest).le

theorem found_unique {t : Segment} {x : Int64} (hsplit : l.segments = pre ++ t :: post)
    (hbases : l.segments.Pairwise fun s t => s.baseOffset.toInt < t.baseOffset.toInt)
    (hle : t.baseOffset.toInt ≤ x.toInt) (hnext : ∀ u ∈ post.head?, x.toInt < u.baseOffset.toInt)
    (hs : s ∈ l.segments) (hsx : s.baseOffset.toInt ≤ x.toInt)
    (hlater : ∀ u ∈ l.segments, s.baseOffset.toInt < u.baseOffset.toInt →
      x.toInt < u.baseOffset.toInt) : t = s := by
  have ht : t ∈ l.segments := by simp [hsplit]
  rw [hsplit] at hs
  rw [hsplit, List.pairwise_append, List.pairwise_cons] at hbases
  obtain ⟨-, ⟨-, hpost⟩, hacross⟩ := hbases
  rcases List.mem_append.mp hs with hpre | hrest
  · have := hlater t ht (hacross s hpre t List.mem_cons_self)
    omega
  · rcases List.mem_cons.mp hrest with rfl | hafter
    · rfl
    · cases post with
      | nil => simp at hafter
      | cons u later =>
        have hu := hnext u rfl
        rcases List.mem_cons.mp hafter with rfl | hmem
        · omega
        · have := (List.pairwise_cons.mp hpost).1 s hmem
          omega

theorem read_closed (hopen : l.closed = false)
    (hbases : l.segments.Pairwise fun s t => s.baseOffset.toInt < t.baseOffset.toInt)
    (hs : s ∈ l.sealed) (hclosed : s.closed = true) : ∃ e, l.read crc s.baseOffset = .error e := by
  have hmem : s ∈ l.segments := List.mem_append_left _ hs
  have hlow := lowestOffset_le hopen hbases hmem
  obtain ⟨pre, t, post, hsplit, hfind, hle, hnext⟩ :=
    findSegment_of_sorted hopen (hbases.imp fun h => h.le) hlow
  obtain rfl := found_unique hsplit hbases hle hnext hmem le_rfl fun _ _ hlt => hlt
  have hsealed : post.isEmpty = false := by
    rcases split_last hsplit with ⟨-, rfl, -⟩ | ⟨hne, -⟩
    · have := (List.pairwise_append.mp hbases).2.2 l.active hs l.active List.mem_cons_self
      omega
    · simpa using hne
  rw [read_of_found hopen hsplit hlow hfind, hsealed, readable, if_neg (by simp)]
  dsimp only
  rw [Segment.read, if_pos hclosed]
  exact ⟨_, rfl⟩

theorem numbered_recordsOf {base : Int64} {segments : List Segment}
    (hlinked : Linked crc base.toInt segments)
    (hstores : ∀ s ∈ segments, Stores crc s (segmentRecords crc s))
    (hrange : base.toInt + (recordsOf crc segments).length < 2 ^ 63) :
    Numbered base (recordsOf crc segments) := by
  induction segments generalizing base with
  | nil => trivial
  | cons s rest ih =>
    obtain ⟨hbase, hrest⟩ := hlinked
    rw [recordsOf_cons, List.length_append] at hrange
    have hadd := toInt_add_ofNat
      (show base.toInt + (segmentRecords crc s).length < 2 ^ 63 by omega)
    rw [recordsOf_cons, numbered_append]
    refine ⟨?_, ih ?_ (fun t ht => hstores t (by simp [ht])) ?_⟩
    · rw [← Int64.toInt_inj.mp hbase]
      exact (hstores s (by simp)).numbered
    · rw [hadd]
      exact hrest
    · rw [hadd]
      omega

theorem numbered_stored (h : WellFormed crc l) :
    Numbered l.lowestOffset (storedRecords crc l) :=
  numbered_recordsOf h.linked (fun _ hs => (segment_stores h hs).1) h.range

theorem offset_of_stored (h : WellFormed crc l) {r : Record} (hr : r ∈ storedRecords crc l) :
    l.lowestOffset.toInt ≤ r.offset.toInt ∧ r.offset.toInt < l.highestOffset.toInt := by
  obtain ⟨i, hi, rfl⟩ := List.getElem_of_mem hr
  rw [numbered_toInt (numbered_stored h) h.range.le i hi, h.highestOffset]
  omega

end

end MiniKafka.LogReads
