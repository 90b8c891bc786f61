import MiniKafka.LogReadFrom
import MiniKafka.WireCodec

/-!
The byte budget of `Log.ReadFrom`.

Every segment that the loop reaches gives at least one record, whatever its
size, and the bytes are counted in 32 bits.  Here the count is compared with one
over the natural numbers.
-/

namespace MiniKafka.ReadBudget

open RecordCodec SegmentStore SegmentContents SegmentReads PartitionLog LogContents LogReads
  LogReadFrom LogRefinement Runs
open WireCodec (maxInt32)

def nextBase : List Segment → Int64
  | [] => -1
  | t :: _ => t.baseOffset

/-- The records that the segments visited by the loop hold from the requested
offset on, also where a segment has forgotten its end. -/
def visited (crc : Checksum) : List Segment → Int64 → List (List Record)
  | [], _ => []
  | s :: rest, offset =>
    if 0 ≤ nextBase rest ∧ nextBase rest ≤ offset then visited crc rest offset
    else if offset < s.baseOffset then []
    else
      (segmentRecords crc s).drop (offset.toInt - s.baseOffset.toInt).toNat ::
        if s.nextOffset ≤ offset then [] else visited crc rest s.nextOffset

def totalSize (rs : List Record) : Nat := (sizes rs).sum

def Exact (accumulated : Int32) (n : Nat) : Prop :=
  (accumulated + Int32.ofNat n).toInt = accumulated.toInt + n

/-- The sums of `Segment.ReadFrom`: that of the test which refuses a record, and
those of the records taken. -/
def SegmentExact (remaining : Int32) : Int32 → List Record → Prop
  | _, [] => True
  | acc, r :: rs =>
    Exact acc r.encodedSize ∧
      (¬ (0 < acc ∧ remaining < acc + Int32.ofNat r.encodedSize) →
        SegmentExact remaining (acc + Int32.ofNat r.encodedSize) rs)

/-- The sums of `Log.ReadFrom` over the records of one segment. -/
def AdditionsExact : Int32 → List Record → Prop
  | _, [] => True
  | acc, r :: rs =>
    Exact acc r.encodedSize ∧ AdditionsExact (acc + Int32.ofNat r.encodedSize) rs

def LoopExact (maxBytes : Int32) : Int32 → List (List Record) → Prop
  | _, [] => True
  | acc, c :: rest =>
    let taken := admitted (maxBytes - acc) c
    (maxBytes - acc).toInt = maxBytes.toInt - acc.toInt ∧
      SegmentExact (maxBytes - acc) 0 c ∧ AdditionsExact acc taken ∧
      (¬ maxBytes ≤ accumulate acc taken → LoopExact maxBytes (accumulate acc taken) rest)

/-- What a read returns is within its budget, or a single record, and no sum on
the way overflows. -/
structure KeepsBudget (crc : Checksum) (l : Log) (offset : Int64) (maxBytes : Int32) : Prop where
  total : (totalSize (l.readFrom crc offset maxBytes).1 : Int) ≤ maxBytes.toInt ∨
    (l.readFrom crc offset maxBytes).1.length = 1
  exact : LoopExact maxBytes 0 (visited crc l.segments offset)

/-- The bytes one segment spends of a budget, over the natural numbers, unless a
sum leaves the 32-bit range. -/
def spends (remaining : Nat) : Nat → List Nat → Option Nat
  | spent, [] => some spent
  | spent, n :: sizes =>
    if maxInt32 < spent + n then none
    else if 0 < spent ∧ remaining < spent + n then some spent
    else spends remaining (spent + n) sizes

/-- Whether the sizes of the records in the segments visited let a read keep its
budget: a segment may spend more than is left only if no record was taken
before. -/
def withinBudget (maxBytes : Nat) : Nat → List (List Nat) → Bool
  | _, [] => true
  | acc, sizes :: rest =>
    match spends (maxBytes - acc) 0 sizes with
    | none => false
    | some spent =>
      if maxInt32 < acc + spent then false
      else if maxBytes < acc + spent then decide (acc = 0)
      else if maxBytes = acc + spent then true
      else withinBudget maxBytes (acc + spent) rest

section

variable {crc : Checksum} {l : Log}

theorem nextBase_eq (post : List Segment) :
    nextBase post = post.head?.elim (-1) Segment.baseOffset := by
  cases post <;> rfl

theorem readFromLoop_visited (h : WellFormed crc l) {maxBytes : Int32} {pre segments : List Segment}
    (hsplit : l.segments = pre ++ segments) (offset : Int64) (out : List Record) (acc : Int32) :
    readFromLoop crc maxBytes segments offset out acc =
      (out ++ collect maxBytes acc (visited crc segments offset), none) := by
  induction segments generalizing pre offset out acc with
  | nil => simp [readFromLoop, visited, collect]
  | cons s rest ih =>
    have hsplit' : l.segments = (pre ++ [s]) ++ rest := by
      rw [List.append_assoc]
      exact hsplit
    rw [readFromLoop_cons h hsplit, visited,
      if_congr (lookahead_iff_skips h hsplit (nextBase_eq rest)) rfl rfl]
    split
    · exact ih hsplit' offset out acc
    split
    · simp [collect]
    rw [collect]
    dsimp only
    generalize admitted (maxBytes - acc) _ = taken
    split
    · rfl
    split
    · simp [collect]
    · rw [ih hsplit', List.append_assoc]

theorem visited_below (h : WellFormed crc l) {offset : Int64} (hlow : offset < l.lowestOffset) :
    visited crc l.segments offset = [] := by
  obtain ⟨s, post, hsegs, hfirst⟩ := exists_first h
  obtain ⟨-, -, -, hpost⟩ := base_of_split h hsegs
  rw [hfirst] at hlow
  have hnext : ¬ (0 ≤ nextBase post ∧ nextBase post ≤ offset) := by
    cases post with
    | nil => exact fun hboth => absurd hboth.1 (by decide)
    | cons t rest =>
      have ht := hpost t (by simp)
      rw [Int64.lt_iff_toInt_lt] at hlow
      rw [nextBase, Int64.le_iff_toInt_le, Int64.le_iff_toInt_le]
      omega
  rw [hsegs, List.nil_append, visited, if_neg hnext, if_pos hlow]

theorem readFrom_visited (h : WellFormed crc l) (offset : Int64) {maxBytes : Int32}
    (hmax : 0 < maxBytes) :
    (l.readFrom crc offset maxBytes).1 = collect maxBytes 0 (visited crc l.segments offset) := by
  have hpos : ¬ maxBytes ≤ 0 := by
    rw [Int32.lt_iff_toInt_lt] at hmax
    rw [Int32.le_iff_toInt_le]
    omega
  have hsplit : l.segments = [] ++ l.segments := rfl
  have hloop := @readFromLoop_visited crc l h maxBytes [] l.segments hsplit offset [] 0
  rw [List.nil_append] at hloop
  rw [Log.readFrom, if_neg (by simp [h.isOpen]), if_neg hpos]
  split
  · rename_i hlow
    rw [visited_below h hlow, collect]
  · rw [hloop]

end

section

variable {acc : Int32} {a : Nat}

variable {rs : List Record} {maxBytes remaining : Int32} {m r : Nat}

theorem exact_iff (ha : acc.toInt = a) (n : Nat) : Exact acc n ↔ a + n ≤ maxInt32 := by
  have hsum : (acc + Int32.ofNat n).toInt = ((a : Int) + n).bmod (2 ^ 32) := by
    rw [Int32.toInt_add, Int32.toInt_ofNat', ha]
    exact Int.add_bmod_bmod
  rw [Exact, hsum, ha, Int.bmod_def, maxInt32]
  omega

theorem totalSize_cons (r : Record) (rs : List Record) :
    totalSize (r :: rs) = r.encodedSize + totalSize rs := by
  simp [totalSize, sizes]

theorem totalSize_append (rs rs' : List Record) :
    totalSize (rs ++ rs') = totalSize rs + totalSize rs' := by
  simp [totalSize, sizes]

theorem totalSize_eq_zero : totalSize rs = 0 ↔ rs = [] := by
  cases rs with
  | nil => simp [totalSize, sizes]
  | cons r rs =>
    have hpos := encodedSize_ge r
    rw [totalSize_cons]
    simp
    omega

theorem toInt_add_ofNat (ha : acc.toInt = a) {n : Nat} (hfits : a + n ≤ maxInt32) :
    (acc + Int32.ofNat n).toInt = (a + n : Nat) := by
  have hexact : Exact acc n := (exact_iff ha n).mpr hfits
  rw [hexact, ha]
  rfl

theorem refuses_iff (hr : remaining.toInt = r) (ha : acc.toInt = a) {n : Nat}
    (hfits : a + n ≤ maxInt32) :
    (0 < acc ∧ remaining < acc + Int32.ofNat n) ↔ 0 < a ∧ r < a + n := by
  rw [Int32.lt_iff_toInt_lt, Int32.lt_iff_toInt_lt, toInt_add_ofNat ha hfits, hr, ha,
    Int32.toInt_zero]
  omega

theorem spends_eq_some_iff (hr : remaining.toInt = r) (ha : acc.toInt = a) :
    spends r a (sizes rs) = some m ↔
      SegmentExact remaining acc rs ∧ m = a + totalSize (takeBudget remaining acc rs) := by
  induction rs generalizing acc a with
  | nil =>
    simp [sizes, spends, SegmentExact, takeBudget, totalSize, eq_comm]
  | cons x rs ih =>
    change spends r a (x.encodedSize :: sizes rs) = some m ↔ _
    rw [spends, SegmentExact, takeBudget, exact_iff ha]
    by_cases hfits : a + x.encodedSize ≤ maxInt32
    · have htest := refuses_iff hr ha hfits
      rw [if_neg (Nat.not_lt.mpr hfits)]
      by_cases hrefused : 0 < a ∧ r < a + x.encodedSize
      · rw [if_pos hrefused, if_pos (htest.mpr hrefused)]
        simp [hfits, htest, hrefused, totalSize, sizes, eq_comm]
      · rw [if_neg hrefused, if_neg (fun h => hrefused (htest.mp h)),
          ih (toInt_add_ofNat ha hfits), totalSize_cons, Nat.add_assoc]
        simp only [hfits, htest, hrefused, true_and, not_false_eq_true, true_implies]
    · rw [if_pos (Nat.not_le.mp hfits)]
      simp [hfits]

theorem additionsExact_iff (ha : acc.toInt = a) (rs : List Record) :
    AdditionsExact acc rs ↔ a + totalSize rs ≤ maxInt32 := by
  induction rs generalizing acc a with
  | nil =>
    have hmax : acc.toInt < 2 ^ 31 := acc.toInt_lt
    have hnil : totalSize [] = 0 := rfl
    rw [AdditionsExact, hnil, maxInt32, true_iff]
    omega
  | cons x rs ih =>
    rw [AdditionsExact, exact_iff ha, totalSize_cons, ← Nat.add_assoc]
    constructor
    · rintro ⟨hfits, hrest⟩
      exact (ih (toInt_add_ofNat ha hfits)).mp hrest
    · intro htotal
      have hfits : a + x.encodedSize ≤ maxInt32 := by omega
      exact ⟨hfits, (ih (toInt_add_ofNat ha hfits)).mpr htotal⟩

theorem toInt_accumulate (ha : acc.toInt = a) (hfits : a + totalSize rs ≤ maxInt32) :
    (accumulate acc rs).toInt = (a + totalSize rs : Nat) := by
  induction rs generalizing acc a with
  | nil => simpa [accumulate, totalSize, sizes] using ha
  | cons x rs ih =>
    rw [totalSize_cons, ← Nat.add_assoc] at hfits ⊢
    exact ih (toInt_add_ofNat ha (by omega)) hfits

theorem takeBudget_within (hr : remaining.toInt = r) (ha : acc.toInt = a) (hpos : 0 < a)
    (hexact : SegmentExact remaining acc rs) :
    takeBudget remaining acc rs = [] ∨ a + totalSize (takeBudget remaining acc rs) ≤ r := by
  induction rs generalizing acc a with
  | nil => exact .inl rfl
  | cons x rs ih =>
    obtain ⟨hsum, hrest⟩ := hexact
    have hfits := (exact_iff ha _).mp hsum
    have htest := refuses_iff hr ha hfits
    rw [takeBudget]
    split
    · exact .inl rfl
    · rename_i htaken
      have hle : a + x.encodedSize ≤ r := by
        rw [htest] at htaken
        omega
      rw [totalSize_cons, ← Nat.add_assoc]
      rcases ih (toInt_add_ofNat ha hfits) (by omega) (hrest htaken) with hnil | hwithin
      · rw [hnil]
        exact .inr hle
      · exact .inr hwithin

theorem length_takeBudget (hr : remaining.toInt = r) (hexact : SegmentExact remaining 0 rs)
    (hover : r < totalSize (takeBudget remaining 0 rs)) :
    (takeBudget remaining 0 rs).length = 1 := by
  cases rs with
  | nil => simp [takeBudget, totalSize, sizes] at hover
  | cons x rs =>
    obtain ⟨hsum, hrest⟩ := hexact
    have hzero : (0 : Int32).toInt = (0 : Nat) := rfl
    have hfits := (exact_iff hzero _).mp hsum
    have hfirst : ¬ (0 < (0 : Int32) ∧ remaining < 0 + Int32.ofNat x.encodedSize) :=
      fun h => absurd h.1 (by decide)
    have hpos : 0 < 0 + x.encodedSize := by
      have := encodedSize_ge x
      omega
    rw [takeBudget, if_neg hfirst] at hover ⊢
    rw [totalSize_cons] at hover
    rcases takeBudget_within hr (toInt_add_ofNat hzero hfits) hpos (hrest hfirst) with
      hnil | hwithin
    · rw [hnil]
      rfl
    · omega

theorem toInt_remaining (hm : maxBytes.toInt = m) (ha : acc.toInt = a) (hlt : a < m) :
    (maxBytes - acc).toInt = (m - a : Nat) := by
  have hmax : maxBytes.toInt < 2 ^ 31 := maxBytes.toInt_lt
  rw [Int32.toInt_sub, hm, ha, Int.bmod_eq_of_le (by omega) (by omega)]
  omega

theorem admitted_eq_takeBudget (hr : remaining.toInt = r) (hpos : 0 < r) (rs : List Record) :
    admitted remaining rs = takeBudget remaining 0 rs := by
  rw [admitted, if_neg]
  rw [Int32.le_iff_toInt_le, hr, Int32.toInt_zero]
  omega

theorem within_cons (hm : maxBytes.toInt = m) (ha : acc.toInt = a) (hlt : a < m)
    {taken : List Record} (hsingle : m - a < totalSize taken → taken.length = 1)
    (hfits : a + totalSize taken ≤ maxInt32) (rest : List (List Record))
    (ih : a + totalSize taken < m →
      (withinBudget m (a + totalSize taken) (rest.map sizes) = true ↔
        LoopExact maxBytes (accumulate acc taken) rest ∧
          (a + totalSize taken + totalSize (collect maxBytes (accumulate acc taken) rest) ≤ m ∨
            a + totalSize taken = 0 ∧
              (collect maxBytes (accumulate acc taken) rest).length = 1))) :
    (if maxInt32 < a + totalSize taken then false
      else if m < a + totalSize taken then decide (a = 0)
      else if m = a + totalSize taken then true
      else withinBudget m (a + totalSize taken) (rest.map sizes)) = true ↔
    (a + totalSize taken ≤ maxInt32 ∧ (¬ maxBytes ≤ accumulate acc taken →
        LoopExact maxBytes (accumulate acc taken) rest)) ∧
      (a + totalSize (if maxBytes ≤ accumulate acc taken then taken
          else taken ++ collect maxBytes (accumulate acc taken) rest) ≤ m ∨
        a = 0 ∧ (if maxBytes ≤ accumulate acc taken then taken
          else taken ++ collect maxBytes (accumulate acc taken) rest).length = 1) := by
  have hfull : maxBytes ≤ accumulate acc taken ↔ m ≤ a + totalSize taken := by
    rw [Int32.le_iff_toInt_le, hm, toInt_accumulate ha hfits]
    omega
  rw [if_neg (Nat.not_lt.mpr hfits)]
  rcases Nat.lt_trichotomy m (a + totalSize taken) with hover | hmet | hleft
  · have hlength := hsingle (by omega)
    rw [if_pos hover, if_pos (hfull.mpr hover.le)]
    simp [hfits, hfull, hover.le, hover, hlength]
  · rw [if_neg (by omega), if_pos hmet, if_pos (hfull.mpr hmet.le)]
    simp [hfits, hfull, hmet.le, hmet.ge]
  · have hnot : ¬ maxBytes ≤ accumulate acc taken := fun h => absurd (hfull.mp h) (by omega)
    rw [if_neg (by omega), if_neg (by omega), if_neg hnot, ih hleft, totalSize_append,
      List.length_append, Nat.add_assoc]
    simp only [hfits, hnot, not_false_eq_true, true_implies, true_and]
    generalize collect maxBytes (accumulate acc taken) rest = more
    refine and_congr_right fun _ => ?_
    constructor
    · rintro (hwithin | ⟨hnone, hone⟩)
      · exact .inl hwithin
      · have htaken : taken = [] := totalSize_eq_zero.mp (by omega)
        exact .inr ⟨by omega, by simp [htaken, hone]⟩
    · rintro (hwithin | ⟨hzero, hone⟩)
      · exact .inl hwithin
      · cases more with
        | nil =>
          have hnil : totalSize [] = 0 := rfl
          exact .inl (by omega)
        | cons x xs =>
          have htaken : taken = [] := by
            rw [List.length_cons] at hone
            exact List.length_eq_zero_iff.mp (by omega)
          have hempty := totalSize_eq_zero.mpr htaken
          rw [htaken, List.length_nil, Nat.zero_add] at hone
          exact .inr ⟨by omega, hone⟩

/-- The loop, in 32 bits and over the natural numbers.  What was taken before
counts `a` bytes, and as long as nothing was taken a single record may exceed
the budget. -/
theorem withinBudget_iff (hm : maxBytes.toInt = m) (ha : acc.toInt = a) (hlt : a < m)
    (chunks : List (List Record)) :
    withinBudget m a (chunks.map sizes) = true ↔
      LoopExact maxBytes acc chunks ∧ (a + totalSize (collect maxBytes acc chunks) ≤ m ∨
        a = 0 ∧ (collect maxBytes acc chunks).length = 1) := by
  induction chunks generalizing acc a with
  | nil =>
    have hnil : totalSize [] = 0 := rfl
    simp only [List.map_nil, withinBudget, LoopExact, collect, hnil]
    simp [hlt.le]
  | cons c rest ih =>
    have hremaining := toInt_remaining hm ha hlt
    have htaken := admitted_eq_takeBudget hremaining (by omega) c
    have hzero : (0 : Int32).toInt = (0 : Nat) := rfl
    have hdiff : (maxBytes - acc).toInt = maxBytes.toInt - acc.toInt := by
      rw [hremaining, hm, ha]
      omega
    have hsegment (spent : Nat) : spends (m - a) 0 (sizes c) = some spent ↔
        SegmentExact (maxBytes - acc) 0 c ∧
          spent = 0 + totalSize (takeBudget (maxBytes - acc) 0 c) :=
      spends_eq_some_iff hremaining hzero
    rw [List.map_cons, withinBudget, LoopExact, collect, htaken]
    cases hspends : spends (m - a) 0 (sizes c) with
    | none =>
      have hinexact : ¬ SegmentExact (maxBytes - acc) 0 c := by
        intro hexact
        rw [(hsegment _).mpr ⟨hexact, rfl⟩] at hspends
        cases hspends
      simp [hinexact]
    | some spent =>
      obtain ⟨hexact, rfl⟩ := (hsegment spent).mp hspends
      have hsingle := length_takeBudget hremaining hexact
      simp only [hdiff, hexact, true_and, Nat.zero_add, additionsExact_iff ha]
      generalize takeBudget (maxBytes - acc) 0 c = taken at hsingle ⊢
      by_cases hfits : a + totalSize taken ≤ maxInt32
      · exact within_cons hm ha hlt hsingle hfits rest fun ha' => ih (toInt_accumulate ha hfits) ha'
      · simp [hfits, Nat.not_le.mp hfits]

end

/-- A read keeps its budget exactly if no segment after the first one that gives
a record has to spend more than is left, and no sum leaves the 32-bit range. -/
theorem readFrom_keepsBudget_iff {crc : Checksum} {cfg : Config} {l : Log}
    (hlog : Reached crc cfg l) (offset : Int64) {maxBytes : Int32} (hmax : 0 < maxBytes) :
    KeepsBudget crc l offset maxBytes ↔
      withinBudget maxBytes.toNatClampNeg 0 ((visited crc l.segments offset).map sizes) = true := by
  rw [Int32.lt_iff_toInt_lt, Int32.toInt_zero] at hmax
  have hm : maxBytes.toInt = maxBytes.toNatClampNeg := (Int.toNat_of_nonneg hmax.le).symm
  have hread := readFrom_visited hlog.wellFormed offset (Int32.lt_iff_toInt_lt.mpr hmax)
  have hzero : (0 : Int32).toInt = (0 : Nat) := rfl
  rw [withinBudget_iff hm hzero (by omega), Nat.zero_add, ← hread]
  constructor
  · rintro ⟨htotal, hexact⟩
    refine ⟨hexact, htotal.imp (fun hle => ?_) fun hone => ⟨rfl, hone⟩⟩
    omega
  · rintro ⟨hexact, htotal⟩
    refine ⟨htotal.imp (fun hle => ?_) And.right, hexact⟩
    omega

theorem reached_threeRecords : Reached castagnoli smallConfig threeRecordLog :=
  ⟨_, _, _, _, newLog_small, Run.nil.snoc step_threeRecords⟩

theorem readFrom_keepsBudget_iff_threeRecords : KeepsBudget castagnoli threeRecordLog 0 99 :=
  (readFrom_keepsBudget_iff reached_threeRecords 0 (by decide)).mpr (by decide +kernel)

/-- Of 50 bytes the first segment spends 33; the next one gives its record of 33
bytes although 17 are left. -/
theorem readFrom_exceeds_budget :
    newLog castagnoli smallConfig [] (fun _ => 0) 0 = .ok emptyLog ∧
      Step castagnoli smallConfig emptyLog (.appendBatch threeRecords 0 none) threeRecordLog ∧
      sizes (threeRecordLog.readFrom castagnoli 0 50).1 = [33, 33] ∧
      ¬ KeepsBudget castagnoli threeRecordLog 0 50 := by
  have hsizes : sizes (threeRecordLog.readFrom castagnoli 0 50).1 = [33, 33] := by decide +kernel
  have htotal : totalSize (threeRecordLog.readFrom castagnoli 0 50).1 = 66 := by
    rw [totalSize, hsizes]
    rfl
  have hlength : (threeRecordLog.readFrom castagnoli 0 50).1.length = 2 := by
    have hmap := congrArg List.length hsizes
    rwa [sizes, List.length_map] at hmap
  refine ⟨newLog_small, step_threeRecords, hsizes, ?_⟩
  rintro ⟨hle | hone, -⟩
  · rw [htotal] at hle
    exact absurd hle (by decide)
  · omega

end MiniKafka.ReadBudget
