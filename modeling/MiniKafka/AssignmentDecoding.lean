import Mathlib.Data.List.Forall2
import MiniKafka.PartitionAssignments

/-!
`DecodeAssignment` on arbitrary bytes.

The slices of the source are made with the length that the bytes announce and
filled by index, so both can fail at run time.  The topics are not read where
their count is negative; the partitions of a topic have no such branch.
-/

namespace MiniKafka.AssignmentDecoding

open BigEndian WireCodec PartitionAssignments

/-- How decoding ends without a value: with a returned error, or in a panic. -/
inductive Failure where
  | wire (e : WireError)
  | negativeLength
  | indexOutOfRange
  deriving DecidableEq, Repr

section

variable {α ε : Type}

def makeSlice (zero : α) (count : Int32) : Except Failure (List α) :=
  if count < 0 then .error .negativeLength
  else .ok (List.replicate count.toNatClampNeg zero)

/-- The last `n` rounds of the loop, from index `i` on. -/
def fillSlice (decode : Bytes → Except Failure (α × Bytes)) :
    Nat → Nat → List α → Bytes → Except Failure (List α × Bytes)
  | 0, _, slice, bs => .ok (slice, bs)
  | n + 1, i, slice, bs =>
    match decode bs with
    | .error e => .error e
    | .ok (a, rest) =>
      if i < slice.length then fillSlice decode n (i + 1) (slice.set i a) rest
      else .error .indexOutOfRange

def fillPartitions (bs : Bytes) : Except Failure (List Int32 × Bytes) :=
  match arrayHeader bs with
  | .error e => .error (.wire e)
  | .ok (pCount, rest) =>
    match makeSlice 0 pCount with
    | .error e => .error e
    | .ok partitions =>
      fillSlice (fun bs => (int32 bs).mapError .wire) pCount.toNatClampNeg 0 partitions rest

def fillTopic (bs : Bytes) : Except Failure (PartitionAssignment × Bytes) :=
  match string bs with
  | .error e => .error (.wire e)
  | .ok (tName, rest) =>
    match fillPartitions rest with
    | .error e => .error e
    | .ok (partitions, rest) => .ok (⟨tName, partitions⟩, rest)

/-- `DecodeAssignment`, with its slices. -/
def fillAssignment (data : Bytes) : Except Failure MemberAssignment :=
  if data = [] then .ok ⟨[]⟩
  else
    match arrayHeader data with
    | .error e => .error (.wire e)
    | .ok (tCount, rest) =>
      if tCount < 0 then .ok ⟨[]⟩
      else
        match makeSlice ⟨[], []⟩ tCount with
        | .error e => .error e
        | .ok topics =>
          match fillSlice fillTopic tCount.toNatClampNeg 0 topics rest with
          | .error e => .error e
          | .ok (topics, _) => .ok ⟨topics⟩

def Failure.ofError : AssignmentError → Failure
  | .wire e => .wire e
  | .negativeLength => .negativeLength

theorem fillSlice_eq_decodeMany (decode : Bytes → Except Failure (α × Bytes)) (zero : α) (n : Nat)
    (done : List α) (bs : Bytes) :
    fillSlice decode n done.length (done ++ List.replicate n zero) bs =
      (decodeMany decode n bs).map fun read => (done ++ read.1, read.2) := by
  induction n generalizing done bs with
  | zero => simp [fillSlice, decodeMany, Except.map]
  | succ n ih =>
    rw [fillSlice, decodeMany]
    cases decode bs with
    | error e => rfl
    | ok read =>
      have hset : (done ++ List.replicate (n + 1) zero).set done.length read.1 =
          (done ++ [read.1]) ++ List.replicate n zero := by
        simp [List.replicate_succ]
      have hlength : done.length + 1 = (done ++ [read.1]).length := by simp
      dsimp only
      rw [if_pos (by simp), hset, hlength, ih]
      cases decodeMany decode n read.2 with
      | error e => rfl
      | ok others => simp [Except.map]

theorem mapError_ok {ε' : Type} (f : ε → ε') (a : α) : (Except.ok a).mapError f = .ok a := rfl

theorem decodeMany_mapError {ε' : Type} (f : ε → ε') (decode : Bytes → Except ε (α × Bytes))
    (n : Nat) (bs : Bytes) :
    decodeMany (fun bs => (decode bs).mapError f) n bs = (decodeMany decode n bs).mapError f := by
  induction n generalizing bs with
  | zero => rfl
  | succ n ih =>
    rw [decodeMany, decodeMany]
    cases decode bs with
    | error e => rfl
    | ok read =>
      rw [mapError_ok]
      dsimp only
      rw [ih]
      cases decodeMany decode n read.2 <;> rfl

theorem fillSlice_mapError (f : ε → Failure) (decode : Bytes → Except ε (α × Bytes)) (zero : α)
    (n : Nat) (bs : Bytes) :
    fillSlice (fun bs => (decode bs).mapError f) n 0 (List.replicate n zero) bs =
      (decodeMany decode n bs).mapError f := by
  have h := fillSlice_eq_decodeMany (fun bs => (decode bs).mapError f) zero n [] bs
  rw [List.nil_append, List.length_nil] at h
  rw [h, decodeMany_mapError]
  cases decodeMany decode n bs <;> rfl

end

theorem fillPartitions_eq (bs : Bytes) :
    fillPartitions bs = (decodePartitions bs).mapError Failure.ofError := by
  rw [fillPartitions, decodePartitions]
  cases arrayHeader bs with
  | error e => rfl
  | ok read =>
    dsimp only
    by_cases hcount : read.1 < 0
    · rw [makeSlice, if_pos hcount, if_pos hcount]
      rfl
    · rw [makeSlice, if_neg hcount, if_neg hcount]
      dsimp only
      rw [fillSlice_mapError]
      cases decodeMany int32 read.1.toNatClampNeg read.2 <;> rfl

theorem fillTopic_eq (bs : Bytes) :
    fillTopic bs = (decodeTopic bs).mapError Failure.ofError := by
  rw [fillTopic, decodeTopic]
  cases string bs with
  | error e => rfl
  | ok read =>
    dsimp only
    rw [fillPartitions_eq]
    cases decodePartitions read.2 <;> rfl

/-- The slices of the source hold what the lists of the model do, and no index is
out of range. -/
theorem fillAssignment_eq (data : Bytes) :
    fillAssignment data = (decodeAssignment data).mapError Failure.ofError := by
  have htopic : fillTopic = fun bs => (decodeTopic bs).mapError Failure.ofError := by
    funext bs
    exact fillTopic_eq bs
  rw [fillAssignment, decodeAssignment]
  split
  · rfl
  · cases arrayHeader data with
    | error e => rfl
    | ok read =>
      dsimp only
      split
      · rfl
      · rename_i hcount
        rw [makeSlice, if_neg hcount]
        dsimp only
        rw [htopic, fillSlice_mapError]
        cases decodeMany decodeTopic read.1.toNatClampNeg read.2 <;> rfl

def TopicField (t : PartitionAssignment) (field : Bytes) : Prop :=
  ∃ name count, StringField t.topic name ∧ 0 ≤ count ∧
    count.toNatClampNeg = t.partitions.length ∧
    field = name ++ (putInt32 count ++ t.partitions.flatMap putInt32)

/-- After some complete topics, fewer than announced, a topic follows with a
negative count of partitions. -/
def NullPartitions (data : Bytes) : Prop :=
  ∃ count topics fields name topic length rest,
    data = putInt32 count ++ (fields.flatten ++ (name ++ (putInt32 length ++ rest))) ∧
    List.Forall₂ TopicField topics fields ∧ topics.length < count.toNatClampNeg ∧
    StringField topic name ∧ length < 0

/-- Arrays with a negative count are empty, on both levels. -/
def acceptPartitions (bs : Bytes) : Except WireError (List Int32 × Bytes) :=
  match arrayHeader bs with
  | .error e => .error e
  | .ok (count, rest) =>
    if count < 0 then .ok ([], rest) else decodeMany int32 count.toNatClampNeg rest

def acceptTopic (bs : Bytes) : Except WireError (PartitionAssignment × Bytes) :=
  match string bs with
  | .error e => .error e
  | .ok (topic, rest) =>
    match acceptPartitions rest with
    | .error e => .error e
    | .ok (partitions, rest) => .ok (⟨topic, partitions⟩, rest)

def acceptAssignment (data : Bytes) : Except WireError MemberAssignment :=
  if data = [] then .ok ⟨[]⟩
  else
    match arrayHeader data with
    | .error e => .error e
    | .ok (count, rest) =>
      if count < 0 then .ok ⟨[]⟩
      else
        match decodeMany acceptTopic count.toNatClampNeg rest with
        | .error e => .error e
        | .ok (topics, _) => .ok ⟨topics⟩

/-- The bytes are decoded to a value or an error, with null arrays accepted on
both levels. -/
structure DecodesSafely (data : Bytes) : Prop where
  returns : ∀ failure, fillAssignment data = .error failure → ∃ e, failure = .wire e
  accepts : fillAssignment data = (acceptAssignment data).mapError .wire

theorem decodeMany_int32_eq_ok_iff {n : Nat} {bs rest : Bytes} {ps : List Int32} :
    decodeMany int32 n bs = .ok (ps, rest) ↔
      ps.length = n ∧ bs = ps.flatMap putInt32 ++ rest := by
  have hfield : ∀ (bs : Bytes) (p : Int32) (rest : Bytes), int32 bs = .ok (p, rest) ↔
      ∃ field, putInt32 p = field ∧ bs = field ++ rest := by
    intro bs p rest
    rw [int32_eq_ok_iff, exists_eq_left']
  rw [decodeMany_eq_ok_iff hfield, List.flatMap_def]
  refine and_congr_right fun _ => ?_
  constructor
  · rintro ⟨fields, hfields, rfl⟩
    rw [← List.forall₂_map_left_iff, List.forall₂_eq_eq_eq] at hfields
    rw [hfields]
  · rintro rfl
    refine ⟨ps.map putInt32, ?_, rfl⟩
    rw [← List.forall₂_map_left_iff, List.forall₂_eq_eq_eq]

section

variable {bs rest : Bytes} {t : PartitionAssignment} {ps : List Int32}

theorem decodePartitions_eq_ok_iff :
    decodePartitions bs = .ok (ps, rest) ↔ ∃ count, 0 ≤ count ∧ count.toNatClampNeg = ps.length ∧
      bs = putInt32 count ++ (ps.flatMap putInt32 ++ rest) := by
  rw [decodePartitions]
  constructor
  · intro h
    split at h
    · cases h
    · rename_i count left hcount
      obtain rfl := int32_eq_ok_iff.mp hcount
      split at h
      · cases h
      · rename_i hnonneg
        cases hmany : decodeMany int32 count.toNatClampNeg left with
        | error e =>
          rw [hmany] at h
          cases h
        | ok read =>
          rw [hmany] at h
          cases h
          obtain ⟨hlength, rfl⟩ := decodeMany_int32_eq_ok_iff.mp hmany
          exact ⟨count, Int32.not_lt.mp hnonneg, hlength.symm, rfl⟩
  · rintro ⟨count, hnonneg, hlength, rfl⟩
    rw [arrayHeader, int32_append]
    dsimp only
    rw [if_neg (Int32.not_lt.mpr hnonneg), decodeMany_int32_eq_ok_iff.mpr ⟨hlength.symm, rfl⟩]
    rfl

theorem decodePartitions_eq_negativeLength_iff :
    decodePartitions bs = .error .negativeLength ↔
      ∃ length rest, length < 0 ∧ bs = putInt32 length ++ rest := by
  rw [decodePartitions]
  constructor
  · intro h
    split at h
    · cases h
    · rename_i count left hcount
      obtain rfl := int32_eq_ok_iff.mp hcount
      split at h
      · rename_i hneg
        exact ⟨count, left, hneg, rfl⟩
      · cases hmany : decodeMany int32 count.toNatClampNeg left with
        | error e => rw [hmany] at h; cases h
        | ok read => rw [hmany] at h; cases h
  · rintro ⟨length, rest, hneg, rfl⟩
    rw [arrayHeader, int32_append]
    dsimp only
    rw [if_pos hneg]

theorem decodePartitions_eq_accept (h : decodePartitions bs ≠ .error .negativeLength) :
    decodePartitions bs = (acceptPartitions bs).mapError .wire := by
  rw [decodePartitions] at *
  rw [acceptPartitions]
  cases hcount : arrayHeader bs with
  | error e => rfl
  | ok header =>
    rw [hcount] at h
    dsimp only at h ⊢
    by_cases hneg : header.1 < 0
    · rw [if_pos hneg] at h
      exact absurd rfl h
    · rw [if_neg hneg, if_neg hneg]

-- The bytes after the name stay a variable: the kernel would run the decoder on a count.
theorem decodeTopic_append {name topic : Bytes} (hname : StringField topic name) (rest : Bytes) :
    decodeTopic (name ++ rest) =
      (decodePartitions rest).map fun read => (⟨topic, read.1⟩, read.2) := by
  rw [decodeTopic, string_eq_ok_iff.mpr ⟨name, hname, rfl⟩]
  dsimp only
  cases decodePartitions rest <;> rfl

theorem decodeTopic_eq_ok_iff :
    decodeTopic bs = .ok (t, rest) ↔ ∃ field, TopicField t field ∧ bs = field ++ rest := by
  constructor
  · intro h
    rw [decodeTopic] at h
    split at h
    · cases h
    · rename_i topic left hname
      split at h
      · cases h
      · rename_i partitions left' hpartitions
        cases h
        obtain ⟨name, hfield, rfl⟩ := string_eq_ok_iff.mp hname
        obtain ⟨count, hnonneg, hlength, rfl⟩ := decodePartitions_eq_ok_iff.mp hpartitions
        refine ⟨_, ⟨name, count, hfield, hnonneg, hlength, rfl⟩, ?_⟩
        rw [List.append_assoc, List.append_assoc]
  · rintro ⟨_, ⟨name, count, hname, hnonneg, hlength, rfl⟩, rfl⟩
    rw [List.append_assoc, List.append_assoc, decodeTopic_append hname,
      decodePartitions_eq_ok_iff.mpr ⟨count, hnonneg, hlength, rfl⟩]
    rfl

theorem decodeTopic_eq_negativeLength_iff :
    decodeTopic bs = .error .negativeLength ↔ ∃ name topic length rest,
      StringField topic name ∧ length < 0 ∧ bs = name ++ (putInt32 length ++ rest) := by
  constructor
  · intro h
    rw [decodeTopic] at h
    split at h
    · cases h
    · rename_i topic left hname
      split at h
      · rename_i hpartitions
        cases h
        obtain ⟨name, hfield, rfl⟩ := string_eq_ok_iff.mp hname
        obtain ⟨length, rest, hneg, rfl⟩ := decodePartitions_eq_negativeLength_iff.mp hpartitions
        exact ⟨name, topic, length, rest, hfield, hneg, rfl⟩
      · cases h
  · rintro ⟨name, topic, length, rest, hname, hneg, rfl⟩
    rw [decodeTopic_append hname,
      decodePartitions_eq_negativeLength_iff.mpr ⟨length, rest, hneg, rfl⟩]
    rfl

theorem decodeTopic_eq_accept (h : decodeTopic bs ≠ .error .negativeLength) :
    decodeTopic bs = (acceptTopic bs).mapError .wire := by
  rw [decodeTopic] at *
  rw [acceptTopic]
  cases hname : string bs with
  | error e => rfl
  | ok read =>
    rw [hname] at h
    dsimp only at h ⊢
    rw [decodePartitions_eq_accept]
    · cases acceptPartitions read.2 <;> rfl
    · intro hneg
      rw [hneg] at h
      exact h rfl

end

theorem decodeTopics_eq_accept {n : Nat} {bs : Bytes}
    (h : decodeMany decodeTopic n bs ≠ .error .negativeLength) :
    decodeMany decodeTopic n bs = (decodeMany acceptTopic n bs).mapError .wire := by
  induction n generalizing bs with
  | zero => rfl
  | succ n ih =>
    have haccept : decodeTopic bs = (acceptTopic bs).mapError .wire := by
      apply decodeTopic_eq_accept
      intro hneg
      rw [decodeMany, hneg] at h
      exact h rfl
    rw [decodeMany, haccept] at h
    rw [decodeMany, decodeMany, haccept]
    cases hfirst : acceptTopic bs with
    | error e => rfl
    | ok read =>
      rw [hfirst, mapError_ok] at h
      rw [mapError_ok]
      dsimp only at h ⊢
      rw [ih]
      · cases decodeMany acceptTopic n read.2 <;> rfl
      · intro hneg
        rw [hneg] at h
        exact h rfl

theorem decodeAssignment_eq_negativeLength_iff {data : Bytes} :
    decodeAssignment data = .error .negativeLength ↔ NullPartitions data := by
  constructor
  · intro h
    rw [decodeAssignment] at h
    split at h
    · cases h
    · split at h
      · cases h
      · rename_i count rest hcount
        obtain rfl := int32_eq_ok_iff.mp hcount
        split at h
        · cases h
        · split at h
          · rename_i hmany
            cases h
            obtain ⟨m, hm, topics, left, htopics, hlast⟩ := decodeMany_eq_error_iff.mp hmany
            obtain ⟨hlength, fields, hfields, rfl⟩ :=
              (decodeMany_eq_ok_iff fun _ _ _ => decodeTopic_eq_ok_iff).mp htopics
            obtain ⟨name, topic, length, rest, hname, hneg, rfl⟩ :=
              decodeTopic_eq_negativeLength_iff.mp hlast
            exact ⟨count, topics, fields, name, topic, length, rest, rfl, hfields,
              hlength.trans_lt hm, hname, hneg⟩
          · cases h
  · rintro ⟨count, topics, fields, name, topic, length, rest, rfl, hfields, hlt, hname, hneg⟩
    have hnonneg : ¬ count < 0 := by
      rw [Int32.lt_iff_toInt_lt, Int32.toInt_zero]
      rw [Int32.toNatClampNeg] at hlt
      omega
    have hne : putInt32 count ++ (fields.flatten ++ (name ++ (putInt32 length ++ rest))) ≠ [] := by
      intro hnil
      have := congrArg List.length (List.append_eq_nil_iff.mp hnil).1
      rw [length_putInt32] at this
      cases this
    have hmany : decodeMany decodeTopic count.toNatClampNeg
        (fields.flatten ++ (name ++ (putInt32 length ++ rest))) = .error .negativeLength := by
      refine decodeMany_eq_error_iff.mpr ⟨topics.length, hlt, topics, _, ?_,
        decodeTopic_eq_negativeLength_iff.mpr ⟨name, topic, length, rest, hname, hneg, rfl⟩⟩
      exact (decodeMany_eq_ok_iff fun _ _ _ => decodeTopic_eq_ok_iff).mpr
        ⟨rfl, fields, hfields, rfl⟩
    rw [decodeAssignment, if_neg hne, arrayHeader, int32_append]
    dsimp only
    rw [if_neg hnonneg, hmany]

theorem decodeAssignment_eq_accept {data : Bytes}
    (h : decodeAssignment data ≠ .error .negativeLength) :
    decodeAssignment data = (acceptAssignment data).mapError .wire := by
  rw [decodeAssignment] at *
  rw [acceptAssignment]
  split
  · rfl
  · rename_i hne
    rw [if_neg hne] at h
    cases hcount : arrayHeader data with
    | error e => rfl
    | ok header =>
      rw [hcount] at h
      dsimp only at h ⊢
      by_cases hneg : header.1 < 0
      · rw [if_pos hneg, if_pos hneg]
        rfl
      · rw [if_neg hneg] at h
        rw [if_neg hneg, if_neg hneg, decodeTopics_eq_accept]
        · cases decodeMany acceptTopic header.1.toNatClampNeg header.2 <;> rfl
        · intro hmany
          rw [hmany] at h
          exact h rfl

/-- Decoding is safe and accepts null arrays, unless it comes to a null array of
partitions. -/
theorem decodes_safely_iff (data : Bytes) : DecodesSafely data ↔ ¬ NullPartitions data := by
  rw [← decodeAssignment_eq_negativeLength_iff]
  constructor
  · intro h hneg
    obtain ⟨e, he⟩ := h.returns .negativeLength (by rw [fillAssignment_eq, hneg]; rfl)
    cases he
  · intro h
    have haccepts : fillAssignment data = (acceptAssignment data).mapError .wire := by
      rw [fillAssignment_eq, decodeAssignment_eq_accept h]
      cases acceptAssignment data <;> rfl
    refine ⟨?_, haccepts⟩
    intro failure hfailure
    rw [haccepts] at hfailure
    cases haccept : acceptAssignment data with
    | error e =>
      rw [haccept] at hfailure
      cases hfailure
      exact ⟨e, rfl⟩
    | ok ma =>
      rw [haccept] at hfailure
      cases hfailure

def nullPartitions : Bytes := [0, 0, 0, 1, 0, 1, 116, 255, 255, 255, 255]

/-- The source panics where it accepts the same count of topics. -/
theorem null_partitions_panic :
    fillAssignment nullPartitions = .error .negativeLength ∧ ¬ DecodesSafely nullPartitions ∧
      fillAssignment [255, 255, 255, 255] = .ok ⟨[]⟩ := by
  have hpanic : fillAssignment nullPartitions = .error .negativeLength := by decide
  refine ⟨hpanic, ?_, by decide⟩
  intro hsafe
  obtain ⟨e, he⟩ := hsafe.returns _ hpanic
  cases he

end MiniKafka.AssignmentDecoding
