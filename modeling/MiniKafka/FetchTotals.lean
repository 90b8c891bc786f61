import Mathlib.Algebra.Order.BigOperators.Group.List
import MiniKafka.BrokerHandlers
import MiniKafka.Frames
import MiniKafka.ReadBudget
import MiniKafka.ResponseBodies

/-!
The response of `handleFetch` (`internal/broker/broker.go`) to a request over any
topics and partitions, and the total that the request asks for.

Each partition is read with its own `MaxBytes`; the request's `MaxBytes` is
decoded and not looked at again.
-/

namespace MiniKafka.FetchTotals

open BigEndian ExactReaders WireCodec RecordCodec RecordSets RequestBodies ResponseBodies Frames
  LogContents LogReadFrom ReadBudget
open SegmentStore (Config smallConfig)
open SegmentContents (image length_image)
open SegmentReads (takeBudget)
open PartitionLog (Log LogError emptyLog)
open LogRefinement (Reached)

/-- The topics of a broker and their partitions. -/
abbrev Topics := Bytes → Option (Int32 → Option BrokerHandlers.Partition)

def getPartition (topics : Topics) (name : Bytes) (partitionID : Int32) :
    Option BrokerHandlers.Partition :=
  (topics name).bind fun partitions => partitions partitionID

/-- One round of the inner loop of `handleFetch`.  The buffer of a record set
without records is nil. -/
def fetchPartition (crc : Checksum) (topics : Topics) (name : Bytes)
    (pReq : FetchRequestPartition) : FetchResponsePartition :=
  match getPartition topics name pReq.partitionID with
  | none => ⟨pReq.partitionID, BrokerHandlers.errUnknownTopicOrPartition, 0, 0, none⟩
  | some p =>
    let answer := BrokerHandlers.fetchAnswer crc ⟨pReq.fetchOffset, pReq.maxBytes⟩ p.log
      p.highWatermark p.log.lowestOffset
    ⟨pReq.partitionID, answer.errorCode.code, answer.highWatermark, answer.logStartOffset,
      if answer.recordSet = [] then none else some answer.recordSet⟩

def handleFetch (crc : Checksum) (topics : Topics) (req : FetchRequest) : FetchResponse :=
  ⟨some ((elements req.topics).map fun t =>
    ⟨t.name, some ((elements t.partitions).map (fetchPartition crc topics t.name))⟩)⟩

def partitionRecords (crc : Checksum) (p : FetchResponsePartition) : List Record :=
  (decodeRecords crc (elements p.recordSet)).1

def responseRecords (crc : Checksum) (resp : FetchResponse) : List Record :=
  (elements resp.topics).flatMap fun t => (elements t.partitions).flatMap (partitionRecords crc)

def responseFrame (resp : FetchResponse) (correlationID : Int32) : Except WireError Bytes :=
  match resp.encode with
  | .error e => .error e
  | .ok body => FrameKind.response.written (⟨0, correlationID, 0, some body⟩ : ResponseFrame)

def Accepted (resp : FetchResponse) : Prop :=
  ∀ correlationID, ∃ word frame, responseFrame resp correlationID = .ok word ∧
    ∀ rest, readResponseFrame (word ++ rest) = .ok (frame, rest)

/-- The bytes of a response frame after its size field, without the records. -/
def overhead (req : FetchRequest) : Nat :=
  14 + ((elements req.topics).map fun t =>
    6 + t.name.length + 26 * (elements t.partitions).length).sum

/-- A request that can be sent, with a total well below the size of a frame. -/
def WellBelow (req : FetchRequest) : Prop :=
  (∃ word, req.encode = .ok word) ∧
    overhead req + max req.maxBytes.toNatClampNeg maxRecordSize ≤ maxFrameSize

/-- The records of the response are within the total or a single record, and the
frame of a request well below the frame size is accepted. -/
structure RespectsTotal (crc : Checksum) (topics : Topics) (req : FetchRequest) : Prop where
  total :
    (totalSize (responseRecords crc (handleFetch crc topics req)) : Int) ≤ req.maxBytes.toInt ∨
    (responseRecords crc (handleFetch crc topics req)).length = 1
  accepted : WellBelow req → Accepted (handleFetch crc topics req)

def Serving (crc : Checksum) (cfg : Config) (topics : Topics) : Prop :=
  ∀ name partitionID p, getPartition topics name partitionID = some p → Reached crc cfg p.log

def entry (r : Record) : Int64 × Nat := (r.offset, r.encodedSize)

/-- The entries of a segment that fit into what is left of a budget; the first
one always does. -/
def takeEntries (remaining : Int32) : Int32 → List (Int64 × Nat) → List (Int64 × Nat)
  | _, [] => []
  | spent, e :: es =>
    if 0 < spent ∧ remaining < spent + Int32.ofNat e.2 then []
    else e :: takeEntries remaining (spent + Int32.ofNat e.2) es

/-- The entries that a budget takes from one segment after another. -/
def portion (maxBytes : Int32) : Int32 → List (List (Int64 × Nat)) → List (Int64 × Nat)
  | _, [] => []
  | spent, es :: rest =>
    let taken := if maxBytes - spent ≤ 0 then [] else takeEntries (maxBytes - spent) 0 es
    let spent := taken.foldl (fun spent e => spent + Int32.ofNat e.2) spent
    if maxBytes ≤ spent then taken else taken ++ portion maxBytes spent rest

/-- The sizes of the stored records below the high watermark that the
partition's own budget takes. -/
def share (crc : Checksum) (topics : Topics) (name : Bytes) (pReq : FetchRequestPartition) :
    List Nat :=
  match getPartition topics name pReq.partitionID with
  | none => []
  | some p =>
    if p.highWatermark ≤ pReq.fetchOffset ∨ pReq.maxBytes ≤ 0 then []
    else
      ((portion pReq.maxBytes 0 ((visited crc p.log.segments pReq.fetchOffset).map
        (List.map entry))).takeWhile fun e => decide (e.1 < p.highWatermark)).map Prod.snd

def shares (crc : Checksum) (topics : Topics) (req : FetchRequest) : List Nat :=
  (elements req.topics).flatMap fun t => (elements t.partitions).flatMap (share crc topics t.name)

/-- Together the partitions' own budgets take no more than the total, or a
single record. -/
def SharesFit (crc : Checksum) (topics : Topics) (req : FetchRequest) : Prop :=
  ((shares crc topics req).sum : Int) ≤ req.maxBytes.toInt ∨ (shares crc topics req).length = 1

section

theorem takeEntries_map (remaining spent : Int32) (rs : List Record) :
    takeEntries remaining spent (rs.map entry) =
      (takeBudget remaining spent rs).map entry := by
  induction rs generalizing spent with
  | nil => rfl
  | cons r rs ih =>
    rw [List.map_cons, takeEntries, takeBudget, ih]
    change (if 0 < spent ∧ remaining < spent + Int32.ofNat r.encodedSize then _ else _) = _
    split
    · rfl
    · rfl

theorem portion_map (maxBytes spent : Int32) (chunks : List (List Record)) :
    portion maxBytes spent (chunks.map (List.map entry)) =
      (collect maxBytes spent chunks).map entry := by
  induction chunks generalizing spent with
  | nil => rfl
  | cons c rest ih =>
    have htaken : (if maxBytes - spent ≤ 0 then []
        else takeEntries (maxBytes - spent) 0 (c.map entry)) =
          (admitted (maxBytes - spent) c).map entry := by
      rw [admitted, takeEntries_map]
      split <;> rfl
    rw [List.map_cons, portion, collect, htaken, List.foldl_map, ih]
    change (if maxBytes ≤ accumulate spent (admitted (maxBytes - spent) c) then _ else _) = _
    split
    · rfl
    · rw [List.map_append]
      rfl

variable {crc : Checksum} {cfg : Config} {topics : Topics} {req : FetchRequest} {name : Bytes}
  {pReq : FetchRequestPartition}

theorem readFrom_cases {l : Log} (h : WellFormed crc l) (offset : Int64) {maxBytes : Int32}
    (hmax : 0 < maxBytes) :
    offset < l.lowestOffset ∧
        l.readFrom crc offset maxBytes = ([], some .offsetOutOfRange) ∨
      l.readFrom crc offset maxBytes =
        (collect maxBytes 0 (visited crc l.segments offset), none) := by
  by_cases hlow : offset < l.lowestOffset
  · refine .inl ⟨hlow, ?_⟩
    rw [Log.readFrom, if_neg (by simp [h.isOpen]), if_neg (Int32.not_le.mpr hmax), if_pos hlow]
  · refine .inr ?_
    rw [Int64.lt_iff_toInt_lt, not_lt] at hlow
    have hsplit : l.segments = [] ++ l.segments := rfl
    rw [readFrom_eq_loop h hlow hmax, readFromLoop_visited h hsplit, List.nil_append]

theorem recordSet_fetchAnswer {l : Log} (h : WellFormed crc l) (offset : Int64) (maxBytes : Int32)
    (hw start : Int64) :
    ∃ records, (∀ r ∈ records, r.encodedSize ≤ maxRecordSize) ∧
      sizes records =
        (if hw ≤ offset ∨ maxBytes ≤ 0 then []
        else ((portion maxBytes 0 ((visited crc l.segments offset).map (List.map entry))).takeWhile
          fun e => decide (e.1 < hw)).map Prod.snd) ∧
      (BrokerHandlers.fetchAnswer crc ⟨offset, maxBytes⟩ l hw start).recordSet =
        image crc records := by
  rw [BrokerHandlers.fetchAnswer]
  dsimp only
  by_cases hbelow : hw ≤ offset
  · rw [if_pos hbelow, if_pos (.inl hbelow)]
    exact ⟨[], by simp, rfl, rfl⟩
  rw [if_neg hbelow]
  by_cases hmax : maxBytes ≤ 0
  · have hread : l.readFrom crc offset maxBytes = ([], none) := by
      rw [Log.readFrom, if_neg (by simp [h.isOpen]), if_pos hmax]
    rw [if_pos (.inr hmax), hread]
    exact ⟨[], by simp, rfl, rfl⟩
  rw [if_neg (not_or.mpr ⟨hbelow, hmax⟩)]
  rw [Int32.not_le] at hmax
  obtain ⟨hlow, hread⟩ | hread := readFrom_cases h offset hmax
  · rw [hread, visited_below h hlow]
    exact ⟨[], by simp, rfl, rfl⟩
  · -- whatever is read is stored, so it can be encoded
    have hstored : ∀ r ∈ collect maxBytes 0 (visited crc l.segments offset),
        r.encodedSize ≤ maxRecordSize := by
      intro r hr
      have hmem : r ∈ (l.readFrom crc offset maxBytes).1 := by rwa [hread]
      exact stored_fits h r (mem_readFrom h hmem)
    have hfits : ∀ r ∈ (collect maxBytes 0 (visited crc l.segments offset)).takeWhile
        fun r => decide (r.offset < hw), r.encodedSize ≤ maxRecordSize :=
      fun r hr => hstored r ((List.takeWhile_prefix _).subset hr)
    have hencoded := encodeRecords_isOk fun r hr =>
      ⟨r.wireImage crc, (encode_eq_ok_iff crc r _).mpr ⟨hfits r hr, rfl⟩⟩
    refine ⟨_, hfits, ?_, ?_⟩
    · rw [portion_map, List.takeWhile_map, List.map_map]
      rfl
    · rw [hread]
      dsimp only
      rw [if_neg (by simp), hencoded]

theorem recordSet_fetchPartition (hserving : Serving crc cfg topics) (name : Bytes)
    (pReq : FetchRequestPartition) :
    ∃ records, (∀ r ∈ records, r.encodedSize ≤ maxRecordSize) ∧
      sizes records = share crc topics name pReq ∧
      elements (fetchPartition crc topics name pReq).recordSet = image crc records := by
  rw [share, fetchPartition]
  cases hpartition : getPartition topics name pReq.partitionID with
  | none => exact ⟨[], by simp, rfl, rfl⟩
  | some p =>
    have h : WellFormed crc p.log := (hserving name pReq.partitionID p hpartition).wellFormed
    have helements (bs : Bytes) : elements (if bs = [] then none else some bs) = bs := by
      split
      · rename_i hnil
        rw [hnil]
        rfl
      · rfl
    obtain ⟨records, hfits, hsizes, himage⟩ := recordSet_fetchAnswer h pReq.fetchOffset
      pReq.maxBytes p.highWatermark p.log.lowestOffset
    refine ⟨records, hfits, hsizes, ?_⟩
    dsimp only
    rw [helements, himage]

theorem sizes_partitionRecords (hserving : Serving crc cfg topics) (name : Bytes)
    (pReq : FetchRequestPartition) :
    sizes (partitionRecords crc (fetchPartition crc topics name pReq)) =
      share crc topics name pReq := by
  obtain ⟨records, hfits, hsizes, himage⟩ := recordSet_fetchPartition hserving name pReq
  have hencoded := encodeRecords_isOk fun r hr =>
    ⟨r.wireImage crc, (encode_eq_ok_iff crc r _).mpr ⟨hfits r hr, rfl⟩⟩
  rw [partitionRecords, himage, decodeRecords_encoded hencoded, hsizes]

theorem length_recordSet (hserving : Serving crc cfg topics) (name : Bytes)
    (pReq : FetchRequestPartition) :
    (elements (fetchPartition crc topics name pReq).recordSet).length =
      (share crc topics name pReq).sum := by
  obtain ⟨records, -, hsizes, himage⟩ := recordSet_fetchPartition hserving name pReq
  rw [himage, length_image, ← hsizes]
  rfl

theorem le_maxRecordSize_of_mem_share (hserving : Serving crc cfg topics) {n : Nat}
    (hn : n ∈ share crc topics name pReq) : n ≤ maxRecordSize := by
  obtain ⟨records, hfits, hsizes, -⟩ := recordSet_fetchPartition hserving name pReq
  rw [← hsizes] at hn
  obtain ⟨r, hr, rfl⟩ := List.mem_map.mp hn
  exact hfits r hr

theorem sizes_responseRecords (hserving : Serving crc cfg topics) (req : FetchRequest) :
    sizes (responseRecords crc (handleFetch crc topics req)) = shares crc topics req := by
  rw [responseRecords, handleFetch, shares, sizes]
  change List.map _ (((elements req.topics).map _).flatMap _) = _
  rw [List.flatMap_map, List.map_flatMap]
  refine congrArg (fun f => (elements req.topics).flatMap f) (funext fun t => ?_)
  change List.map _ (((elements t.partitions).map _).flatMap _) = _
  rw [List.flatMap_map, List.map_flatMap]
  exact congrArg (fun f => (elements t.partitions).flatMap f)
    (funext fun pReq => sizes_partitionRecords hserving t.name pReq)

theorem encodes_partition (p : FetchResponsePartition)
    (h : (elements p.recordSet).length ≤ maxInt32) :
    Encodes p.encode (26 + (elements p.recordSet).length) := by
  have hencodes : Encodes p.encode
      (4 + (2 + (8 + (8 + (4 + (elements p.recordSet).length + 0))))) := by
    exact encodes_cons (encodes_int32 _) (encodes_cons (encodes_int16 _) (encodes_cons
      (encodes_int64 _) (encodes_cons (encodes_int64 _) (encodes_cons (encodes_bytes h)
        encodes_nil))))
  obtain ⟨word, hword, hlength⟩ := hencodes
  exact ⟨word, hword, by omega⟩

theorem sum_flatMap {α : Type} (as : List α) (f : α → List Nat) :
    (as.flatMap f).sum = (as.map fun a => (f a).sum).sum := by
  induction as with
  | nil => rfl
  | cons a as ih => rw [List.flatMap_cons, List.sum_append, ih, List.map_cons, List.sum_cons]

theorem sum_shares (crc : Checksum) (topics : Topics) (req : FetchRequest) :
    (shares crc topics req).sum = ((elements req.topics).map fun t =>
      ((elements t.partitions).map fun pReq => (share crc topics t.name pReq).sum).sum).sum := by
  rw [shares, sum_flatMap]
  simp only [sum_flatMap]

theorem encodes_partitions (hserving : Serving crc cfg topics) (name : Bytes)
    {partitions : Slice FetchRequestPartition} (hcount : (elements partitions).length ≤ maxInt32)
    (htotal : ((elements partitions).map fun pReq => (share crc topics name pReq).sum).sum ≤
      maxInt32) :
    Encodes (putArray FetchResponsePartition.encode
        (some ((elements partitions).map (fetchPartition crc topics name))))
      (4 + ((elements partitions).map fun pReq => 26 + (share crc topics name pReq).sum).sum) := by
  refine encodes_array hcount fun pReq hpReq => ?_
  rw [← length_recordSet hserving]
  apply encodes_partition
  rw [length_recordSet hserving]
  exact le_trans (List.le_sum_of_mem
    (List.mem_map_of_mem (f := fun pReq => (share crc topics name pReq).sum) hpReq)) htotal

theorem encodes_response (hserving : Serving crc cfg topics)
    (hcount : (elements req.topics).length ≤ maxInt32)
    (htopics : ∀ t ∈ elements req.topics,
      t.name.length ≤ maxInt16 ∧ (elements t.partitions).length ≤ maxInt32)
    (htotal : (shares crc topics req).sum ≤ maxInt32) :
    ∃ body, (handleFetch crc topics req).encode = .ok body ∧
      body.length + 10 = overhead req + (shares crc topics req).sum := by
  rw [sum_shares] at htotal ⊢
  have hencodes : Encodes (handleFetch crc topics req).encode
      (4 + ((elements req.topics).map fun t => 2 + t.name.length + (4 +
        ((elements t.partitions).map fun pReq => 26 + (share crc topics t.name pReq).sum).sum +
          0)).sum + 0) := by
    refine encodes_cons (encodes_array hcount fun t ht => ?_) encodes_nil
    obtain ⟨hname, hpartitions⟩ := htopics t ht
    refine encodes_cons (encodes_string hname) (encodes_cons ?_ encodes_nil)
    refine encodes_partitions hserving t.name hpartitions (le_trans ?_ htotal)
    exact List.le_sum_of_mem (List.mem_map_of_mem (f := fun t => ((elements t.partitions).map
      fun pReq => (share crc topics t.name pReq).sum).sum) ht)
  obtain ⟨body, hbody, hlength⟩ := hencodes
  refine ⟨body, hbody, ?_⟩
  have hterms (t : TopicEntry FetchRequestPartition) : 2 + t.name.length + (4 +
      ((elements t.partitions).map fun pReq => 26 + (share crc topics t.name pReq).sum).sum + 0) =
        (6 + t.name.length + 26 * (elements t.partitions).length) +
          ((elements t.partitions).map fun pReq => (share crc topics t.name pReq).sum).sum := by
    have hheaders : ((elements t.partitions).map fun _ => 26).sum =
        26 * (elements t.partitions).length := by
      simp [Nat.mul_comm]
    rw [List.sum_map_add, hheaders]
    omega
  rw [List.map_congr_left fun t _ => hterms t, List.sum_map_add] at hlength
  rw [overhead]
  omega

theorem fits_of_encode {word : Bytes} (h : req.encode = .ok word) :
    (elements req.topics).length ≤ maxInt32 ∧ ∀ t ∈ elements req.topics,
      t.name.length ≤ maxInt16 ∧ (elements t.partitions).length ≤ maxInt32 := by
  obtain ⟨topicsWord, htopics⟩ := exists_ok_of_mem h
    (show putTopics FetchRequestPartition.encode req.topics ∈ _ by simp)
  obtain ⟨hcount, heach⟩ := fits_of_putArray htopics
  refine ⟨hcount, fun t ht => ?_⟩
  obtain ⟨topicWord, htopic⟩ := heach t ht
  obtain ⟨_, _, hname, hrest, -⟩ := inOrder_cons_eq_ok htopic
  obtain ⟨_, _, hpartitions, -, -⟩ := inOrder_cons_eq_ok hrest
  exact ⟨(putString_eq_ok hname).1, (fits_of_putArray hpartitions).1⟩

theorem accepted_of_length {resp : FetchResponse} {body : Bytes} (hbody : resp.encode = .ok body)
    (hlength : body.length + 10 ≤ maxFrameSize) : Accepted resp := by
  intro correlationID
  have hpayload : body.length ≤ maxInt32 := by
    rw [maxFrameSize] at hlength
    rw [maxInt32]
    omega
  obtain ⟨word, hword, hreads⟩ := FrameKind.readsAs_written (k := .response)
    (ResponseFrame.encodes_body (f := ⟨0, correlationID, 0, some body⟩) hpayload) (by
      change 10 + body.length ≤ maxFrameSize
      omega)
  refine ⟨word, _, ?_, hreads.reads⟩
  rw [responseFrame, hbody]
  exact hword

theorem totalSize_responseRecords (hserving : Serving crc cfg topics) (req : FetchRequest) :
    totalSize (responseRecords crc (handleFetch crc topics req)) = (shares crc topics req).sum ∧
      (responseRecords crc (handleFetch crc topics req)).length =
        (shares crc topics req).length := by
  rw [← sizes_responseRecords hserving]
  exact ⟨rfl, (List.length_map _).symm⟩

theorem sum_shares_le (hserving : Serving crc cfg topics) (h : SharesFit crc topics req) :
    (shares crc topics req).sum ≤ max req.maxBytes.toNatClampNeg maxRecordSize := by
  rcases h with htotal | hone
  · rw [Int32.toNatClampNeg]
    omega
  · obtain ⟨n, hn⟩ := List.length_eq_one_iff.mp hone
    have hmem : n ∈ shares crc topics req := by simp [hn]
    obtain ⟨t, -, hshare⟩ := List.mem_flatMap.mp hmem
    obtain ⟨pReq, -, hn'⟩ := List.mem_flatMap.mp hshare
    have hle := le_maxRecordSize_of_mem_share hserving hn'
    rw [hn, List.sum_singleton]
    omega

end

/-- A response respects the total of its request exactly if the partitions' own
budgets happen to. -/
theorem respects_total_iff {crc : Checksum} {cfg : Config} {topics : Topics}
    (hserving : Serving crc cfg topics) (req : FetchRequest) :
    RespectsTotal crc topics req ↔ SharesFit crc topics req := by
  obtain ⟨htotal, hlength⟩ := totalSize_responseRecords hserving req
  constructor
  · intro h
    have hrecords := h.total
    rwa [htotal, hlength] at hrecords
  · intro h
    refine ⟨by rwa [htotal, hlength], ?_⟩
    rintro ⟨⟨word, hword⟩, hbelow⟩
    have hsum := sum_shares_le hserving h
    obtain ⟨hcount, htopics⟩ := fits_of_encode hword
    have hfits : (shares crc topics req).sum ≤ maxInt32 := by
      rw [maxFrameSize] at hbelow
      rw [maxInt32]
      omega
    obtain ⟨body, hbody, hbodyLength⟩ := encodes_response hserving hcount htopics hfits
    exact accepted_of_length hbody (by omega)

def twoPartitions : Topics := fun name =>
  if name = [116] then some fun partitionID =>
    if partitionID = 0 ∨ partitionID = 1 then
      some (BrokerHandlers.newPartition ⟨1, [1], 1, 10000, 0, 0⟩ threeRecordLog 0)
    else none
  else none

def fetchBoth (maxBytes : Int32) : FetchRequest :=
  ⟨0, 0, maxBytes, some [⟨[116], some [⟨0, 0, 33⟩, ⟨1, 0, 33⟩]⟩]⟩

theorem serving_twoPartitions : Serving castagnoli smallConfig twoPartitions := by
  intro name partitionID p hp
  rw [getPartition, twoPartitions] at hp
  split at hp
  · rw [Option.bind_some] at hp
    dsimp only at hp
    split at hp
    · obtain rfl := Option.some.inj hp
      exact reached_threeRecords
    · cases hp
  · cases hp

theorem respects_total_iff_fetchBoth : RespectsTotal castagnoli twoPartitions (fetchBoth 66) :=
  (respects_total_iff serving_twoPartitions (fetchBoth 66)).mpr (.inl (by decide +kernel))

/-- Of a request for 33 bytes in all, both partitions return a record of 33. -/
theorem total_exceeded :
    sizes (responseRecords castagnoli (handleFetch castagnoli twoPartitions (fetchBoth 33))) =
        [33, 33] ∧
      ¬ RespectsTotal castagnoli twoPartitions (fetchBoth 33) := by
  have hsizes : sizes (responseRecords castagnoli
      (handleFetch castagnoli twoPartitions (fetchBoth 33))) = [33, 33] := by decide +kernel
  refine ⟨hsizes, fun h => ?_⟩
  have hlength := congrArg List.length hsizes
  rw [sizes, List.length_map] at hlength
  rcases h.total with htotal | hone
  · rw [totalSize, hsizes] at htotal
    exact absurd htotal (by decide)
  · rw [hone] at hlength
    cases hlength

end MiniKafka.FetchTotals
