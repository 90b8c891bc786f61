import MiniKafka.ConsumerClient
import MiniKafka.FetchTotals
import MiniKafka.LastWrite
import MiniKafka.LogHistories

/-!
The records that `Poll` decodes from a response of `handleFetch`, partition by partition.

The handler reads the partitions one after another, so that the log it finds at each one
may be any that the partition has been so far.
-/

namespace MiniKafka.PolledRecords

open BigEndian ConsumerClient FetchTotals LastWrite LogContents LogHistories LogReadFrom
  PartitionLog RecordCodec RecordSets RequestBodies SegmentContents WireCodec
open SegmentStore (Config)

theorem elements_some {α : Type} (xs : List α) : elements (some xs) = xs := rfl

section Positions

def positionOf (positions : List Position) (tp : TopicPartition) : Option Int64 :=
  (positions.find? fun w => decide (w.1 = tp)).map Prod.snd

theorem fetchOffset_eq (gc : GroupConsumer) (tp : TopicPartition) :
    gc.fetchOffset tp =
      ((positionOf gc.partitionOffsets tp).filter fun o => decide (0 ≤ o)).getD 0 := by
  rw [GroupConsumer.fetchOffset, positionOf]
  cases gc.partitionOffsets.find? fun w => decide (w.1 = tp) with
  | none => rfl
  | some w =>
    rw [Option.map_some]
    by_cases hneg : w.2 < 0
    · have hnot : ¬ 0 ≤ w.2 := Int64.not_le.mpr hneg
      simp [hneg, hnot, Option.filter]
    · have hle : 0 ≤ w.2 := Int64.not_lt.mp hneg
      simp [hneg, hle, Option.filter]

theorem find?_setOffset (w : Position) (tp : TopicPartition) (positions : List Position) :
    (setOffset w positions).find? (fun v => decide (v.1 = tp)) =
      if w.1 = tp then some w else positions.find? fun v => decide (v.1 = tp) := by
  induction positions with
  | nil =>
    rw [setOffset, List.find?_cons]
    split <;> simp_all
  | cons v rest ih =>
    rw [setOffset]
    split
    · rename_i hsame
      rw [List.find?_cons, List.find?_cons, hsame]
      split <;> simp_all
    · rename_i hother
      rw [List.find?_cons, List.find?_cons, ih]
      split
      · rename_i hv
        rw [if_neg]
        rintro rfl
        exact hother (of_decide_eq_true hv)
      · rfl

theorem positionOf_setOffset (w : Position) (positions : List Position) (tp : TopicPartition) :
    positionOf (setOffset w positions) tp =
      if w.1 = tp then some w.2 else positionOf positions tp := by
  rw [positionOf, find?_setOffset]
  split
  · rfl
  · rfl

theorem positionOf_setOffsets (writes positions : List Position) (tp : TopicPartition) :
    positionOf (setOffsets writes positions) tp =
      (latest writes tp).or (positionOf positions tp) := by
  induction writes using List.reverseRecOn with
  | nil => rfl
  | append_singleton writes w ih =>
    rw [setOffsets, List.foldl_append, List.foldl_cons, List.foldl_nil, ← setOffsets,
      positionOf_setOffset, ih, show w = (w.1, w.2) from rfl, latest_concat]
    by_cases hw : w.1 = tp
    · rw [if_pos hw, hw, Function.update_self]
      rfl
    · rw [if_neg hw, Function.update_of_ne (Ne.symm hw)]

theorem fetchOffset_store (gc : GroupConsumer) (w : Position) (tp : TopicPartition) :
    (gc.store [w]).fetchOffset tp =
      if w.1 = tp then (if w.2 < 0 then 0 else w.2) else gc.fetchOffset tp := by
  rw [GroupConsumer.fetchOffset, GroupConsumer.store, setOffsets, List.foldl_cons, List.foldl_nil,
    find?_setOffset]
  by_cases hw : w.1 = tp
  · rw [if_pos hw, if_pos hw]
  · rw [if_neg hw, if_neg hw]
    rfl

theorem keys_setOffset (w : Position) (positions : List Position) :
    (setOffset w positions).map Prod.fst =
      if w.1 ∈ positions.map Prod.fst then positions.map Prod.fst
      else positions.map Prod.fst ++ [w.1] := by
  induction positions with
  | nil => rfl
  | cons v rest ih =>
    rw [setOffset]
    by_cases hv : v.1 = w.1
    · rw [if_pos hv, if_pos (by simp [hv]), List.map_cons, List.map_cons, hv]
    · rw [if_neg hv, List.map_cons, ih, List.map_cons]
      by_cases hrest : w.1 ∈ rest.map Prod.fst
      · rw [if_pos hrest, if_pos (List.mem_cons_of_mem _ hrest)]
      · rw [if_neg hrest, if_neg]
        · rfl
        · rw [List.mem_cons, not_or]
          exact ⟨Ne.symm hv, hrest⟩

theorem nodup_setOffsets {writes positions : List Position}
    (hnodup : (positions.map Prod.fst).Nodup) :
    ((setOffsets writes positions).map Prod.fst).Nodup := by
  induction writes using List.reverseRecOn with
  | nil => exact hnodup
  | append_singleton writes w ih =>
    rw [setOffsets, List.foldl_append, List.foldl_cons, List.foldl_nil, ← setOffsets,
      keys_setOffset]
    split
    · exact ih
    · rename_i hnew
      rw [← List.concat_eq_append]
      exact ih.concat hnew

theorem positionOf_eq_some_iff {positions : List Position} (hnodup : (positions.map Prod.fst).Nodup)
    {tp : TopicPartition} {o : Int64} :
    positionOf positions tp = some o ↔ (tp, o) ∈ positions := by
  rw [positionOf, Option.map_eq_some_iff]
  constructor
  · rintro ⟨w, hfound, rfl⟩
    have hkey := List.find?_some hfound
    rw [← of_decide_eq_true hkey]
    exact List.mem_of_find?_eq_some hfound
  · intro hmem
    refine ⟨(tp, o), ?_, rfl⟩
    have hsome : (positions.find? fun w => decide (w.1 = tp)).isSome = true :=
      List.find?_isSome.mpr ⟨(tp, o), hmem, decide_eq_true rfl⟩
    obtain ⟨w, hw⟩ := Option.isSome_iff_exists.mp hsome
    have hkey := List.find?_some hw
    rw [hw]
    congr 1
    exact List.inj_on_of_nodup_map hnodup (List.mem_of_find?_eq_some hw) hmem
      (of_decide_eq_true hkey)

end Positions

section Fetches

variable {crc : Checksum} {l : Log} {seen : Topics} {name : Bytes} {tp : TopicPartition}

def answered (crc : Checksum) (seen : Topics) (name : Bytes) (pReq : FetchRequestPartition) :
    List Record :=
  let p := fetchPartition crc seen name pReq
  if p.errorCode = 0 then (decodeRecords crc (elements p.recordSet)).1 else []

theorem fetchedRecords_handleFetch (crc : Checksum) (seen : Topics) (request : FetchRequest) :
    fetchedRecords crc (handleFetch crc seen request) =
      (listed (elements request.topics)).flatMap fun e =>
        (answered crc seen e.1 e.2).map fun rec => (⟨e.1, e.2.partitionID⟩, rec) := by
  have hpartition (name : Bytes) (pReq : FetchRequestPartition) :
      (fetchPartition crc seen name pReq).partitionID = pReq.partitionID := by
    rw [fetchPartition]
    split <;> rfl
  have hpartitions (name : Bytes) (ps : List FetchRequestPartition) :
      (((ps.map (fetchPartition crc seen name)).filter fun p => decide (p.errorCode = 0)).flatMap
        fun p => (decodeRecords crc (elements p.recordSet)).1.map fun rec =>
          ((⟨name, p.partitionID⟩ : TopicPartition), rec)) =
      (ps.map fun p => (name, p)).flatMap fun e =>
        (answered crc seen e.1 e.2).map fun rec => (⟨e.1, e.2.partitionID⟩, rec) := by
    induction ps with
    | nil => rfl
    | cons pReq ps ih =>
      rw [List.map_cons, List.map_cons, List.flatMap_cons, ← ih, List.filter_cons, answered]
      dsimp only
      split
      · rename_i hok
        rw [List.flatMap_cons, if_pos (of_decide_eq_true hok), hpartition]
      · rename_i hbad
        rw [if_neg (by simpa using hbad)]
        rfl
  rw [fetchedRecords, handleFetch, listed, List.flatMap_assoc, elements_some, List.flatMap_map]
  congr 1
  funext t
  exact hpartitions t.name (elements t.partitions)

theorem listed_addPartition_perm {P : Type} (name : Bytes) (p : P) (topics : List (TopicEntry P)) :
    (listed (addPartition name p topics)).Perm (listed topics ++ [(name, p)]) := by
  induction topics with
  | nil => exact List.Perm.refl _
  | cons t rest ih =>
    rw [addPartition]
    split
    · rename_i hname
      subst hname
      simp only [listed, List.flatMap_cons, elements, Option.getD_some, List.map_append,
        List.append_assoc]
      exact List.Perm.append_left _ List.perm_append_comm
    · simp only [listed, List.flatMap_cons, List.append_assoc] at ih ⊢
      exact List.Perm.append_left _ ih

theorem listed_groupByTopic_perm {P : Type} (entries : List (Bytes × P)) :
    (listed (groupByTopic entries)).Perm entries := by
  induction entries using List.reverseRecOn with
  | nil => exact List.Perm.refl _
  | append_singleton entries last ih =>
    rw [groupByTopic, List.foldl_append, List.foldl_cons, List.foldl_nil, ← groupByTopic]
    exact (listed_addPartition_perm last.1 last.2 _).trans (ih.append_right _)

theorem ofPartition_fetched {entries : List (Bytes × FetchRequestPartition)}
    {pReq : FetchRequestPartition}
    (hnodup : (entries.map fun e => (⟨e.1, e.2.partitionID⟩ : TopicPartition)).Nodup)
    (hmem : (name, pReq) ∈ entries) :
    ofPartition ⟨name, pReq.partitionID⟩ ((listed (groupByTopic entries)).flatMap fun e =>
      (answered crc seen e.1 e.2).map fun rec => (⟨e.1, e.2.partitionID⟩, rec)) =
      answered crc seen name pReq := by
  have hperm := listed_groupByTopic_perm entries
  have hnodup' :=
    (hperm.map fun e => (⟨e.1, e.2.partitionID⟩ : TopicPartition)).nodup_iff.mpr hnodup
  have hmem' := hperm.mem_iff.mpr hmem
  generalize listed (groupByTopic entries) = es at hnodup' hmem'
  have hnone (tp : TopicPartition) (es : List (Bytes × FetchRequestPartition))
      (habsent : tp ∉ es.map fun e => (⟨e.1, e.2.partitionID⟩ : TopicPartition)) :
      ofPartition tp (es.flatMap fun e =>
        (answered crc seen e.1 e.2).map fun rec => (⟨e.1, e.2.partitionID⟩, rec)) = [] := by
    induction es with
    | nil => rfl
    | cons e es ih =>
      rw [List.map_cons, List.mem_cons, not_or] at habsent
      rw [List.flatMap_cons, ofPartition_append, ofPartition_tagged, if_neg (Ne.symm habsent.1),
        ih habsent.2, List.nil_append]
  induction es with
  | nil => cases hmem'
  | cons e es ih =>
    rw [List.map_cons, List.nodup_cons] at hnodup'
    rw [List.flatMap_cons, ofPartition_append, ofPartition_tagged]
    rcases List.mem_cons.mp hmem' with rfl | hrest
    · rw [if_pos rfl, hnone _ es hnodup'.1, List.append_nil]
    · have hne : (⟨e.1, e.2.partitionID⟩ : TopicPartition) ≠ ⟨name, pReq.partitionID⟩ := by
        intro heq
        apply hnodup'.1
        rw [heq]
        exact List.mem_map_of_mem (f := fun e => (⟨e.1, e.2.partitionID⟩ : TopicPartition)) hrest
      rw [if_neg hne, ih hnodup'.2 hrest, List.nil_append]

theorem answered_eq {p : BrokerHandlers.Partition} {pReq : FetchRequestPartition}
    (hfound : getPartition seen name pReq.partitionID = some p) (hwf : WellFormed crc p.log)
    (hcontiguous : Contiguous crc p.log pReq.fetchOffset pReq.maxBytes) :
    answered crc seen name pReq =
      if p.highWatermark ≤ pReq.fetchOffset then []
      else (p.log.readFrom crc pReq.fetchOffset pReq.maxBytes).1.takeWhile fun r =>
        decide (r.offset < p.highWatermark) := by
  obtain ⟨records, hread, hinitial, -⟩ := hcontiguous
  have hfits : ∀ r ∈ records.takeWhile fun r => decide (r.offset < p.highWatermark),
      r.encodedSize ≤ maxRecordSize := by
    intro r hr
    exact stored_fits hwf r (List.mem_of_mem_drop (hinitial.subset
      ((List.takeWhile_prefix _).subset hr)))
  have hencoded := encodeRecords_isOk fun r hr =>
    ⟨r.wireImage crc, (encode_eq_ok_iff crc r _).mpr ⟨hfits r hr, rfl⟩⟩
  have helements (bs : Bytes) : elements (if bs = [] then none else some bs) = bs := by
    split
    · rename_i hnil
      rw [hnil]
      rfl
    · rfl
  have hanswer : BrokerHandlers.fetchAnswer crc ⟨pReq.fetchOffset, pReq.maxBytes⟩ p.log
      p.highWatermark p.log.lowestOffset =
      ⟨.none, p.highWatermark, p.log.lowestOffset, if p.highWatermark ≤ pReq.fetchOffset then []
        else image crc (records.takeWhile fun r => decide (r.offset < p.highWatermark))⟩ := by
    rw [BrokerHandlers.fetchAnswer]
    dsimp only
    split
    · rfl
    · rw [hread]
      dsimp only
      rw [if_neg (by simp), hencoded]
  have hpartition : (fetchPartition crc seen name pReq).errorCode = 0 ∧
      elements (fetchPartition crc seen name pReq).recordSet =
        if p.highWatermark ≤ pReq.fetchOffset then []
        else image crc (records.takeWhile fun r => decide (r.offset < p.highWatermark)) := by
    rw [fetchPartition, hfound]
    dsimp only
    rw [hanswer]
    exact ⟨rfl, helements _⟩
  rw [answered, if_pos hpartition.1, hpartition.2, hread]
  split
  · rfl
  · rw [decodeRecords_encoded hencoded]

theorem answered_of_unread {p : BrokerHandlers.Partition} {pReq : FetchRequestPartition}
    {error : Option LogError} (hfound : getPartition seen name pReq.partitionID = some p)
    (hread : p.log.readFrom crc pReq.fetchOffset pReq.maxBytes = ([], error)) :
    answered crc seen name pReq = [] := by
  have hanswer : (BrokerHandlers.fetchAnswer crc ⟨pReq.fetchOffset, pReq.maxBytes⟩ p.log
      p.highWatermark p.log.lowestOffset).recordSet = [] := by
    rw [BrokerHandlers.fetchAnswer]
    dsimp only
    rw [hread]
    dsimp only [List.takeWhile_nil, encodeRecords]
    split
    · rfl
    · split <;> rfl
  have hset : elements (fetchPartition crc seen name pReq).recordSet = [] := by
    rw [fetchPartition, hfound]
    dsimp only
    rw [if_pos hanswer]
    rfl
  rw [answered, hset]
  split <;> rfl

theorem answered_unknown {pReq : FetchRequestPartition}
    (hnone : getPartition seen name pReq.partitionID = none) :
    answered crc seen name pReq = [] := by
  have hcode : ¬ (fetchPartition crc seen name pReq).errorCode = 0 := by
    rw [fetchPartition, hnone]
    dsimp only
    decide
  rw [answered, if_neg hcode]

/-- Whatever the handler found at a partition, its answer goes on where the request asks
for it. -/
theorem answered_continues {cfg : Config} {versions : List Log} {history : List Record}
    {pReq : FetchRequestPartition} (h : Chronicle crc cfg versions history)
    (hseen : ∀ p, getPartition seen name pReq.partitionID = some p → p.log ∈ versions)
    (hgap : ∀ p, getPartition seen name pReq.partitionID = some p →
      skipsRecord pReq.maxBytes 0 (sizesFrom crc p.log pReq.fetchOffset) = false) :
    answered crc seen name pReq <+: history.drop pReq.fetchOffset.toInt.toNat := by
  cases hfound : getPartition seen name pReq.partitionID with
  | none =>
    rw [answered_unknown hfound]
    exact List.nil_prefix
  | some p =>
    have hmem := hseen p hfound
    obtain ⟨hwf, hknown, -⟩ := h.sound p.log hmem
    by_cases hmax : pReq.maxBytes ≤ 0
    · have hread : p.log.readFrom crc pReq.fetchOffset pReq.maxBytes = ([], none) := by
        rw [Log.readFrom, if_neg (by simp [hwf.isOpen]), if_pos hmax]
      rw [answered_of_unread hfound hread]
      exact List.nil_prefix
    rw [Int32.not_le] at hmax
    by_cases hlow : pReq.fetchOffset < p.log.lowestOffset
    · have hread : p.log.readFrom crc pReq.fetchOffset pReq.maxBytes =
          ([], some .offsetOutOfRange) := by
        rw [Log.readFrom, if_neg (by simp [hwf.isOpen]), if_neg (Int32.not_le.mpr hmax),
          if_pos hlow]
      rw [answered_of_unread hfound hread]
      exact List.nil_prefix
    rw [Int64.not_lt] at hlow
    have hcontiguous := (contiguous_iff hwf hknown hlow hmax).mpr (hgap p hfound)
    rw [answered_eq hfound hwf hcontiguous]
    obtain ⟨records, hread, hinitial, -⟩ := hcontiguous
    split
    · exact List.nil_prefix
    · have hpos := hwf.lowest
      rw [Int64.le_iff_toInt_le] at hlow
      rw [hread]
      calc records.takeWhile _ <+: records := List.takeWhile_prefix _
        _ <+: (storedRecords crc p.log).drop
            (pReq.fetchOffset.toInt - p.log.lowestOffset.toInt).toNat := hinitial
        _ <+: (history.drop p.log.lowestOffset.toInt.toNat).drop
            (pReq.fetchOffset.toInt - p.log.lowestOffset.toInt).toNat :=
          (h.pieces p.log hmem).drop _
        _ = history.drop pReq.fetchOffset.toInt.toNat := by
          rw [List.drop_drop]
          congr 1
          omega

theorem answered_nonempty {seen : Topics} {name : Bytes} {pReq : FetchRequestPartition}
    {p : BrokerHandlers.Partition} (hfound : getPartition seen name pReq.partitionID = some p)
    (hwf : WellFormed crc p.log)
    (hcontiguous : Contiguous crc p.log pReq.fetchOffset pReq.maxBytes)
    (hvisible : pReq.fetchOffset.toInt < p.highWatermark.toInt)
    (hstored : pReq.fetchOffset.toInt < p.log.highestOffset.toInt) :
    answered crc seen name pReq ≠ [] := by
  have hbelow : ¬ p.highWatermark ≤ pReq.fetchOffset := by
    rw [Int64.le_iff_toInt_le]
    omega
  rw [answered_eq hfound hwf hcontiguous, if_neg hbelow]
  obtain ⟨records, hread, -, hoffsets, hne⟩ := hcontiguous
  obtain ⟨r, rest, rfl⟩ := List.exists_cons_of_ne_nil (hne (Int64.lt_iff_toInt_lt.mpr hstored))
  have hfirst := hoffsets 0 (by simp)
  have hshown : r.offset < p.highWatermark := by
    rw [Int64.lt_iff_toInt_lt]
    simp only [List.getElem_cons_zero] at hfirst
    omega
  rw [hread, List.takeWhile_cons, if_pos (decide_eq_true hshown)]
  exact List.cons_ne_nil _ _

end Fetches

end MiniKafka.PolledRecords
