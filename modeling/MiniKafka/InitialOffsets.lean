import MiniKafka.DeliveredCommits
import MiniKafka.FetchTotals
import MiniKafka.OffsetRecovery
import MiniKafka.PolledRecords

/-!
Where a member of a group starts to read (`fetchInitialOffsets` and `resolveUnsetOffsets` in
`pkg/client/group_consumer.go`), with the handlers of its two requests
(`handleOffsetFetch` and `handleListOffsets` in `internal/broker/broker.go`).
-/

namespace MiniKafka.InitialOffsets

open BigEndian CommittedOffsets ConsumerClient FetchTotals LastWrite OffsetRecovery PolledRecords
  RecordCodec RequestBodies ResponseBodies Runs WireCodec
open BrokerHandlers (errUnknownTopicOrPartition)
open DeliveredCommits (deliveryConfig member)

def handleOffsetFetch (store : OffsetStore) (req : OffsetFetchRequest) : OffsetFetchResponse :=
  ⟨some ((elements req.topics).map fun t =>
    ⟨t.name, some ((elements t.partitions).map fun pID =>
      ⟨pID, store.fetch req.groupID t.name pID, 0⟩)⟩)⟩

def listOffset (topics : Topics) (name : Bytes) (p : ListOffsetsRequestPartition) :
    ListOffsetsResponsePartition :=
  match getPartition topics name p.partitionID with
  | none => ⟨p.partitionID, errUnknownTopicOrPartition, -1⟩
  | some part =>
    if p.timestamp = -1 then ⟨p.partitionID, 0, part.log.highestOffset⟩
    else if p.timestamp = -2 then ⟨p.partitionID, 0, part.log.lowestOffset⟩
    else ⟨p.partitionID, 0, part.log.highestOffset⟩

def handleListOffsets (topics : Topics) (req : ListOffsetsRequest) : ListOffsetsResponse :=
  ⟨some ((elements req.topics).map fun t =>
    ⟨t.name, some ((elements t.partitions).map (listOffset topics t.name))⟩)⟩

/-- `none` is the error of a consumer that has no rule for an unset offset. -/
def resolveUnsetOffsets (cfg : GroupConsumerConfig) (topics : Topics) (gc : GroupConsumer) :
    Option GroupConsumer :=
  if gc.needResolve = [] then some gc
  else
    (gc.listOffsetsRequest cfg).map fun request =>
      gc.store (resolvedOffsets (handleListOffsets topics request))

def fetchInitialOffsets (cfg : GroupConsumerConfig) (store : OffsetStore) (topics : Topics)
    (gc : GroupConsumer) : Option GroupConsumer :=
  match gc.offsetFetchRequest cfg with
  | none => some gc
  | some request =>
    resolveUnsetOffsets cfg topics (gc.store (initialOffsets (handleOffsetFetch store request)))

def resetOffset (cfg : GroupConsumerConfig) (topics : Topics) (tp : TopicPartition) : Int64 :=
  match getPartition topics tp.topic tp.partition with
  | none => 0
  | some part =>
    if cfg.autoOffsetReset = .latest then part.log.highestOffset else part.log.lowestOffset

section Answers

variable {cfg : GroupConsumerConfig} {store : OffsetStore} {topics : Topics}
  {gc gc' : GroupConsumer} {tp : TopicPartition}

def keyOf (name : Bytes) (partitionID : Int32) : TopicPartition := ⟨name, partitionID⟩

def marked (o : Int64) : Int64 := if 0 ≤ o then o else -1

theorem initialOffsets_handleOffsetFetch (store : OffsetStore) (req : OffsetFetchRequest) :
    initialOffsets (handleOffsetFetch store req) =
      ((listed (elements req.topics)).map fun e => keyOf e.1 e.2).map fun tp =>
        (tp, marked (store.fetch req.groupID tp.topic tp.partition)) := by
  rw [initialOffsets, handleOffsetFetch, elements_some, List.flatMap_map, listed, List.map_map,
    List.map_flatMap]
  congr 1
  funext t
  rw [elements_some, List.map_map, List.map_map]
  rfl

theorem position_fetched (hassigned : tp ∈ gc.assignedPartitions) {request : OffsetFetchRequest}
    (hrequest : gc.offsetFetchRequest cfg = some request) :
    positionOf (gc.store (initialOffsets (handleOffsetFetch store request))).partitionOffsets tp =
      some (marked (store.fetch cfg.groupID tp.topic tp.partition)) := by
  rw [GroupConsumer.offsetFetchRequest] at hrequest
  split at hrequest
  · cases hrequest
  · obtain rfl := Option.some.inj hrequest
    have hmem : tp ∈ (listed (elements (some (groupByTopic
        (gc.assignedPartitions.map fun tp => (tp.topic, tp.partition)))))).map
        fun e => keyOf e.1 e.2 := by
      apply List.mem_map.mpr
      exact ⟨(tp.topic, tp.partition), mem_listed_groupByTopic.mpr (List.mem_map_of_mem hassigned),
        rfl⟩
    rw [GroupConsumer.store, positionOf_setOffsets, initialOffsets_handleOffsetFetch, latest_map,
      if_pos hmem, Option.some_or]

theorem resolvedOffsets_handleListOffsets {entries : List (Bytes × ListOffsetsRequestPartition)}
    {timestamp : Int64} (hsame : ∀ e ∈ entries, e.2.timestamp = timestamp)
    {req : ListOffsetsRequest} (hreq : listed (elements req.topics) = entries) :
    resolvedOffsets (handleListOffsets topics req) =
      ((entries.filter fun e => (getPartition topics e.1 e.2.partitionID).isSome).map
        fun e => keyOf e.1 e.2.partitionID).map fun tp =>
          (tp, (listOffset topics tp.topic ⟨tp.partition, timestamp⟩).offset) := by
  have hcode (name : Bytes) (p : ListOffsetsRequestPartition) :
      decide ((listOffset topics name p).errorCode = 0) =
        (getPartition topics name p.partitionID).isSome := by
    rw [listOffset]
    cases getPartition topics name p.partitionID with
    | none => rfl
    | some part =>
      dsimp only
      split
      · rfl
      · split <;> rfl
  have hpartition (name : Bytes) (p : ListOffsetsRequestPartition) :
      (listOffset topics name p).partitionID = p.partitionID := by
    rw [listOffset]
    split
    · rfl
    · split
      · rfl
      · split <;> rfl
  have hall : resolvedOffsets (handleListOffsets topics req) =
      (entries.filter fun e => (getPartition topics e.1 e.2.partitionID).isSome).map
        fun e => (keyOf e.1 e.2.partitionID, (listOffset topics e.1 e.2).offset) := by
    rw [← hreq, resolvedOffsets, handleListOffsets, elements_some, List.flatMap_map, listed,
      List.filter_flatMap, List.map_flatMap]
    congr 1
    funext t
    rw [elements_some, List.filter_map, List.filter_map, List.map_map, List.map_map]
    simp only [Function.comp_def, hcode, hpartition, keyOf]
  rw [hall, List.map_map]
  apply List.map_congr_left
  intro e he
  have htime := hsame e (List.mem_of_mem_filter he)
  rw [← htime]
  rfl

def unresolved (gc : GroupConsumer) (timestamp : Int64) :
    List (Bytes × ListOffsetsRequestPartition) :=
  gc.needResolve.map fun tp => (tp.topic, ⟨tp.partition, timestamp⟩)

theorem mem_needResolve_iff (hkeys : (gc.partitionOffsets.map Prod.fst).Nodup) :
    tp ∈ gc.needResolve ↔ ∃ o, positionOf gc.partitionOffsets tp = some o ∧ o < 0 := by
  rw [GroupConsumer.needResolve, List.mem_map]
  constructor
  · rintro ⟨w, hw, rfl⟩
    obtain ⟨hmem, hneg⟩ := List.mem_filter.mp hw
    exact ⟨w.2, (positionOf_eq_some_iff hkeys).mpr hmem, of_decide_eq_true hneg⟩
  · rintro ⟨o, hposition, hneg⟩
    have hmem := (positionOf_eq_some_iff hkeys).mp hposition
    exact ⟨(tp, o), List.mem_filter.mpr ⟨hmem, decide_eq_true hneg⟩, rfl⟩

theorem position_resolved (hkeys : (gc.partitionOffsets.map Prod.fst).Nodup) {o : Int64}
    (hposition : positionOf gc.partitionOffsets tp = some o)
    (h : resolveUnsetOffsets cfg topics gc = some gc') :
    positionOf gc'.partitionOffsets tp =
      if 0 ≤ o ∨ getPartition topics tp.topic tp.partition = none then some o
      else some (resetOffset cfg topics tp) := by
  rw [resolveUnsetOffsets] at h
  split at h
  · rename_i hnone
    obtain rfl := Option.some.inj h
    have hset : 0 ≤ o := by
      by_contra hneg
      have hmem := (mem_needResolve_iff hkeys).mpr ⟨o, hposition, Int64.not_le.mp hneg⟩
      rw [hnone] at hmem
      cases hmem
    rw [hposition, if_pos (.inl hset)]
  · rename_i hsome
    obtain ⟨request, hrequest, rfl⟩ := Option.map_eq_some_iff.mp h
    rw [GroupConsumer.listOffsetsRequest, if_neg hsome] at hrequest
    obtain ⟨timestamp, htimestamp, rfl⟩ := Option.map_eq_some_iff.mp hrequest
    have hperm := listed_groupByTopic_perm (unresolved gc timestamp)
    have hsame : ∀ e ∈ listed (groupByTopic (unresolved gc timestamp)),
        e.2.timestamp = timestamp := by
      intro e he
      obtain ⟨tp', -, rfl⟩ := List.mem_map.mp (hperm.mem_iff.mp he)
      rfl
    rw [GroupConsumer.store, positionOf_setOffsets,
      resolvedOffsets_handleListOffsets hsame rfl, latest_map, hposition]
    have hiff : (tp ∈ ((listed (groupByTopic (unresolved gc timestamp))).filter fun e =>
        (getPartition topics e.1 e.2.partitionID).isSome).map
          fun e => keyOf e.1 e.2.partitionID) ↔
        ¬ (0 ≤ o ∨ getPartition topics tp.topic tp.partition = none) := by
      rw [not_or, Int64.not_le, List.mem_map]
      constructor
      · rintro ⟨e, he, rfl⟩
        obtain ⟨hlisted, hfound⟩ := List.mem_filter.mp he
        obtain ⟨tp', htp', rfl⟩ := List.mem_map.mp (hperm.mem_iff.mp hlisted)
        obtain ⟨o', ho', hneg⟩ := (mem_needResolve_iff hkeys).mp htp'
        obtain rfl := Option.some.inj (hposition.symm.trans ho')
        refine ⟨hneg, ?_⟩
        intro hnone
        rw [show getPartition topics tp'.topic tp'.partition = none from hnone] at hfound
        cases hfound
      · rintro ⟨hneg, hfound⟩
        refine ⟨(tp.topic, ⟨tp.partition, timestamp⟩), List.mem_filter.mpr ⟨?_, ?_⟩, rfl⟩
        · apply hperm.mem_iff.mpr
          exact List.mem_map.mpr
            ⟨tp, (mem_needResolve_iff hkeys).mpr ⟨o, hposition, hneg⟩, rfl⟩
        · exact Option.isSome_iff_ne_none.mpr hfound
    by_cases hkept : 0 ≤ o ∨ getPartition topics tp.topic tp.partition = none
    · rw [if_pos hkept, if_neg fun hmem => hiff.mp hmem hkept]
      rfl
    · rw [if_neg hkept, if_pos (hiff.mpr hkept), Option.some_or]
      obtain ⟨-, hfound⟩ := not_or.mp hkept
      obtain ⟨part, hpart⟩ := Option.ne_none_iff_exists'.mp hfound
      rw [listOffset, resetOffset, hpart]
      dsimp only
      cases hreset : cfg.autoOffsetReset with
      | earliest =>
        rw [hreset] at htimestamp
        obtain rfl := Option.some.inj htimestamp
        rfl
      | latest =>
        rw [hreset] at htimestamp
        obtain rfl := Option.some.inj htimestamp
        rfl
      | none =>
        rw [hreset] at htimestamp
        cases htimestamp

theorem resetOffset_nonneg {crc : Checksum} {storageCfg : SegmentStore.Config}
    (hserving : Serving crc storageCfg topics) (tp : TopicPartition) :
    0 ≤ resetOffset cfg topics tp := by
  rw [resetOffset]
  cases hpart : getPartition topics tp.topic tp.partition with
  | none => exact Int64.le_refl 0
  | some part =>
    have hwf := (hserving tp.topic tp.partition part hpart).wellFormed
    have hlow := hwf.lowest
    have hhigh := hwf.highestOffset_nonneg
    dsimp only
    rw [Int64.le_iff_toInt_le, Int64.toInt_zero]
    split
    · exact hhigh
    · exact hlow

theorem fetchOffset_initial {crc : Checksum} {storageCfg : SegmentStore.Config}
    (hserving : Serving crc storageCfg topics) (hkeys : (gc.partitionOffsets.map Prod.fst).Nodup)
    (hassigned : tp ∈ gc.assignedPartitions)
    (h : fetchInitialOffsets cfg store topics gc = some gc') :
    gc'.fetchOffset tp =
      if 0 ≤ store.fetch cfg.groupID tp.topic tp.partition then
        store.fetch cfg.groupID tp.topic tp.partition
      else resetOffset cfg topics tp := by
  rw [fetchInitialOffsets] at h
  cases hrequest : gc.offsetFetchRequest cfg with
  | none =>
    rw [GroupConsumer.offsetFetchRequest] at hrequest
    split at hrequest
    · rename_i hnone
      rw [hnone] at hassigned
      cases hassigned
    · cases hrequest
  | some request =>
    rw [hrequest] at h
    have hposition := position_resolved (nodup_setOffsets hkeys)
      (position_fetched hassigned hrequest) h
    rw [fetchOffset_eq, hposition, marked]
    have hminus : ¬ (0 : Int64) ≤ -1 := by decide
    by_cases hset : 0 ≤ store.fetch cfg.groupID tp.topic tp.partition
    · rw [if_pos hset, if_pos hset, if_pos (.inl hset), Option.filter_some,
        if_pos (decide_eq_true hset)]
      rfl
    · rw [if_neg hset, if_neg hset]
      by_cases hnone : getPartition topics tp.topic tp.partition = none
      · rw [if_pos (.inr hnone), Option.filter_some, if_neg (by simp), resetOffset, hnone]
        rfl
      · rw [if_neg (not_or.mpr ⟨hminus, hnone⟩), Option.filter_some,
          if_pos (decide_eq_true (resetOffset_nonneg hserving tp))]
        rfl

/-- The call of a consumer that holds its assignment, with nothing in between. -/
theorem steps_of_fetchInitialOffsets {crc : Checksum} {c : Client} {i : Nat}
    (hcall : c.calls[i]? = some .assigned)
    (h : fetchInitialOffsets cfg store topics c.consumer = some gc') :
    ∃ events c', Run (fun s e t => s.step cfg crc e = some t) c events c' ∧
      c'.consumer = gc' ∧ c'.calls[i]? = some .returned := by
  have hset (c : Client) (call : Call) (hlt : i < c.calls.length) :
      (c.setCall i call).calls[i]? = some call := List.getElem?_set_self hlt
  have hlt := (List.getElem?_eq_some_iff.mp hcall).1
  have hlength (c : Client) (call : Call) : (c.setCall i call).calls.length = c.calls.length :=
    List.length_set
  rw [fetchInitialOffsets] at h
  cases hrequest : c.consumer.offsetFetchRequest cfg with
  | none =>
    rw [hrequest] at h
    have hstep : c.step cfg crc (.fetchInitialOffsets i) = some (c.setCall i .returned) := by
      rw [Client.step, if_pos hcall, hrequest]
    exact ⟨_, _, Run.nil.snoc hstep, Option.some.inj h, hset c _ hlt⟩
  | some request =>
    rw [hrequest] at h
    have hask : c.step cfg crc (.fetchInitialOffsets i) =
        some (c.setCall i (.fetchingOffsets request)) := by
      rw [Client.step, if_pos hcall, hrequest]
    let fetched : Client := { (c.setCall i (.fetchingOffsets request)).setCall i .resolving with
      consumer := c.consumer.store (initialOffsets (handleOffsetFetch store request)) }
    have hfetched : (c.setCall i (.fetchingOffsets request)).step cfg crc
        (.offsetsFetched i (handleOffsetFetch store request)) = some fetched := by
      rw [Client.step, hset c _ hlt]
      rfl
    have hresolving : fetched.calls[i]? = some .resolving :=
      hset _ _ (by rw [hlength]; exact hlt)
    have hlt' : i < fetched.calls.length := (List.getElem?_eq_some_iff.mp hresolving).1
    have hrun : Run (fun s e t => Client.step cfg crc s e = some t) c
        [.fetchInitialOffsets i, .offsetsFetched i (handleOffsetFetch store request)] fetched :=
      (Run.nil.snoc hask).snoc hfetched
    change resolveUnsetOffsets cfg topics fetched.consumer = some gc' at h
    rw [resolveUnsetOffsets] at h
    split at h
    · rename_i hnone
      have hdone : fetched.step cfg crc (.resolveUnsetOffsets i) =
          some (fetched.setCall i .returned) := by
        have hrequest' : fetched.consumer.listOffsetsRequest cfg = none := by
          rw [GroupConsumer.listOffsetsRequest, if_pos hnone]
        rw [Client.step, if_pos hresolving, hrequest']
      exact ⟨_, _, hrun.snoc hdone, Option.some.inj h, hset _ _ hlt'⟩
    · obtain ⟨request', hrequest', rfl⟩ := Option.map_eq_some_iff.mp h
      have hask' : fetched.step cfg crc (.resolveUnsetOffsets i) =
          some (fetched.setCall i (.listingOffsets request')) := by
        have hlist : fetched.consumer.listOffsetsRequest cfg = some request' := hrequest'
        rw [Client.step, if_pos hresolving, hlist]
      have hlisted : (fetched.setCall i (.listingOffsets request')).step cfg crc
          (.offsetsListed i (handleListOffsets topics request')) =
          some { (fetched.setCall i (.listingOffsets request')).setCall i .returned with
            consumer := fetched.consumer.store
              (resolvedOffsets (handleListOffsets topics request')) } := by
        rw [Client.step, hset _ _ hlt']
        rfl
      exact ⟨_, _, (hrun.snoc hask').snoc hlisted, rfl, hset _ _ (by rw [hlength]; exact hlt')⟩

/-- Where all commits are of legal topics, a member starts at the offset that its group has
committed last, through any number of restarts of the offset store, and at the end of the
log that its configuration names if there is none or it is negative. -/
theorem resumes_at_commit {crc : Checksum} {storageCfg : SegmentStore.Config}
    {numPartitions : Int32} {dir : Directory} {s₀ : OffsetStore} {events : List Event}
    (hdir : ∀ i, dir.files i = [])
    (hstart : (newOffsetStore numPartitions).start crc dir = some (s₀, none))
    (hrun : Run (Guarded guard (next crc numPartitions)) s₀ events store)
    (hlegal : ∀ e ∈ events, e.legal = true) (hserving : Serving crc storageCfg topics)
    (hkeys : (gc.partitionOffsets.map Prod.fst).Nodup)
    (hinitial : fetchInitialOffsets cfg store topics gc = some gc')
    (hassigned : tp ∈ gc.assignedPartitions) (hname : validTopicName tp.topic = true) :
    gc'.fetchOffset tp =
      ((latest (events.filterMap Event.accepted) (cfg.groupID, tp.topic, tp.partition)).filter
        fun o => decide (0 ≤ o)).getD (resetOffset cfg topics tp) := by
  have hs := represents_run hrun hlegal (represents_started hdir hstart)
  rw [fetchOffset_initial hserving hkeys hassigned hinitial, OffsetStore.fetch,
    hs.answers _ _ _ hname]
  cases latest (events.filterMap Event.accepted) (cfg.groupID, tp.topic, tp.partition) with
  | none => rfl
  | some o =>
    rw [Option.getD_some, Option.filter_some]
    by_cases hset : 0 ≤ o
    · rw [if_pos hset, if_pos (decide_eq_true hset)]
      rfl
    · rw [if_neg hset, if_neg (by simpa using hset)]
      rfl

end Answers

theorem resumes_at_commit_restarted :
    ∃ s₀ s, (newOffsetStore 2).start castagnoli emptyDirectory = some (s₀, none) ∧
      Run (Guarded guard (next castagnoli 2)) s₀ commitsAndRestarts s ∧
      ∃ gc', fetchInitialOffsets deliveryConfig s (fun _ => none) member = some gc' ∧
        gc'.fetchOffset ⟨[116], 0⟩ = 7 := by
  have hsome : (opened.bind fun s₀ =>
      (execute guard (next castagnoli 2) s₀ commitsAndRestarts).map fun s =>
        fetchInitialOffsets deliveryConfig s (fun _ => none) member) =
      some (some { member with partitionOffsets := [(⟨[116], 0⟩, 7)] }) := by decide +kernel
  obtain ⟨s₀, s, hstart, hrun, hinitial⟩ := run_of_opened hsome
  have hserving : Serving castagnoli SegmentStore.smallConfig fun _ => none := by
    rintro name partitionID p ⟨⟩
  have hassigned : (⟨[116], 0⟩ : TopicPartition) ∈ member.assignedPartitions := by decide
  have hresumed := resumes_at_commit (fun _ => rfl) hstart hrun (by decide) hserving (by decide)
    hinitial hassigned (by decide)
  exact ⟨s₀, s, hstart, hrun, _, hinitial, hresumed.trans (by decide)⟩

end MiniKafka.InitialOffsets
