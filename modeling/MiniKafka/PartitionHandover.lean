import MiniKafka.InitialOffsets
import MiniKafka.OrderedDelivery

/-!
A partition that goes from one member of a group to another one.

The first member polls, commits its positions and is done.  The second one, with the same
group id, asks for the committed offset and polls from there.
-/

namespace MiniKafka.PartitionHandover

open CommittedOffsets ConsumerClient FetchTotals InitialOffsets LastWrite LogHistories
  OffsetRecovery OrderedDelivery PolledRecords RecordCodec RequestBodies Runs
open DeliveredCommits (deliveryConfig member)
open LogContents (OffsetsLeft)
open LogRefinement (Step)
open PartitionLog (Log emptyLog)
open SegmentStore (Config smallConfig bareRecord)

section

variable {crc : Checksum} {cfg : Config} {consumerCfg : GroupConsumerConfig}
  {gc gc' : GroupConsumer} {w w' : World} {label : Label} {labels : List Label}
  {tp : TopicPartition} {o : Int64}

theorem keys_step (hkeys : (w.client.consumer.partitionOffsets.map Prod.fst).Nodup)
    (hstep : WorldStep crc cfg consumerCfg w label w') :
    (w'.client.consumer.partitionOffsets.map Prod.fst).Nodup := by
  cases hstep with
  | create hnone hnew => exact hkeys
  | log hlast hkeeps hstep => exact hkeys
  | client halone hstep =>
    rw [partitionOffsets_step hstep]
    exact nodup_setOffsets hkeys
  | fetched hcall hseen hgap hstep =>
    rw [partitionOffsets_step hstep]
    exact nodup_setOffsets hkeys

theorem keys_run (hkeys : (gc.partitionOffsets.map Prod.fst).Nodup)
    (hrun : Run (WorldStep crc cfg consumerCfg) (newWorld gc) labels w) :
    (w.client.consumer.partitionOffsets.map Prod.fst).Nodup :=
  hrun.invariant (P := fun w => (w.client.consumer.partitionOffsets.map Prod.fst).Nodup) hkeys
    fun _ _ _ h hstep => keys_step h hstep

theorem committed_after_delivered (hnodup : gc.assignedPartitions.Nodup)
    (hkeys : (gc.partitionOffsets.map Prod.fst).Nodup)
    (hrun : Run (WorldStep crc cfg consumerCfg) (newWorld gc) labels w)
    (hidle : ∀ call ∈ w.client.calls, call = .returned) {request : OffsetCommitRequest}
    (hrequest : w.client.consumer.commitRequest consumerCfg = some request)
    (hcarried : (tp, o) ∈ carried request) (htp : tp ∈ gc.assignedPartitions) :
    0 ≤ o ∧ o.toInt = (gc.fetchOffset tp).toInt + (ofPartition tp w.client.delivered).length := by
  obtain ⟨history, -, taken, pending, hstage, horder⟩ := run_delivering hnodup hrun
  have htaken : taken = w.client.delivered := by
    cases hstage with
    | idle _ => rfl
    | fetching i halone => cases hidle _ (List.mem_of_getElem? halone.at_)
    | decoding i rest messages halone => cases hidle _ (List.mem_of_getElem? halone.at_)
  obtain ⟨hmem, hset⟩ := (mem_carried hrequest (tp, o)).mp hcarried
  have hposition := (positionOf_eq_some_iff (keys_run hkeys hrun)).mpr hmem
  have hat : w.client.consumer.fetchOffset tp = o := by
    rw [fetchOffset_eq, hposition, Option.filter_some, if_pos (decide_eq_true hset)]
    rfl
  refine ⟨hset, ?_⟩
  rw [← hat, horder.position tp htp, htaken]

theorem assignedPartitions_initial {store : OffsetStore} {topics : Topics}
    (h : fetchInitialOffsets consumerCfg store topics gc = some gc') :
    gc'.assignedPartitions = gc.assignedPartitions := by
  rw [fetchInitialOffsets] at h
  cases hrequest : gc.offsetFetchRequest consumerCfg with
  | none =>
    rw [hrequest] at h
    rw [← Option.some.inj h]
  | some request =>
    rw [hrequest] at h
    change resolveUnsetOffsets consumerCfg topics _ = some gc' at h
    rw [resolveUnsetOffsets] at h
    split at h
    · rw [← Option.some.inj h]
      rfl
    · obtain ⟨request', -, rfl⟩ := Option.map_eq_some_iff.mp h
      rfl

end

/-- When a member commits between two polls and its commit is the last one of the group for
a partition, the member that gets the partition next continues right there: the messages of
the first one, followed by those of the second one, are records in the order of the log
without a gap and without a record twice, through commits of legal topics and restarts of
the offset store in between. -/
theorem handover_without_loss {crc : Checksum} {cfg : Config}
    {firstCfg secondCfg : GroupConsumerConfig} (hgroup : secondCfg.groupID = firstCfg.groupID)
    {first second resumed : GroupConsumer} {w w' : World} {labels labels' : List Label}
    (hfirst : first.assignedPartitions.Nodup) (hkeys : (first.partitionOffsets.map Prod.fst).Nodup)
    (hrun : Run (WorldStep crc cfg firstCfg) (newWorld first) labels w)
    (hidle : ∀ call ∈ w.client.calls, call = .returned) {request : OffsetCommitRequest}
    (hrequest : w.client.consumer.commitRequest firstCfg = some request)
    {tp : TopicPartition} {o : Int64} (hcarried : (tp, o) ∈ carried request)
    {numPartitions : Int32} {dir : Directory} {s₀ store : OffsetStore}
    {events : List OffsetRecovery.Event} (hdir : ∀ i, dir.files i = [])
    (hstart : (newOffsetStore numPartitions).start crc dir = some (s₀, none))
    (hstore : Run (Guarded guard (next crc numPartitions)) s₀ events store)
    (hlegal : ∀ e ∈ events, e.legal = true)
    (hlast : latest (events.filterMap Event.accepted) (firstCfg.groupID, tp.topic, tp.partition) =
      some o)
    {topics : Topics} (hserving : Serving crc cfg topics)
    (hsecond : second.assignedPartitions.Nodup)
    (hkeys' : (second.partitionOffsets.map Prod.fst).Nodup)
    (hinitial : fetchInitialOffsets secondCfg store topics second = some resumed)
    (hrun' : Run (WorldStep crc cfg secondCfg) (newWorld resumed) labels' w')
    (hlogs : w.versions tp <+: w'.versions tp) (hname : validTopicName tp.topic = true)
    (htp : tp ∈ first.assignedPartitions) (htp' : tp ∈ second.assignedPartitions) :
    ofPartition tp w.client.delivered ++ ofPartition tp w'.client.delivered <+:
      (historyOf crc (w'.versions tp)).drop (first.fetchOffset tp).toInt.toNat := by
  obtain ⟨hset, hcommitted⟩ :=
    committed_after_delivered hfirst hkeys hrun hidle hrequest hcarried htp
  have hassigned := assignedPartitions_initial hinitial
  have hresumed : resumed.fetchOffset tp = o := by
    have hs := represents_run hstore hlegal (represents_started hdir hstart)
    rw [fetchOffset_initial hserving hkeys' htp' hinitial, OffsetStore.fetch,
      hs.answers _ _ _ hname, hgroup, hlast, Option.getD_some, if_pos hset]
  obtain ⟨history, hchronicle, taken, pending, hstage, horder⟩ := run_delivering hfirst hrun
  obtain ⟨history', hchronicle', taken', pending', hstage', horder'⟩ :=
    run_delivering (hassigned ▸ hsecond) hrun'
  have hbefore := delivered_prefix hstage horder htp
  have hafter := delivered_prefix hstage' horder' (hassigned ▸ htp')
  have hgrown : history tp <+: history' tp := by
    rw [(hchronicle tp).whole]
    exact (hchronicle' tp).growing _ hlogs
  rw [← (hchronicle' tp).whole]
  refine prefix_continue (hbefore.trans (hgrown.drop _)) ?_
  have hnonneg := fetchOffset_nonneg first tp
  rw [hresumed] at hafter
  rwa [show (first.fetchOffset tp).toInt.toNat + (ofPartition tp w.client.delivered).length =
    o.toInt.toNat by omega]

def successor : GroupConsumer := { member with partitionOffsets := [(onlyPartition, 1)] }

def laterPoll : List ClientEvent :=
  [.poll, .fetched 0 (handleFetch castagnoli (serving twoRecordLog 2)
    (successor.fetchRequest deliveryConfig)), .advance 0, .pollReturns 0]

theorem laterPoll_reached :
    Run (WorldStep castagnoli smallConfig deliveryConfig) (newWorld successor)
      [.create onlyPartition (fun _ => 0) 0,
        .log onlyPartition (.append (some (bareRecord 7)) ⟨0, none⟩ 0 none),
        .log onlyPartition (.append (some (bareRecord 8)) ⟨0, none⟩ 1 none), .client .poll,
        .fetched 0 (serving twoRecordLog 2), .client (.advance 0), .client (.pollReturns 0)]
      (worldAt successor [emptyLog, oneRecordLog, twoRecordLog] laterPoll) := by
  have hlog := ((Run.nil.snoc (step_create successor)).snoc
    (@step_log _ [] _ _ _ _ rfl step_oneRecord)).snoc
    (@step_log _ [emptyLog] _ _ _ _ rfl step_twoRecords)
  exact (((hlog.snoc (step_client (by decide +kernel) (by decide +kernel))).snoc
    (step_fetched (by simp) (by decide +kernel) (by decide +kernel) (by decide +kernel))).snoc
    (step_client (by decide +kernel) (by decide +kernel))).snoc
    (step_client (by decide +kernel) (by decide +kernel))

/-- One record before the handover and one after it, with a restart of the offset store in
between. -/
theorem handover_without_loss_restarted :
    ofPartition onlyPartition
          (worldAt member [emptyLog, oneRecordLog] firstPoll).client.delivered ++
        ofPartition onlyPartition
          (worldAt successor [emptyLog, oneRecordLog, twoRecordLog] laterPoll).client.delivered =
        [bareRecord 7, { bareRecord 8 with offset := 1 }] ∧
      ofPartition onlyPartition
          (worldAt member [emptyLog, oneRecordLog] firstPoll).client.delivered ++
        ofPartition onlyPartition
          (worldAt successor [emptyLog, oneRecordLog, twoRecordLog] laterPoll).client.delivered <+:
        (historyOf castagnoli ((worldAt successor [emptyLog, oneRecordLog, twoRecordLog]
          laterPoll).versions onlyPartition)).drop
          (member.fetchOffset onlyPartition).toInt.toNat := by
  have hsome : (opened.bind fun s₀ =>
      (execute guard (next castagnoli 2) s₀
        [commitEvent [103] [116] 1, .restart emptyDirectory]).map fun s =>
        fetchInitialOffsets deliveryConfig s (fun _ => none) member) = some (some successor) := by
    decide +kernel
  obtain ⟨s₀, s, hstart, hstore, hinitial⟩ := run_of_opened hsome
  have hserving : Serving castagnoli smallConfig fun _ => none := by
    rintro name partitionID p ⟨⟩
  have hrequest : (worldAt member [emptyLog, oneRecordLog] firstPoll).client.consumer.commitRequest
      deliveryConfig = some ⟨[103], 1, [109], some [⟨[116], some [⟨0, 1, []⟩]⟩]⟩ := by
    decide +kernel
  have hgrown : (worldAt member [emptyLog, oneRecordLog] firstPoll).versions onlyPartition <+:
      (worldAt successor [emptyLog, oneRecordLog, twoRecordLog] laterPoll).versions
        onlyPartition := by
    rw [versions_worldAt, versions_worldAt]
    exact ⟨[twoRecordLog], rfl⟩
  refine ⟨by decide +kernel, ?_⟩
  exact handover_without_loss rfl (by decide) (by decide) firstPoll_reached (by decide +kernel)
    hrequest (o := 1) (by decide) (fun _ => rfl) hstart hstore (by decide) (by decide) hserving
    (by decide) (by decide) hinitial laterPoll_reached
    hgrown (by decide) (by decide) (by decide)

end MiniKafka.PartitionHandover
