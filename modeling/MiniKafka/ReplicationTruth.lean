import MiniKafka.LogReadFrom
import MiniKafka.ReplicaCluster

/-!
What the leader records about its followers, against what they store.

`handleReplicaFetch` credits a follower with the records of a response when it
builds the response.  The follower has them only once the response has arrived
and its own append has succeeded.
-/

namespace MiniKafka.ReplicationTruth

open RecordCodec SegmentStore SegmentContents PartitionLog LogContents LogWrites LogReadFrom
  InSyncReplicas BrokerHandlers ReplicaCluster Runs
open LogRefinement (Reached newLog_small)

/-- If the next step of a task credits a follower, the follower has the records
of the response already. -/
def Task.creditsStored (followers : Int32 → Follower) : Task → Bool
  | .replicaFetch request (.leaderUpdated records _) =>
    records.all fun r => decide (r.offset < (followers request.replicaID).log.highestOffset)
  | _ => true

def creditsStored (key : TopicPartition) (c : Cluster) : ClusterEvent → Bool
  | .leader (.run thread _) =>
    match c.broker.handlers[thread]? with
    | none => true
    | some h => decide (h.key ≠ key) || Task.creditsStored c.followers h.task
  | _ => true

def logEnd (cfg : BrokerConfig) (followers : Int32 → Follower) (l : Log) (id : Int32) : Int64 :=
  if id = cfg.localID then l.highestOffset else (followers id).log.highestOffset

/-- What holds of the partition on the leader.  `start` is where its log ended
when it was opened, which is where the published high watermark begins. -/
structure Truthful (crc : Checksum) (cfg : BrokerConfig) (followers : Int32 → Follower)
    (start : Int64) (now : Int) (p : Partition) : Prop where
  log : WellFormed crc p.log
  tracker : p.tracker.Sound now
  replicas : p.tracker.replicas.map ReplicaState.brokerID = cfg.replicaIDs.dedup
  recorded : ∀ r ∈ p.tracker.replicas,
    r.logEndOffset.toInt ≤ (logEnd cfg followers p.log r.brokerID).toInt
  published : p.highWatermark.toInt ≤ start.toInt ∨
    p.highWatermark.toInt ≤ p.tracker.highWatermark.toInt

/-- What a thread knows: a log end of the leader and a high watermark that it
carries are not ahead of the partition, and a follower asks for no more than
follows its log. -/
structure Task.Truthful (cfg : BrokerConfig) (followers : Int32 → Follower) (p : Partition)
    (task : Task) : Prop where
  measured : ∀ leo leaderLEO, task.pendingUpdate cfg = some (cfg.localID, leo, leaderLEO) →
    leo.toInt ≤ p.log.highestOffset.toInt
  watermark : ∀ hw ∈ task.pendingWatermark, hw.toInt ≤ p.tracker.highWatermark.toInt
  fetch : ∀ request phase, task = .replicaFetch request phase →
    request.replicaID ∈ cfg.replicaIDs ∧ request.replicaID ≠ cfg.localID ∧
      request.fetchOffset.toInt ≤ (followers request.replicaID).log.highestOffset.toInt

section

variable {crc : Checksum} {cfg : BrokerConfig} {followers followers' : Int32 → Follower}
  {start : Int64} {now : Int} {p p' : Partition} {task task' : Task}

theorem followerLEO_le {request : ReplicaFetchRequest} {records : List Record} {x : Int64}
    (hfetch : request.fetchOffset.toInt ≤ x.toInt) (hstored : ∀ r ∈ records, r.offset < x) :
    (followerLEO request records).toInt ≤ x.toInt := by
  rw [followerLEO]
  split
  · exact hfetch
  · rename_i r hlast
    have hlt := hstored r (List.mem_of_getLast? hlast)
    rw [Int64.lt_iff_toInt_lt] at hlt
    have hx := x.toInt_lt
    rw [toInt_add_one (by omega)]
    omega

theorem pending_within (hlocal : cfg.localID ∈ cfg.replicaIDs)
    (htask : Task.Truthful cfg followers p task)
    (hguard : Task.creditsStored followers task = true) {id : Int32} {leo leaderLEO : Int64}
    (hpending : task.pendingUpdate cfg = some (id, leo, leaderLEO)) :
    id ∈ cfg.replicaIDs ∧ leo.toInt ≤ (logEnd cfg followers p.log id).toInt := by
  by_cases hid : id = cfg.localID
  · subst hid
    refine ⟨hlocal, ?_⟩
    rw [logEnd, if_pos rfl]
    exact htask.measured leo leaderLEO hpending
  · rcases update_call hpending with ⟨_, _, _, -, hlocal, -⟩ | ⟨_, _, -, hlocal, -⟩ |
      ⟨request, records, rfl, rfl, rfl⟩
    · exact absurd hlocal hid
    · exact absurd hlocal hid
    · obtain ⟨hmem, -, hoffset⟩ := htask.fetch request _ rfl
      refine ⟨hmem, ?_⟩
      rw [logEnd, if_neg hid]
      apply followerLEO_le hoffset
      simpa [Task.creditsStored] using hguard

theorem Task.Truthful.advance (h : Task.Truthful cfg followers p task)
    (hlog : p.log.highestOffset.toInt ≤ p'.log.highestOffset.toInt)
    (htracker : p.tracker.highWatermark.toInt ≤ p'.tracker.highWatermark.toInt) :
    Task.Truthful cfg followers p' task :=
  ⟨fun leo leaderLEO hpending => (h.measured leo leaderLEO hpending).trans hlog,
    fun hw hhw => (h.watermark hw hhw).trans htracker, h.fetch⟩

theorem logEnd_le {l l' : Log} (hlog : l.highestOffset.toInt ≤ l'.highestOffset.toInt)
    (hfollowers : ∀ id, (followers id).log.highestOffset.toInt ≤
      (followers' id).log.highestOffset.toInt) (id : Int32) :
    (logEnd cfg followers l id).toInt ≤ (logEnd cfg followers' l' id).toInt := by
  rw [logEnd, logEnd]
  split
  · exact hlog
  · exact hfollowers id

theorem truthful_updateLEO (h : Truthful crc cfg followers start now p) {id : Int32}
    {leo : Int64} (leaderLEO : Int64) (hid : id ∈ cfg.replicaIDs)
    (hleo : leo.toInt ≤ (logEnd cfg followers p.log id).toInt) :
    Truthful crc cfg followers start now (p.updateLEO id leo leaderLEO now) := by
  have hmem : id ∈ p.tracker.replicas.map ReplicaState.brokerID := by
    rw [h.replicas]
    exact List.mem_dedup.mpr hid
  have hrises := highWatermark_updateLEO p.tracker id leo leaderLEO now
  refine ⟨h.log, sound_updateLEO h.tracker hmem le_rfl, ?_, ?_, ?_⟩
  · exact (brokerIDs_updateLEO hmem).trans h.replicas
  · intro r hr
    rcases mem_updateLEO hr with ⟨q, hq, hsame, hend⟩ | ⟨hown, hend, -⟩
    · rw [← hsame, ← hend]
      exact h.recorded q hq
    · rw [hown, hend]
      exact hleo
  · exact h.published.imp_right fun hle => hle.trans hrises

theorem truthful_step (hlocal : cfg.localID ∈ cfg.replicaIDs)
    (h : Truthful crc cfg followers start now p) (htask : Task.Truthful cfg followers p task)
    (hguard : Task.creditsStored followers task = true)
    (hstep : PartitionStep crc cfg now task p p') :
    Truthful crc cfg followers start now p' ∧
      p.log.highestOffset.toInt ≤ p'.log.highestOffset.toInt ∧
      p.tracker.highWatermark.toInt ≤ p'.tracker.highWatermark.toInt := by
  cases hstep with
  | same => exact ⟨h, le_rfl, le_rfl⟩
  | append env hleft =>
    obtain ⟨taken, -, hextends, -⟩ := appendRecords_spec h.log env hleft
    have hgrown := hextends.highestOffset_le h.log
    refine ⟨⟨hextends.wellFormed, h.tracker, h.replicas, ?_, h.published⟩, hgrown, le_rfl⟩
    exact fun r hr => (h.recorded r hr).trans (logEnd_le hgrown (fun _ => le_rfl) r.brokerID)
  | update hpending =>
    obtain ⟨hid, hleo⟩ := pending_within hlocal htask hguard hpending
    exact ⟨truthful_updateLEO h _ hid hleo, le_rfl, highWatermark_updateLEO ..⟩
  | publish hpending =>
    refine ⟨⟨h.log, h.tracker, h.replicas, h.recorded, ?_⟩, le_rfl, le_rfl⟩
    change (raise p.highWatermark _).toInt ≤ _ ∨ (raise p.highWatermark _).toInt ≤ _
    rw [raise]
    split
    · exact .inr (htask.watermark _ hpending)
    · exact h.published

theorem task_next {key : TopicPartition} {channel : Nat} {choice : Choice} {q q' : Purgatory}
    (htask : Task.Truthful cfg followers p task)
    (hnext : task.next crc cfg key channel now choice p q = some (task', p', q')) :
    Task.Truthful cfg followers p' task' := by
  cases task with
  | produce request deadline phase =>
    obtain ⟨⟨phase', p'', q''⟩, hphase, heq⟩ := Option.map_eq_some_iff.mp hnext
    cases heq
    obtain ⟨hupdate, hwatermark⟩ := pending_produce hphase
    refine ⟨fun leo leaderLEO hpending => ?_, fun hw hhw => ?_, nofun⟩
    · rcases hupdate with hnone | hmeasured
      · cases hnone.symm.trans hpending
      · cases hmeasured.symm.trans hpending
        exact le_rfl
    · rw [hwatermark hw hhw]
  | replicaFetch request phase =>
    obtain ⟨⟨phase', p'', q''⟩, hphase, heq⟩ := Option.map_eq_some_iff.mp hnext
    cases heq
    have hfetch := htask.fetch request phase rfl
    obtain ⟨hupdate, hwatermark⟩ := pending_replicaFetch hphase
    refine ⟨fun leo leaderLEO hpending => ?_, fun hw hhw => ?_, ?_⟩
    · rcases hupdate with hnone | hmeasured | ⟨records, leaderEnd, rfl⟩
      · cases hnone.symm.trans hpending
      · cases hmeasured.symm.trans hpending
        exact le_rfl
      · -- this update is about the follower, not the leader
        exact absurd (congrArg Prod.fst (Option.some.inj hpending)) hfetch.2.1
    · rw [hwatermark hw hhw]
    · intro request' phase'' heq
      cases heq
      exact hfetch
  | fetch request phase =>
    obtain ⟨phase', -, heq⟩ := Option.map_eq_some_iff.mp hnext
    cases heq
    exact ⟨nofun, nofun, nofun⟩

def Leads (crc : Checksum) (cfg : BrokerConfig) (key : TopicPartition) (start : Int64)
    (followers : Int32 → Follower) (b : Broker) : Prop :=
  Threads (fun now k p => k = key → Truthful crc cfg followers start now p)
    (fun k p task => k = key → Task.Truthful cfg followers p task) b

theorem leads_step {key : TopicPartition} {b b' : Broker} {e : Event}
    (hlocal : cfg.localID ∈ cfg.replicaIDs) (h : Leads crc cfg key start followers b)
    (harrive : ∀ request, e = .arrive key request →
      Task.Truthful cfg followers (b.partitions key) (request.begin b.now))
    (hguard : ∀ thread choice task, e = .run thread choice →
      b.handlers[thread]? = some ⟨key, task⟩ → Task.creditsStored followers task = true)
    (hstep : b.step crc cfg e = some b') : Leads crc cfg key start followers b' := by
  refine threads_step_key h hstep ?_ harrive ?_
  · intro now now' p hclock hp
    exact ⟨hp.log, sound_later hp.tracker hclock, hp.replicas, hp.recorded, hp.published⟩
  · intro thread choice task task' p q he hg hnext
    have htask := h.handlers _ (List.mem_of_getElem? hg) rfl
    obtain ⟨hp, hlog, htracker⟩ := truthful_step hlocal (h.partitions key rfl) htask
      (hguard thread choice task he hg) (partitionStep_next hnext)
    exact ⟨hp, task_next htask hnext, fun other hother => hother.advance hlog htracker⟩

theorem Leads.grow {key : TopicPartition} {b : Broker} (h : Leads crc cfg key start followers b)
    (hgrown : ∀ id, (followers id).log.highestOffset.toInt ≤
      (followers' id).log.highestOffset.toInt) : Leads crc cfg key start followers' b := by
  refine ⟨fun k hk => ?_, fun g hg hk => ?_⟩
  · have hp := h.partitions k hk
    refine ⟨hp.log, hp.tracker, hp.replicas, fun r hr => ?_, hp.published⟩
    exact (hp.recorded r hr).trans (logEnd_le le_rfl hgrown r.brokerID)
  · have htask := h.handlers g hg hk
    refine ⟨htask.measured, htask.watermark, fun request phase heq => ?_⟩
    obtain ⟨hmem, hne, hoffset⟩ := htask.fetch request phase heq
    exact ⟨hmem, hne, hoffset.trans (hgrown request.replicaID)⟩

end

structure Truth (crc : Checksum) (cfg : BrokerConfig) (key : TopicPartition) (start : Int64)
    (c : Cluster) : Prop where
  leads : Leads crc cfg key start c.followers c.broker
  sound : ∀ id, (c.followers id).Sound crc

section

variable {crc : Checksum} {cfg : BrokerConfig} {key : TopicPartition} {start : Int64}
  {c c' : Cluster}

theorem truth_step {e : ClusterEvent} (hlocal : cfg.localID ∈ cfg.replicaIDs)
    (h : Truth crc cfg key start c) (hguard : creditsStored key c e = true)
    (hstep : c.step crc cfg key e = some c') : Truth crc cfg key start c' := by
  have hfollowers := followers_step h.sound hstep
  have hgrown (id : Int32) : (c.followers id).log.highestOffset.toInt ≤
      (c'.followers id).log.highestOffset.toInt := by
    obtain ⟨added, hextends⟩ := (hfollowers id).extended
    exact hextends.highestOffset_le (h.sound id).log
  refine ⟨Leads.grow ?_ hgrown, fun id => (hfollowers id).sound⟩
  cases e with
  | leader e =>
    obtain ⟨hother, broker, hbroker, rfl⟩ := step_leader hstep
    refine leads_step hlocal h.leads ?_ ?_ hbroker
    · rintro request rfl
      cases request with
      | produce request => exact ⟨nofun, nofun, nofun⟩
      | replicaFetch request => simp [fromFollower] at hother
      | fetch request => exact ⟨nofun, nofun, nofun⟩
    · rintro thread choice task rfl hg
      simpa [creditsStored, hg] using hguard
  | request sender =>
    obtain ⟨hmem, hne, hbroker, -⟩ := step_request hstep
    refine leads_step hlocal h.leads ?_ (fun _ _ _ he => by cases he) hbroker
    intro request heq
    cases heq
    refine ⟨nofun, nofun, fun request phase heq => ?_⟩
    cases heq
    refine ⟨hmem, hne, ?_⟩
    rw [(h.sound sender).fetchOffset]
  | deliver receiver env =>
    obtain ⟨thread, fetchOffset, k, request, payload, f, -, -, -, rfl⟩ := step_deliver hstep
    exact h.leads
  | giveUp quitter =>
    obtain rfl := Option.some.inj hstep
    exact h.leads

theorem truth_newCluster {logs : TopicPartition → Log} {followerLogs : Int32 → Log} {now : Int}
    (hlocal : cfg.localID ∈ cfg.replicaIDs) (hleader : WellFormed crc (logs key))
    (hfollowers : ∀ id, WellFormed crc (followerLogs id)) :
    Truth crc cfg key (logs key).highestOffset (newCluster cfg logs followerLogs now) := by
  refine ⟨⟨?_, ?_⟩, fun id => newFollower_sound (hfollowers id)⟩
  · rintro k rfl
    refine ⟨hleader, newISRTracker_sound _ now hlocal, ?_, ?_, .inl le_rfl⟩
    · change (cfg.replicaIDs.dedup.map _).map ReplicaState.brokerID = _
      simp [Function.comp_def]
    · intro r hr
      obtain ⟨id, -, rfl⟩ := List.mem_map.mp hr
      rw [logEnd]
      split
      · exact hleader.highestOffset_nonneg
      · exact (hfollowers _).highestOffset_nonneg
  · intro g hg
    cases hg

/-- In every run in which followers are credited only with records they have, a
recorded log end is within the log of the follower, and the high watermark is
within the log of every replica in sync.  What the partition publishes is bounded
the same way, unless it is still what the log end was when it was opened. -/
theorem recorded_within_log {leaderCfg : Config} {followerCfg : Int32 → Config}
    {logs : TopicPartition → Log} {followerLogs : Int32 → Log} {now : Int}
    {steps : List ClusterEvent} (hlocal : cfg.localID ∈ cfg.replicaIDs)
    (hleader : Reached crc leaderCfg (logs key))
    (hfollowers : ∀ id, Reached crc (followerCfg id) (followerLogs id))
    (hrun : Run (Guarded (creditsStored key) (Cluster.step crc cfg key))
      (newCluster cfg logs followerLogs now) steps c)
    {r : ReplicaState} (hr : r ∈ (c.broker.partitions key).tracker.replicas) :
    (r.brokerID ≠ cfg.localID → r.logEndOffset ≤ (c.followers r.brokerID).log.highestOffset) ∧
      (r.inSync = true →
        (c.broker.partitions key).tracker.highWatermark ≤
            logEnd cfg c.followers (c.broker.partitions key).log r.brokerID ∧
          ((c.broker.partitions key).highWatermark ≤ (logs key).highestOffset ∨
            (c.broker.partitions key).highWatermark ≤
              logEnd cfg c.followers (c.broker.partitions key).log r.brokerID)) := by
  have htruth : Truth crc cfg key (logs key).highestOffset c := by
    refine hrun.invariant
      (truth_newCluster hlocal hleader.wellFormed fun id => (hfollowers id).wellFormed) ?_
    rintro s e t hs ⟨hguard, hstep⟩
    exact truth_step hlocal hs hguard hstep
  have hp := htruth.leads.partitions key rfl
  have hrecorded := hp.recorded r hr
  constructor
  · intro hother
    rw [logEnd, if_neg hother] at hrecorded
    exact Int64.le_iff_toInt_le.mpr hrecorded
  · intro hsync
    have hbound := (hp.tracker.bounded r hr hsync).trans hrecorded
    rw [Int64.le_iff_toInt_le, Int64.le_iff_toInt_le, Int64.le_iff_toInt_le]
    exact ⟨hbound, hp.published.imp_right fun hle => hle.trans hbound⟩

end

/-- One record is produced and fetched by the follower, and the response is
lost. -/
def fetchLost : List ClusterEvent :=
  .leader (.arrive events (.produce (produceOne 1))) :: List.replicate 6 (.leader (.run 0 calm)) ++
    .request 2 :: List.replicate 6 (.leader (.run 1 calm)) ++ [.giveUp 2]

/-- The leader records the log end 1 for the follower, which is in sync, and the
high watermark is 1.  The log of the follower is empty. -/
theorem credited_without_record :
    ∃ c, Run (Guarded (fun _ _ => true) (Cluster.step castagnoli pairConfig events))
        (newCluster pairConfig (fun _ => emptyLog) (fun _ => emptyLog) 0) fetchLost c ∧
      ⟨2, 1, 0, true⟩ ∈ (c.broker.partitions events).tracker.replicas ∧
      (c.broker.partitions events).tracker.highWatermark = 1 ∧
      (c.followers 2).log.highestOffset = 0 := by
  have hend : (execute (fun _ _ => true) (Cluster.step castagnoli pairConfig events)
      (newCluster pairConfig (fun _ => emptyLog) (fun _ => emptyLog) 0) fetchLost).map
        (fun c => ((c.broker.partitions events).tracker.replicas,
          (c.broker.partitions events).tracker.highWatermark, (c.followers 2).log.highestOffset)) =
      some ([⟨1, 1, 0, true⟩, ⟨2, 1, 0, true⟩], 1, 0) := by
    decide +kernel
  obtain ⟨c, hrun, hc⟩ := exists_run_of_execute hend
  obtain ⟨hreplicas, hwatermark, hfollower⟩ := Prod.mk.inj hc |>.imp_right Prod.mk.inj
  refine ⟨c, hrun, ?_, hwatermark, hfollower⟩
  rw [hreplicas]
  simp

theorem reached_threeRecords : Reached castagnoli smallConfig threeRecordLog :=
  ⟨_, _, _, _, newLog_small, Run.nil.snoc step_threeRecords⟩

/-- Both logs hold three records, and the follower fetches from their end. -/
theorem recorded_within_log_threeRecords :
    ∃ c, Run (Guarded (creditsStored events) (Cluster.step castagnoli pairConfig events))
        (newCluster pairConfig (fun _ => threeRecordLog) (fun _ => threeRecordLog) 0)
        (.request 2 :: List.replicate 6 (.leader (.run 0 calm))) c ∧
      (c.broker.partitions events).tracker.highWatermark = 3 ∧
      (3 : Int64) ≤ (c.followers 2).log.highestOffset := by
  have hend : (execute (creditsStored events) (Cluster.step castagnoli pairConfig events)
      (newCluster pairConfig (fun _ => threeRecordLog) (fun _ => threeRecordLog) 0)
      (.request 2 :: List.replicate 6 (.leader (.run 0 calm)))).map
        (fun c => ((c.broker.partitions events).tracker.replicas,
          (c.broker.partitions events).tracker.highWatermark)) =
      some ([⟨1, 3, 0, true⟩, ⟨2, 3, 0, true⟩], 3) := by
    decide +kernel
  obtain ⟨c, hrun, hc⟩ := exists_run_of_execute hend
  obtain ⟨hreplicas, hwatermark⟩ := Prod.mk.inj hc
  have hmem : ⟨2, 3, 0, true⟩ ∈ (c.broker.partitions events).tracker.replicas := by
    rw [hreplicas]
    simp
  have hlocal : pairConfig.localID ∈ pairConfig.replicaIDs := by decide
  have hwithin := recorded_within_log hlocal reached_threeRecords (fun _ => reached_threeRecords)
    hrun hmem
  exact ⟨c, hrun, hwatermark, hwithin.1 (by decide)⟩

end MiniKafka.ReplicationTruth
