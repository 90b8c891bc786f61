import MiniKafka.LogReadFrom
import MiniKafka.ReplicaCluster

/-!
Followers hold a first part of their leader's log.

A follower numbers the records it receives anew, from its own log end on.  They
keep their offsets if the leader returned them without a gap, which is up to
`Log.ReadFrom`.
-/

namespace MiniKafka.ReplicaAgreement

open RecordCodec SegmentStore SegmentContents SegmentReads PartitionLog LogContents LogWrites
  LogMaintenance LogReads LogReadFrom BrokerHandlers ReplicaCluster Runs
open LogRefinement (newLog_small)

/-- If the next step of a task reads for a follower, it skips no record. -/
def Task.readsWithoutGap (crc : Checksum) (cfg : BrokerConfig) (l : Log) : Task → Bool
  | .replicaFetch request .received =>
    !skipsRecord cfg.fetchBudget 0 (sizesFrom crc l request.fetchOffset)
  | _ => true

def readsWithoutGap (crc : Checksum) (cfg : BrokerConfig) (key : TopicPartition) (c : Cluster) :
    ClusterEvent → Bool
  | .leader (.run thread _) =>
    match c.broker.handlers[thread]? with
    | none => true
    | some h =>
      decide (h.key ≠ key) || Task.readsWithoutGap crc cfg (c.broker.partitions key).log h.task
  | _ => true

/-- The records a replica fetch has read, as far as the follower will see
them. -/
def ReplicaFetchPhase.records (crc : Checksum) : ReplicaFetchPhase → List Record
  | .received => []
  | .fetched records => records
  | .measured records _ => records
  | .leaderUpdated records _ => records
  | .replicaUpdated records _ => records
  | .published records _ => records
  | .answered payload => ((sendReplicaFetch crc payload).map Prod.fst).getD []

structure FromZero (crc : Checksum) (l : Log) : Prop where
  wellFormed : WellFormed crc l
  nextOffsets : NextOffsetsKnown crc l
  lowest : l.lowestOffset = 0

/-- A replica fetch returns what the leader stores from the offset on that was
asked for. -/
def Task.Continues (crc : Checksum) (l : Log) : Task → Prop
  | .replicaFetch request phase =>
    ReplicaFetchPhase.records crc phase <+:
      (storedRecords crc l).drop request.fetchOffset.toInt.toNat
  | _ => True

section

variable {crc : Checksum} {cfg : BrokerConfig} {l l' : Log} {added : List Record}

theorem FromZero.extend (h : FromZero crc l) (hextends : Extends crc l l' added) :
    FromZero crc l' :=
  ⟨hextends.wellFormed, hextends.nextOffsets h.nextOffsets, hextends.lowest.trans h.lowest⟩

theorem continues_extend {task : Task} (h : Task.Continues crc l task)
    (hextends : Extends crc l l' added) : Task.Continues crc l' task := by
  cases task with
  | replicaFetch request phase =>
    refine List.IsPrefix.trans h ?_
    rw [hextends.stored, List.drop_append]
    exact List.prefix_append _ _
  | _ => trivial

theorem records_next {request : ReplicaFetchRequest} {key : TopicPartition} {now : Int}
    {p p' : Partition} {q q' : Purgatory} {phase phase' : ReplicaFetchPhase}
    (hread : phase ≠ .received)
    (hnext : phase.next crc cfg request key now p q = some (phase', p', q')) :
    ReplicaFetchPhase.records crc phase' <+: ReplicaFetchPhase.records crc phase := by
  cases phase with
  | received => exact absurd rfl hread
  | published records hw =>
    cases hnext
    change ((sendReplicaFetch crc _).map Prod.fst).getD [] <+: records
    cases hencode : encodeReplicaFetchResponse crc 0 hw records with
    | error e => exact List.nil_prefix
    | ok payload =>
      have hsent : sendReplicaFetch crc (some payload) = some (records, hw) := by
        rw [sendReplicaFetch, Option.map_some, decodeReplicaFetchResponse_encoded hencode]
        rfl
      rw [Except.toOption, hsent]
      exact List.prefix_refl records
  | answered payload => cases hnext
  | _ =>
    cases hnext
    exact List.prefix_refl _

theorem continues_next {key : TopicPartition} {channel : Nat} {now : Int} {choice : Choice}
    {p p' : Partition} {q q' : Purgatory} {task task' : Task} (hp : FromZero crc p.log)
    (htask : Task.Continues crc p.log task)
    (hguard : Task.readsWithoutGap crc cfg p.log task = true)
    (hextends : Extends crc p.log p'.log added)
    (hnext : task.next crc cfg key channel now choice p q = some (task', p', q')) :
    Task.Continues crc p'.log task' := by
  cases task with
  | produce request deadline phase =>
    obtain ⟨⟨phase', p'', q''⟩, -, heq⟩ := Option.map_eq_some_iff.mp hnext
    cases heq
    trivial
  | fetch request phase =>
    obtain ⟨_, -, heq⟩ := Option.map_eq_some_iff.mp hnext
    cases heq
    trivial
  | replicaFetch request phase =>
    obtain ⟨⟨phase', p'', q''⟩, hphase, heq⟩ := Option.map_eq_some_iff.mp hnext
    cases heq
    by_cases hreceived : phase = .received
    · subst hreceived
      obtain ⟨rfl, rfl, rfl | ⟨records, rfl, hlow, hread⟩⟩ :=
        received_next hp.wellFormed.isOpen hphase
      · exact List.nil_prefix
      · have hcontiguous : Contiguous crc p'.log request.fetchOffset cfg.fetchBudget := by
          refine (contiguous_iff hp.wellFormed hp.nextOffsets (Int64.le_iff_toInt_le.mpr hlow)
            (fetchBudget_pos cfg)).mpr ?_
          simpa [Task.readsWithoutGap] using hguard
        obtain ⟨records', hread', hinitial, -⟩ := hcontiguous
        rw [hread'] at hread
        obtain rfl : records' = records := hread
        rw [hp.lowest, Int64.toInt_zero, sub_zero] at hinitial
        exact hinitial
    · exact continues_extend ((records_next hreceived hphase).trans htask) hextends

end

def Leads (crc : Checksum) (key : TopicPartition) (b : Broker) : Prop :=
  Threads (fun _ k p => k = key → FromZero crc p.log)
    (fun k p task => k = key → Task.Continues crc p.log task) b

/-- A follower holds a first part of the leader's log, and the request it waits
for is served. -/
structure Follows (crc : Checksum) (key : TopicPartition) (b : Broker) (id : Int32)
    (f : Follower) : Prop where
  stored : storedRecords crc f.log <+: storedRecords crc (b.partitions key).log
  lowest : f.log.lowestOffset = 0
  served : ∀ thread fetchOffset, f.awaiting = some (thread, fetchOffset) →
    ∃ phase, b.handlers[thread]? = some ⟨key, .replicaFetch ⟨id, fetchOffset⟩ phase⟩

structure Agreed (crc : Checksum) (key : TopicPartition) (c : Cluster) : Prop where
  leads : Leads crc key c.broker
  sound : ∀ id, (c.followers id).Sound crc
  follows : ∀ id, Follows crc key c.broker id (c.followers id)

section

variable {crc : Checksum} {cfg : BrokerConfig} {key : TopicPartition} {c c' : Cluster}

theorem leads_step {b b' : Broker} {e : Event} (h : Leads crc key b)
    (hguard : ∀ thread choice task, e = .run thread choice →
      b.handlers[thread]? = some ⟨key, task⟩ →
      Task.readsWithoutGap crc cfg (b.partitions key).log task = true)
    (hstep : b.step crc cfg e = some b') : Leads crc key b' := by
  refine threads_step_key h hstep (fun _ _ _ _ hp => hp) ?_ ?_
  · intro request _
    cases request with
    | replicaFetch request => exact List.nil_prefix
    | _ => trivial
  · intro thread choice task task' p q he hg hnext
    have hp := h.partitions key rfl
    have htask := h.handlers _ (List.mem_of_getElem? hg) rfl
    obtain ⟨added, hextends⟩ := PartitionStep.extends_log (partitionStep_next hnext) hp.wellFormed
    refine ⟨hp.extend hextends, ?_, fun other hother => continues_extend hother hextends⟩
    exact continues_next hp htask (hguard thread choice task he hg) hextends hnext

theorem Follows.step {b b' : Broker} {e : Event} {id : Int32} {f : Follower}
    (h : Follows crc key b id f) (hlog : WellFormed crc (b.partitions key).log)
    (hstep : b.step crc cfg e = some b') : Follows crc key b' id f := by
  refine ⟨?_, h.lowest, ?_⟩
  · obtain ⟨added, hextends⟩ := extends_step hlog hstep
    rw [hextends.stored]
    exact h.stored.trans (List.prefix_append _ _)
  · intro thread fetchOffset hawaiting
    obtain ⟨phase, hthread⟩ := h.served thread fetchOffset hawaiting
    exact replicaFetch_kept hstep hthread

/-- What the leader returned for the log end of a follower continues the
follower's log. -/
theorem stored_receive {leader follower : Log} {taken : List Record} (hleader : FromZero crc leader)
    (hfollower : WellFormed crc follower) (hlowest : follower.lowestOffset = 0)
    (hstored : storedRecords crc follower <+: storedRecords crc leader)
    (htaken : taken <+: (storedRecords crc leader).drop follower.highestOffset.toInt.toNat) :
    storedRecords crc follower ++ stampAll follower.highestOffset taken <+:
      storedRecords crc leader := by
  obtain ⟨rest, hrest⟩ := hstored
  have hend := hfollower.highestOffset
  rw [hlowest, Int64.toInt_zero, zero_add] at hend
  have hrange := hfollower.range
  rw [hlowest] at hrange
  have hbase : follower.highestOffset = 0 + Int64.ofNat (storedRecords crc follower).length := by
    apply Int64.toInt_inj.mp
    rw [hend, toInt_add_ofNat hrange, Int64.toInt_zero, zero_add]
  rw [hend, Int.toNat_natCast, ← hrest, List.drop_left] at htaken
  have hnumbered := numbered_stored hleader.wellFormed
  rw [hleader.lowest, ← hrest, numbered_append, ← hbase] at hnumbered
  obtain ⟨more, rfl⟩ := htaken
  rw [stampAll_numbered (numbered_append.mp hnumbered.2).1, ← hrest, List.prefix_append_right_inj]
  exact List.prefix_append taken more

theorem agreed_step {e : ClusterEvent} (h : Agreed crc key c)
    (hguard : readsWithoutGap crc cfg key c e = true)
    (hstep : c.step crc cfg key e = some c') : Agreed crc key c' := by
  have hlog := (h.leads.partitions key rfl).wellFormed
  have hsound := fun id => (followers_step h.sound hstep id).sound
  cases e with
  | leader e =>
    obtain ⟨-, broker, hbroker, rfl⟩ := step_leader hstep
    refine ⟨leads_step h.leads ?_ hbroker, hsound, fun id => (h.follows id).step hlog hbroker⟩
    rintro thread choice task rfl hg
    simpa [readsWithoutGap, hg] using hguard
  | request sender =>
    obtain ⟨-, -, hbroker, hfollowers⟩ := step_request hstep
    have hfollows (id : Int32) := (h.follows id).step hlog hbroker
    refine ⟨leads_step h.leads (fun _ _ _ he => by cases he) hbroker, hsound, ?_⟩
    rw [hfollowers]
    refine (Function.forall_update_iff c.followers (Follows crc key c'.broker)).mpr
      ⟨?_, fun id _ => hfollows id⟩
    refine ⟨(hfollows sender).stored, (hfollows sender).lowest,
      fun thread fetchOffset hawaiting => ?_⟩
    cases hawaiting
    refine ⟨.received, ?_⟩
    rw [← Option.some.inj hbroker]
    exact List.getElem?_concat_length
  | deliver receiver env =>
    obtain ⟨thread, fetchOffset, k, request, payload, f, hawaiting, hthread, hreceive, rfl⟩ :=
      step_deliver hstep
    refine ⟨h.leads, hsound, (Function.forall_update_iff c.followers
      (Follows crc key c.broker)).mpr ⟨?_, fun id _ => h.follows id⟩⟩
    have hfollows := h.follows receiver
    have hreceiver := h.sound receiver
    -- the response answers the request that asked for the follower's log end
    obtain ⟨phase, hserved⟩ := hfollows.served thread fetchOffset hawaiting
    cases Option.some.inj (hthread.symm.trans hserved)
    obtain rfl := hreceiver.awaiting thread fetchOffset hawaiting
    obtain ⟨-, hidle, taken, hextends, htaken⟩ := hreceiver.receive rfl hreceive
    have hcontinues := h.leads.handlers _ (List.mem_of_getElem? hthread) rfl
    refine ⟨?_, hextends.lowest.trans hfollows.lowest, by simp [hidle]⟩
    rw [hextends.stored]
    exact stored_receive (h.leads.partitions key rfl) hreceiver.log hfollows.lowest
      hfollows.stored (htaken.trans hcontinues)
  | giveUp quitter =>
    obtain rfl := Option.some.inj hstep
    have hquitter := h.follows quitter
    refine ⟨h.leads, hsound, (Function.forall_update_iff c.followers
      (Follows crc key c.broker)).mpr ⟨?_, fun id _ => h.follows id⟩⟩
    exact ⟨hquitter.stored, hquitter.lowest, by simp⟩

theorem agreed_newCluster {logs : TopicPartition → Log} {followerLogs : Int32 → Log} {now : Int}
    (hleader : FromZero crc (logs key))
    (hfollowers : ∀ id, WellFormed crc (followerLogs id) ∧
      storedRecords crc (followerLogs id) = [] ∧ (followerLogs id).lowestOffset = 0) :
    Agreed crc key (newCluster cfg logs followerLogs now) := by
  refine ⟨⟨?_, ?_⟩, fun id => newFollower_sound (hfollowers id).1, fun id => ⟨?_, ?_, ?_⟩⟩
  · rintro k rfl
    exact hleader
  · intro g hg
    cases hg
  · change storedRecords crc (followerLogs id) <+: _
    rw [(hfollowers id).2.1]
    exact List.nil_prefix
  · exact (hfollowers id).2.2
  · simp [newCluster, newFollower]

theorem read_of_initial {l l' : Log} (h : WellFormed crc l) (h' : WellFormed crc l')
    (hlowest : l.lowestOffset = l'.lowestOffset)
    (hstored : storedRecords crc l <+: storedRecords crc l') {offset : Int64} {r : Record}
    (hread : l.read crc offset = .ok r) : l'.read crc offset = .ok r := by
  have hspec := read_spec h offset
  have hspec' := read_spec h' offset
  cases hat : recordAt l.lowestOffset (storedRecords crc l) offset with
  | none =>
    rw [hat] at hspec
    obtain ⟨e, herror⟩ := hspec
    rw [hread] at herror
    cases herror
  | some q =>
    rw [hat] at hspec
    obtain rfl : r = q := Except.ok.inj (hread.symm.trans hspec)
    have hat' : recordAt l'.lowestOffset (storedRecords crc l') offset = some r := by
      rw [recordAt, hlowest] at hat
      rw [recordAt]
      split at hat
      · rename_i hle
        rw [if_pos hle]
        obtain ⟨hlt, rfl⟩ := List.getElem?_eq_some_iff.mp hat
        rw [hstored.getElem hlt]
        exact List.getElem?_eq_getElem _
      · cases hat
    rwa [hat'] at hspec'

/-- In every run in which no read for a follower skips a record, every follower
holds a first part of the leader's log: what it stores at an offset, the leader
stores there too. -/
theorem follower_agrees_with_leader {leaderCfg : Config} {followerCfg : Int32 → Config}
    {modTime : Int64 → Int} {now : Int} {opened : Int32 → Int} {logs : TopicPartition → Log}
    {followerLogs : Int32 → Log} (hleader : newLog crc leaderCfg [] modTime now = .ok (logs key))
    (hfollowers : ∀ id,
      newLog crc (followerCfg id) [] modTime (opened id) = .ok (followerLogs id))
    {steps : List ClusterEvent}
    (hrun : Run (Guarded (readsWithoutGap crc cfg key) (Cluster.step crc cfg key))
      (newCluster cfg logs followerLogs now) steps c) (id : Int32) :
    storedRecords crc (c.followers id).log <+: storedRecords crc (c.broker.partitions key).log ∧
      ∀ offset r, (c.followers id).log.read crc offset = .ok r →
        (c.broker.partitions key).log.read crc offset = .ok r := by
  have hagreed : Agreed crc key c := by
    refine hrun.invariant (agreed_newCluster ?_ ?_) ?_
    · obtain ⟨hwf, -, hlowest, hsealed, -⟩ := newLog_empty hleader
      refine ⟨hwf, ?_, hlowest⟩
      rw [NextOffsetsKnown, hsealed]
      simp
    · intro id
      obtain ⟨hwf, hstored, hlowest, -⟩ := newLog_empty (hfollowers id)
      exact ⟨hwf, hstored, hlowest⟩
    · rintro s e t hs ⟨hguard, hstep⟩
      exact agreed_step hs hguard hstep
  have hleads := hagreed.leads.partitions key rfl
  have hfollows := hagreed.follows id
  refine ⟨hfollows.stored, fun offset r =>
    read_of_initial (hagreed.sound id).log hleads.wellFormed ?_ hfollows.stored⟩
  rw [hfollows.lowest, hleads.lowest]

end

def produceThree : ProduceRequest :=
  { acks := 1, timeoutMs := 1000,
    recordSet := image castagnoli [bareRecord 1, bareRecord 2, bareRecord 3] }

/-- The records are produced, the follower fetches and receives the response. -/
def fetchThree : List ClusterEvent :=
  .leader (.arrive events (.produce produceThree)) :: List.replicate 6 (.leader (.run 0 calm)) ++
    .request 2 :: List.replicate 6 (.leader (.run 1 calm)) ++ [.deliver 2 calm.surroundings]

def emptyPair (cfg : BrokerConfig) : Cluster :=
  newCluster cfg (fun _ => emptyLog) (fun _ => emptyLog) 0

def narrowConfig : BrokerConfig := { pairConfig with replicaFetchMaxBytes := 50 }

/-- The leader returns the records 0 and 2, and the follower stores them at the
offsets 0 and 1. -/
theorem follower_stores_other_record :
    ∃ c, Run (Guarded (fun _ _ => true) (Cluster.step castagnoli narrowConfig events))
        (emptyPair narrowConfig) fetchThree c ∧
      (c.followers 2).log.read castagnoli 1 = .ok { bareRecord 3 with offset := 1 } ∧
      (c.broker.partitions events).log.read castagnoli 1 =
        .ok { bareRecord 2 with offset := 1 } := by
  have hend : (execute (fun _ _ => true) (Cluster.step castagnoli narrowConfig events)
      (emptyPair narrowConfig) fetchThree).map
        (fun c => ((c.followers 2).log.read castagnoli 1,
          (c.broker.partitions events).log.read castagnoli 1)) =
      some (.ok { bareRecord 3 with offset := 1 }, .ok { bareRecord 2 with offset := 1 }) := by
    decide +kernel
  obtain ⟨c, hrun, hc⟩ := exists_run_of_execute hend
  exact ⟨c, hrun, Prod.mk.inj hc⟩

theorem follower_agrees_with_leader_threeRecords :
    ∃ c, Run (Guarded (readsWithoutGap castagnoli pairConfig events)
          (Cluster.step castagnoli pairConfig events)) (emptyPair pairConfig) fetchThree c ∧
      (c.followers 2).log.read castagnoli 2 = .ok { bareRecord 3 with offset := 2 } ∧
      (c.broker.partitions events).log.read castagnoli 2 =
        .ok { bareRecord 3 with offset := 2 } := by
  have hend : (execute (readsWithoutGap castagnoli pairConfig events)
      (Cluster.step castagnoli pairConfig events) (emptyPair pairConfig) fetchThree).map
        (fun c => (c.followers 2).log.read castagnoli 2) =
      some (.ok { bareRecord 3 with offset := 2 }) := by
    decide +kernel
  obtain ⟨c, hrun, hread⟩ := exists_run_of_execute hend
  have hagree := follower_agrees_with_leader newLog_small (fun _ => newLog_small) hrun 2
  exact ⟨c, hrun, hread, hagree.2 2 _ hread⟩

end MiniKafka.ReplicaAgreement
