import MiniKafka.BrokerHandlers
import MiniKafka.LogReads
import MiniKafka.LogWrites

/-!
A partition and the brokers that replicate it: `followerFetchOnce` of
`internal/broker/broker_replication.go` against `handleReplicaFetch` of the
leader.

A follower has one request under way at a time.  It waits for the response or
gives up; the leader may serve a request that was given up at any later time.
Responses are delivered as they were sent or lost.
-/

namespace MiniKafka.ReplicaCluster

open BigEndian RecordCodec RecordSets PartitionLog LogContents LogWrites InSyncReplicas
  BrokerHandlers

/-- `DecodeReplicaFetchResponse`: a record that does not decode ends the
response. -/
def decodeReplicaFetchResponse (crc : Checksum) (data : Bytes) :
    Except DecodeError (Int16 × Int64 × List Record) := do
  let errorCode ← readFull 2 data
  let hw ← readFull 8 (data.drop 2)
  return ((UInt16.ofNat (getBE errorCode)).toInt16, (getUint64 hw).toInt64,
    (decodeRecords crc (data.drop 10)).1)

/-- What `sendReplicaFetch` returns for a response frame: nothing if the frame
or its payload reports an error. -/
def sendReplicaFetch (crc : Checksum) (payload : Option Bytes) : Option (List Record × Int64) :=
  match payload.map (decodeReplicaFetchResponse crc) with
  | some (.ok (errorCode, hw, records)) => if errorCode = 0 then some (records, hw) else none
  | _ => none

/-- A partition on a follower.  `nextFetch` is the entry of the map `offsets` in
`followerFetchLoop`; `awaiting` is the request under way, by the thread that
serves it and the offset it asks for. -/
structure Follower where
  log : Log
  highWatermark : Int64
  nextFetch : Int64
  awaiting : Option (Nat × Int64)
  deriving DecidableEq

def newFollower (log : Log) : Follower := ⟨log, log.highestOffset, 0, none⟩

def Follower.fetchOffset (f : Follower) : Int64 :=
  if f.nextFetch < f.log.highestOffset then f.log.highestOffset else f.nextFetch

/-- The follower adopts the high watermark of the leader, capped at its own log
end. -/
def Follower.adopt (f : Follower) (hw : Int64) : Follower :=
  { f with
    highWatermark := raise f.highWatermark
      (if f.log.highestOffset < hw then f.log.highestOffset else hw) }

/-- The rest of `followerFetchOnce`, once the request for `fetchOffset` has its
response.  There is no step without offsets for the records of the batch. -/
def Follower.receive (crc : Checksum) (f : Follower) (fetchOffset : Int64) (payload : Option Bytes)
    (env : Nat → Surroundings) : Option Follower :=
  match sendReplicaFetch crc payload with
  | none => some { f with awaiting := none }
  | some ([], hw) => some ({ f with awaiting := none, nextFetch := fetchOffset }.adopt hw)
  | some (records, hw) =>
    if OffsetsLeft f.log records.length then
      match f.log.appendRecords crc records env with
      | (log, _, some _) => some { f with awaiting := none, log := log }
      | (log, _, none) =>
        some ({ f with awaiting := none, log := log, nextFetch := log.highestOffset }.adopt hw)
    else none

structure Cluster where
  broker : Broker
  followers : Int32 → Follower

inductive ClusterEvent where
  | leader (e : Event)
  | request (id : Int32)
  | deliver (id : Int32) (env : Nat → Surroundings)
  | giveUp (id : Int32)

def fromFollower (key : TopicPartition) : Event → Bool
  | .arrive k (.replicaFetch _) => decide (k = key)
  | _ => false

/-- One step of the cluster: the leader takes a step, a follower sends a
request, receives the response, or gives up. -/
def Cluster.step (crc : Checksum) (cfg : BrokerConfig) (key : TopicPartition) (c : Cluster) :
    ClusterEvent → Option Cluster
  | .leader e =>
    if fromFollower key e then none
    else (c.broker.step crc cfg e).map fun broker => { c with broker := broker }
  | .request id =>
    let f := c.followers id
    if id ∈ cfg.replicaIDs ∧ id ≠ cfg.localID ∧ f.awaiting = none then
      (c.broker.step crc cfg (.arrive key (.replicaFetch ⟨id, f.fetchOffset⟩))).map fun broker =>
        { broker := broker
          followers := Function.update c.followers id
            { f with awaiting := some (c.broker.handlers.length, f.fetchOffset) } }
    else none
  | .deliver id env =>
    match (c.followers id).awaiting with
    | none => none
    | some (thread, fetchOffset) =>
      match c.broker.handlers[thread]? with
      | some ⟨_, .replicaFetch _ (.answered payload)⟩ =>
        ((c.followers id).receive crc fetchOffset payload env).map fun f =>
          { c with followers := Function.update c.followers id f }
      | _ => none
  | .giveUp id =>
    some { c with
      followers := Function.update c.followers id { c.followers id with awaiting := none } }

def newCluster (cfg : BrokerConfig) (logs : TopicPartition → Log) (followerLogs : Int32 → Log)
    (now : Int) : Cluster where
  broker := newBroker cfg logs now
  followers id := newFollower (followerLogs id)

section

variable {crc : Checksum}

def responseHeader (errorCode : Int16) (hw : Int64) : Bytes :=
  putBE 2 errorCode.toUInt16.toNat ++ putUint64 hw.toUInt64

theorem length_responseHeader (errorCode : Int16) (hw : Int64) :
    (responseHeader errorCode hw).length = 10 := by
  simp [responseHeader]

theorem decodeReplicaFetchResponse_header (errorCode : Int16) (hw : Int64) (rest : Bytes) :
    decodeReplicaFetchResponse crc (responseHeader errorCode hw ++ rest) =
      .ok (errorCode, hw, (decodeRecords crc rest).1) := by
  have hcode : errorCode.toUInt16.toNat < 256 ^ 2 := errorCode.toUInt16.toNat_lt
  have hfirst : readFull 2 (responseHeader errorCode hw ++ rest) =
      .ok (putBE 2 errorCode.toUInt16.toNat) := by
    rw [readFull, if_pos (by simp [responseHeader]), responseHeader, List.append_assoc,
      List.take_left' (length_putBE _ _)]
  have hsecond : readFull 8 ((responseHeader errorCode hw ++ rest).drop 2) =
      .ok (putUint64 hw.toUInt64) := by
    rw [responseHeader, List.append_assoc, List.drop_left' (length_putBE _ _), readFull,
      if_pos (by simp), List.take_left' (length_putUint64 _)]
  have hrest : (responseHeader errorCode hw ++ rest).drop 10 = rest :=
    List.drop_left' (length_responseHeader errorCode hw)
  rw [decodeReplicaFetchResponse, hfirst, hsecond, hrest]
  change Except.ok ((UInt16.ofNat (getBE _)).toInt16, (getUint64 _).toInt64, _) = _
  rw [getBE_putBE_of_lt hcode, getUint64_putUint64, UInt16.ofNat_toNat]
  rfl

theorem decodeReplicaFetchResponse_encoded {errorCode : Int16} {hw : Int64} {records : List Record}
    {payload : Bytes} (h : encodeReplicaFetchResponse crc errorCode hw records = .ok payload) :
    decodeReplicaFetchResponse crc payload = .ok (errorCode, hw, records) := by
  rw [encodeReplicaFetchResponse] at h
  cases hset : encodeRecords crc records with
  | error e =>
    rw [hset] at h
    cases h
  | ok recordSet =>
    rw [hset] at h
    cases h
    refine (decodeReplicaFetchResponse_header errorCode hw recordSet).trans ?_
    rw [decodeRecords_encoded hset]

/-- What holds of a follower throughout: it never asks for more than follows its
own log. -/
structure Follower.Sound (crc : Checksum) (f : Follower) : Prop where
  log : WellFormed crc f.log
  nextFetch : f.nextFetch.toInt ≤ f.log.highestOffset.toInt
  awaiting : ∀ thread fetchOffset, f.awaiting = some (thread, fetchOffset) →
    fetchOffset = f.log.highestOffset

theorem Follower.Sound.fetchOffset {f : Follower} (h : f.Sound crc) :
    f.fetchOffset = f.log.highestOffset := by
  have hnext := h.nextFetch
  rw [Follower.fetchOffset]
  split
  · rfl
  · rename_i hnot
    rw [Int64.lt_iff_toInt_lt] at hnot
    apply Int64.toInt_inj.mp
    omega

theorem Follower.Sound.receive {f f' : Follower} {fetchOffset : Int64} {payload : Option Bytes}
    {env : Nat → Surroundings} (h : f.Sound crc) (hoffset : fetchOffset = f.log.highestOffset)
    (hreceive : f.receive crc fetchOffset payload env = some f') :
    f'.Sound crc ∧ f'.awaiting = none ∧
      ∃ taken, Extends crc f.log f'.log (stampAll f.log.highestOffset taken) ∧
        taken <+: ((sendReplicaFetch crc payload).map Prod.fst).getD [] := by
  rw [Follower.receive] at hreceive
  split at hreceive
  · cases hreceive
    exact ⟨⟨h.log, h.nextFetch, by simp⟩, rfl, [], Extends.refl h.log, List.nil_prefix⟩
  · cases hreceive
    exact ⟨⟨h.log, (congrArg Int64.toInt hoffset).le, by simp [Follower.adopt]⟩, rfl, [],
      Extends.refl h.log, List.nil_prefix⟩
  · rename_i records hw hne hsend
    rw [hsend]
    split at hreceive
    · rename_i hleft
      obtain ⟨taken, htaken, hextends, -⟩ := appendRecords_spec h.log env hleft
      have hnext := h.nextFetch.trans (hextends.highestOffset_le h.log)
      split at hreceive
      · rename_i log base error heq
        cases hreceive
        rw [heq] at hextends hnext
        exact ⟨⟨hextends.wellFormed, hnext, by simp⟩, rfl, taken, hextends, htaken⟩
      · rename_i log base heq
        cases hreceive
        rw [heq] at hextends
        exact ⟨⟨hextends.wellFormed, le_rfl, by simp [Follower.adopt]⟩, rfl, taken, hextends,
          htaken⟩
    · cases hreceive

end

section

variable {crc : Checksum} {cfg : BrokerConfig} {key : TopicPartition} {c c' : Cluster} {id : Int32}

theorem PartitionStep.extends_log {now : Int} {task : Task} {p p' : Partition}
    (hstep : PartitionStep crc cfg now task p p') (h : WellFormed crc p.log) :
    ∃ added, Extends crc p.log p'.log added := by
  cases hstep with
  | append env hleft =>
    obtain ⟨taken, -, hextends, -⟩ := appendRecords_spec h env hleft
    exact ⟨_, hextends⟩
  | _ => exact ⟨[], Extends.refl h⟩

theorem extends_step {b b' : Broker} {e : Event} (h : WellFormed crc (b.partitions key).log)
    (hstep : b.step crc cfg e = some b') :
    ∃ added, Extends crc (b.partitions key).log (b'.partitions key).log added := by
  cases e with
  | arrive k request =>
    obtain rfl := Option.some.inj hstep
    exact ⟨[], Extends.refl h⟩
  | tick elapsed =>
    obtain rfl := Option.some.inj hstep
    exact ⟨[], Extends.refl h⟩
  | run thread choice =>
    obtain ⟨g, task, p, q, -, hnext, rfl⟩ := step_run hstep
    by_cases hkey : key = g.key
    · subst hkey
      simpa using PartitionStep.extends_log (partitionStep_next hnext) h
    · simpa [hkey] using ⟨[], Extends.refl h⟩

theorem step_leader {e : Event} (hstep : c.step crc cfg key (.leader e) = some c') :
    fromFollower key e = false ∧
      ∃ broker, c.broker.step crc cfg e = some broker ∧ c' = { c with broker := broker } := by
  rw [Cluster.step] at hstep
  split at hstep
  · cases hstep
  · rename_i hnot
    obtain ⟨broker, hbroker, rfl⟩ := Option.map_eq_some_iff.mp hstep
    exact ⟨Bool.eq_false_iff.mpr hnot, broker, hbroker, rfl⟩

theorem step_request (hstep : c.step crc cfg key (.request id) = some c') :
    id ∈ cfg.replicaIDs ∧ id ≠ cfg.localID ∧
      c.broker.step crc cfg (.arrive key (.replicaFetch ⟨id, (c.followers id).fetchOffset⟩)) =
        some c'.broker ∧
      c'.followers = Function.update c.followers id
        { c.followers id with
          awaiting := some (c.broker.handlers.length, (c.followers id).fetchOffset) } := by
  rw [Cluster.step] at hstep
  split at hstep
  · rename_i hallowed
    obtain ⟨broker, hbroker, rfl⟩ := Option.map_eq_some_iff.mp hstep
    exact ⟨hallowed.1, hallowed.2.1, hbroker, rfl⟩
  · cases hstep

theorem step_deliver {env : Nat → Surroundings}
    (hstep : c.step crc cfg key (.deliver id env) = some c') :
    ∃ thread fetchOffset k request payload f,
      (c.followers id).awaiting = some (thread, fetchOffset) ∧
      c.broker.handlers[thread]? = some ⟨k, .replicaFetch request (.answered payload)⟩ ∧
      (c.followers id).receive crc fetchOffset payload env = some f ∧
      c' = { c with followers := Function.update c.followers id f } := by
  rw [Cluster.step] at hstep
  split at hstep
  · cases hstep
  · rename_i thread fetchOffset hawaiting
    split at hstep
    · rename_i k request payload hthread
      obtain ⟨f, hreceive, rfl⟩ := Option.map_eq_some_iff.mp hstep
      exact ⟨thread, fetchOffset, k, request, payload, f, hawaiting, hthread, hreceive, rfl⟩
    · cases hstep

structure Follower.Grows (crc : Checksum) (f f' : Follower) : Prop where
  sound : f'.Sound crc
  extended : ∃ added, Extends crc f.log f'.log added

theorem followers_step {e : ClusterEvent} (h : ∀ id, (c.followers id).Sound crc)
    (hstep : c.step crc cfg key e = some c') :
    ∀ id, (c.followers id).Grows crc (c'.followers id) := by
  have hsame (id : Int32) : (c.followers id).Grows crc (c.followers id) :=
    ⟨h id, [], Extends.refl (h id).log⟩
  have hupdate := fun id f => Function.forall_update_iff c.followers (a := id) (b := f)
    fun id => Follower.Grows crc (c.followers id)
  cases e with
  | leader e =>
    obtain ⟨-, broker, -, rfl⟩ := step_leader hstep
    exact hsame
  | request sender =>
    obtain ⟨-, -, -, hfollowers⟩ := step_request hstep
    rw [hfollowers]
    refine (hupdate _ _).mpr ⟨⟨?_, (hsame sender).extended⟩, fun id _ => hsame id⟩
    refine ⟨(h sender).log, (h sender).nextFetch, fun thread fetchOffset hawaiting => ?_⟩
    cases hawaiting
    exact (h sender).fetchOffset
  | deliver receiver env =>
    obtain ⟨thread, fetchOffset, k, request, payload, f, hawaiting, -, hreceive, rfl⟩ :=
      step_deliver hstep
    have hasked := (h receiver).awaiting thread fetchOffset hawaiting
    obtain ⟨hsound, -, taken, hextends, -⟩ := (h receiver).receive hasked hreceive
    exact (hupdate _ _).mpr ⟨⟨hsound, _, hextends⟩, fun id _ => hsame id⟩
  | giveUp quitter =>
    obtain rfl := Option.some.inj hstep
    refine (hupdate _ _).mpr ⟨⟨?_, (hsame quitter).extended⟩, fun id _ => hsame id⟩
    exact ⟨(h quitter).log, (h quitter).nextFetch, by simp⟩

theorem newFollower_sound {l : Log} (h : WellFormed crc l) : (newFollower l).Sound crc :=
  ⟨h, h.highestOffset_nonneg, by simp [newFollower]⟩

end

end MiniKafka.ReplicaCluster
