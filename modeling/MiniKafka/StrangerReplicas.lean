import MiniKafka.AcksAllQuorum

/-!
Replica fetches of brokers outside the replica set.

`handleReplicaFetch` of `internal/broker/broker.go` takes the replica id of a
request as it comes, and `UpdateLEO` of `internal/replication/isr.go` adds an id
that it does not know to the replicas, in sync.
-/

namespace MiniKafka.StrangerReplicas

open Durations RecordCodec SegmentStore PartitionLog LogContents InSyncReplicas BrokerHandlers Runs
open LogRefinement (Reached reached_small)
open AcksAllQuorum (followerLEO_nonneg ran finish_run)

section

variable (crc : Checksum) (cfg : BrokerConfig) (key : TopicPartition)
  (request : ReplicaFetchRequest)

def finish (now : Int) :
    Nat → ReplicaFetchPhase → Partition → Purgatory → ReplicaFetchPhase × Partition × Purgatory
  | 0, phase, p, q => (phase, p, q)
  | n + 1, phase, p, q =>
    match phase.next crc cfg request key now p q with
    | none => (phase, p, q)
    | some (phase, p, q) => finish now n phase p q

/-- `handleReplicaFetch`: its handler takes six steps at most. -/
def handleReplicaFetch (now : Int) (p : Partition) (q : Purgatory) :
    ReplicaFetchPhase × Partition × Purgatory :=
  finish crc cfg key request now 6 .received p q

def handled (b : Broker) : Broker :=
  let result := handleReplicaFetch crc cfg key request b.now (b.partitions key) b.purgatory
  { b with
    partitions := Function.update b.partitions key result.2.1
    purgatory := result.2.2
    handlers := b.handlers ++ [⟨key, .replicaFetch request result.1⟩] }

/-- The log does not serve the request, and the handler leaves the partition
alone. -/
def refused (p : Partition) : Bool :=
  (p.log.readFrom crc request.fetchOffset cfg.fetchBudget).2.any fun e => !LogError.isEOF e

def leaderRecorded (now : Int) (p : Partition) : Partition :=
  if refused crc cfg request p then p
  else p.updateLEO cfg.localID p.log.highestOffset p.log.highestOffset now

def creditedLEO (p : Partition) : Int64 :=
  followerLEO request (p.log.readFrom crc request.fetchOffset cfg.fetchBudget).1

end

def AdmitsAcksAll (cfg : BrokerConfig) (p : Partition) : Prop :=
  cfg.minInsync.toInt ≤ p.tracker.getISR.length

/-- The high watermark is below the log end of every configured replica in
sync. -/
def HeldBelow (cfg : BrokerConfig) (p : Partition) : Prop :=
  ∀ r ∈ p.tracker.replicas, r.inSync = true → r.brokerID ∈ cfg.replicaIDs →
    p.tracker.highWatermark < r.logEndOffset

instance (cfg : BrokerConfig) (p : Partition) : Decidable (HeldBelow cfg p) :=
  inferInstanceAs (Decidable (∀ r ∈ p.tracker.replicas, _))

/-- The next step of a thread does not update a replica outside the replica
set. -/
def updatesConfigured (cfg : BrokerConfig) (b : Broker) : Event → Bool
  | .run thread _ =>
    match b.handlers[thread]? with
    | none => true
    | some h =>
      match h.task.pendingUpdate cfg with
      | none => true
      | some (id, _, _) => cfg.replicaIDs.any fun x => decide (x = id)
  | _ => true

/-- What a request of a replica outside the replica set must not do. -/
structure Harmless (crc : Checksum) (cfg : BrokerConfig) (key : TopicPartition)
    (request : ReplicaFetchRequest) (b : Broker) : Prop where
  subset : ∀ id ∈ ((handled crc cfg key request b).partitions key).tracker.getISR,
    id ∈ cfg.replicaIDs
  admission : AdmitsAcksAll cfg (b.partitions key) ↔
    AdmitsAcksAll cfg ((handled crc cfg key request b).partitions key)
  watermark : ∀ later b', Run (Guarded (updatesConfigured cfg) (Broker.step crc cfg))
      (handled crc cfg key request b) later b' → ¬ HeldBelow cfg (b'.partitions key)

/-- No stranger is in sync, and the requesting one stays out: it is known already
and ends below the leader even now.  A lag limit that has wrapped keeps everyone
out. -/
structure StaysOut (cfg : BrokerConfig) (id : Int32) (leo leaderLEO : Int64) (t : ISRTracker) :
    Prop where
  others : ∀ x ∈ t.getISR, x ∈ cfg.replicaIDs
  requester : milliseconds t.replicaLagTimeMaxMs < 0 ∨ ∃ r ∈ t.replicas, r.brokerID = id ∧
    r.logEndOffset < effectiveLeaderLEO t.leaderID leaderLEO t.replicas ∧
    leo < effectiveLeaderLEO t.leaderID leaderLEO t.replicas

-- Not by going through all numbers of a broker.
instance (cfg : BrokerConfig) (isr : List Int32) : Decidable (∀ x ∈ isr, x ∈ cfg.replicaIDs) :=
  List.decidableBAll _ isr

instance (cfg : BrokerConfig) (id : Int32) (leo leaderLEO : Int64) (t : ISRTracker) :
    Decidable (StaysOut cfg id leo leaderLEO t) :=
  decidable_of_iff
    ((∀ x ∈ t.getISR, x ∈ cfg.replicaIDs) ∧
      (milliseconds t.replicaLagTimeMaxMs < 0 ∨ ∃ r ∈ t.replicas, r.brokerID = id ∧
        r.logEndOffset < effectiveLeaderLEO t.leaderID leaderLEO t.replicas ∧
        leo < effectiveLeaderLEO t.leaderID leaderLEO t.replicas))
    ⟨fun h => ⟨h.1, h.2⟩, fun h => ⟨h.others, h.requester⟩⟩

/-- Requests that keep strangers out, by the state they meet. -/
def StrangersStayOut (crc : Checksum) (cfg : BrokerConfig) (request : ReplicaFetchRequest)
    (now : Int) (p : Partition) : Prop :=
  if refused crc cfg request p then ∀ x ∈ p.tracker.getISR, x ∈ cfg.replicaIDs
  else StaysOut cfg request.replicaID (creditedLEO crc cfg request p) p.log.highestOffset
    (leaderRecorded crc cfg request now p).tracker

instance (crc : Checksum) (cfg : BrokerConfig) (request : ReplicaFetchRequest) (now : Int)
    (p : Partition) : Decidable (StrangersStayOut crc cfg request now p) :=
  inferInstanceAs (Decidable (if refused crc cfg request p then
    ∀ x ∈ p.tracker.getISR, x ∈ cfg.replicaIDs
    else StaysOut cfg request.replicaID (creditedLEO crc cfg request p) p.log.highestOffset
      (leaderRecorded crc cfg request now p).tracker))

/-- The leader, and the replicas that are within the lag limit at the instant `now`. -/
def onTime (now : Int) (t : ISRTracker) : List Int32 :=
  (t.replicas.filter fun r => decide (r.brokerID = t.leaderID) ||
    !decide (milliseconds t.replicaLagTimeMaxMs < elapsed now r.lastCaughtUpTime)).map
      ReplicaState.brokerID

/-- Enough replicas are on time exactly if enough have been in sync.  The handler updates
the leader first, and then those that have come to lag are not in sync any more. -/
def AdmissionSteady (crc : Checksum) (cfg : BrokerConfig) (request : ReplicaFetchRequest)
    (now : Int) (p : Partition) : Prop :=
  refused crc cfg request p = true ∨
    (AdmitsAcksAll cfg p ↔ cfg.minInsync.toInt ≤ (onTime now p.tracker).length)

instance (crc : Checksum) (cfg : BrokerConfig) (request : ReplicaFetchRequest) (now : Int)
    (p : Partition) : Decidable (AdmissionSteady crc cfg request now p) :=
  inferInstanceAs (Decidable (refused crc cfg request p = true ∨
    (cfg.minInsync.toInt ≤ p.tracker.getISR.length ↔
      cfg.minInsync.toInt ≤ (onTime now p.tracker).length)))

/-- What holds of a partition in every run, whoever sends replica fetches. -/
structure Consistent (crc : Checksum) (cfg : BrokerConfig) (now : Int) (p : Partition) : Prop where
  log : WellFormed crc p.log
  nonNegative : p.tracker.NonNegative
  leader : p.tracker.leaderID = cfg.localID
  leaderInSync : ∃ r ∈ p.tracker.replicas, r.brokerID = cfg.localID ∧ r.inSync = true
  watermark : (minLEO p.tracker.replicas).toInt ≤ p.tracker.highWatermark.toInt
  lagging : ∀ r ∈ p.tracker.replicas, r.inSync = false →
    milliseconds p.tracker.replicaLagTimeMaxMs < elapsed now r.lastCaughtUpTime
  past : ∀ r ∈ p.tracker.replicas, r.lastCaughtUpTime ≤ now

def CarriesEnds : Task → Prop
  | .produce _ _ (.measured _ leaderLEO) => 0 ≤ leaderLEO.toInt
  | .replicaFetch request (.fetched records) => 0 ≤ (followerLEO request records).toInt
  | .replicaFetch request (.measured records leaderLEO) =>
    0 ≤ (followerLEO request records).toInt ∧ 0 ≤ leaderLEO.toInt
  | .replicaFetch request (.leaderUpdated records _) => 0 ≤ (followerLEO request records).toInt
  | _ => True

section

variable {crc : Checksum} {cfg : BrokerConfig} {now : Int} {p p' : Partition}

theorem consistent_later {now' : Int} (h : Consistent crc cfg now p) (hclock : now ≤ now') :
    Consistent crc cfg now' p where
  log := h.log
  nonNegative := h.nonNegative
  leader := h.leader
  leaderInSync := h.leaderInSync
  watermark := h.watermark
  lagging r hr hout := by
    have hlag := h.lagging r hr hout
    have hlater := elapsed_mono hclock r.lastCaughtUpTime
    rw [Int64.lt_iff_toInt_lt] at hlag ⊢
    omega
  past r hr := (h.past r hr).trans hclock

theorem consistent_updateLEO (h : Consistent crc cfg now p) (id : Int32) {leo : Int64}
    (leaderLEO : Int64) (hleo : 0 ≤ leo.toInt) :
    Consistent crc cfg now (p.updateLEO id leo leaderLEO now) where
  log := h.log
  nonNegative := nonNegative_updateLEO h.nonNegative (.inl hleo)
  leader := h.leader
  leaderInSync := by
    obtain ⟨leader, hmem, hid, -⟩ := h.leaderInSync
    obtain ⟨r, hr, hrid⟩ := tracked_updateLEO (.inl (List.mem_map.mpr ⟨leader, hmem, hid⟩))
    exact ⟨r, hr, hrid, (inSync_iff hr).mpr (.inl (hrid.trans h.leader.symm))⟩
  watermark := least_le_raise _ _
  lagging r hr hout := by
    by_contra hrecent
    rw [(inSync_iff hr).mpr (.inr hrecent)] at hout
    cases hout
  past r hr := by
    rcases lastCaughtUpTime_cases hr with ⟨-, htime⟩ | ⟨q, hq, -, htime⟩
    · exact htime.le
    · exact htime.trans_le (h.past q hq)

theorem pending_nonneg {task : Task} (htask : CarriesEnds task) {id : Int32} {leo leaderLEO : Int64}
    (hpending : task.pendingUpdate cfg = some (id, leo, leaderLEO)) : 0 ≤ leo.toInt := by
  rcases update_call hpending with ⟨_, _, _, rfl, -, rfl⟩ | ⟨_, _, rfl, -, rfl⟩ |
    ⟨_, _, rfl, -, rfl⟩
  · exact htask
  · exact htask.2
  · exact htask

theorem consistent_step {task : Task} (h : Consistent crc cfg now p) (htask : CarriesEnds task)
    (hstep : PartitionStep crc cfg now task p p') : Consistent crc cfg now p' := by
  cases hstep with
  | same => exact h
  | append env hleft =>
    obtain ⟨taken, -, hextends, -⟩ := LogWrites.appendRecords_spec h.log env hleft
    exact { h with log := hextends.wellFormed }
  | update hpending => exact consistent_updateLEO h _ _ (pending_nonneg htask hpending)
  | publish hpending => exact { h with }

theorem carriesEnds_next {key : TopicPartition} {channel : Nat} {choice : Choice} {q q' : Purgatory}
    {task task' : Task} (h : WellFormed crc p.log) (htask : CarriesEnds task)
    (hnext : task.next crc cfg key channel now choice p q = some (task', p', q')) :
    CarriesEnds task' := by
  cases task with
  | produce request deadline phase =>
    obtain ⟨⟨phase', p'', q''⟩, hphase, heq⟩ := Option.map_eq_some_iff.mp hnext
    cases heq
    cases produceStep_of_next hphase with
    | measure => exact h.highestOffset_nonneg
    | _ => trivial
  | replicaFetch request phase =>
    obtain ⟨⟨phase', p'', q''⟩, hphase, heq⟩ := Option.map_eq_some_iff.mp hnext
    cases heq
    cases phase with
    | received =>
      obtain ⟨rfl, rfl, rfl | ⟨records, rfl, hlow, hread⟩⟩ := received_next h.isOpen hphase
      · trivial
      · exact followerLEO_nonneg h hlow hread
    | fetched records =>
      cases hphase
      exact ⟨htask, h.highestOffset_nonneg⟩
    | measured records leaderLEO =>
      cases hphase
      exact htask.1
    | answered payload => cases hphase
    | _ =>
      cases hphase
      trivial
  | fetch request phase =>
    obtain ⟨phase', -, heq⟩ := Option.map_eq_some_iff.mp hnext
    cases heq
    trivial

abbrev Coherent (crc : Checksum) (cfg : BrokerConfig) (b : Broker) : Prop :=
  Threads (fun now _ p => Consistent crc cfg now p) (fun _ _ task => CarriesEnds task) b

theorem carriesEnds_begin (request : Request) (now : Int) : CarriesEnds (request.begin now) := by
  cases request <;> trivial

theorem coherent_step {b b' : Broker} {e : Event} (h : Coherent crc cfg b)
    (hstep : b.step crc cfg e = some b') : Coherent crc cfg b' := by
  refine threads_step h hstep (fun _ _ _ _ hclock hp => consistent_later hp hclock)
    (fun _ request _ => carriesEnds_begin request b.now) ?_
  intro thread choice g task p q _ hg hnext
  have hp := h.partitions g.key
  have htask := h.handlers g (List.mem_of_getElem? hg)
  exact ⟨consistent_step hp htask (partitionStep_next hnext), carriesEnds_next hp.log htask hnext,
    fun _ hother => hother⟩

theorem consistent_newPartition {log : Log} (hlog : WellFormed crc log)
    (hlocal : cfg.localID ∈ cfg.replicaIDs) (now : Int) :
    Consistent crc cfg now (newPartition cfg log now) := by
  have hfresh {r : ReplicaState} (hr : r ∈ (newPartition cfg log now).tracker.replicas) :
      r.logEndOffset = 0 ∧ r.lastCaughtUpTime = now ∧ r.inSync = true := by
    obtain ⟨id, -, rfl⟩ := List.mem_map.mp hr
    exact ⟨rfl, rfl, rfl⟩
  have hnonneg : (newPartition cfg log now).tracker.NonNegative := by
    intro r hr
    rw [(hfresh hr).1]
    exact le_rfl
  have hleader : ⟨cfg.localID, 0, now, true⟩ ∈ (newPartition cfg log now).tracker.replicas :=
    List.mem_map.mpr ⟨cfg.localID, List.mem_dedup.mpr hlocal, rfl⟩
  have hwatermark := minLEO_le hnonneg hleader rfl
  refine ⟨hlog, hnonneg, rfl, ⟨_, hleader, rfl, rfl⟩, hwatermark, ?_, ?_⟩
  · intro r hr hout
    rw [(hfresh hr).2.2] at hout
    cases hout
  · intro r hr
    exact (hfresh hr).2.1.le

theorem coherent_run {logCfg : Config} {logs : TopicPartition → Log} {start : Int}
    {events : List Event} {b : Broker} (hlocal : cfg.localID ∈ cfg.replicaIDs)
    (hlogs : ∀ key, Reached crc logCfg (logs key))
    (hrun : Run (Guarded (fun _ _ => true) (Broker.step crc cfg)) (newBroker cfg logs start)
      events b) : Coherent crc cfg b := by
  refine hrun.invariant ⟨fun key => ?_, fun h hh => by cases hh⟩ fun _ _ _ hs hstep =>
    coherent_step hs hstep.2
  exact consistent_newPartition (hlogs key).wellFormed hlocal start

end

section

variable {cfg : BrokerConfig} {t : ISRTracker} {id : Int32} {leo leaderLEO : Int64} {now : Int}

/-- The flags of the tracker are those of the instant `now`. -/
structure Current (now : Int) (t : ISRTracker) : Prop where
  inSync : ∀ r ∈ t.replicas, (r.inSync = true ↔ r.brokerID = t.leaderID ∨
    ¬ milliseconds t.replicaLagTimeMaxMs < elapsed now r.lastCaughtUpTime)
  past : ∀ r ∈ t.replicas, r.lastCaughtUpTime ≤ now

theorem Current.limit_nonneg (h : Current now t) {r : ReplicaState} (hr : r ∈ t.replicas)
    (hsync : r.inSync = true) (hother : r.brokerID ≠ t.leaderID) :
    ¬ milliseconds t.replicaLagTimeMaxMs < 0 := by
  have hrecent := ((h.inSync r hr).mp hsync).resolve_left hother
  have hage := elapsed_nonneg (h.past r hr)
  rw [Int64.lt_iff_toInt_lt] at hrecent ⊢
  rw [Int64.toInt_zero]
  omega

section

variable (h : Current now t) (hleader : t.leaderID ∈ cfg.replicaIDs) (hid : id ∉ cfg.replicaIDs)

include h hleader hid

theorem getISR_stranger {x : Int32} (hx : x ∈ t.getISR) (hout : x ∉ cfg.replicaIDs) :
    x ∈ (t.updateLEO id leo leaderLEO now).getISR := by
  have hne : id ≠ t.leaderID := fun heq => hid (heq ▸ hleader)
  obtain ⟨r, hr, hsync, rfl⟩ := mem_getISR.mp hx
  have hother : r.brokerID ≠ t.leaderID := fun heq => hout (heq ▸ hleader)
  have hrecent := ((h.inSync r hr).mp hsync).resolve_left hother
  obtain ⟨r', hr', hsame⟩ := tracked_updateLEO (.inl (List.mem_map_of_mem hr))
  refine mem_getISR.mpr ⟨r', hr', (inSync_iff hr').mpr (.inr ?_), hsame⟩
  rcases lastCaughtUpTime_updateLEO hne hr' with ⟨q, hq, hqid, -, htime⟩ | ⟨-, htime, -⟩
  · obtain rfl : q = r := List.inj_on_of_nodup_map t.distinct hq hr (hqid.trans hsame)
    rwa [htime]
  · rw [htime, elapsed_self]
    exact h.limit_nonneg hr hsync hother

theorem staysOut_of_subset
    (hsubset : ∀ x ∈ (t.updateLEO id leo leaderLEO now).getISR, x ∈ cfg.replicaIDs) :
    StaysOut cfg id leo leaderLEO t := by
  have hne : id ≠ t.leaderID := fun heq => hid (heq ▸ hleader)
  constructor
  · intro x hx
    by_contra hout
    exact hout (hsubset x (getISR_stranger h hleader hid hx hout))
  · by_cases hlimit : milliseconds t.replicaLagTimeMaxMs < 0
    · exact .inl hlimit
    · obtain ⟨r, hr, hrid⟩ := tracked_updateLEO (t := t) (.inr rfl)
      have hlags : milliseconds t.replicaLagTimeMaxMs < elapsed now r.lastCaughtUpTime := by
        by_contra hrecent
        exact hid (hsubset id
          (mem_getISR.mpr ⟨r, hr, (inSync_iff hr).mpr (.inr hrecent), hrid⟩))
      rcases lastCaughtUpTime_updateLEO hne hr with ⟨q, hq, hqid, hbehind, -⟩ | ⟨-, htime, -⟩
      · exact .inr ⟨q, hq, hqid.trans hrid, hbehind.resolve_left fun hother => hother hrid⟩
      · rw [htime, elapsed_self] at hlags
        exact absurd hlags hlimit

theorem subset_of_staysOut (hstays : StaysOut cfg id leo leaderLEO t) :
    ∀ x ∈ (t.updateLEO id leo leaderLEO now).getISR, x ∈ cfg.replicaIDs := by
  have hne : id ≠ t.leaderID := fun heq => hid (heq ▸ hleader)
  intro x hx
  by_contra hout
  obtain ⟨r, hr, hsync, rfl⟩ := mem_getISR.mp hx
  have hrecent := ((inSync_iff hr).mp hsync).resolve_left fun heq => hout (heq ▸ hleader)
  rcases lastCaughtUpTime_updateLEO hne hr with ⟨q, hq, hqid, -, htime⟩ | ⟨-, htime, hreached⟩
  · rw [htime] at hrecent
    have hqsync := (h.inSync q hq).mpr (.inr hrecent)
    exact hout (hstays.others r.brokerID (mem_getISR.mpr ⟨q, hq, hqsync, hqid⟩))
  · rw [htime, elapsed_self] at hrecent
    obtain ⟨q, hq, hqid, hbehind⟩ := hstays.requester.resolve_left hrecent
    exact hreached q hq hqid hbehind

theorem getISR_perm (hstays : StaysOut cfg id leo leaderLEO t) :
    (t.updateLEO id leo leaderLEO now).getISR.Perm t.getISR := by
  have hne : id ≠ t.leaderID := fun heq => hid (heq ▸ hleader)
  have hkept {r : ReplicaState} (hr : r ∈ (t.updateLEO id leo leaderLEO now).replicas)
      (hin : r.brokerID ∈ cfg.replicaIDs) :
      ∃ q ∈ t.replicas, q.brokerID = r.brokerID ∧ r.lastCaughtUpTime = q.lastCaughtUpTime := by
    rcases lastCaughtUpTime_updateLEO hne hr with ⟨q, hq, hqid, -, htime⟩ | ⟨hrid, -⟩
    · exact ⟨q, hq, hqid, htime⟩
    · exact absurd (hrid ▸ hin) hid
  rw [List.perm_ext_iff_of_nodup (nodup_getISR _) (nodup_getISR _)]
  intro x
  constructor
  · intro hx
    have hin := subset_of_staysOut h hleader hid hstays x hx
    obtain ⟨r, hr, hsync, rfl⟩ := mem_getISR.mp hx
    obtain ⟨q, hq, hqid, htime⟩ := hkept hr hin
    refine mem_getISR.mpr ⟨q, hq, (h.inSync q hq).mpr ?_, hqid⟩
    rw [hqid, ← htime]
    exact (inSync_iff hr).mp hsync
  · intro hx
    have hin := hstays.others x hx
    obtain ⟨q, hq, hsync, rfl⟩ := mem_getISR.mp hx
    obtain ⟨r, hr, hrid⟩ := tracked_updateLEO (.inl (List.mem_map_of_mem hq))
    obtain ⟨q', hq', hqid', htime⟩ := hkept hr (hrid.symm ▸ hin)
    obtain rfl : q' = q := List.inj_on_of_nodup_map t.distinct hq' hq (hqid'.trans hrid)
    refine mem_getISR.mpr ⟨r, hr, (inSync_iff hr).mpr ?_, hrid⟩
    rw [hrid, htime]
    exact (h.inSync q' hq).mp hsync

end

end

section

variable {crc : Checksum} {cfg : BrokerConfig} {key : TopicPartition}
  {request : ReplicaFetchRequest}

variable {now : Int} {p : Partition}

theorem handleReplicaFetch_refused (q : Purgatory) (h : refused crc cfg request p = true) :
    (handleReplicaFetch crc cfg key request now p q).2.1 = p := by
  rw [refused] at h
  rw [handleReplicaFetch, finish, ReplicaFetchPhase.next]
  generalize p.log.readFrom crc request.fetchOffset cfg.fetchBudget = read at h
  obtain ⟨records, error⟩ := read
  cases error with
  | none => cases h
  | some e =>
    have heof : LogError.isEOF e = false := by simpa using h
    simp [heof, finish, ReplicaFetchPhase.next]

theorem handleReplicaFetch_served (q : Purgatory) (h : refused crc cfg request p = false) :
    (handleReplicaFetch crc cfg key request now p q).2.1.tracker =
      (leaderRecorded crc cfg request now p).tracker.updateLEO request.replicaID
        (creditedLEO crc cfg request p) p.log.highestOffset now := by
  rw [leaderRecorded, if_neg (by simp [h]), creditedLEO]
  rw [refused] at h
  rw [handleReplicaFetch, finish, ReplicaFetchPhase.next]
  generalize p.log.readFrom crc request.fetchOffset cfg.fetchBudget = read at h
  obtain ⟨records, error⟩ := read
  cases error with
  | none => rfl
  | some e =>
    have heof : LogError.isEOF e = true := by simpa using h
    simp only [heof, if_true]
    rfl

theorem finish_replicaFetch (n : Nat) {channel : Nat} {choice : Choice} {phase : ReplicaFetchPhase}
    {q : Purgatory} :
    Task.finish crc cfg key channel now choice n (.replicaFetch request phase) p q =
      Prod.map (.replicaFetch request) id (finish crc cfg key request now n phase p q) := by
  induction n generalizing phase p q with
  | zero => rfl
  | succ n ih =>
    rw [Task.finish, Task.next, finish]
    cases phase.next crc cfg request key now p q with
    | none => rfl
    | some next => exact ih

/-- The handler is a run of the broker in which no other thread takes part. -/
theorem handled_run (b : Broker) :
    ∃ steps, Run (Guarded (fun _ _ => true) (Broker.step crc cfg)) b steps
      (handled crc cfg key request b) := by
  obtain ⟨steps, hsteps⟩ := @finish_run crc cfg (.replicaFetch request .received) key
    b.handlers.length { b with handlers := b.handlers ++ [⟨key, .replicaFetch request .received⟩] }
    calm 6 List.getElem?_concat_length
  rw [finish_replicaFetch] at hsteps
  refine ⟨.arrive key (.replicaFetch request) :: steps, Run.cons ⟨rfl, rfl⟩ ?_⟩
  simpa [ran, handled, handleReplicaFetch, Request.begin] using hsteps

theorem subset_step {p' : Partition} {task : Task} (h : Consistent crc cfg now p)
    (hlocal : cfg.localID ∈ cfg.replicaIDs)
    (hguard : ∀ id leo leaderLEO, task.pendingUpdate cfg = some (id, leo, leaderLEO) →
      id ∈ cfg.replicaIDs) (hsubset : ∀ x ∈ p.tracker.getISR, x ∈ cfg.replicaIDs)
    (hstep : PartitionStep crc cfg now task p p') :
    ∀ x ∈ p'.tracker.getISR, x ∈ cfg.replicaIDs := by
  cases hstep with
  | same => exact hsubset
  | append env hleft => exact hsubset
  | @update id leo leaderLEO hpending =>
    have hid := hguard id leo leaderLEO hpending
    intro x hx
    obtain ⟨r, hr, hsync, rfl⟩ := mem_getISR.mp hx
    rcases lastCaughtUpTime_cases hr with ⟨hrid, -⟩ | ⟨q, hq, hqid, htime⟩
    · exact hrid ▸ hid
    · cases hqsync : q.inSync with
      | true => exact hsubset r.brokerID (mem_getISR.mpr ⟨q, hq, hqsync, hqid⟩)
      | false =>
        have hlags := h.lagging q hq hqsync
        rcases (inSync_iff hr).mp hsync with hleader | hrecent
        · exact (hleader.trans h.leader) ▸ hlocal
        · rw [htime] at hrecent
          exact absurd hlags hrecent
  | publish hpending => exact hsubset

theorem not_heldBelow (h : Consistent crc cfg now p)
    (hsubset : ∀ x ∈ p.tracker.getISR, x ∈ cfg.replicaIDs) : ¬ HeldBelow cfg p := by
  obtain ⟨leader, hleader, -, hsync⟩ := h.leaderInSync
  obtain ⟨r, hr, hrsync, hleast⟩ := minLEO_mem h.nonNegative ⟨leader, hleader, hsync⟩
  intro hheld
  have hbelow := hheld r hr hrsync (hsubset r.brokerID (mem_getISR.mpr ⟨r, hr, hrsync, rfl⟩))
  have hwatermark := h.watermark
  rw [Int64.lt_iff_toInt_lt, hleast] at hbelow
  omega

theorem configured_of_guard {b : Broker} {thread : Nat} {choice : Choice} {h : Handler}
    (hguard : updatesConfigured cfg b (.run thread choice) = true)
    (hthread : b.handlers[thread]? = some h) (id : Int32) (leo leaderLEO : Int64)
    (hpending : h.task.pendingUpdate cfg = some (id, leo, leaderLEO)) : id ∈ cfg.replicaIDs := by
  simp only [updatesConfigured, hthread, hpending] at hguard
  simpa using hguard

theorem subset_later {b b' : Broker} {later : List Event} (hlocal : cfg.localID ∈ cfg.replicaIDs)
    (hb : Coherent crc cfg b)
    (hsubset : ∀ x ∈ (b.partitions key).tracker.getISR, x ∈ cfg.replicaIDs)
    (hrun : Run (Guarded (updatesConfigured cfg) (Broker.step crc cfg)) b later b') :
    Coherent crc cfg b' ∧ ∀ x ∈ (b'.partitions key).tracker.getISR, x ∈ cfg.replicaIDs := by
  refine hrun.invariant (P := fun b => Coherent crc cfg b ∧
    ∀ x ∈ (b.partitions key).tracker.getISR, x ∈ cfg.replicaIDs) ⟨hb, hsubset⟩ ?_
  rintro s e t ⟨hs, hsub⟩ ⟨hguard, hstep⟩
  refine ⟨coherent_step hs hstep, ?_⟩
  cases e with
  | arrive k req =>
    obtain rfl := Option.some.inj hstep
    exact hsub
  | tick d =>
    obtain rfl := Option.some.inj hstep
    exact hsub
  | run thread choice =>
    obtain ⟨g, task, p, q, hthread, hnext, rfl⟩ := step_run hstep
    by_cases hkey : key = g.key
    · subst hkey
      simp only [Function.update_self]
      exact subset_step (hs.partitions g.key) hlocal (configured_of_guard hguard hthread) hsub
        (partitionStep_next hnext)
    · simpa only [Function.update_of_ne hkey] using hsub

theorem current_leaderRecorded (h : Consistent crc cfg now p)
    (hserved : refused crc cfg request p = false) :
    Current now (leaderRecorded crc cfg request now p).tracker ∧
      (leaderRecorded crc cfg request now p).tracker.leaderID = cfg.localID := by
  have hupdated :=
    consistent_updateLEO h cfg.localID p.log.highestOffset h.log.highestOffset_nonneg
  have hrecorded : leaderRecorded crc cfg request now p =
      p.updateLEO cfg.localID p.log.highestOffset p.log.highestOffset now := by
    rw [leaderRecorded, if_neg (by simp [hserved])]
  have hflags := @inSync_iff p.tracker cfg.localID p.log.highestOffset p.log.highestOffset now
  rw [hrecorded]
  exact ⟨⟨fun r hr => hflags hr, hupdated.past⟩, hupdated.leader⟩

/-- After the update of the leader, the replicas in sync are those on time. -/
theorem getISR_leaderRecorded (h : Consistent crc cfg now p)
    (hserved : refused crc cfg request p = false) :
    (leaderRecorded crc cfg request now p).tracker.getISR.Perm (onTime now p.tracker) := by
  have hrecorded : leaderRecorded crc cfg request now p =
      p.updateLEO cfg.localID p.log.highestOffset p.log.highestOffset now := by
    rw [leaderRecorded, if_neg (by simp [hserved])]
  have hmem {x : Int32} : x ∈ onTime now p.tracker ↔ ∃ q ∈ p.tracker.replicas,
      (q.brokerID = p.tracker.leaderID ∨
        ¬ milliseconds p.tracker.replicaLagTimeMaxMs < elapsed now q.lastCaughtUpTime) ∧
      q.brokerID = x := by
    simp [onTime, and_assoc]
  have hnodup : (onTime now p.tracker).Nodup :=
    p.tracker.distinct.sublist (List.filter_sublist.map _)
  rw [hrecorded, List.perm_ext_iff_of_nodup (nodup_getISR _) hnodup]
  intro x
  rw [hmem]
  constructor
  · intro hx
    obtain ⟨r, hr, hsync, rfl⟩ := mem_getISR.mp hx
    have honTime := (inSync_iff hr).mp hsync
    rcases lastCaughtUpTime_cases hr with ⟨hid, -⟩ | ⟨q, hq, hqid, htime⟩
    · obtain ⟨leader, hleader, hlocal, -⟩ := h.leaderInSync
      exact ⟨leader, hleader, .inl (hlocal.trans h.leader.symm), hlocal.trans hid.symm⟩
    · rw [htime, ← hqid] at honTime
      exact ⟨q, hq, honTime, hqid⟩
  · rintro ⟨q, hq, honTime, rfl⟩
    obtain ⟨r, hr, hrid⟩ := tracked_updateLEO (.inl (List.mem_map_of_mem hq))
    refine mem_getISR.mpr ⟨r, hr, (inSync_iff hr).mpr ?_, hrid⟩
    rcases lastCaughtUpTime_cases hr with ⟨hid, -⟩ | ⟨q', hq', hqid', htime⟩
    · exact .inl (hid.trans h.leader.symm)
    · obtain rfl : q' = q := List.inj_on_of_nodup_map p.tracker.distinct hq' hq (hqid'.trans hrid)
      rwa [hrid, htime]

/-- A replica fetch of a stranger is harmless exactly if it leaves every stranger
out of sync, and does not come at a moment at which configured replicas drop out. -/
theorem harmless_iff {logCfg : Config} {logs : TopicPartition → Log} {start : Int}
    {events : List Event} {b : Broker} (hlocal : cfg.localID ∈ cfg.replicaIDs)
    (hlogs : ∀ key, Reached crc logCfg (logs key))
    (hrun : Run (Guarded (fun _ _ => true) (Broker.step crc cfg)) (newBroker cfg logs start)
      events b)
    (hstranger : request.replicaID ∉ cfg.replicaIDs) :
    Harmless crc cfg key request b ↔
      StrangersStayOut crc cfg request b.now (b.partitions key) ∧
        AdmissionSteady crc cfg request b.now (b.partitions key) := by
  have hb := coherent_run hlocal hlogs hrun
  have hp := hb.partitions key
  obtain ⟨steps, hsteps⟩ := @handled_run crc cfg key request b
  have hlater : (∀ x ∈ ((handled crc cfg key request b).partitions key).tracker.getISR,
      x ∈ cfg.replicaIDs) → ∀ later b', Run (Guarded (updatesConfigured cfg) (Broker.step crc cfg))
        (handled crc cfg key request b) later b' → ¬ HeldBelow cfg (b'.partitions key) := by
    intro hsubset later b' hafter
    obtain ⟨hb', hsub'⟩ := subset_later hlocal (coherent_run hlocal hlogs (hrun.trans hsteps))
      hsubset hafter
    exact not_heldBelow (hb'.partitions key) hsub'
  have hpartition : (handled crc cfg key request b).partitions key =
      (handleReplicaFetch crc cfg key request b.now (b.partitions key) b.purgatory).2.1 :=
    Function.update_self ..
  rw [StrangersStayOut, AdmissionSteady]
  cases hrefused : refused crc cfg request (b.partitions key) with
  | true =>
    have hsame := hpartition.trans (handleReplicaFetch_refused b.purgatory hrefused)
    rw [if_pos rfl]
    constructor
    · intro h
      exact ⟨hsame ▸ h.subset, .inl rfl⟩
    · rintro ⟨hsubset, -⟩
      exact ⟨hsame ▸ hsubset, by rw [hsame], hlater (hsame ▸ hsubset)⟩
  | false =>
    have htracker := (congrArg Partition.tracker hpartition).trans
      (handleReplicaFetch_served b.purgatory hrefused)
    obtain ⟨hcurrent, hleader⟩ := current_leaderRecorded hp hrefused
    rw [← hleader] at hlocal
    have hlength (hstays : StaysOut cfg request.replicaID
        (creditedLEO crc cfg request (b.partitions key)) (b.partitions key).log.highestOffset
        (leaderRecorded crc cfg request b.now (b.partitions key)).tracker) :
        AdmitsAcksAll cfg ((handled crc cfg key request b).partitions key) ↔
          cfg.minInsync.toInt ≤ (onTime b.now (b.partitions key).tracker).length := by
      rw [AdmitsAcksAll, htracker, (getISR_perm hcurrent hlocal hstranger hstays).length_eq,
        (getISR_leaderRecorded hp hrefused).length_eq]
    rw [if_neg Bool.false_ne_true]
    constructor
    · intro h
      have hstays := staysOut_of_subset hcurrent hlocal hstranger (htracker ▸ h.subset)
      exact ⟨hstays, .inr (h.admission.trans (hlength hstays))⟩
    · rintro ⟨hstays, hdrops⟩
      have hsubset := subset_of_staysOut hcurrent hlocal hstranger hstays
      exact ⟨htracker ▸ hsubset,
        (hdrops.resolve_left Bool.false_ne_true).trans (hlength hstays).symm,
        hlater (htracker ▸ hsubset)⟩

end

def slowConfig : BrokerConfig := { pairConfig with replicaFetchMaxBytes := 33 }

/-- Two records are produced; broker 9 fetches the first one and then does not
come back for two milliseconds, after which the follower has both. -/
def slowStranger : List Event :=
  .arrive events (.produce (produceOne 1)) :: List.replicate 6 (.run 0 calm) ++
    .arrive events (.produce (produceOne 1)) :: List.replicate 6 (.run 1 calm) ++
    .arrive events (.replicaFetch ⟨9, 0⟩) :: List.replicate 6 (.run 2 calm) ++
    .tick 2000000 :: .arrive events (.replicaFetch ⟨2, 2⟩) :: List.replicate 6 (.run 3 calm)

theorem harmless_iff_slowStranger :
    ∃ b, Run (Guarded (fun _ _ => true) (Broker.step castagnoli slowConfig))
        (newBroker slowConfig (fun _ => emptyLog) 0) slowStranger b ∧
      (9 : Int32) ∉ slowConfig.replicaIDs ∧
      (b.partitions events).tracker.getISR = [1, 2] ∧
      Harmless castagnoli slowConfig events ⟨9, 0⟩ b := by
  have hend : (execute (fun _ _ => true) (Broker.step castagnoli slowConfig)
      (newBroker slowConfig (fun _ => emptyLog) 0) slowStranger).map (fun b =>
        ((b.partitions events).tracker.getISR,
          decide (StrangersStayOut castagnoli slowConfig ⟨9, 0⟩ b.now (b.partitions events)),
          decide (AdmissionSteady castagnoli slowConfig ⟨9, 0⟩ b.now (b.partitions events)))) =
      some ([1, 2], true, true) := by
    decide +kernel
  obtain ⟨b, hrun, hobserved⟩ := exists_run_of_execute hend
  obtain ⟨hisr, hrest⟩ := Prod.mk.inj hobserved
  obtain ⟨hout, hdrops⟩ := Prod.mk.inj hrest
  exact ⟨b, hrun, by decide, hisr,
    (harmless_iff (by decide) (fun _ => reached_small) hrun (by decide)).mpr
      ⟨of_decide_eq_true hout, of_decide_eq_true hdrops⟩⟩

/-- A record is produced when the follower lags behind its limit. -/
def lagging : List Event :=
  .tick 2000000 :: .arrive events (.produce (produceOne 1)) :: List.replicate 6 (.run 0 calm)

/-- Another record is produced, and the follower catches up. -/
def caughtUp : List Event :=
  .arrive events (.produce (produceOne 1)) :: List.replicate 6 (.run 2 calm) ++
    .arrive events (.replicaFetch ⟨2, 2⟩) :: List.replicate 6 (.run 3 calm)

/-- Broker 9 asks for the record.  It is in sync at once, makes up for the follower
that is not, and holds the high watermark at 1 while both replicas have two
records. -/
theorem stranger_in_sync :
    ∃ b, Run (Guarded (fun _ _ => true) (Broker.step castagnoli pairConfig))
        (newBroker pairConfig (fun _ => emptyLog) 0) lagging b ∧
      (9 : Int32) ∉ pairConfig.replicaIDs ∧
      (b.partitions events).tracker.getISR = [1] ∧
      ¬ AdmitsAcksAll pairConfig (b.partitions events) ∧
      ((handled castagnoli pairConfig events ⟨9, 0⟩ b).partitions events).tracker.getISR = [1, 9] ∧
      AdmitsAcksAll pairConfig ((handled castagnoli pairConfig events ⟨9, 0⟩ b).partitions events) ∧
      ∃ b', Run (Guarded (updatesConfigured pairConfig) (Broker.step castagnoli pairConfig))
          (handled castagnoli pairConfig events ⟨9, 0⟩ b) caughtUp b' ∧
        HeldBelow pairConfig (b'.partitions events) := by
  have hend : (execute (fun _ _ => true) (Broker.step castagnoli pairConfig)
      (newBroker pairConfig (fun _ => emptyLog) 0) lagging).map (fun b =>
        ((b.partitions events).tracker.getISR,
          ((handled castagnoli pairConfig events ⟨9, 0⟩ b).partitions events).tracker.getISR,
          (execute (updatesConfigured pairConfig) (Broker.step castagnoli pairConfig)
            (handled castagnoli pairConfig events ⟨9, 0⟩ b) caughtUp).map fun b' =>
              decide (HeldBelow pairConfig (b'.partitions events)))) =
      some ([1], [1, 9], some true) := by
    decide +kernel
  obtain ⟨b, hrun, hobserved⟩ := exists_run_of_execute hend
  obtain ⟨hbefore, hrest⟩ := Prod.mk.inj hobserved
  obtain ⟨hafter, hlater⟩ := Prod.mk.inj hrest
  obtain ⟨b', hrun', hheld⟩ := exists_run_of_execute hlater
  refine ⟨b, hrun, by decide, hbefore, ?_, hafter, ?_, b', hrun', of_decide_eq_true hheld⟩
  · rw [AdmitsAcksAll, hbefore]
    decide
  · rw [AdmitsAcksAll, hafter]
    decide

end MiniKafka.StrangerReplicas
