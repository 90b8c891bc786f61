import MiniKafka.InSyncReplicas
import MiniKafka.LogReadFrom

/-!
The configured limits in milliseconds, against the ages that `runRetention` and
`shouldRotateLocked` of `internal/storage/log.go` and `updateISRLocked` of
`internal/replication/isr.go` compare with them.
-/

namespace MiniKafka.ConfiguredDurations

open Durations RecordCodec SegmentStore PartitionLog InSyncReplicas
open LogReadFrom (threeRecords)

/-- The age tests mean what the configuration says, over the integers. -/
structure AgesAgree (retentionMs segmentMs replicaLagTimeMaxMs : Int64) : Prop where
  retention : ∀ (l : Log) now refused, l.config.retentionMs = retentionMs →
    l.dropExpired now refused = l.sealed.filterMap fun s =>
      if s.createdAt ≠ zeroTime ∧ retentionMs.toInt * 1000000 ≤ now - s.createdAt then
        (if refused s.baseOffset then some s.close else none)
      else some s
  rotation : ∀ (l : Log) now, l.config.segmentMs = segmentMs →
    (l.shouldRotate now = true ↔ l.active.isFull = true ∨
      l.active.baseOffset < l.active.nextOffset ∧
        segmentMs.toInt * 1000000 ≤ now - l.activeCreatedAt)
  lag : ∀ (t : ISRTracker) id leo leaderLEO now, t.replicaLagTimeMaxMs = replicaLagTimeMaxMs →
    ∀ r ∈ (t.updateLEO id leo leaderLEO now).replicas,
      (r.inSync = false ↔ r.brokerID ≠ t.leaderID ∧
        replicaLagTimeMaxMs.toInt * 1000000 < now - r.lastCaughtUpTime)

section

variable {retentionMs segmentMs replicaLagTimeMaxMs : Int64}

theorem dropExpired_of_le (hpos : 0 < retentionMs) (hle : retentionMs ≤ maxMilliseconds) (l : Log)
    (now : Int) (refused : Int64 → Bool) (hconfig : l.config.retentionMs = retentionMs) :
    l.dropExpired now refused = l.sealed.filterMap fun s =>
      if s.createdAt ≠ zeroTime ∧ retentionMs.toInt * 1000000 ≤ now - s.createdAt then
        (if refused s.baseOffset then some s.close else none)
      else some s := by
  have hexpired (s : Segment) : l.expired now s = true ↔
      s.createdAt ≠ zeroTime ∧ retentionMs.toInt * 1000000 ≤ now - s.createdAt := by
    simp only [Log.expired, hconfig, Bool.and_eq_true, decide_eq_true_eq, hpos, true_and,
      milliseconds_le_elapsed_iff hpos hle]
  simp only [Log.dropExpired, hexpired]

theorem shouldRotate_of_le (hpos : 0 < segmentMs) (hle : segmentMs ≤ maxMilliseconds) (l : Log)
    (now : Int) (hconfig : l.config.segmentMs = segmentMs) :
    l.shouldRotate now = true ↔ l.active.isFull = true ∨
      l.active.baseOffset < l.active.nextOffset ∧
        segmentMs.toInt * 1000000 ≤ now - l.activeCreatedAt := by
  simp only [Log.shouldRotate, hconfig, Bool.or_eq_true, Bool.and_eq_true, decide_eq_true_eq, hpos,
    true_and, milliseconds_le_elapsed_iff hpos hle]

theorem inSync_updateLEO_of_le (hpos : 0 < replicaLagTimeMaxMs)
    (hle : replicaLagTimeMaxMs ≤ maxMilliseconds) {t : ISRTracker} {id : Int32}
    {leo leaderLEO : Int64} {now : Int} (hconfig : t.replicaLagTimeMaxMs = replicaLagTimeMaxMs)
    {r : ReplicaState} (hr : r ∈ (t.updateLEO id leo leaderLEO now).replicas) :
    r.inSync = false ↔ r.brokerID ≠ t.leaderID ∧
      replicaLagTimeMaxMs.toInt * 1000000 < now - r.lastCaughtUpTime := by
  obtain ⟨p, -, rfl⟩ := List.mem_map.mp hr
  simp [settle, updateISR, hconfig, milliseconds_lt_elapsed_iff hpos hle]

def agingLog (retentionMs segmentMs : Int64) : Log :=
  { emptyLog with
    config := { smallConfig with retentionMs := retentionMs, segmentMs := segmentMs }
    sealed := [{ emptySegment with nextOffset := 1 }]
    active := { emptySegment with baseOffset := 1, nextOffset := 2 } }

def agingTracker (replicaLagTimeMaxMs : Int64) : ISRTracker where
  replicas := [⟨1, 0, 0, true⟩, ⟨2, 0, 0, true⟩]
  leaderID := 1
  replicaLagTimeMaxMs := replicaLagTimeMaxMs
  highWatermark := 0
  distinct := by decide

section

variable (h : AgesAgree retentionMs segmentMs replicaLagTimeMaxMs)

include h

theorem retentionMs_le (hpos : 0 < retentionMs) : retentionMs ≤ maxMilliseconds := by
  have hexpired : (agingLog retentionMs segmentMs).dropExpired longest (fun _ => false) = [] := by
    have hage := Int64.le_of_lt (milliseconds_lt_longest retentionMs)
    simp [Log.dropExpired, Log.expired, agingLog, emptySegment, zeroTime, hpos, hage]
  rw [h.retention (agingLog retentionMs segmentMs) longest (fun _ => false) rfl] at hexpired
  rw [le_maxMilliseconds_iff]
  by_contra hbeyond
  simp [agingLog, emptySegment, zeroTime, hbeyond] at hexpired

theorem segmentMs_le (hpos : 0 < segmentMs) : segmentMs ≤ maxMilliseconds := by
  have hrotates : (agingLog retentionMs segmentMs).shouldRotate longest = true := by
    have hage := Int64.le_of_lt (milliseconds_lt_longest segmentMs)
    simp [Log.shouldRotate, agingLog, emptyLog, hpos, hage]
  have hroom : (agingLog retentionMs segmentMs).active.isFull = false := rfl
  rw [le_maxMilliseconds_iff]
  rcases (h.rotation (agingLog retentionMs segmentMs) longest rfl).mp hrotates with
    hfull | ⟨-, hage⟩
  · rw [hroom] at hfull
    cases hfull
  · simpa [agingLog, emptyLog] using hage

theorem replicaLagTimeMaxMs_le : replicaLagTimeMaxMs ≤ maxMilliseconds := by
  have hdropped : (⟨2, 0, 0, false⟩ : ReplicaState) ∈
      ((agingTracker replicaLagTimeMaxMs).updateLEO 1 0 0 longest).replicas := by
    have hlag := milliseconds_lt_longest replicaLagTimeMaxMs
    refine List.mem_map.mpr ⟨⟨2, 0, 0, true⟩, by simp [agingTracker, recordLEO], ?_⟩
    simp [settle, agingTracker, noteCaughtUp, updateISR, hlag]
  have hbeyond := ((h.lag (agingTracker replicaLagTimeMaxMs) 1 0 0 longest rfl _ hdropped).mp
    rfl).2
  rw [le_maxMilliseconds_iff]
  simp only at hbeyond
  omega

end

/-- The age tests agree with the comparison over the integers exactly for limits
that fit a duration in nanoseconds, which is some 292 years. -/
theorem agesAgree_iff (hretention : 0 < retentionMs) (hsegment : 0 < segmentMs)
    (hlag : 0 < replicaLagTimeMaxMs) :
    AgesAgree retentionMs segmentMs replicaLagTimeMaxMs ↔ retentionMs ≤ maxMilliseconds ∧
      segmentMs ≤ maxMilliseconds ∧ replicaLagTimeMaxMs ≤ maxMilliseconds := by
  constructor
  · intro h
    exact ⟨retentionMs_le h hretention, segmentMs_le h hsegment, replicaLagTimeMaxMs_le h⟩
  · rintro ⟨hr, hs, hl⟩
    exact
      { retention := dropExpired_of_le hretention hr
        rotation := shouldRotate_of_le hsegment hs
        lag := fun _ _ _ _ _ hconfig _ => inSync_updateLEO_of_le hlag hl hconfig }

end

theorem agesAgree_defaults :
    AgesAgree defaultRetentionMs defaultSegmentMs 30000 :=
  (agesAgree_iff (by decide) (by decide) (by decide)).mpr (by decide)

def overlongConfig : Config := { smallConfig with retentionMs := 9223372036855 }

/-- With a retention of some 292 years the limit has become negative, and
retention deletes segments that were just written. -/
theorem retention_deletes_fresh_segment :
    ∃ l, newLog castagnoli overlongConfig [] (fun _ => 0) 0 = .ok l ∧
      ((l.appendBatch castagnoli threeRecords).1.sealed.map fun s => (s.createdAt, s.baseOffset)) =
        [(0, 0)] ∧
      ((l.appendBatch castagnoli threeRecords).1.runRetention 0 fun _ => false).sealed = [] ∧
      ¬ AgesAgree 9223372036855 1 1 := by
  refine ⟨{ emptyLog with config := overlongConfig }, by decide +kernel, by decide +kernel,
    by decide +kernel, ?_⟩
  intro h
  exact absurd (retentionMs_le h (by decide)) (by decide)

end MiniKafka.ConfiguredDurations
