import MiniKafka.InSyncReplicas
import MiniKafka.Runs

/-!
Runs of updates of the tracker of one partition.

The high watermark never falls, while replicas leave the in-sync set and come
back.  It stays below the log end of every replica in sync because only a
replica that has caught up with the leader comes back, and the leader is always
in sync.
-/

namespace MiniKafka.TrackerRuns

open Durations InSyncReplicas Runs

structure Update where
  id : Int32
  leo : Int64
  leaderLEO : Int64
  now : Int
  deriving DecidableEq, Repr

structure Tracked where
  tracker : ISRTracker
  now : Int

def Tracked.next (s : Tracked) (u : Update) : Tracked :=
  ⟨s.tracker.updateLEO u.id u.leo u.leaderLEO u.now, u.now⟩

/-- The updates of the replicas `replicaIDs`, by a clock that does not go
back. -/
def UpdateStep (replicaIDs : List Int32) (s : Tracked) (u : Update) (s' : Tracked) : Prop :=
  u.id ∈ replicaIDs ∧ s.now ≤ u.now ∧ s' = s.next u

/-- The leader is in sync, and no replica in sync ends below the high
watermark. -/
structure Bounded (t : ISRTracker) : Prop where
  leader : ∃ r ∈ t.replicas, r.brokerID = t.leaderID ∧ r.inSync = true
  replicas : ∀ r ∈ t.replicas, r.inSync = true → t.highWatermark.toInt ≤ r.logEndOffset.toInt

structure Advances (t t' : ISRTracker) : Prop where
  highWatermark : t.highWatermark.toInt ≤ t'.highWatermark.toInt
  logEnds : ∀ r ∈ t.replicas, ∃ r' ∈ t'.replicas, r'.brokerID = r.brokerID ∧
    r.logEndOffset.toInt ≤ r'.logEndOffset.toInt

/-- After the update `u` the replica it is about has reached the log end of the
leader, both as recorded and as the caller saw it. -/
def CaughtUp (t : ISRTracker) (u : Update) : Prop :=
  ∃ r ∈ t.replicas, r.brokerID = u.id ∧ u.leaderLEO.toInt ≤ r.logEndOffset.toInt ∧
    ∀ leader ∈ t.replicas, leader.brokerID = t.leaderID →
      leader.logEndOffset.toInt ≤ r.logEndOffset.toInt

structure Sound (replicaIDs : List Int32) (s : Tracked) : Prop where
  tracker : s.tracker.Sound s.now
  known : ∀ id, id ∈ s.tracker.replicas.map ReplicaState.brokerID ↔ id ∈ replicaIDs

section

variable {replicaIDs : List Int32} {t : ISRTracker} {u : Update} {s s' : Tracked}

theorem Advances.refl (t : ISRTracker) : Advances t t :=
  ⟨le_rfl, fun r hr => ⟨r, hr, rfl, le_rfl⟩⟩

theorem Advances.trans {t' t'' : ISRTracker} (h : Advances t t') (k : Advances t' t'') :
    Advances t t'' := by
  refine ⟨h.highWatermark.trans k.highWatermark, fun r hr => ?_⟩
  obtain ⟨r', hr', hid', hle'⟩ := h.logEnds r hr
  obtain ⟨r'', hr'', hid'', hle''⟩ := k.logEnds r' hr'
  exact ⟨r'', hr'', hid''.trans hid', hle'.trans hle''⟩

theorem advances_updateLEO (t : ISRTracker) (id : Int32) (leo leaderLEO : Int64) (now : Int) :
    Advances t (t.updateLEO id leo leaderLEO now) := by
  refine ⟨highWatermark_updateLEO t id leo leaderLEO now, fun r hr => ?_⟩
  obtain ⟨p, hp, hid, hle⟩ := recordLEO_advances id leo now hr
  refine ⟨_, List.mem_map_of_mem hp, ?_, ?_⟩
  · rw [brokerID_settle, hid]
  · rw [logEndOffset_settle]
    exact hle

theorem bounded_of_sound {now : Int} (h : t.Sound now) : Bounded t := by
  obtain ⟨r, hr, hid⟩ := List.mem_map.mp h.leader
  exact ⟨⟨r, hr, hid, h.leaderInSync r hr hid⟩, h.bounded⟩

theorem sound_new {leaderID : Int32} (lagTimeMaxMs : Int64) (now : Int)
    (hleader : leaderID ∈ replicaIDs) :
    Sound replicaIDs ⟨newISRTracker leaderID replicaIDs lagTimeMaxMs now none, now⟩ := by
  refine ⟨newISRTracker_sound lagTimeMaxMs now hleader, fun id => ?_⟩
  simp [newISRTracker]

theorem sound_step (h : Sound replicaIDs s) (hstep : UpdateStep replicaIDs s u s') :
    Sound replicaIDs s' := by
  obtain ⟨hid, hclock, rfl⟩ := hstep
  have hknown := (h.known u.id).mpr hid
  refine ⟨sound_updateLEO h.tracker hknown hclock, fun id => ?_⟩
  rw [Tracked.next, brokerIDs_updateLEO hknown]
  exact h.known id

theorem leaderLEO_le_effective (leaderID : Int32) (leaderLEO : Int64)
    (replicas : List ReplicaState) :
    leaderLEO.toInt ≤ (effectiveLeaderLEO leaderID leaderLEO replicas).toInt := by
  rw [effectiveLeaderLEO]
  split
  · split
    · rename_i hlt
      rw [Int64.lt_iff_toInt_lt] at hlt
      exact hlt.le
    · exact le_rfl
  · exact le_rfl

/-- A replica that comes back into sync has been updated just now, and has
caught up. -/
theorem caughtUp_of_readmitted (h : Sound replicaIDs s) (hstep : UpdateStep replicaIDs s u s')
    {q r : ReplicaState} (hq : q ∈ s.tracker.replicas) (hr : r ∈ s'.tracker.replicas)
    (hsame : q.brokerID = r.brokerID) (hout : q.inSync = false) (hin : r.inSync = true) :
    u.id = r.brokerID ∧ CaughtUp s'.tracker u := by
  obtain ⟨hid, hclock, rfl⟩ := hstep
  obtain ⟨p, hp, rfl⟩ := List.mem_map.mp hr
  rw [brokerID_settle] at hsame ⊢
  rcases mem_recordLEO hp with ⟨q', hq', hid', htime, -, -⟩ | ⟨hnew, -⟩
  · obtain rfl : q' = q := List.inj_on_of_nodup_map s.tracker.distinct hq' hq (hid'.trans hsame.symm)
    rcases inSync_settle hin with hleader | hrecent | ⟨hown, hcaught⟩
    · rw [h.tracker.leaderInSync q' hq (hsame.trans hleader)] at hout
      cases hout
    · have hlag := h.tracker.lagging q' hq hout
      have hlater := elapsed_mono hclock q'.lastCaughtUpTime
      rw [← htime, Int64.lt_iff_toInt_lt] at hrecent
      rw [Int64.lt_iff_toInt_lt] at hlag
      omega
    · refine ⟨hown.symm, _, hr, ?_, ?_, ?_⟩
      · rw [brokerID_settle, hown]
      · rw [logEndOffset_settle]
        exact (leaderLEO_le_effective _ _ _).trans hcaught
      · intro leader hleader hleaderID
        obtain ⟨l, hl, rfl⟩ := List.mem_map.mp hleader
        rw [brokerID_settle] at hleaderID
        rw [logEndOffset_settle, logEndOffset_settle]
        exact (effectiveLeaderLEO_ge (nodup_recordLEO u.id u.leo u.now s.tracker.distinct) hl
          hleaderID u.leaderLEO).trans hcaught
  · exact absurd ((h.known u.id).mpr hid) hnew

theorem readmitted_run {after : List Update} (h : Sound replicaIDs s)
    (hrun : Run (UpdateStep replicaIDs) s after s') {q r : ReplicaState}
    (hq : q ∈ s.tracker.replicas) (hr : r ∈ s'.tracker.replicas)
    (hsame : q.brokerID = r.brokerID) (hout : q.inSync = false) (hin : r.inSync = true) :
    ∃ mid u rest w, after = mid ++ u :: rest ∧ Run (UpdateStep replicaIDs) s (mid ++ [u]) w ∧
      u.id = q.brokerID ∧ CaughtUp w.tracker u := by
  -- backwards to the last update before which the replica was out of sync
  induction hrun generalizing r with
  | nil =>
    obtain rfl : q = r := List.inj_on_of_nodup_map s.tracker.distinct hq hr hsame
    rw [hin] at hout
    cases hout
  | @snoc as u v w hbefore hlast ih =>
    have hv : Sound replicaIDs v := hbefore.invariant h fun _ _ _ hs => sound_step hs
    have hadv : q.brokerID ∈ v.tracker.replicas.map ReplicaState.brokerID :=
      (hv.known _).mpr ((h.known _).mp (List.mem_map_of_mem hq))
    obtain ⟨p, hp, hpid⟩ := List.mem_map.mp hadv
    cases hpin : p.inSync with
    | false =>
      obtain ⟨hid, hcaught⟩ := caughtUp_of_readmitted hv hlast hp hr (hpid.trans hsame) hpin hin
      exact ⟨as, u, [], w, rfl, hbefore.snoc hlast, hid.trans hsame.symm, hcaught⟩
    | true =>
      obtain ⟨mid, u', rest, x, rfl, hmid, hid, hcaught⟩ := ih hp hpid.symm hpin
      exact ⟨mid, u', rest ++ [u], x, by simp, hmid, hid, hcaught⟩

/-- Along every run of updates of known replicas from a fresh tracker: the
leader is in sync and the high watermark is within the log of every replica in
sync; the high watermark and the recorded log ends never fall; and between a
state in which a replica is out of sync and a later one in which it is in sync,
there is an update of the replica at which it caught up with the leader. -/
theorem highWatermark_within_isr {leaderID : Int32} {lagTimeMaxMs : Int64} {now : Int}
    {before after : List Update} (hleader : leaderID ∈ replicaIDs)
    (hbefore : Run (UpdateStep replicaIDs)
      ⟨newISRTracker leaderID replicaIDs lagTimeMaxMs now none, now⟩ before s)
    (hafter : Run (UpdateStep replicaIDs) s after s') :
    Bounded s'.tracker ∧ Advances s.tracker s'.tracker ∧
      ∀ q ∈ s.tracker.replicas, ∀ r ∈ s'.tracker.replicas, q.brokerID = r.brokerID →
        q.inSync = false → r.inSync = true →
        ∃ mid u rest w, after = mid ++ u :: rest ∧ Run (UpdateStep replicaIDs) s (mid ++ [u]) w ∧
          u.id = q.brokerID ∧ CaughtUp w.tracker u := by
  have hs : Sound replicaIDs s :=
    hbefore.invariant (sound_new lagTimeMaxMs now hleader) fun _ _ _ h => sound_step h
  have hs' : Sound replicaIDs s' := hafter.invariant hs fun _ _ _ h => sound_step h
  refine ⟨bounded_of_sound hs'.tracker, ?_, ?_⟩
  · refine hafter.invariant (P := fun v => Advances s.tracker v.tracker) (.refl _) ?_
    rintro v u w hadv ⟨-, -, rfl⟩
    exact hadv.trans (advances_updateLEO _ _ _ _ _)
  · intro q hq r hr hsame hout hin
    exact readmitted_run hs hafter hq hr hsame hout hin

end

def pair : Tracked := ⟨newISRTracker 1 [1, 2] 1 0 none, 0⟩

/-- The leader has moved on to offset 5, and the follower was not heard of for
two milliseconds. -/
def dropped : Tracked := (pair.next ⟨1, 5, 5, 0⟩).next ⟨1, 5, 5, 2000000⟩

theorem highWatermark_within_isr_readmitted :
    dropped.tracker.getISR = [1] ∧ (dropped.next ⟨2, 5, 5, 3000000⟩).tracker.getISR = [1, 2] ∧
      Bounded (dropped.next ⟨2, 5, 5, 3000000⟩).tracker ∧
      Advances dropped.tracker (dropped.next ⟨2, 5, 5, 3000000⟩).tracker := by
  have hbefore : Run (UpdateStep [1, 2]) pair [⟨1, 5, 5, 0⟩, ⟨1, 5, 5, 2000000⟩] dropped :=
    (Run.nil.snoc ⟨by decide, by decide, rfl⟩).snoc ⟨by decide, by decide, rfl⟩
  have hafter : Run (UpdateStep [1, 2]) dropped [⟨2, 5, 5, 3000000⟩]
      (dropped.next ⟨2, 5, 5, 3000000⟩) :=
    Run.nil.snoc ⟨by decide, by decide, rfl⟩
  obtain ⟨hbounded, hadvances, -⟩ :=
    highWatermark_within_isr (show (1 : Int32) ∈ [1, 2] by decide) hbefore hafter
  exact ⟨by decide +kernel, by decide +kernel, hbounded, hadvances⟩

end MiniKafka.TrackerRuns
