import Mathlib.Data.List.Dedup
import MiniKafka.Durations

/-!
The in-sync replicas of a partition, as `internal/replication/isr.go` tracks
them on the leader.

The tracker records a log end offset for every replica and never lowers it.
Which replicas are in sync is decided anew in every update, from the time a
replica was last seen at the end of the leader's log.
-/

namespace MiniKafka.InSyncReplicas

open Durations

structure ReplicaState where
  brokerID : Int32
  logEndOffset : Int64
  lastCaughtUpTime : Int
  inSync : Bool
  deriving DecidableEq, Repr

/-- The source keeps the replicas in a map by broker id: here they are a list
in which no id occurs twice. -/
structure ISRTracker where
  replicas : List ReplicaState
  leaderID : Int32
  replicaLagTimeMaxMs : Int64
  highWatermark : Int64
  distinct : (replicas.map ReplicaState.brokerID).Nodup
  deriving DecidableEq

/-- `NewISRTracker`.  The last argument is the high watermark that a checkpoint
file holds for the partition. -/
def newISRTracker (leaderID : Int32) (replicaIDs : List Int32) (lagTimeMaxMs : Int64) (now : Int)
    (checkpoint : Option Int64) : ISRTracker where
  replicas := replicaIDs.dedup.map fun id => ⟨id, 0, now, true⟩
  leaderID := leaderID
  replicaLagTimeMaxMs := if lagTimeMaxMs ≤ 0 then 30000 else lagTimeMaxMs
  highWatermark := checkpoint.getD 0
  distinct := by
    rw [List.map_map]
    simpa [Function.comp_def] using List.nodup_dedup replicaIDs

/-- The log end offset of the replica `id` becomes `leo` if that is an advance.
A replica that is not known yet is added, in sync. -/
def recordLEO (id : Int32) (leo : Int64) (now : Int) (replicas : List ReplicaState) :
    List ReplicaState :=
  if id ∈ replicas.map ReplicaState.brokerID then
    replicas.map fun r =>
      if r.brokerID = id ∧ r.logEndOffset < leo then { r with logEndOffset := leo } else r
  else replicas ++ [⟨id, leo, now, true⟩]

def effectiveLeaderLEO (leaderID : Int32) (leaderLEO : Int64) (replicas : List ReplicaState) :
    Int64 :=
  match replicas.find? fun r => decide (r.brokerID = leaderID) with
  | some leader => if leaderLEO < leader.logEndOffset then leader.logEndOffset else leaderLEO
  | none => leaderLEO

def noteCaughtUp (id : Int32) (leaderLEO : Int64) (now : Int) (r : ReplicaState) : ReplicaState :=
  if r.brokerID = id ∧ leaderLEO ≤ r.logEndOffset then { r with lastCaughtUpTime := now } else r

/-- `updateISRLocked` on one replica: the leader is in sync, a follower as long
as it was caught up recently enough. -/
def updateISR (leaderID : Int32) (maxLag : Int64) (now : Int) (r : ReplicaState) : ReplicaState :=
  { r with
    inSync := decide (r.brokerID = leaderID) || !decide (maxLag < elapsed now r.lastCaughtUpTime) }

/-- One round of the loop of `calculateHWLocked`, where -1 stands for no
replica seen so far. -/
def lesser (least : Int64) (r : ReplicaState) : Int64 :=
  if r.inSync ∧ (least = -1 ∨ r.logEndOffset < least) then r.logEndOffset else least

def minLEO (replicas : List ReplicaState) : Int64 := replicas.foldl lesser (-1)

def raise (hw least : Int64) : Int64 := if hw < least then least else hw

theorem brokerID_noteCaughtUp (id : Int32) (leaderLEO : Int64) (now : Int) (r : ReplicaState) :
    (noteCaughtUp id leaderLEO now r).brokerID = r.brokerID := by
  rw [noteCaughtUp]
  split <;> rfl

theorem logEndOffset_noteCaughtUp (id : Int32) (leaderLEO : Int64) (now : Int) (r : ReplicaState) :
    (noteCaughtUp id leaderLEO now r).logEndOffset = r.logEndOffset := by
  rw [noteCaughtUp]
  split <;> rfl

theorem map_brokerID_map {f : ReplicaState → ReplicaState} (hf : ∀ r, (f r).brokerID = r.brokerID)
    (replicas : List ReplicaState) :
    (replicas.map f).map ReplicaState.brokerID = replicas.map ReplicaState.brokerID := by
  rw [List.map_map]
  exact List.map_congr_left fun r _ => hf r

theorem nodup_recordLEO (id : Int32) (leo : Int64) (now : Int) {replicas : List ReplicaState}
    (h : (replicas.map ReplicaState.brokerID).Nodup) :
    ((recordLEO id leo now replicas).map ReplicaState.brokerID).Nodup := by
  rw [recordLEO]
  split
  · rw [map_brokerID_map]
    · exact h
    · intro r
      split <;> rfl
  · rename_i hnew
    rw [List.map_append, List.map_singleton]
    exact List.nodup_append.mpr ⟨h, List.nodup_singleton _, by
      rintro a ha b hb rfl
      exact hnew (by rwa [List.mem_singleton.mp hb] at ha)⟩

def settle (t : ISRTracker) (id : Int32) (leaderLEO : Int64) (now : Int)
    (recorded : List ReplicaState) (r : ReplicaState) : ReplicaState :=
  updateISR t.leaderID (milliseconds t.replicaLagTimeMaxMs) now
    (noteCaughtUp id (effectiveLeaderLEO t.leaderID leaderLEO recorded) now r)

theorem brokerID_settle (t : ISRTracker) (id : Int32) (leaderLEO : Int64) (now : Int)
    (recorded : List ReplicaState) (r : ReplicaState) :
    (settle t id leaderLEO now recorded r).brokerID = r.brokerID :=
  brokerID_noteCaughtUp _ _ _ _

theorem logEndOffset_settle (t : ISRTracker) (id : Int32) (leaderLEO : Int64) (now : Int)
    (recorded : List ReplicaState) (r : ReplicaState) :
    (settle t id leaderLEO now recorded r).logEndOffset = r.logEndOffset :=
  logEndOffset_noteCaughtUp _ _ _ _

/-- `UpdateLEO`: the tracker afterwards; the source returns its high
watermark. -/
def ISRTracker.updateLEO (t : ISRTracker) (id : Int32) (leo leaderLEO : Int64) (now : Int) :
    ISRTracker :=
  let recorded := recordLEO id leo now t.replicas
  let replicas := recorded.map (settle t id leaderLEO now recorded)
  { t with
    replicas := replicas
    highWatermark := raise t.highWatermark (minLEO replicas)
    distinct := by
      rw [map_brokerID_map (brokerID_settle t id leaderLEO now recorded)]
      exact nodup_recordLEO id leo now t.distinct }

def ISRTracker.getISR (t : ISRTracker) : List Int32 :=
  (t.replicas.filter ReplicaState.inSync).map ReplicaState.brokerID

/-- How many replicas have all records below `x`, as far as the leader
knows. -/
def ISRTracker.replicated (t : ISRTracker) (x : Int) : Nat :=
  t.replicas.countP fun r => decide (x ≤ r.logEndOffset.toInt)

/-- No recorded log end is negative, so none is mistaken for the -1 of
`minLEO`. -/
def ISRTracker.NonNegative (t : ISRTracker) : Prop := ∀ r ∈ t.replicas, 0 ≤ r.logEndOffset.toInt

section

variable {replicas : List ReplicaState} {r : ReplicaState} {least : Int64}

theorem ne_neg_one {leo : Int64} (h : 0 ≤ leo.toInt) : leo ≠ -1 := by
  rintro rfl
  exact absurd h (by decide)

theorem lesser_spec (hr : 0 ≤ r.logEndOffset.toInt) (hleast : least = -1 ∨ 0 ≤ least.toInt) :
    (lesser least r = -1 ∨ 0 ≤ (lesser least r).toInt) ∧
      (least ≠ -1 → lesser least r ≠ -1 ∧ (lesser least r).toInt ≤ least.toInt) ∧
      (r.inSync = true → lesser least r ≠ -1 ∧ (lesser least r).toInt ≤ r.logEndOffset.toInt) := by
  have hend := ne_neg_one hr
  rw [lesser]
  split
  · rename_i htake
    refine ⟨.inr hr, fun hne => ⟨hend, ?_⟩, fun _ => ⟨hend, le_rfl⟩⟩
    have hlt := htake.2.resolve_left hne
    rw [Int64.lt_iff_toInt_lt] at hlt
    exact hlt.le
  · rename_i hkeep
    refine ⟨hleast, fun hne => ⟨hne, le_rfl⟩, fun hsync => ?_⟩
    rw [not_and, not_or, Int64.lt_iff_toInt_lt] at hkeep
    obtain ⟨hne, hnot⟩ := hkeep hsync
    exact ⟨hne, by omega⟩

theorem foldl_lesser (hnonneg : ∀ r ∈ replicas, 0 ≤ r.logEndOffset.toInt)
    (hleast : least = -1 ∨ 0 ≤ least.toInt) :
    (least ≠ -1 → replicas.foldl lesser least ≠ -1 ∧
        (replicas.foldl lesser least).toInt ≤ least.toInt) ∧
      ∀ r ∈ replicas, r.inSync = true →
        (replicas.foldl lesser least).toInt ≤ r.logEndOffset.toInt := by
  induction replicas generalizing least with
  | nil => exact ⟨fun hne => ⟨hne, le_rfl⟩, by simp⟩
  | cons q rest ih =>
    obtain ⟨hnext, hbelow, hown⟩ := lesser_spec (hnonneg q (by simp)) hleast
    obtain ⟨hkept, hrest⟩ := ih (fun r hr => hnonneg r (by simp [hr])) hnext
    rw [List.foldl_cons]
    constructor
    · intro hne
      obtain ⟨hne', hle⟩ := hkept (hbelow hne).1
      exact ⟨hne', hle.trans (hbelow hne).2⟩
    · intro r hr hsync
      rcases List.mem_cons.mp hr with rfl | hr
      · exact (hkept (hown hsync).1).2.trans (hown hsync).2
      · exact hrest r hr hsync

theorem minLEO_le (hnonneg : ∀ r ∈ replicas, 0 ≤ r.logEndOffset.toInt) (hr : r ∈ replicas)
    (hsync : r.inSync = true) : (minLEO replicas).toInt ≤ r.logEndOffset.toInt :=
  (foldl_lesser hnonneg (.inl rfl)).2 r hr hsync

theorem minLEO_mem (hnonneg : ∀ r ∈ replicas, 0 ≤ r.logEndOffset.toInt)
    (hsync : ∃ r ∈ replicas, r.inSync = true) :
    ∃ r ∈ replicas, r.inSync = true ∧ r.logEndOffset = minLEO replicas := by
  have hfold (least : Int64) (hleast : least = -1 ∨ 0 ≤ least.toInt)
      (hstart : least ≠ -1 ∨ ∃ r ∈ replicas, r.inSync = true) :
      (least ≠ -1 ∧ replicas.foldl lesser least = least) ∨
        ∃ r ∈ replicas, r.inSync = true ∧ r.logEndOffset = replicas.foldl lesser least := by
    clear hsync
    induction replicas generalizing least with
    | nil => exact .inl ⟨hstart.resolve_right (by simp), rfl⟩
    | cons q rest ih =>
      have hq := hnonneg q (by simp)
      obtain ⟨hnext, hbelow, hown⟩ := lesser_spec hq hleast
      have hlater : lesser least q ≠ -1 ∨ ∃ r ∈ rest, r.inSync = true := by
        rcases hstart with hne | ⟨r, hr, hsync⟩
        · exact .inl (hbelow hne).1
        · rcases List.mem_cons.mp hr with rfl | hr
          · exact .inl (hown hsync).1
          · exact .inr ⟨r, hr, hsync⟩
      rw [List.foldl_cons]
      rcases ih (fun r hr => hnonneg r (by simp [hr])) _ hnext hlater with
        ⟨hne, hkept⟩ | ⟨r, hr, hrest⟩
      · rw [hkept]
        by_cases htaken : q.inSync = true ∧ (least = -1 ∨ q.logEndOffset < least)
        · exact .inr ⟨q, by simp, htaken.1, by rw [lesser, if_pos htaken]⟩
        · have hsame : lesser least q = least := by rw [lesser, if_neg htaken]
          rw [hsame] at hne ⊢
          exact .inl ⟨hne, rfl⟩
      · exact .inr ⟨r, List.mem_cons_of_mem q hr, hrest⟩
  rcases hfold (-1) (.inl rfl) (.inr hsync) with ⟨hne, -⟩ | hmem
  · exact absurd rfl hne
  · exact hmem

theorem raise_ge (hw least : Int64) : hw.toInt ≤ (raise hw least).toInt := by
  rw [raise]
  split
  · rename_i hlt
    rw [Int64.lt_iff_toInt_lt] at hlt
    exact hlt.le
  · exact le_rfl

theorem mem_recordLEO {id : Int32} {leo : Int64} {now : Int}
    (hr : r ∈ recordLEO id leo now replicas) :
    (∃ q ∈ replicas, q.brokerID = r.brokerID ∧ q.lastCaughtUpTime = r.lastCaughtUpTime ∧
        q.inSync = r.inSync ∧
        (q.logEndOffset = r.logEndOffset ∧ (r.brokerID = id → ¬ q.logEndOffset < leo) ∨
          r.brokerID = id ∧ q.logEndOffset < leo ∧ r.logEndOffset = leo)) ∨
      (id ∉ replicas.map ReplicaState.brokerID ∧ r = ⟨id, leo, now, true⟩) := by
  rw [recordLEO] at hr
  split at hr
  · obtain ⟨q, hq, rfl⟩ := List.mem_map.mp hr
    refine .inl ⟨q, hq, ?_⟩
    split
    · rename_i hadvance
      exact ⟨rfl, rfl, rfl, .inr ⟨hadvance.1, hadvance.2, rfl⟩⟩
    · rename_i hkeep
      exact ⟨rfl, rfl, rfl, .inl ⟨rfl, not_and.mp hkeep⟩⟩
  · rename_i hnew
    rcases List.mem_append.mp hr with hold | hlast
    · refine .inl ⟨r, hold, rfl, rfl, rfl, .inl ⟨rfl, fun hid => ?_⟩⟩
      exact absurd (List.mem_map.mpr ⟨r, hold, hid⟩) hnew
    · exact .inr ⟨hnew, List.mem_singleton.mp hlast⟩

theorem countP_recordLEO (id : Int32) (leo : Int64) (now : Int) (x : Int)
    (replicas : List ReplicaState) :
    replicas.countP (fun r => decide (x ≤ r.logEndOffset.toInt)) ≤
      (recordLEO id leo now replicas).countP fun r => decide (x ≤ r.logEndOffset.toInt) := by
  rw [recordLEO]
  split
  · rw [List.countP_map]
    apply List.countP_mono_left
    intro r _ hr
    rw [decide_eq_true_eq] at hr
    rw [Function.comp_apply, decide_eq_true_eq]
    split
    · rename_i hadvance
      rw [Int64.lt_iff_toInt_lt] at hadvance
      exact hr.trans hadvance.2.le
    · exact hr
  · rw [List.countP_append]
    exact Nat.le_add_right _ _

end

section

variable {t : ISRTracker} {id : Int32} {leo leaderLEO : Int64} {now : Int} {r : ReplicaState}

variable {leaderID : Int32} {replicas : List ReplicaState} {now' : Int}

theorem mem_updateLEO (hr : r ∈ (t.updateLEO id leo leaderLEO now).replicas) :
    (∃ q ∈ t.replicas, q.brokerID = r.brokerID ∧ q.logEndOffset = r.logEndOffset) ∨
      (r.brokerID = id ∧ r.logEndOffset = leo ∧
        ∀ q ∈ t.replicas, q.brokerID = id → q.logEndOffset < leo) := by
  obtain ⟨p, hp, rfl⟩ := List.mem_map.mp hr
  rw [brokerID_settle, logEndOffset_settle]
  rcases mem_recordLEO hp with ⟨q, hq, hid, -, -, ⟨hend, -⟩ | ⟨hown, hlt, hend⟩⟩ | ⟨hnew, rfl⟩
  · exact .inl ⟨q, hq, hid, hend⟩
  · refine .inr ⟨hown, hend, fun q' hq' hid' => ?_⟩
    have hsame : q' = q :=
      List.inj_on_of_nodup_map t.distinct hq' hq (hid'.trans (hid.trans hown).symm)
    rwa [hsame]
  · refine .inr ⟨rfl, rfl, fun q hq hid => ?_⟩
    exact absurd (List.mem_map.mpr ⟨q, hq, hid⟩) hnew

theorem replicated_updateLEO (t : ISRTracker) (id : Int32) (leo leaderLEO : Int64) (now : Int)
    (x : Int) : t.replicated x ≤ (t.updateLEO id leo leaderLEO now).replicated x := by
  refine (countP_recordLEO id leo now x t.replicas).trans_eq ?_
  rw [ISRTracker.replicated, ISRTracker.updateLEO, List.countP_map]
  apply List.countP_congr
  intro r _
  rw [Function.comp_apply, logEndOffset_settle]

theorem highWatermark_updateLEO (t : ISRTracker) (id : Int32) (leo leaderLEO : Int64) (now : Int) :
    t.highWatermark.toInt ≤ (t.updateLEO id leo leaderLEO now).highWatermark.toInt :=
  raise_ge _ _

theorem nonNegative_updateLEO (h : t.NonNegative)
    (hleo : 0 ≤ leo.toInt ∨ id ∈ t.replicas.map ReplicaState.brokerID) :
    (t.updateLEO id leo leaderLEO now).NonNegative := by
  intro r hr
  rcases mem_updateLEO hr with ⟨q, hq, -, hend⟩ | ⟨-, hend, hadvance⟩
  · rw [← hend]
    exact h q hq
  · rw [hend]
    rcases hleo with hleo | hid
    · exact hleo
    · obtain ⟨q, hq, hown⟩ := List.mem_map.mp hid
      have hlt := hadvance q hq hown
      have hq' := h q hq
      rw [Int64.lt_iff_toInt_lt] at hlt
      omega

theorem raised_eq
    (hraised : t.highWatermark.toInt < (t.updateLEO id leo leaderLEO now).highWatermark.toInt) :
    (t.updateLEO id leo leaderLEO now).highWatermark =
      minLEO (t.updateLEO id leo leaderLEO now).replicas := by
  have hwatermark : (t.updateLEO id leo leaderLEO now).highWatermark =
      raise t.highWatermark (minLEO (t.updateLEO id leo leaderLEO now).replicas) := rfl
  rw [raise] at hwatermark
  split at hwatermark
  · exact hwatermark
  · rw [hwatermark] at hraised
    exact absurd hraised (lt_irrefl _)

/-- When an update raises the high watermark, no replica then in sync ends
below it. -/
theorem raised_le (h : (t.updateLEO id leo leaderLEO now).NonNegative)
    (hraised : t.highWatermark.toInt < (t.updateLEO id leo leaderLEO now).highWatermark.toInt)
    (hr : r ∈ (t.updateLEO id leo leaderLEO now).replicas) (hsync : r.inSync = true) :
    (t.updateLEO id leo leaderLEO now).highWatermark.toInt ≤ r.logEndOffset.toInt := by
  rw [raised_eq hraised]
  exact minLEO_le h hr hsync

theorem getISR_le_replicated (h : (t.updateLEO id leo leaderLEO now).NonNegative)
    (hraised : t.highWatermark.toInt < (t.updateLEO id leo leaderLEO now).highWatermark.toInt) :
    (t.updateLEO id leo leaderLEO now).getISR.length ≤
      (t.updateLEO id leo leaderLEO now).replicated
        (t.updateLEO id leo leaderLEO now).highWatermark.toInt := by
  rw [ISRTracker.getISR, List.length_map, ← List.countP_eq_length_filter, ISRTracker.replicated]
  apply List.countP_mono_left
  intro r hr hsync
  rw [decide_eq_true_eq]
  exact raised_le h hraised hr hsync

/-- What holds of a tracker in which only known replicas were updated.  The
last field says that a replica out of sync has not caught up since. -/
structure ISRTracker.Sound (t : ISRTracker) (now : Int) : Prop where
  nonNegative : t.NonNegative
  leader : t.leaderID ∈ t.replicas.map ReplicaState.brokerID
  leaderInSync : ∀ r ∈ t.replicas, r.brokerID = t.leaderID → r.inSync = true
  bounded : ∀ r ∈ t.replicas, r.inSync = true → t.highWatermark.toInt ≤ r.logEndOffset.toInt
  lagging : ∀ r ∈ t.replicas, r.inSync = false →
    milliseconds t.replicaLagTimeMaxMs < elapsed now r.lastCaughtUpTime

theorem newISRTracker_sound {replicaIDs : List Int32} (lagTimeMaxMs : Int64) (now : Int)
    (hleader : leaderID ∈ replicaIDs) :
    (newISRTracker leaderID replicaIDs lagTimeMaxMs now none).Sound now := by
  have hfresh {r : ReplicaState}
      (hr : r ∈ (newISRTracker leaderID replicaIDs lagTimeMaxMs now none).replicas) :
      r.logEndOffset = 0 ∧ r.inSync = true := by
    obtain ⟨id, -, rfl⟩ := List.mem_map.mp hr
    exact ⟨rfl, rfl⟩
  refine ⟨?_, ?_, ?_, ?_, ?_⟩
  · intro r hr
    rw [(hfresh hr).1]
    decide
  · rw [newISRTracker, List.map_map]
    simpa [Function.comp_def] using hleader
  · intro r hr _
    exact (hfresh hr).2
  · intro r hr _
    rw [(hfresh hr).1]
    exact le_rfl
  · intro r hr hout
    rw [(hfresh hr).2] at hout
    exact absurd hout (by decide)

theorem brokerIDs_updateLEO (hid : id ∈ t.replicas.map ReplicaState.brokerID) :
    (t.updateLEO id leo leaderLEO now).replicas.map ReplicaState.brokerID =
      t.replicas.map ReplicaState.brokerID := by
  rw [ISRTracker.updateLEO, map_brokerID_map (brokerID_settle t id leaderLEO now _), recordLEO,
    if_pos hid, map_brokerID_map]
  intro r
  split <;> rfl

theorem recordLEO_advances (id : Int32) (leo : Int64) (now : Int) (hr : r ∈ replicas) :
    ∃ p ∈ recordLEO id leo now replicas,
      p.brokerID = r.brokerID ∧ r.logEndOffset.toInt ≤ p.logEndOffset.toInt := by
  rw [recordLEO]
  split
  · refine ⟨_, List.mem_map_of_mem hr, ?_⟩
    split
    · rename_i hadvance
      rw [Int64.lt_iff_toInt_lt] at hadvance
      exact ⟨rfl, hadvance.2.le⟩
    · exact ⟨rfl, le_rfl⟩
  · exact ⟨r, List.mem_append_left _ hr, rfl, le_rfl⟩

theorem effectiveLeaderLEO_ge (hdistinct : (replicas.map ReplicaState.brokerID).Nodup)
    (hr : r ∈ replicas) (hleader : r.brokerID = leaderID) (leaderLEO : Int64) :
    r.logEndOffset.toInt ≤ (effectiveLeaderLEO leaderID leaderLEO replicas).toInt := by
  rw [effectiveLeaderLEO]
  split
  · rename_i leader hfind
    have hid : leader.brokerID = leaderID := by simpa using List.find?_some hfind
    obtain rfl : leader = r :=
      List.inj_on_of_nodup_map hdistinct (List.mem_of_find?_eq_some hfind) hr
        (hid.trans hleader.symm)
    split
    · exact le_rfl
    · rename_i hnot
      rw [Int64.lt_iff_toInt_lt] at hnot
      omega
  · rename_i hnone
    exact absurd (decide_eq_true hleader) (List.find?_eq_none.mp hnone r hr)

theorem inSync_settle {recorded : List ReplicaState}
    (hsync : (settle t id leaderLEO now recorded r).inSync = true) :
    r.brokerID = t.leaderID ∨
      ¬ milliseconds t.replicaLagTimeMaxMs < elapsed now r.lastCaughtUpTime ∨
      (r.brokerID = id ∧
        (effectiveLeaderLEO t.leaderID leaderLEO recorded).toInt ≤ r.logEndOffset.toInt) := by
  rw [settle, updateISR, Bool.or_eq_true, decide_eq_true_eq, brokerID_noteCaughtUp,
    Bool.not_eq_true', decide_eq_false_iff_not] at hsync
  rcases hsync with hleader | hrecent
  · exact .inl hleader
  · rw [noteCaughtUp] at hrecent
    split at hrecent
    · rename_i hcaught
      rw [Int64.le_iff_toInt_le] at hcaught
      exact .inr (.inr hcaught)
    · exact .inr (.inl hrecent)

theorem bounded_updateLEO (h : t.Sound now) (hid : id ∈ t.replicas.map ReplicaState.brokerID)
    (hclock : now ≤ now') (hr : r ∈ (t.updateLEO id leo leaderLEO now').replicas)
    (hsync : r.inSync = true) :
    t.highWatermark.toInt ≤ r.logEndOffset.toInt := by
  obtain ⟨p, hp, rfl⟩ := List.mem_map.mp hr
  rw [logEndOffset_settle]
  rcases mem_recordLEO hp with ⟨q, hq, hsame, htime, -, hend⟩ | ⟨hnew, -⟩
  · have hrises : q.logEndOffset.toInt ≤ p.logEndOffset.toInt := by
      rcases hend with ⟨hend, -⟩ | ⟨-, hlt, hend⟩
      · rw [hend]
      · rw [Int64.lt_iff_toInt_lt] at hlt
        rw [hend]
        exact hlt.le
    cases hwas : q.inSync with
    | true => exact (h.bounded q hq hwas).trans hrises
    | false =>
      have hlag := h.lagging q hq hwas
      have hlater := elapsed_mono hclock q.lastCaughtUpTime
      rcases inSync_settle hsync with hleader | hrecent | ⟨-, hcaught⟩
      · rw [h.leaderInSync q hq (hsame.trans hleader)] at hwas
        exact absurd hwas (by decide)
      · rw [← htime, Int64.lt_iff_toInt_lt] at hrecent
        rw [Int64.lt_iff_toInt_lt] at hlag
        omega
      · obtain ⟨leader, hmem, hleader⟩ := List.mem_map.mp h.leader
        obtain ⟨leader', hmem', hid', hadvance⟩ := recordLEO_advances id leo now' hmem
        have hbound := h.bounded leader hmem (h.leaderInSync leader hmem hleader)
        have heffective := effectiveLeaderLEO_ge (nodup_recordLEO id leo now' t.distinct) hmem'
          (hid'.trans hleader) leaderLEO
        omega
  · exact absurd hid hnew

theorem sound_updateLEO (h : t.Sound now) (hid : id ∈ t.replicas.map ReplicaState.brokerID)
    (hclock : now ≤ now') :
    (t.updateLEO id leo leaderLEO now').Sound now' := by
  have hnonneg : (t.updateLEO id leo leaderLEO now').NonNegative :=
    nonNegative_updateLEO h.nonNegative (.inr hid)
  refine ⟨hnonneg, ?_, ?_, ?_, ?_⟩
  · rw [brokerIDs_updateLEO hid]
    exact h.leader
  · intro r hr hleader
    obtain ⟨p, -, rfl⟩ := List.mem_map.mp hr
    rw [brokerID_settle] at hleader
    have hdecide : decide (p.brokerID = t.leaderID) = true := decide_eq_true hleader
    rw [settle, updateISR, brokerID_noteCaughtUp, hdecide, Bool.true_or]
  · intro r hr hsync
    by_cases hraised : t.highWatermark.toInt <
        (t.updateLEO id leo leaderLEO now').highWatermark.toInt
    · exact raised_le hnonneg hraised hr hsync
    · exact (not_lt.mp hraised).trans (bounded_updateLEO h hid hclock hr hsync)
  · intro r hr hout
    obtain ⟨p, -, rfl⟩ := List.mem_map.mp hr
    rw [settle, updateISR, Bool.or_eq_false_iff, Bool.not_eq_false', decide_eq_true_eq] at hout
    exact hout.2

theorem sound_later (h : t.Sound now) (hclock : now ≤ now') : t.Sound now' where
  nonNegative := h.nonNegative
  leader := h.leader
  leaderInSync := h.leaderInSync
  bounded := h.bounded
  lagging r hr hout := by
    have hlag := h.lagging r hr hout
    have hlater := elapsed_mono hclock r.lastCaughtUpTime
    rw [Int64.lt_iff_toInt_lt] at hlag ⊢
    omega

theorem least_le_raise (hw least : Int64) : least.toInt ≤ (raise hw least).toInt := by
  rw [raise]
  split
  · exact le_rfl
  · rename_i hge
    rw [Int64.lt_iff_toInt_lt] at hge
    omega

/-- Which replicas an update leaves in sync, by the times it leaves. -/
theorem inSync_iff (hr : r ∈ (t.updateLEO id leo leaderLEO now).replicas) :
    r.inSync = true ↔ r.brokerID = t.leaderID ∨
      ¬ milliseconds t.replicaLagTimeMaxMs < elapsed now r.lastCaughtUpTime := by
  obtain ⟨p, -, rfl⟩ := List.mem_map.mp hr
  rw [settle, updateISR, Bool.or_eq_true, decide_eq_true_eq, Bool.not_eq_true',
    decide_eq_false_iff_not]

theorem mem_getISR {x : Int32} :
    x ∈ t.getISR ↔ ∃ r ∈ t.replicas, r.inSync = true ∧ r.brokerID = x := by
  simp [ISRTracker.getISR, and_assoc]

theorem nodup_getISR (t : ISRTracker) : t.getISR.Nodup :=
  t.distinct.sublist (List.filter_sublist.map _)

theorem tracked_updateLEO {x : Int32} (hx : x ∈ t.replicas.map ReplicaState.brokerID ∨ x = id) :
    ∃ r ∈ (t.updateLEO id leo leaderLEO now).replicas, r.brokerID = x := by
  have hrecorded : ∃ p ∈ recordLEO id leo now t.replicas, p.brokerID = x := by
    by_cases hknown : x ∈ t.replicas.map ReplicaState.brokerID
    · obtain ⟨q, hq, rfl⟩ := List.mem_map.mp hknown
      obtain ⟨p, hp, hid, -⟩ := recordLEO_advances id leo now hq
      exact ⟨p, hp, hid⟩
    · obtain rfl := hx.resolve_left hknown
      rw [recordLEO, if_neg hknown]
      exact ⟨_, List.mem_append_right _ (List.mem_singleton_self _), rfl⟩
  obtain ⟨p, hp, hid⟩ := hrecorded
  exact ⟨_, List.mem_map_of_mem hp, (brokerID_settle t id leaderLEO now _ p).trans hid⟩

theorem effectiveLeaderLEO_recordLEO (hne : id ≠ leaderID) (replicas : List ReplicaState) :
    effectiveLeaderLEO leaderID leaderLEO (recordLEO id leo now replicas) =
      effectiveLeaderLEO leaderID leaderLEO replicas := by
  have hfind : (recordLEO id leo now replicas).find? (fun r => decide (r.brokerID = leaderID)) =
      replicas.find? fun r => decide (r.brokerID = leaderID) := by
    rw [recordLEO]
    split
    · have hsame : ((fun r : ReplicaState => decide (r.brokerID = leaderID)) ∘ fun r =>
          if r.brokerID = id ∧ r.logEndOffset < leo then { r with logEndOffset := leo } else r) =
          fun r => decide (r.brokerID = leaderID) := by
        funext r
        rw [Function.comp_apply]
        split <;> rfl
      rw [List.find?_map, hsame]
      cases hleader : replicas.find? fun r => decide (r.brokerID = leaderID) with
      | none => rfl
      | some leader =>
        have hid : leader.brokerID = leaderID := by simpa using List.find?_some hleader
        rw [Option.map_some, if_neg (fun h => hne (h.1.symm.trans hid))]
    · simp [hne]
  rw [effectiveLeaderLEO, effectiveLeaderLEO, hfind]

theorem recorded_logEnd (hr : r ∈ recordLEO id leo now replicas) :
    (∃ q ∈ replicas, q.brokerID = r.brokerID ∧ q.lastCaughtUpTime = r.lastCaughtUpTime ∧
        (r.brokerID = id → r.logEndOffset.toInt = max q.logEndOffset.toInt leo.toInt)) ∨
      (id ∉ replicas.map ReplicaState.brokerID ∧ r = ⟨id, leo, now, true⟩) := by
  rcases mem_recordLEO hr with ⟨q, hq, hid, htime, -, ⟨hend, hkeep⟩ | ⟨-, hlt, hend⟩⟩ | hnew
  · refine .inl ⟨q, hq, hid, htime, fun hown => ?_⟩
    have hle := hkeep hown
    rw [Int64.lt_iff_toInt_lt, not_lt] at hle
    rw [← hend, max_eq_left hle]
  · rw [Int64.lt_iff_toInt_lt] at hlt
    exact .inl ⟨q, hq, hid, htime, fun _ => by rw [hend, max_eq_right hlt.le]⟩
  · exact .inr hnew

theorem lastCaughtUpTime_settle {recorded : List ReplicaState} :
    (settle t id leaderLEO now recorded r).lastCaughtUpTime =
      if r.brokerID = id ∧ effectiveLeaderLEO t.leaderID leaderLEO recorded ≤ r.logEndOffset then now
      else r.lastCaughtUpTime := by
  rw [settle, updateISR, noteCaughtUp]
  split <;> rfl

theorem lastCaughtUpTime_cases (hr : r ∈ (t.updateLEO id leo leaderLEO now).replicas) :
    (r.brokerID = id ∧ r.lastCaughtUpTime = now) ∨
      ∃ q ∈ t.replicas, q.brokerID = r.brokerID ∧ r.lastCaughtUpTime = q.lastCaughtUpTime := by
  obtain ⟨p, hp, rfl⟩ := List.mem_map.mp hr
  rw [lastCaughtUpTime_settle, brokerID_settle]
  split
  · rename_i hcaught
    exact .inl ⟨hcaught.1, rfl⟩
  · rcases recorded_logEnd hp with ⟨q, hq, hsame, htime, -⟩ | ⟨-, rfl⟩
    · exact .inr ⟨q, hq, hsame, htime.symm⟩
    · exact .inl ⟨rfl, rfl⟩

theorem lastCaughtUpTime_updateLEO (hne : id ≠ t.leaderID)
    (hr : r ∈ (t.updateLEO id leo leaderLEO now).replicas) :
    (∃ q ∈ t.replicas, q.brokerID = r.brokerID ∧ (r.brokerID ≠ id ∨
        q.logEndOffset < effectiveLeaderLEO t.leaderID leaderLEO t.replicas ∧
          leo < effectiveLeaderLEO t.leaderID leaderLEO t.replicas) ∧
        r.lastCaughtUpTime = q.lastCaughtUpTime) ∨
      (r.brokerID = id ∧ r.lastCaughtUpTime = now ∧ ∀ q ∈ t.replicas, q.brokerID = id →
        ¬ (q.logEndOffset < effectiveLeaderLEO t.leaderID leaderLEO t.replicas ∧
          leo < effectiveLeaderLEO t.leaderID leaderLEO t.replicas)) := by
  obtain ⟨p, hp, rfl⟩ := List.mem_map.mp hr
  rw [lastCaughtUpTime_settle, brokerID_settle, effectiveLeaderLEO_recordLEO hne]
  generalize effectiveLeaderLEO t.leaderID leaderLEO t.replicas = leaderEnd
  rcases recorded_logEnd hp with ⟨q, hq, hsame, htime, hend⟩ | ⟨hnew, rfl⟩
  · by_cases hid : p.brokerID = id
    · have hlarger := hend hid
      by_cases hcaught : leaderEnd ≤ p.logEndOffset
      · refine .inr ⟨hid, if_pos ⟨hid, hcaught⟩, fun q' hq' hid' => ?_⟩
        obtain rfl : q' = q :=
          List.inj_on_of_nodup_map t.distinct hq' hq (hid'.trans (hsame.trans hid).symm)
        rw [Int64.le_iff_toInt_le] at hcaught
        simp only [Int64.lt_iff_toInt_lt]
        omega
      · refine .inl ⟨q, hq, hsame, .inr ?_, by rw [if_neg (fun h => hcaught h.2), htime]⟩
        rw [Int64.le_iff_toInt_le] at hcaught
        simp only [Int64.lt_iff_toInt_lt]
        omega
    · exact .inl ⟨q, hq, hsame, .inl hid, by rw [if_neg (fun h => hid h.1), htime]⟩
  · refine .inr ⟨rfl, by simp, fun q hq hid => ?_⟩
    exact absurd (List.mem_map.mpr ⟨q, hq, hid⟩) hnew

end

end MiniKafka.InSyncReplicas
