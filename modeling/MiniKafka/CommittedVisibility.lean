import MiniKafka.BrokerHandlers
import MiniKafka.LogRefinement
import MiniKafka.LogStart

/-!
What consumers can see of a partition across restarts of its leader.

`handleFetch` shows what lies below the high watermark of the partition.  While
the broker is up that is a value its tracker has computed.  A restart takes the
end of the surviving log instead, while the new tracker begins at zero.
-/

namespace MiniKafka.CommittedVisibility

open RecordCodec RecordSets SegmentStore PartitionLog LogMaintenance LogStart InSyncReplicas
  BrokerHandlers Runs
open LogRefinement (newLog_small)

/-- A broker, with the high watermarks that the trackers of each partition have
computed so far, in this life of the broker and in earlier ones. -/
structure Leader where
  broker : Broker
  computed : TopicPartition → List Int64

/-- A crash can leave of a log any of its segments, each with some first part
of its bytes.  What the writer of the active segment still buffers counts, since
a reader or the periodic flush may have written it out before. -/
def Survives (l : Log) (dir : List SegmentFiles) : Prop :=
  ∀ f ∈ dir, ∃ s ∈ l.segments, f.baseOffset = s.baseOffset ∧ f.logFile <+: s.writer.contents

inductive LeaderEvent where
  | serve (e : Event)
  | restart (logs : TopicPartition → Log) (now : Int)

/-- The high watermarks computed after a step from `p` to `p'`.  If that of the
tracker has risen, the least log end of the replicas in sync is a new one. -/
def noted (computed : List Int64) (p p' : Partition) : List Int64 :=
  if p.tracker.highWatermark < p'.tracker.highWatermark then
    minLEO p'.tracker.replicas :: computed
  else computed

def TrackerStep (t t' : ISRTracker) : Prop :=
  t' = t ∨ ∃ id leo leaderLEO now, t' = t.updateLEO id leo leaderLEO now

def Leader.serve (crc : Checksum) (cfg : BrokerConfig) (s : Leader) (e : Event) : Option Leader :=
  (s.broker.step crc cfg e).map fun broker =>
    ⟨broker, fun key => noted (s.computed key) (s.broker.partitions key) (broker.partitions key)⟩

/-- The steps of a leader.  A restart opens every partition on the files that
survived and forgets everything that was not on disk. -/
def Step (crc : Checksum) (cfg : BrokerConfig) (logCfg : Config) (s : Leader) :
    LeaderEvent → Leader → Prop
  | .serve e, s' => s.serve crc cfg e = some s'
  | .restart logs now, s' =>
    (∀ key, ∃ dir modTime, Survives (s.broker.partitions key).log dir ∧
      newLog crc logCfg dir modTime now = .ok (logs key)) ∧
    s' = ⟨newBroker cfg logs now, s.computed⟩

def Committed (computed : List Int64) (x : Int64) : Prop :=
  x.toInt ≤ 0 ∨ ∃ hw ∈ computed, x.toInt ≤ hw.toInt

/-- The condition on restarts: the surviving log of the partition ends at or
below a high watermark that was computed before. -/
def SurvivorsCommitted (key : TopicPartition) (s : Leader) : LeaderEvent → Prop
  | .serve _ => True
  | .restart logs _ => Committed (s.computed key) (logs key).highestOffset

structure Visible (computed : List Int64) (p : Partition) : Prop where
  lowest : 0 ≤ p.log.lowestOffset.toInt
  tracker : Committed computed p.tracker.highWatermark
  partition : Committed computed p.highWatermark

def FetchResponse.records (crc : Checksum) (response : FetchResponse) : List Record :=
  (decodeRecords crc response.recordSet).1

/-- What the threads know: a high watermark they carry was computed, and every
record they return is below one. -/
def Task.Visible (crc : Checksum) (computed : List Int64) : Task → Prop
  | .produce _ _ (.updated _ _ hw) => Committed computed hw
  | .replicaFetch _ (.replicaUpdated _ hw) => Committed computed hw
  | .fetch _ (.bounded hw) => Committed computed hw
  | .fetch _ (.located hw _) => Committed computed hw
  | .fetch _ (.answered response) =>
    ∀ r ∈ FetchResponse.records crc response, ∃ hw ∈ computed, r.offset.toInt < hw.toInt
  | _ => True

section

variable {crc : Checksum} {cfg : BrokerConfig} {computed computed' : List Int64} {p p' : Partition}

variable {hw : Int64} {task : Task} {now : Int} {key : TopicPartition}

theorem Committed.mono {x : Int64} (h : Committed computed x)
    (hsub : ∀ hw ∈ computed, hw ∈ computed') : Committed computed' x :=
  h.imp_right fun ⟨hw, hmem, hle⟩ => ⟨hw, hsub hw hmem, hle⟩

theorem mem_noted (p p' : Partition) (h : hw ∈ computed) :
    hw ∈ noted computed p p' := by
  rw [noted]
  split
  · exact List.mem_cons_of_mem _ h
  · exact h

theorem committed_noted (h : Committed computed p.tracker.highWatermark)
    (htracker : TrackerStep p.tracker p'.tracker) :
    Committed (noted computed p p') p'.tracker.highWatermark := by
  rw [noted]
  split
  · rename_i hraised
    rw [Int64.lt_iff_toInt_lt] at hraised
    refine .inr ⟨_, List.mem_cons_self, ?_⟩
    rcases htracker with hsame | ⟨id, leo, leaderLEO, now, hupdate⟩
    · rw [hsame] at hraised
      exact absurd hraised (lt_irrefl _)
    · rw [hupdate] at hraised ⊢
      rw [raised_eq hraised]
  · rename_i hnot
    rw [Int64.lt_iff_toInt_lt, not_lt] at hnot
    rcases h with hzero | ⟨hw, hmem, hle⟩
    · exact .inl (hnot.trans hzero)
    · exact .inr ⟨hw, hmem, hnot.trans hle⟩

theorem Visible.mono (h : Visible computed p) (hsub : ∀ hw ∈ computed, hw ∈ computed') :
    Visible computed' p :=
  ⟨h.lowest, h.tracker.mono hsub, h.partition.mono hsub⟩

theorem Visible.setHighWatermark (h : Visible computed p) (hhw : Committed computed hw) :
    Visible computed (p.setHighWatermark hw) := by
  refine ⟨h.lowest, h.tracker, ?_⟩
  change Committed computed (raise p.highWatermark hw)
  rw [raise]
  split
  · exact hhw
  · exact h.partition

theorem taskVisible_mono (h : Task.Visible crc computed task)
    (hsub : ∀ hw ∈ computed, hw ∈ computed') : Task.Visible crc computed' task := by
  cases task with
  | produce request deadline phase =>
    cases phase with
    | updated block leaderLEO hw => exact Committed.mono h hsub
    | _ => trivial
  | replicaFetch request phase =>
    cases phase with
    | replicaUpdated records hw => exact Committed.mono h hsub
    | _ => trivial
  | fetch request phase =>
    cases phase with
    | received => trivial
    | bounded hw => exact Committed.mono h hsub
    | located hw start => exact Committed.mono h hsub
    | answered response =>
      intro r hr
      obtain ⟨hw, hmem, hlt⟩ := h r hr
      exact ⟨hw, hsub hw hmem, hlt⟩

theorem readFrom_below (crc : Checksum) (l : Log) (maxBytes : Int32) {offset : Int64}
    (h : offset.toInt < l.lowestOffset.toInt) : (l.readFrom crc offset maxBytes).1 = [] := by
  rw [← Int64.lt_iff_toInt_lt] at h
  rw [Log.readFrom]
  split
  · rfl
  split
  · rfl
  · rfl

theorem fetchAnswer_visible {l : Log} {request : FetchRequest} {start : Int64}
    (hlow : 0 ≤ l.lowestOffset.toInt) (hhw : Committed computed hw) :
    ∀ r ∈ FetchResponse.records crc (fetchAnswer crc request l hw start),
      ∃ bound ∈ computed, r.offset.toInt < bound.toInt := by
  intro r hr
  have hempty (code : ErrorCode) : FetchResponse.records crc ⟨code, hw, start, []⟩ = [] := rfl
  rw [fetchAnswer] at hr
  split at hr
  · rw [hempty] at hr
    cases hr
  · rename_i hbelow
    rw [Int64.le_iff_toInt_le, not_le] at hbelow
    split at hr
    rename_i records error heq
    split at hr
    · rw [hempty] at hr
      cases hr
    split at hr
    · rw [hempty] at hr
      cases hr
    · rename_i recordSet hencode
      rw [FetchResponse.records, decodeRecords_encoded hencode] at hr
      have hoffset := List.mem_takeWhile_imp hr
      rw [decide_eq_true_eq, Int64.lt_iff_toInt_lt] at hoffset
      rcases hhw with hzero | ⟨bound, hmem, hle⟩
      · have hnil := readFrom_below crc l request.maxBytes
          (show request.fetchOffset.toInt < _ by omega)
        rw [heq] at hnil
        obtain rfl : records = [] := hnil
        cases hr
      · exact ⟨bound, hmem, by omega⟩

theorem visible_noted (h : Visible computed p) (hlow : p'.log.lowestOffset = p.log.lowestOffset)
    (htracker : TrackerStep p.tracker p'.tracker) (hhw : Committed computed p'.highWatermark) :
    Visible (noted computed p p') p' := by
  refine ⟨?_, committed_noted h.tracker htracker, hhw.mono fun _ => mem_noted p p'⟩
  rw [hlow]
  exact h.lowest

theorem visible_updateLEO (h : Visible computed p) (id : Int32) (leo leaderLEO : Int64)
    (now : Int) :
    Visible (noted computed p (p.updateLEO id leo leaderLEO now))
      (p.updateLEO id leo leaderLEO now) :=
  visible_noted h rfl (.inr ⟨id, leo, leaderLEO, now, rfl⟩) h.partition

theorem visible_step (hp : Visible computed p)
    (htask : ∀ hw ∈ task.pendingWatermark, Committed computed hw)
    (hstep : PartitionStep crc cfg now task p p') : Visible (noted computed p p') p' := by
  cases hstep with
  | same => exact visible_noted hp rfl (.inl rfl) hp.partition
  | append env hleft =>
    exact visible_noted hp (lowestOffset_appendBatch crc p.log _) (.inl rfl) hp.partition
  | update hpending => exact visible_updateLEO hp _ _ _ _
  | publish hpending =>
    exact visible_noted hp rfl (.inl rfl) (hp.setHighWatermark (htask _ hpending)).partition

theorem produce_visible_iff {request : ProduceRequest} {deadline : Int} {phase : ProducePhase} :
    Task.Visible crc computed (.produce request deadline phase) ↔
      ∀ hw ∈ (Task.produce request deadline phase).pendingWatermark, Committed computed hw := by
  cases phase <;> simp [Task.Visible, Task.pendingWatermark]

theorem replicaFetch_visible_iff {request : ReplicaFetchRequest} {phase : ReplicaFetchPhase} :
    Task.Visible crc computed (.replicaFetch request phase) ↔
      ∀ hw ∈ (Task.replicaFetch request phase).pendingWatermark, Committed computed hw := by
  cases phase <;> simp [Task.Visible, Task.pendingWatermark]

theorem fetch_visible {request : FetchRequest} {phase phase' : FetchPhase}
    (hp : Visible computed p) (hphase : Task.Visible crc computed (.fetch request phase))
    (hnext : phase.next crc request p = some phase') :
    Task.Visible crc computed (.fetch request phase') := by
  cases phase with
  | received =>
    cases hnext
    exact hp.partition
  | bounded hw =>
    cases hnext
    exact hphase
  | located hw start =>
    cases hnext
    exact fetchAnswer_visible hp.lowest hphase
  | answered response => cases hnext

theorem task_visible {channel : Nat} {choice : Choice} {q q' : Purgatory} {task' : Task}
    (hp : Visible computed p) (htask : Task.Visible crc computed task)
    (hnext : task.next crc cfg key channel now choice p q = some (task', p', q')) :
    Visible (noted computed p p') p' ∧ Task.Visible crc (noted computed p p') task' := by
  cases task with
  | produce request deadline phase =>
    obtain ⟨⟨phase', p'', q''⟩, hphase, heq⟩ := Option.map_eq_some_iff.mp hnext
    cases heq
    have hp' := visible_step hp (produce_visible_iff.mp htask) (partitionStep_produce hphase)
    refine ⟨hp', produce_visible_iff.mpr fun hw hhw => ?_⟩
    rw [(pending_produce hphase).2 hw hhw]
    exact hp'.tracker
  | replicaFetch request phase =>
    obtain ⟨⟨phase', p'', q''⟩, hphase, heq⟩ := Option.map_eq_some_iff.mp hnext
    cases heq
    have hp' := visible_step hp (replicaFetch_visible_iff.mp htask)
      (partitionStep_replicaFetch hphase)
    refine ⟨hp', replicaFetch_visible_iff.mpr fun hw hhw => ?_⟩
    rw [(pending_replicaFetch hphase).2 hw hhw]
    exact hp'.tracker
  | fetch request phase =>
    obtain ⟨phase', hphase, heq⟩ := Option.map_eq_some_iff.mp hnext
    cases heq
    exact ⟨visible_noted hp rfl (.inl rfl) hp.partition,
      taskVisible_mono (fetch_visible hp htask hphase) fun _ => mem_noted p p⟩

def Sound (crc : Checksum) (key : TopicPartition) (s : Leader) : Prop :=
  Threads (fun _ k p => k = key → Visible (s.computed key) p)
    (fun k _ task => k = key → Task.Visible crc (s.computed key) task) s.broker

theorem sound_serve {s s' : Leader} {e : Event} (h : Sound crc key s)
    (hserve : s.serve crc cfg e = some s') : Sound crc key s' := by
  obtain ⟨b, hstep, rfl⟩ := Option.map_eq_some_iff.mp hserve
  -- with the high watermarks of the later state everything that held still holds
  have hsub : ∀ hw ∈ s.computed key,
      hw ∈ noted (s.computed key) (s.broker.partitions key) (b.partitions key) :=
    fun _ => mem_noted _ _
  have hlater : Threads
      (fun _ k p => k = key →
        Visible (noted (s.computed key) (s.broker.partitions key) (b.partitions key)) p)
      (fun k _ task => k = key → Task.Visible crc
        (noted (s.computed key) (s.broker.partitions key) (b.partitions key)) task) s.broker :=
    ⟨fun k hk => (h.partitions k hk).mono hsub,
      fun g hg hk => taskVisible_mono (h.handlers g hg hk) hsub⟩
  refine threads_step_key hlater hstep (fun _ _ _ _ hp => hp) ?_ ?_
  · intro request _
    cases request <;> trivial
  · intro thread choice task task' p q he hg hnext
    obtain rfl : b.partitions key = p := by
      subst he
      exact partitions_run hstep hg hnext
    have htask := h.handlers _ (List.mem_of_getElem? hg) rfl
    obtain ⟨hp, htask'⟩ := task_visible (h.partitions key rfl) htask hnext
    exact ⟨hp, htask', fun _ hother => hother⟩

theorem visible_newPartition {l : Log} (hlow : 0 ≤ l.lowestOffset.toInt)
    (hend : Committed computed l.highestOffset) : Visible computed (newPartition cfg l now) :=
  ⟨hlow, .inl le_rfl, hend⟩

theorem sound_step {logCfg : Config} {s s' : Leader} {e : LeaderEvent} (h : Sound crc key s)
    (hcommitted : SurvivorsCommitted key s e) (hstep : Step crc cfg logCfg s e s') :
    Sound crc key s' := by
  cases e with
  | serve e => exact sound_serve h hstep
  | restart logs now =>
    obtain ⟨hopen, rfl⟩ := hstep
    refine ⟨?_, ?_⟩
    · rintro k rfl
      obtain ⟨dir, modTime, -, hnew⟩ := hopen k
      exact visible_newPartition (newLog_lowest hnew) hcommitted
    · intro g hg
      cases hg

/-- In every run in which every surviving log ends at or below a high watermark
computed before, every record returned lies below a high watermark computed
before. -/
theorem fetched_below_highWatermark {logCfg : Config} {modTime : Int64 → Int} {now : Int}
    {logs : TopicPartition → Log} (hlogs : ∀ key, newLog crc logCfg [] modTime now = .ok (logs key))
    {key : TopicPartition} {events : List LeaderEvent} {s : Leader}
    (hrun : Run (fun s e s' => SurvivorsCommitted key s e ∧ Step crc cfg logCfg s e s')
      ⟨newBroker cfg logs now, fun _ => []⟩ events s)
    {thread : Nat} {request : FetchRequest} {response : FetchResponse}
    (hanswered : s.broker.handlers[thread]? = some ⟨key, .fetch request (.answered response)⟩)
    {r : Record} (hr : r ∈ FetchResponse.records crc response) :
    ∃ hw ∈ s.computed key, r.offset.toInt < hw.toInt := by
  have hsound : Sound crc key s := by
    refine hrun.invariant ⟨?_, ?_⟩ ?_
    · rintro k rfl
      obtain ⟨hwf, hstored, hlowest, -⟩ := newLog_empty (hlogs k)
      refine visible_newPartition (newLog_lowest (hlogs k)) (.inl ?_)
      rw [hwf.highestOffset, hstored, hlowest]
      exact le_rfl
    · intro g hg
      cases hg
    · rintro s e s' hs ⟨hcommitted, hstep⟩
      exact sound_step hs hcommitted hstep
  exact hsound.handlers _ (List.mem_of_getElem? hanswered) rfl r hr

theorem survives_close (l : Log) : Survives l l.close.2 := by
  intro f hf
  obtain ⟨s, hs, rfl⟩ := List.mem_map.mp hf
  exact ⟨s, hs, rfl, List.prefix_refl _⟩

end

section

/-! One record is produced, the broker restarts on its own files, and a
consumer fetches from the start. -/

variable (cfg : BrokerConfig)

def fresh : Leader := ⟨newBroker cfg (fun _ => emptyLog) 0, fun _ => []⟩

def produceSteps : List Event :=
  .arrive events (.produce (produceOne 1)) :: List.replicate 6 (.run 0 calm)

def produced : Leader :=
  (execute (fun _ _ => true) (Leader.serve castagnoli cfg) (fresh cfg) produceSteps).getD
    (fresh cfg)

def oneRecordLog : Log := (emptyLog.appendRecords castagnoli [bareRecord 7] fun _ => ⟨0, none⟩).1

def reopenedLog : Log :=
  (newLog castagnoli smallConfig oneRecordLog.close.2 (fun _ => 0) 0).toOption.getD emptyLog

def reopenedLogs (key : TopicPartition) : Log := if key = events then reopenedLog else emptyLog

def restarted : Leader := ⟨newBroker cfg reopenedLogs 0, (produced cfg).computed⟩

def fetchSteps : List Event :=
  .arrive events (.fetch ⟨0, 1024⟩) :: List.replicate 3 (.run 0 calm)

variable {cfg}

theorem newLog_oneRecord :
    newLog castagnoli smallConfig oneRecordLog.close.2 (fun _ => 0) 0 = .ok reopenedLog := by
  decide +kernel

theorem step_restarted (hlog : ((produced cfg).broker.partitions events).log = oneRecordLog) :
    Step castagnoli cfg smallConfig (produced cfg) (.restart reopenedLogs 0) (restarted cfg) := by
  refine ⟨fun key => ?_, rfl⟩
  by_cases hkey : key = events
  · subst hkey
    refine ⟨oneRecordLog.close.2, fun _ => 0, ?_, newLog_oneRecord⟩
    rw [hlog]
    exact survives_close oneRecordLog
  · refine ⟨[], fun _ => 0, ?_, ?_⟩
    · intro f hf
      cases hf
    · rw [reopenedLogs, if_neg hkey]
      exact newLog_small

theorem run_restarted {R : Leader → LeaderEvent → Leader → Prop} {s : Leader}
    (hserve : ∀ s e s', s.serve castagnoli cfg e = some s' → R s (.serve e) s')
    (hrestart : R (produced cfg) (.restart reopenedLogs 0) (restarted cfg))
    (hproduced : (execute (fun _ _ => true) (Leader.serve castagnoli cfg) (fresh cfg)
      produceSteps).isSome = true)
    (hfetch : Run (Guarded (fun _ _ => true) (Leader.serve castagnoli cfg)) (restarted cfg)
      fetchSteps s) :
    Run R (fresh cfg)
      (produceSteps.map .serve ++ [.restart reopenedLogs 0] ++ fetchSteps.map .serve) s := by
  have hguarded (s : Leader) (e : Event) (s' : Leader)
      (h : Guarded (fun _ _ => true) (Leader.serve castagnoli cfg) s e s') : R s (.serve e) s' :=
    hserve s e s' h.2
  exact (((run_getD hproduced).relabel hguarded).snoc hrestart).trans (hfetch.relabel hguarded)

end

def oneRecordResponse : FetchResponse :=
  ⟨.none, 1, 0, ({ bareRecord 7 with offset := 0 } : Record).wireImage castagnoli⟩

/-- The follower never fetched the record, no high watermark above zero was ever
computed, and after the restart the record is visible. -/
theorem uncommitted_visible_after_restart :
    ∃ s, Run (Step castagnoli pairConfig smallConfig) (fresh pairConfig)
        (produceSteps.map .serve ++ [.restart reopenedLogs 0] ++ fetchSteps.map .serve) s ∧
      s.broker.handlers[0]? = some ⟨events, .fetch ⟨0, 1024⟩ (.answered oneRecordResponse)⟩ ∧
      (FetchResponse.records castagnoli oneRecordResponse).map Record.offset = [0] ∧
      s.computed events = [] := by
  have hend : (execute (fun _ _ => true) (Leader.serve castagnoli pairConfig)
      (restarted pairConfig) fetchSteps).map
        (fun s => (s.broker.handlers[0]?, s.computed events)) =
      some (some ⟨events, .fetch ⟨0, 1024⟩ (.answered oneRecordResponse)⟩, []) := by
    decide +kernel
  obtain ⟨s, hfetch, hs⟩ := exists_run_of_execute hend
  obtain ⟨hhandler, hcomputed⟩ := Prod.mk.inj hs
  have hlog : ((produced pairConfig).broker.partitions events).log = oneRecordLog := by
    decide +kernel
  refine ⟨s, ?_, hhandler, by decide +kernel, hcomputed⟩
  exact run_restarted (fun _ _ _ h => h) (step_restarted hlog) (by decide +kernel) hfetch

def soloConfig : BrokerConfig := { pairConfig with replicaIDs := [1], minInsyncReplicas := 1 }

theorem fetched_below_highWatermark_solo :
    ∃ s, Run (fun s e s' => SurvivorsCommitted events s e ∧
          Step castagnoli soloConfig smallConfig s e s') (fresh soloConfig)
        (produceSteps.map .serve ++ [.restart reopenedLogs 0] ++ fetchSteps.map .serve) s ∧
      ∃ hw ∈ s.computed events, (0 : Int64).toInt < hw.toInt := by
  have hend : (execute (fun _ _ => true) (Leader.serve castagnoli soloConfig)
      (restarted soloConfig) fetchSteps).map (fun s => s.broker.handlers[0]?) =
      some (some ⟨events, .fetch ⟨0, 1024⟩ (.answered oneRecordResponse)⟩) := by
    decide +kernel
  obtain ⟨s, hfetch, hs⟩ := exists_run_of_execute hend
  have hlog : ((produced soloConfig).broker.partitions events).log = oneRecordLog := by
    decide +kernel
  have hcommitted : SurvivorsCommitted events (produced soloConfig) (.restart reopenedLogs 0) :=
    .inr ⟨1, by decide +kernel, by decide +kernel⟩
  have hrun := run_restarted (R := fun s e s' => SurvivorsCommitted events s e ∧
      Step castagnoli soloConfig smallConfig s e s')
    (fun _ _ _ h => ⟨trivial, h⟩) ⟨hcommitted, step_restarted hlog⟩ (by decide +kernel) hfetch
  have hmem : ({ bareRecord 7 with offset := 0 } : Record) ∈
      FetchResponse.records castagnoli oneRecordResponse := by
    decide +kernel
  have hbelow := fetched_below_highWatermark (fun _ => newLog_small) hrun hs hmem
  exact ⟨s, hrun, hbelow⟩

end MiniKafka.CommittedVisibility
