import MiniKafka.BrokerHandlers
import MiniKafka.LogReadFrom

/-!
What an answered `acks=all` produce says about the replicas.

A handler answers once the high watermark of its partition has reached the end
of its records.  Log ends never fall, so the replicas that were in sync when
the high watermark rose to its value are past it for good.  How many they were
is not checked at that moment.
-/

namespace MiniKafka.AcksAllQuorum

open Durations RecordCodec SegmentStore PartitionLog LogContents LogWrites LogReads LogReadFrom
  InSyncReplicas BrokerHandlers Runs
open LogRefinement (Reached reached_small)

/-- If the next step of a task raises the high watermark, it leaves enough
replicas in sync. -/
def Task.keepsQuorum (cfg : BrokerConfig) (now : Int) (p : Partition) (task : Task) : Bool :=
  match Task.pendingUpdate cfg task with
  | none => true
  | some (id, leo, leaderLEO) =>
    let t := p.tracker.updateLEO id leo leaderLEO now
    decide (t.highWatermark ≤ p.tracker.highWatermark) ||
      decide (cfg.minInsync.toInt ≤ t.getISR.length)

def keepsQuorum (cfg : BrokerConfig) (b : Broker) : Event → Bool
  | .run thread _ =>
    match b.handlers[thread]? with
    | none => true
    | some h => Task.keepsQuorum cfg b.now (b.partitions h.key) h.task
  | _ => true

/-- At least `m` replicas have the records below `x`, as far as the leader
knows. -/
def Replicated (m : Int64) (p : Partition) (x : Int) : Prop :=
  m.toInt ≤ (p.tracker.replicated x : Int)

structure Covers (block : Block) (x : Int64) : Prop where
  count : 0 < block.count
  base : 0 ≤ block.base.toInt
  reaches : block.base.toInt + block.count ≤ x.toInt

structure Quorate (crc : Checksum) (m : Int64) (p : Partition) : Prop where
  log : WellFormed crc p.log
  tracker : p.tracker.NonNegative
  quorum : p.tracker.highWatermark.toInt ≤ 0 ∨ Replicated m p p.tracker.highWatermark.toInt

def ProducePhase.Justified (m : Int64) (acks : Int16) (p : Partition) : ProducePhase → Prop
  | .received => True
  | .accepted => acks = -1 → Replicated m p 0
  | .appended block => Covers block p.log.highestOffset
  | .measured block leaderLEO => Covers block leaderLEO
  | .updated block leaderLEO hw =>
    Covers block leaderLEO ∧ hw.toInt ≤ p.tracker.highWatermark.toInt
  | .published block leaderLEO hw =>
    Covers block leaderLEO ∧ hw.toInt ≤ p.tracker.highWatermark.toInt
  | .waiting block requiredHW => Covers block requiredHW
  | .notYet block requiredHW => Covers block requiredHW
  | .watching block requiredHW _ => Covers block requiredHW
  | .reached block requiredHW _ => Covers block requiredHW
  | .releasing block requiredHW _ hw =>
    Covers block requiredHW ∧ hw.toInt ≤ p.tracker.highWatermark.toInt
  | .timing block requiredHW _ => Covers block requiredHW
  | .selecting block requiredHW _ => Covers block requiredHW
  | .answered code block =>
    acks = -1 → code = .none → Replicated m p (block.base.toInt + block.count)

def ReplicaFetchPhase.Justified (request : ReplicaFetchRequest) (p : Partition) :
    ReplicaFetchPhase → Prop
  | .received => True
  | .fetched records => 0 ≤ (followerLEO request records).toInt
  | .measured records leaderLEO =>
    0 ≤ (followerLEO request records).toInt ∧ 0 ≤ leaderLEO.toInt
  | .leaderUpdated records _ => 0 ≤ (followerLEO request records).toInt
  | .replicaUpdated _ hw => hw.toInt ≤ p.tracker.highWatermark.toInt
  | .published _ hw => hw.toInt ≤ p.tracker.highWatermark.toInt
  | .answered _ => True

def Task.Justified (m : Int64) (p : Partition) : Task → Prop
  | .produce request _ phase => ProducePhase.Justified m request.acks p phase
  | .replicaFetch request phase => ReplicaFetchPhase.Justified request p phase
  | .fetch _ _ => True

def Task.Watches (requiredHW : Int64) : Task → Prop
  | .produce _ _ (.watching _ required _) => required = requiredHW
  | .produce _ _ (.reached _ required _) => required = requiredHW
  | .produce _ _ (.releasing _ required _ _) => required = requiredHW
  | .produce _ _ (.timing _ required _) => required = requiredHW
  | .produce _ _ (.selecting _ required _) => required = requiredHW
  | .produce _ _ (.answered _ _) => True
  | _ => False

structure Advances (p p' : Partition) : Prop where
  log : p.log.highestOffset.toInt ≤ p'.log.highestOffset.toInt
  replicated : ∀ x, p.tracker.replicated x ≤ p'.tracker.replicated x
  highWatermark : p.tracker.highWatermark.toInt ≤ p'.tracker.highWatermark.toInt

section

variable {crc : Checksum} {cfg : BrokerConfig} {m : Int64} {p p' : Partition}

variable {now x : Int} {task task' : Task} {records : List Record} {requiredHW : Int64}
  {key : TopicPartition} {channel thread : Nat} {choice : Choice} {q q' : Purgatory} {b : Broker}
  {g : Handler}

theorem Advances.refl (p : Partition) : Advances p p := ⟨le_rfl, fun _ => le_rfl, le_rfl⟩

theorem replicated_antitone (t : ISRTracker) {y : Int} (hxy : x ≤ y) :
    t.replicated y ≤ t.replicated x := by
  apply List.countP_mono_left
  intro r _ hr
  rw [decide_eq_true_eq] at hr ⊢
  exact hxy.trans hr

theorem Replicated.advance (h : Replicated m p x) (hadv : Advances p p') :
    Replicated m p' x :=
  h.trans (Int.ofNat_le.mpr (hadv.replicated x))

theorem Replicated.of_le {y : Int} (h : Replicated m p y) (hxy : x ≤ y) : Replicated m p x :=
  h.trans (Int.ofNat_le.mpr (replicated_antitone p.tracker hxy))

theorem Covers.advance {block : Block} {x y : Int64} (h : Covers block x)
    (hxy : x.toInt ≤ y.toInt) : Covers block y :=
  ⟨h.count, h.base, h.reaches.trans hxy⟩

theorem justified_advance (hadv : Advances p p') (h : Task.Justified m p task) :
    Task.Justified m p' task := by
  cases task with
  | produce request deadline phase =>
    cases phase with
    | received => trivial
    | accepted => exact fun hacks => (h hacks).advance hadv
    | appended block => exact Covers.advance h hadv.log
    | updated block leaderLEO hw => exact ⟨h.1, h.2.trans hadv.highWatermark⟩
    | published block leaderLEO hw => exact ⟨h.1, h.2.trans hadv.highWatermark⟩
    | releasing block requiredHW id hw => exact ⟨h.1, h.2.trans hadv.highWatermark⟩
    | answered code block => exact fun hacks hcode => (h hacks hcode).advance hadv
    | _ => exact h
  | replicaFetch request phase =>
    cases phase with
    | replicaUpdated records hw => exact le_trans h hadv.highWatermark
    | published records hw => exact le_trans h hadv.highWatermark
    | _ => exact h
  | fetch request phase => trivial

theorem quorate_updateLEO (hp : Quorate crc m p) (id : Int32) {leo : Int64} (leaderLEO : Int64)
    (now : Int) (hleo : 0 ≤ leo.toInt)
    (hguard : (p.tracker.updateLEO id leo leaderLEO now).highWatermark ≤ p.tracker.highWatermark ∨
      m.toInt ≤ (p.tracker.updateLEO id leo leaderLEO now).getISR.length) :
    Quorate crc m (p.updateLEO id leo leaderLEO now) ∧
      Advances p (p.updateLEO id leo leaderLEO now) := by
  have hnonneg : (p.tracker.updateLEO id leo leaderLEO now).NonNegative :=
    nonNegative_updateLEO hp.tracker (.inl hleo)
  have hrises := highWatermark_updateLEO p.tracker id leo leaderLEO now
  have hadv : Advances p (p.updateLEO id leo leaderLEO now) :=
    ⟨le_rfl, replicated_updateLEO p.tracker id leo leaderLEO now, hrises⟩
  refine ⟨⟨hp.log, hnonneg, ?_⟩, hadv⟩
  change (p.tracker.updateLEO id leo leaderLEO now).highWatermark.toInt ≤ 0 ∨
    Replicated m _ (p.tracker.updateLEO id leo leaderLEO now).highWatermark.toInt
  by_cases hraised : p.tracker.highWatermark.toInt <
      (p.tracker.updateLEO id leo leaderLEO now).highWatermark.toInt
  · rcases hguard with hsame | hisr
    · rw [Int64.le_iff_toInt_le] at hsame
      omega
    · exact .inr (hisr.trans (Int.ofNat_le.mpr (getISR_le_replicated hnonneg hraised)))
  · have hsame : (p.tracker.updateLEO id leo leaderLEO now).highWatermark.toInt =
        p.tracker.highWatermark.toInt := by omega
    rw [hsame]
    exact hp.quorum.imp_right fun h => h.advance hadv

theorem quorate_append (env : Nat → Surroundings) (hp : Quorate crc m p)
    (hleft : OffsetsLeft p.log records.length) :
    Quorate crc m { p with log := (p.log.appendRecords crc records env).1 } ∧
      Advances p { p with log := (p.log.appendRecords crc records env).1 } := by
  obtain ⟨taken, -, hextends, -⟩ := appendRecords_spec hp.log env hleft
  exact ⟨⟨hextends.wellFormed, hp.tracker, hp.quorum⟩,
    ⟨hextends.highestOffset_le hp.log, fun _ => le_rfl, le_rfl⟩⟩

theorem covers_append (env : Nat → Surroundings) (h : WellFormed crc p.log)
    (hleft : OffsetsLeft p.log records.length) (hne : records ≠ [])
    (hok : (p.log.appendRecords crc records env).2.2 = none) :
    Covers ⟨(p.log.appendRecords crc records env).2.1, records.length⟩
      (p.log.appendRecords crc records env).1.highestOffset := by
  obtain ⟨taken, -, hextends, hall⟩ := appendRecords_spec h env hleft
  obtain ⟨rfl, hbase⟩ := hall hok
  refine ⟨List.length_pos_of_ne_nil hne, ?_, ?_⟩
  · rw [hbase]
    exact h.highestOffset_nonneg
  · rw [hextends.highestOffset h, hbase, length_stampAll]

theorem replicated_zero {n : Int64} (h : p.tracker.NonNegative)
    (hisr : n.toInt ≤ p.tracker.getISR.length) : Replicated n p 0 := by
  refine hisr.trans (Int.ofNat_le.mpr ?_)
  rw [ISRTracker.getISR, List.length_map, ← List.countP_eq_length_filter, ISRTracker.replicated]
  exact List.countP_mono_left fun r hr _ => decide_eq_true (h r hr)

theorem replicated_block (hp : Quorate crc m p) {block : Block} (hcovers : Covers block requiredHW)
    (hreached : requiredHW.toInt ≤ p.tracker.highWatermark.toInt) :
    Replicated m p (block.base.toInt + block.count) := by
  have hcount := hcovers.count
  have hbase := hcovers.base
  have hend := hcovers.reaches
  rcases hp.quorum with hzero | hquorum
  · omega
  · exact hquorum.of_le (by omega)

theorem followerLEO_nonneg (h : WellFormed crc p.log) {request : ReplicaFetchRequest}
    {maxBytes : Int32} (hlow : p.log.lowestOffset.toInt ≤ request.fetchOffset.toInt)
    (hread : (p.log.readFrom crc request.fetchOffset maxBytes).1 = records) :
    0 ≤ (followerLEO request records).toInt := by
  have hlowest := h.lowest
  rw [followerLEO]
  split
  · omega
  · rename_i r hlast
    have hmem : r ∈ (p.log.readFrom crc request.fetchOffset maxBytes).1 := by
      rw [hread]
      exact List.mem_of_getLast? hlast
    obtain ⟨hge, hlt⟩ := offset_of_stored h (mem_readFrom h hmem)
    have hhigh := p.log.highestOffset.toInt_lt
    rw [SegmentContents.toInt_add_one (by omega)]
    omega

theorem pending_nonneg (htask : Task.Justified m p task) {id : Int32} {leo leaderLEO : Int64}
    (hpending : task.pendingUpdate cfg = some (id, leo, leaderLEO)) :
    0 ≤ leo.toInt := by
  rcases update_call hpending with ⟨request, deadline, block, rfl, -, rfl⟩ |
    ⟨request, records, rfl, -, rfl⟩ | ⟨request, records, rfl, -, rfl⟩
  · have hcovers : Covers block leo := htask
    have hbase := hcovers.base
    have hend := hcovers.reaches
    omega
  · exact htask.2
  · exact htask

theorem quorate_step (hp : Quorate crc cfg.minInsync p)
    (htask : Task.Justified cfg.minInsync p task) (hguard : Task.keepsQuorum cfg now p task = true)
    (hstep : PartitionStep crc cfg now task p p') :
    Quorate crc cfg.minInsync p' ∧ Advances p p' := by
  cases hstep with
  | same => exact ⟨hp, Advances.refl p⟩
  | append env hleft => exact quorate_append env hp hleft
  | update hpending =>
    apply quorate_updateLEO hp _ _ _ (pending_nonneg htask hpending)
    simpa [Task.keepsQuorum, hpending] using hguard
  | publish hpending =>
    exact ⟨⟨hp.log, hp.tracker, hp.quorum⟩, ⟨le_rfl, fun _ => le_rfl, le_rfl⟩⟩

theorem produce_next {request : ProduceRequest} {deadline : Int} {phase phase' : ProducePhase}
    (hp : Quorate crc cfg.minInsync p)
    (hphase : ProducePhase.Justified cfg.minInsync request.acks p phase)
    (hanswer : channel ∈ q.answers →
      ∃ requiredHW, Task.Watches requiredHW (.produce request deadline phase) ∧
        requiredHW.toInt ≤ p.tracker.highWatermark.toInt)
    (hnext : phase.next crc cfg request deadline key channel now choice p q =
      some (phase', p', q')) :
    ProducePhase.Justified cfg.minInsync request.acks p' phase' := by
  cases produceStep_of_next hnext with
  | refuse => exact fun _ hcode => absurd hcode (by decide)
  | accept hnot =>
    refine fun hacks => replicated_zero hp.tracker ?_
    exact not_lt.mp fun hlt => hnot ⟨hacks, hlt⟩
  | reject hcode => exact fun _ hnone => absurd hnone hcode
  | empty => exact fun hacks _ => hphase hacks
  | fail hleft heq => exact fun _ hcode => absurd hcode (by decide)
  | append hne hleft heq =>
    have hcovers := covers_append choice.surroundings hp.log hleft hne (by rw [heq])
    rwa [heq] at hcovers
  | measure => exact hphase
  | update => exact ⟨hphase, le_rfl⟩
  | publish => exact hphase
  | await hacks => exact hphase.1
  | answer hacks => exact fun hall => absurd hall hacks
  | met hreached =>
    intro _ _
    refine replicated_block hp hphase ?_
    rw [Int64.le_iff_toInt_le, Int64.le_iff_toInt_le] at hreached
    have hcount := hphase.count
    have hbase := hphase.base
    have hend := hphase.reaches
    rcases hreached with hzero | hreached
    · rw [Int64.toInt_zero] at hzero
      omega
    · exact hreached
  | unmet => exact hphase
  | watch => exact hphase
  | recheck => exact hphase
  | wait => exact hphase
  | reread => exact ⟨hphase, le_rfl⟩
  | release => exact hphase.1
  | late hlate => exact fun _ hcode => absurd hcode (by decide)
  | select hearly => exact hphase
  | timeOut hfires => exact fun _ hcode => absurd hcode (by decide)
  | receive hquiet hmem =>
    obtain ⟨required, rfl, hreached⟩ := hanswer hmem
    exact fun _ _ => replicated_block hp hphase hreached

theorem replicaFetch_next {request : ReplicaFetchRequest} {phase phase' : ReplicaFetchPhase}
    (hp : Quorate crc m p) (hphase : ReplicaFetchPhase.Justified request p phase)
    (hnext : phase.next crc cfg request key now p q = some (phase', p', q')) :
    ReplicaFetchPhase.Justified request p' phase' := by
  cases phase with
  | received =>
    obtain ⟨rfl, rfl, rfl | ⟨records, rfl, hlow, hread⟩⟩ := received_next hp.log.isOpen hnext
    · trivial
    · exact followerLEO_nonneg hp.log hlow hread
  | fetched records =>
    cases hnext
    exact ⟨hphase, hp.log.highestOffset_nonneg⟩
  | measured records leaderLEO =>
    cases hnext
    exact hphase.1
  | leaderUpdated records leaderLEO =>
    cases hnext
    exact le_rfl
  | replicaUpdated records hw =>
    cases hnext
    exact hphase
  | published records hw =>
    cases hnext
    trivial
  | answered payload => cases hnext

theorem task_next (hp : Quorate crc cfg.minInsync p) (htask : Task.Justified cfg.minInsync p task)
    (hanswer : channel ∈ q.answers → ∃ requiredHW, Task.Watches requiredHW task ∧
      requiredHW.toInt ≤ p.tracker.highWatermark.toInt)
    (hnext : task.next crc cfg key channel now choice p q = some (task', p', q')) :
    Task.Justified cfg.minInsync p' task' := by
  cases task with
  | produce request deadline phase =>
    obtain ⟨⟨phase', p'', q''⟩, hphase, heq⟩ := Option.map_eq_some_iff.mp hnext
    cases heq
    exact produce_next hp htask hanswer hphase
  | replicaFetch request phase =>
    obtain ⟨⟨phase', p'', q''⟩, hphase, heq⟩ := Option.map_eq_some_iff.mp hnext
    cases heq
    exact replicaFetch_next hp htask hphase
  | fetch request phase =>
    obtain ⟨phase', -, heq⟩ := Option.map_eq_some_iff.mp hnext
    cases heq
    trivial

theorem watches_next (hwatches : Task.Watches requiredHW task)
    (hnext : task.next crc cfg key channel now choice p q = some (task', p', q')) :
    Task.Watches requiredHW task' := by
  cases task with
  | produce request deadline phase =>
    obtain ⟨⟨phase', p'', q''⟩, hphase, heq⟩ := Option.map_eq_some_iff.mp hnext
    cases heq
    cases produceStep_of_next hphase with
    | recheck => exact hwatches
    | wait => exact hwatches
    | reread => exact hwatches
    | release => exact hwatches
    | late hlate => trivial
    | select hearly => exact hwatches
    | timeOut hfires => trivial
    | receive hquiet hmem => trivial
    | _ => exact hwatches.elim
  | replicaFetch request phase => exact hwatches.elim
  | fetch request phase => exact hwatches.elim

theorem watches_watch (hcall : task.purgatoryCall now choice = .watch requiredHW)
    (hnext : task.next crc cfg key channel now choice p q = some (task', p', q')) :
    Task.Watches requiredHW task' := by
  obtain ⟨request, deadline, block, rfl⟩ := watch_call hcall
  cases hnext
  rfl

theorem justified_complete {hw : Int64} (htask : Task.Justified m p task)
    (hcall : task.purgatoryCall now choice = .complete hw) :
    hw.toInt ≤ p.tracker.highWatermark.toInt := by
  rcases complete_call hcall with ⟨_, _, _, _, rfl⟩ | ⟨_, _, _, _, _, rfl⟩ | ⟨_, _, rfl⟩
  · exact htask.2
  · exact htask.2
  · exact htask

/-- Who is in the purgatory waits there, and who was answered has been
reached by the high watermark. -/
structure Watched (b : Broker) : Prop where
  items : ∀ item ∈ b.purgatory.items, ∃ h, b.handlers[item.respCh]? = some h ∧
    h.key = item.key ∧ Task.Watches item.requiredHW h.task
  answers : ∀ channel ∈ b.purgatory.answers, ∃ h requiredHW, b.handlers[channel]? = some h ∧
    Task.Watches requiredHW h.task ∧
    requiredHW.toInt ≤ (b.partitions h.key).tracker.highWatermark.toInt

structure Kept (b b' : Broker) : Prop where
  handlers : ∀ (channel : Nat) h, b.handlers[channel]? = some h →
    ∃ h', b'.handlers[channel]? = some h' ∧ h'.key = h.key ∧
      ∀ requiredHW, Task.Watches requiredHW h.task → Task.Watches requiredHW h'.task
  highWatermark : ∀ key, (b.partitions key).tracker.highWatermark.toInt ≤
    (b'.partitions key).tracker.highWatermark.toInt

theorem Watched.step {b' : Broker} (h : Watched b) (hkept : Kept b b')
    (hitems : ∀ item ∈ b'.purgatory.items, item ∈ b.purgatory.items ∨
      ∃ h, b'.handlers[item.respCh]? = some h ∧ h.key = item.key ∧
        Task.Watches item.requiredHW h.task)
    (hanswers : ∀ channel ∈ b'.purgatory.answers, channel ∈ b.purgatory.answers ∨
      ∃ item ∈ b.purgatory.items, item.respCh = channel ∧
        item.requiredHW.toInt ≤ (b'.partitions item.key).tracker.highWatermark.toInt) :
    Watched b' := by
  constructor
  · intro item hitem
    rcases hitems item hitem with hold | hnew
    · obtain ⟨g, hg, hkey, hwatches⟩ := h.items item hold
      obtain ⟨g', hg', hkey', hwatches'⟩ := hkept.handlers _ g hg
      exact ⟨g', hg', hkey'.trans hkey, hwatches' _ hwatches⟩
    · exact hnew
  · intro channel hchannel
    rcases hanswers channel hchannel with hold | ⟨item, hitem, rfl, hreached⟩
    · obtain ⟨g, requiredHW, hg, hwatches, hreached⟩ := h.answers channel hold
      obtain ⟨g', hg', hkey', hwatches'⟩ := hkept.handlers _ g hg
      refine ⟨g', requiredHW, hg', hwatches' _ hwatches, ?_⟩
      rw [hkey']
      exact hreached.trans (hkept.highWatermark g.key)
    · obtain ⟨g, hg, hkey, hwatches⟩ := h.items item hitem
      obtain ⟨g', hg', hkey', hwatches'⟩ := hkept.handlers _ g hg
      refine ⟨g', item.requiredHW, hg', hwatches' _ hwatches, ?_⟩
      rwa [hkey', hkey]

/-- The invariant of a broker: partitions, threads and purgatory. -/
structure Sound (crc : Checksum) (cfg : BrokerConfig) (b : Broker) : Prop where
  threads : Threads (fun _ _ p => Quorate crc cfg.minInsync p)
    (fun _ p task => Task.Justified cfg.minInsync p task) b
  watched : Watched b

theorem justified_begin (p : Partition) (request : Request) (now : Int) :
    Task.Justified m p (request.begin now) := by
  cases request <;> trivial

theorem sound_run (h : Sound crc cfg b) (hguard : keepsQuorum cfg b (.run thread choice) = true)
    (hg : b.handlers[thread]? = some g)
    (hnext : g.task.next crc cfg g.key thread b.now choice (b.partitions g.key) b.purgatory =
      some (task, p, q)) :
    Quorate crc cfg.minInsync p ∧ Task.Justified cfg.minInsync p task ∧
      Advances (b.partitions g.key) p := by
  have hp := h.threads.partitions g.key
  have htask := h.threads.handlers g (List.mem_of_getElem? hg)
  obtain ⟨hp', hadv⟩ := quorate_step hp htask (by simpa only [keepsQuorum, hg] using hguard)
    (partitionStep_next hnext)
  refine ⟨hp', task_next hp htask (fun hmem => ?_) hnext, hadv⟩
  obtain ⟨g', requiredHW, hg', hwatches, hreached⟩ := h.watched.answers thread hmem
  obtain rfl := Option.some.inj (hg.symm.trans hg')
  exact ⟨requiredHW, hwatches, hreached⟩

def ran (b : Broker) (thread : Nat) (g : Handler) (task : Task) (p : Partition) (q : Purgatory) :
    Broker :=
  { b with
    partitions := Function.update b.partitions g.key p
    purgatory := q
    handlers := b.handlers.set thread ⟨g.key, task⟩ }

theorem handlers_ran (hg : b.handlers[thread]? = some g) :
    (ran b thread g task p q).handlers[thread]? = some ⟨g.key, task⟩ :=
  List.getElem?_set_self (List.getElem?_eq_some_iff.mp hg).1

theorem ran_self {h : Handler} (hthread : b.handlers[thread]? = some h) :
    ran b thread h h.task (b.partitions h.key) b.purgatory = b := by
  obtain ⟨hlt, hget⟩ := List.getElem?_eq_some_iff.mp hthread
  have hset : b.handlers.set thread ⟨h.key, h.task⟩ = b.handlers := by
    subst hget
    exact List.set_getElem_self hlt
  rw [ran, Function.update_eq_self, hset]

/-- What a task does to its end is a run of the broker in which no other thread
takes part. -/
theorem finish_run (choice : Choice) (n : Nat) (hthread : b.handlers[thread]? = some ⟨key, task⟩) :
    ∃ steps, Run (Guarded (fun _ _ => true) (Broker.step crc cfg)) b steps
      (ran b thread ⟨key, task⟩
        (task.finish crc cfg key thread b.now choice n (b.partitions key) b.purgatory).1
        (task.finish crc cfg key thread b.now choice n (b.partitions key) b.purgatory).2.1
        (task.finish crc cfg key thread b.now choice n (b.partitions key) b.purgatory).2.2) := by
  induction n generalizing b task with
  | zero =>
    refine ⟨[], ?_⟩
    rw [Task.finish, ran_self hthread]
    exact .nil
  | succ n ih =>
    rw [Task.finish]
    split
    · refine ⟨[], ?_⟩
      rw [ran_self hthread]
      exact .nil
    · rename_i task' p q hnext
      have hstep : b.step crc cfg (.run thread choice) =
          some (ran b thread ⟨key, task⟩ task' p q) := by
        simp only [Broker.step, hthread, hnext]
        rfl
      have hnow : (ran b thread ⟨key, task⟩ task' p q).handlers[thread]? = some ⟨key, task'⟩ :=
        handlers_ran hthread
      obtain ⟨steps, hsteps⟩ := ih hnow
      refine ⟨.run thread choice :: steps, Run.cons ⟨rfl, hstep⟩ ?_⟩
      simpa [ran, List.set_set] using hsteps

theorem kept_run (hg : b.handlers[thread]? = some g)
    (hnext : g.task.next crc cfg g.key thread b.now choice (b.partitions g.key) b.purgatory =
      some (task, p, q))
    (hrises : (b.partitions g.key).tracker.highWatermark.toInt ≤ p.tracker.highWatermark.toInt) :
    Kept b (ran b thread g task p q) := by
  constructor
  · intro channel g' hg'
    by_cases heq : thread = channel
    · subst heq
      obtain rfl := Option.some.inj (hg.symm.trans hg')
      exact ⟨_, handlers_ran hg, rfl, fun _ hwatches => watches_next hwatches hnext⟩
    · exact ⟨g', (List.getElem?_set_ne heq).trans hg', rfl, fun _ => id⟩
  · intro key
    rw [ran]
    by_cases hkey : key = g.key
    · subst hkey
      simpa using hrises
    · simp [hkey]

theorem watched_run (h : Watched b)
    (hcarried : ∀ hw, g.task.purgatoryCall b.now choice = .complete hw →
      hw.toInt ≤ (b.partitions g.key).tracker.highWatermark.toInt)
    (hg : b.handlers[thread]? = some g)
    (hnext : g.task.next crc cfg g.key thread b.now choice (b.partitions g.key) b.purgatory =
      some (task, p, q))
    (hrises : (b.partitions g.key).tracker.highWatermark.toInt ≤ p.tracker.highWatermark.toInt) :
    Watched (ran b thread g task p q) := by
  have hkept := kept_run hg hnext hrises
  obtain rfl := purgatory_next hnext
  generalize hcall : g.task.purgatoryCall b.now choice = call at hkept ⊢
  cases call with
  | none => exact h.step hkept (fun _ => .inl) (fun _ => .inl)
  | cancel id =>
    exact h.step hkept (fun _ hitem => .inl (List.mem_of_mem_filter hitem)) (fun _ => .inl)
  | receive =>
    exact h.step hkept (fun _ => .inl) (fun _ hother => .inl (List.mem_of_mem_filter hother))
  | watch requiredHW =>
    refine h.step hkept (fun item hitem => ?_) (fun _ => .inl)
    rcases List.mem_append.mp hitem with hold | hnew
    · exact .inl (List.mem_of_mem_filter hold)
    · obtain rfl := List.mem_singleton.mp hnew
      exact .inr ⟨_, handlers_ran hg, rfl, watches_watch hcall hnext⟩
  | complete hw =>
    refine h.step hkept (fun item hitem => .inl (List.mem_of_mem_filter hitem)) ?_
    intro channel hchannel
    rcases List.mem_append.mp hchannel with hold | hnew
    · exact .inl hold
    · obtain ⟨item, hitem, rfl⟩ := List.mem_map.mp hnew
      obtain ⟨hmem, hmet⟩ := List.mem_filter.mp hitem
      rw [Bool.and_eq_true, decide_eq_true_eq, decide_eq_true_eq, Int64.le_iff_toInt_le] at hmet
      refine .inr ⟨item, hmem, rfl, hmet.2.trans ((hcarried hw hcall).trans ?_)⟩
      rw [hmet.1]
      exact hkept.highWatermark g.key

theorem sound_step {b' : Broker} {e : Event} (h : Sound crc cfg b)
    (hguard : keepsQuorum cfg b e = true) (hstep : b.step crc cfg e = some b') :
    Sound crc cfg b' := by
  refine ⟨threads_step h.threads hstep (fun _ _ _ _ _ hp => hp) ?_ ?_, ?_⟩
  · exact fun key request _ => justified_begin _ request b.now
  · rintro thread choice g task p q rfl hg hnext
    obtain ⟨hp, htask, hadv⟩ := sound_run h hguard hg hnext
    exact ⟨hp, htask, fun other => justified_advance hadv⟩
  · cases e with
    | tick elapsed =>
      obtain rfl := Option.some.inj hstep
      exact ⟨h.watched.items, h.watched.answers⟩
    | arrive key request =>
      obtain rfl := Option.some.inj hstep
      refine h.watched.step ⟨fun channel g hg => ?_, fun _ => le_rfl⟩ (fun _ => .inl)
        (fun _ => .inl)
      refine ⟨g, ?_, rfl, fun _ => id⟩
      rw [List.getElem?_append_left (List.getElem?_eq_some_iff.mp hg).1]
      exact hg
    | run thread choice =>
      obtain ⟨g, task, p, q, hg, hnext, rfl⟩ := step_run hstep
      have htask := h.threads.handlers g (List.mem_of_getElem? hg)
      exact watched_run h.watched (fun hw => justified_complete htask) hg hnext
        (sound_run h hguard hg hnext).2.2.highWatermark

theorem sound_newBroker {logs : TopicPartition → Log} (hlogs : ∀ key, WellFormed crc (logs key))
    (now : Int) : Sound crc cfg (newBroker cfg logs now) := by
  refine ⟨⟨fun key => ⟨hlogs key, ?_, .inl le_rfl⟩, ?_⟩, ⟨?_, ?_⟩⟩
  · intro r hr
    obtain ⟨id, -, rfl⟩ := List.mem_map.mp hr
    exact le_rfl
  · intro h hh
    cases hh
  · intro item hitem
    cases hitem
  · intro channel hchannel
    cases hchannel

/-- In every run in which no update raises the high watermark with too few
replicas in sync, every `acks=all` answer has its quorum. -/
theorem acksAll_quorum {logCfg : Config} {logs : TopicPartition → Log} {now : Int}
    {events : List Event} {b : Broker} (hlogs : ∀ key, Reached crc logCfg (logs key))
    (hrun : Run (Guarded (keepsQuorum cfg) (Broker.step crc cfg)) (newBroker cfg logs now) events b)
    {thread : Nat} {key : TopicPartition} {request : ProduceRequest} {deadline : Int}
    {block : Block} (hacks : request.acks = -1)
    (hanswered : b.handlers[thread]? =
      some ⟨key, .produce request deadline (.answered .none block)⟩) :
    Replicated cfg.minInsync (b.partitions key) (block.base.toInt + block.count) := by
  have hsound : Sound crc cfg b := by
    refine hrun.invariant (sound_newBroker (fun key => (hlogs key).wellFormed) now) ?_
    rintro s e t hs ⟨hguard, hstep⟩
    exact sound_step hs hguard hstep
  exact hsound.threads.handlers _ (List.mem_of_getElem? hanswered) hacks rfl

end

def produceAfter (elapsed : Nat) : List Event :=
  .arrive events (.produce (produceOne (-1))) :: .tick elapsed :: List.replicate 7 (.run 0 calm)

/-- The follower is in sync when the request is checked.  The append then
finds it two milliseconds behind, and the high watermark follows the leader
alone. -/
theorem acksAll_without_quorum :
    ∃ b, Run (Guarded (fun _ _ => true) (Broker.step castagnoli pairConfig))
        (newBroker pairConfig (fun _ => emptyLog) 0) (produceAfter 2000000) b ∧
      b.handlers[0]? =
        some ⟨events, .produce (produceOne (-1)) 1000000000 (.answered .none ⟨0, 1⟩)⟩ ∧
      ¬ Replicated pairConfig.minInsync (b.partitions events) ((0 : Int64).toInt + (1 : Nat)) := by
  have hend : (execute (fun _ _ => true) (Broker.step castagnoli pairConfig)
      (newBroker pairConfig (fun _ => emptyLog) 0) (produceAfter 2000000)).map
        (fun b => (b.handlers[0]?, (b.partitions events).tracker.replicated 1)) =
      some (some ⟨events, .produce (produceOne (-1)) 1000000000 (.answered .none ⟨0, 1⟩)⟩, 1) := by
    decide +kernel
  obtain ⟨b, hrun, hb⟩ := exists_run_of_execute hend
  obtain ⟨hhandler, hcount⟩ := Prod.mk.inj hb
  refine ⟨b, hrun, hhandler, ?_⟩
  have hone : (0 : Int64).toInt + ((1 : Nat) : Int) = 1 := rfl
  rw [Replicated, hone, hcount]
  decide

def leaderOnly : BrokerConfig := { pairConfig with minInsyncReplicas := 1 }

theorem acksAll_quorum_leaderOnly :
    ∃ b, Run (Guarded (keepsQuorum leaderOnly) (Broker.step castagnoli leaderOnly))
        (newBroker leaderOnly (fun _ => emptyLog) 0) (produceAfter 2000000) b ∧
      Replicated leaderOnly.minInsync (b.partitions events) ((0 : Int64).toInt + (1 : Nat)) := by
  have hend : (execute (keepsQuorum leaderOnly) (Broker.step castagnoli leaderOnly)
      (newBroker leaderOnly (fun _ => emptyLog) 0) (produceAfter 2000000)).map
        (fun b => b.handlers[0]?) =
      some (some ⟨events, .produce (produceOne (-1)) 1000000000 (.answered .none ⟨0, 1⟩)⟩) := by
    decide +kernel
  obtain ⟨b, hrun, hb⟩ := exists_run_of_execute hend
  have hacks : (produceOne (-1)).acks = -1 := rfl
  have hquorum := acksAll_quorum (fun _ => reached_small) hrun hacks hb
  exact ⟨b, hrun, hquorum⟩

end MiniKafka.AcksAllQuorum
