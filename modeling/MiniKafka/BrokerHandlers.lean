import Mathlib.Logic.Function.Basic
import MiniKafka.InSyncReplicas
import MiniKafka.LogContents
import MiniKafka.RecordSets

/-!
The request handlers of a broker that leads its partitions:
`handleProduce`, `handleReplicaFetch` and `handleFetch` of
`internal/broker/broker.go` with `waitForAcksAll` and the purgatory.

Every handler is a thread.  One step of a thread is one call that takes a lock:
a call on the log, on the tracker, on the high watermark of the partition or on
the purgatory.  Steps of different threads interleave freely.
-/

namespace MiniKafka.BrokerHandlers

open BigEndian Durations RecordCodec RecordSets SegmentStore PartitionLog LogContents InSyncReplicas

structure TopicPartition where
  topic : String
  partition : Int32
  deriving DecidableEq, Repr

/-- The codes of `internal/server` that the handlers answer with. -/
inductive ErrorCode where
  | none
  | unknown
  | corruptMessage
  | requestTimedOut
  | messageTooLarge
  | notEnoughReplicas
  deriving DecidableEq, Repr

def ErrorCode.code : ErrorCode → Int16
  | .none => 0
  | .unknown => 1
  | .corruptMessage => 3
  | .requestTimedOut => 6
  | .messageTooLarge => 7
  | .notEnoughReplicas => 8

def errUnknownTopicOrPartition : Int16 := 4

theorem ErrorCode.code_eq_zero_iff {code : ErrorCode} : code.code = 0 ↔ code = .none := by
  cases code <;> decide

structure BrokerConfig where
  localID : Int32
  replicaIDs : List Int32
  minInsyncReplicas : Int64
  replicaLagTimeMaxMs : Int64
  replicaFetchMaxBytes : Int32
  maxMessageBytes : Int64
  deriving DecidableEq, Repr

def BrokerConfig.minInsync (cfg : BrokerConfig) : Int64 :=
  if cfg.minInsyncReplicas ≤ 0 then 1 else cfg.minInsyncReplicas

def BrokerConfig.fetchBudget (cfg : BrokerConfig) : Int32 :=
  if cfg.replicaFetchMaxBytes ≤ 0 then 1048576 else cfg.replicaFetchMaxBytes

structure Partition where
  log : Log
  highWatermark : Int64
  tracker : ISRTracker

def newPartition (cfg : BrokerConfig) (log : Log) (now : Int) : Partition where
  log := log
  highWatermark := log.highestOffset
  tracker := newISRTracker cfg.localID cfg.replicaIDs cfg.replicaLagTimeMaxMs now none

def Partition.setHighWatermark (p : Partition) (hw : Int64) : Partition :=
  { p with highWatermark := raise p.highWatermark hw }

def Partition.updateLEO (p : Partition) (id : Int32) (leo leaderLEO : Int64) (now : Int) :
    Partition :=
  { p with tracker := p.tracker.updateLEO id leo leaderLEO now }

/-- A produce request waiting for the high watermark, with the handler that
owns the channel it is answered on. -/
structure ProduceRequestItem where
  id : Int64
  key : TopicPartition
  requiredHW : Int64
  respCh : Nat
  deriving DecidableEq, Repr

/-- The purgatory, with the channels that hold an answer nobody has received
yet. -/
structure Purgatory where
  items : List ProduceRequestItem
  nextID : Int64
  answers : List Nat
  deriving DecidableEq, Repr

def Purgatory.watch (q : Purgatory) (key : TopicPartition) (requiredHW : Int64) (respCh : Nat) :
    Purgatory × Int64 :=
  let id := q.nextID + 1
  ({ q with
      items := q.items.filter (fun item => decide (item.id ≠ id)) ++ [⟨id, key, requiredHW, respCh⟩]
      nextID := id }, id)

def Purgatory.checkAndComplete (q : Purgatory) (key : TopicPartition) (currentHW : Int64) :
    Purgatory :=
  let met := fun item : ProduceRequestItem =>
    decide (item.key = key) && decide (item.requiredHW ≤ currentHW)
  { q with
    items := q.items.filter fun item => !met item
    answers := q.answers ++ (q.items.filter met).map ProduceRequestItem.respCh }

def Purgatory.cancel (q : Purgatory) (id : Int64) : Purgatory :=
  { q with items := q.items.filter fun item => decide (item.id ≠ id) }

/-- What a step of a handler meets outside the broker. -/
structure Choice where
  surroundings : Nat → Surroundings
  timerFires : Bool

/-- The record set of a produce request: a stream that ends between two
records, or right after the length of one, is accepted. -/
def decodeRecordSet (crc : Checksum) (bs : Bytes) : Except ErrorCode (List Record) :=
  match decodeRecords crc bs with
  | (records, none) => .ok records
  | (records, some .eof) => .ok records
  | (_, some _) => .error .corruptMessage

def BrokerConfig.tooLarge (cfg : BrokerConfig) (recordSet : Bytes) : Bool :=
  decide (0 < cfg.maxMessageBytes) && decide (cfg.maxMessageBytes.toInt < recordSet.length)

structure ProduceRequest where
  acks : Int16
  timeoutMs : Int32
  recordSet : Bytes
  deriving DecidableEq, Repr

/-- The offsets a produce request got: `count` of them from `base` on. -/
structure Block where
  base : Int64
  count : Nat
  deriving DecidableEq, Repr

/-- How far `handleProduce` has come with a partition.  From `waiting` on it is
inside `waitForAcksAll`, with the high watermark it requires. -/
inductive ProducePhase where
  | received
  | accepted
  | appended (block : Block)
  | measured (block : Block) (leaderLEO : Int64)
  | updated (block : Block) (leaderLEO hw : Int64)
  | published (block : Block) (leaderLEO hw : Int64)
  | waiting (block : Block) (requiredHW : Int64)
  | notYet (block : Block) (requiredHW : Int64)
  | watching (block : Block) (requiredHW id : Int64)
  | reached (block : Block) (requiredHW id : Int64)
  | releasing (block : Block) (requiredHW id hw : Int64)
  | timing (block : Block) (requiredHW id : Int64)
  | selecting (block : Block) (requiredHW id : Int64)
  | answered (code : ErrorCode) (block : Block)
  deriving DecidableEq, Repr

/-- The next step of `handleProduce` for the partition `p`.  `channel` is the
channel the handler waits on.  There is no step without offsets for the records
of the batch, nor when the handler has to wait. -/
def ProducePhase.next (crc : Checksum) (cfg : BrokerConfig) (request : ProduceRequest)
    (deadline : Int) (key : TopicPartition) (channel : Nat) (now : Int) (choice : Choice)
    (p : Partition) (q : Purgatory) : ProducePhase → Option (ProducePhase × Partition × Purgatory)
  | .received =>
    if request.acks = -1 ∧ (p.tracker.getISR.length : Int) < cfg.minInsync.toInt then
      some (.answered .notEnoughReplicas ⟨0, 0⟩, p, q)
    else some (.accepted, p, q)
  | .accepted =>
    if cfg.tooLarge request.recordSet then some (.answered .messageTooLarge ⟨0, 0⟩, p, q)
    else
      match decodeRecordSet crc request.recordSet with
      | .error code => some (.answered code ⟨0, 0⟩, p, q)
      | .ok [] => some (.answered .none ⟨0, 0⟩, p, q)
      | .ok records =>
        if OffsetsLeft p.log records.length then
          match p.log.appendRecords crc records choice.surroundings with
          | (log, _, some _) => some (.answered .unknown ⟨0, 0⟩, { p with log := log }, q)
          | (log, base, none) =>
            some (.appended ⟨base, records.length⟩, { p with log := log }, q)
        else none
  | .appended block => some (.measured block p.log.highestOffset, p, q)
  | .measured block leaderLEO =>
    let p := p.updateLEO cfg.localID leaderLEO leaderLEO now
    some (.updated block leaderLEO p.tracker.highWatermark, p, q)
  | .updated block leaderLEO hw =>
    some (.published block leaderLEO hw, p.setHighWatermark hw, q)
  | .published block leaderLEO hw =>
    some (if request.acks = -1 then .waiting block leaderLEO else .answered .none block, p,
      q.checkAndComplete key hw)
  | .waiting block requiredHW =>
    some (if requiredHW ≤ 0 ∨ requiredHW ≤ p.tracker.highWatermark then .answered .none block
      else .notYet block requiredHW, p, q)
  | .notYet block requiredHW =>
    let watched := q.watch key requiredHW channel
    some (.watching block requiredHW watched.2, p, watched.1)
  | .watching block requiredHW id =>
    some (if requiredHW ≤ p.tracker.highWatermark then .reached block requiredHW id
      else .timing block requiredHW id, p, q)
  | .reached block requiredHW id =>
    some (.releasing block requiredHW id p.tracker.highWatermark, p, q)
  | .releasing block requiredHW id hw =>
    some (.timing block requiredHW id, p, q.checkAndComplete key hw)
  | .timing block requiredHW id =>
    if elapsed deadline now ≤ 0 then some (.answered .requestTimedOut block, p, q.cancel id)
    else some (.selecting block requiredHW id, p, q)
  | .selecting block _ id =>
    if choice.timerFires then
      if deadline ≤ now then some (.answered .requestTimedOut block, p, q.cancel id) else none
    else if channel ∈ q.answers then
      some (.answered .none block, p, { q with answers := q.answers.filter (· ≠ channel) })
    else none
  | .answered _ _ => none

structure ReplicaFetchRequest where
  replicaID : Int32
  fetchOffset : Int64
  deriving DecidableEq, Repr

def encodeReplicaFetchResponse (crc : Checksum) (errorCode : Int16) (hw : Int64)
    (records : List Record) : Except EncodeError Bytes := do
  let recordSet ← encodeRecords crc records
  return putBE 2 errorCode.toUInt16.toNat ++ putUint64 hw.toUInt64 ++ recordSet

inductive ReplicaFetchPhase where
  | received
  | fetched (records : List Record)
  | measured (records : List Record) (leaderLEO : Int64)
  | leaderUpdated (records : List Record) (leaderLEO : Int64)
  | replicaUpdated (records : List Record) (hw : Int64)
  | published (records : List Record) (hw : Int64)
  | answered (payload : Option Bytes)
  deriving DecidableEq, Repr

def LogError.isEOF : LogError → Bool
  | .readFrom (.decode .eof) => true
  | _ => false

/-- The log end the leader credits a follower with: right after the records it
is about to be sent. -/
def followerLEO (request : ReplicaFetchRequest) (records : List Record) : Int64 :=
  match records.getLast? with
  | none => request.fetchOffset
  | some r => r.offset + 1

def ReplicaFetchPhase.next (crc : Checksum) (cfg : BrokerConfig) (request : ReplicaFetchRequest)
    (key : TopicPartition) (now : Int) (p : Partition) (q : Purgatory) :
    ReplicaFetchPhase → Option (ReplicaFetchPhase × Partition × Purgatory)
  | .received =>
    match p.log.readFrom crc request.fetchOffset cfg.fetchBudget with
    | (records, none) => some (.fetched records, p, q)
    | (records, some e) =>
      some (if LogError.isEOF e then .fetched records else .answered none, p, q)
  | .fetched records => some (.measured records p.log.highestOffset, p, q)
  | .measured records leaderLEO =>
    some (.leaderUpdated records leaderLEO,
      p.updateLEO cfg.localID leaderLEO leaderLEO now, q)
  | .leaderUpdated records leaderLEO =>
    let p := p.updateLEO request.replicaID (followerLEO request records) leaderLEO now
    some (.replicaUpdated records p.tracker.highWatermark, p, q)
  | .replicaUpdated records hw => some (.published records hw, p.setHighWatermark hw, q)
  | .published records hw =>
    some (.answered (encodeReplicaFetchResponse crc 0 hw records).toOption, p,
      q.checkAndComplete key hw)
  | .answered _ => none

structure FetchRequest where
  fetchOffset : Int64
  maxBytes : Int32
  deriving DecidableEq, Repr

structure FetchResponse where
  errorCode : ErrorCode
  highWatermark : Int64
  logStartOffset : Int64
  recordSet : Bytes
  deriving DecidableEq, Repr

inductive FetchPhase where
  | received
  | bounded (hw : Int64)
  | located (hw logStartOffset : Int64)
  | answered (response : FetchResponse)
  deriving DecidableEq, Repr

/-- The answer of `handleFetch` once it knows the high watermark: the records
read, up to the first one at or above it. -/
def fetchAnswer (crc : Checksum) (request : FetchRequest) (log : Log) (hw logStartOffset : Int64) :
    FetchResponse :=
  if hw ≤ request.fetchOffset then ⟨.none, hw, logStartOffset, []⟩
  else
    match log.readFrom crc request.fetchOffset request.maxBytes with
    | (records, error) =>
      if error.any fun e => !LogError.isEOF e then ⟨.unknown, hw, logStartOffset, []⟩
      else
        match encodeRecords crc (records.takeWhile fun r => decide (r.offset < hw)) with
        | .error _ => ⟨.unknown, hw, logStartOffset, []⟩
        | .ok recordSet => ⟨.none, hw, logStartOffset, recordSet⟩

def FetchPhase.next (crc : Checksum) (request : FetchRequest) (p : Partition) :
    FetchPhase → Option FetchPhase
  | .received => some (.bounded p.highWatermark)
  | .bounded hw => some (.located hw p.log.lowestOffset)
  | .located hw logStartOffset =>
    some (.answered (fetchAnswer crc request p.log hw logStartOffset))
  | .answered _ => none

inductive Request where
  | produce (request : ProduceRequest)
  | replicaFetch (request : ReplicaFetchRequest)
  | fetch (request : FetchRequest)
  deriving DecidableEq, Repr

inductive Task where
  | produce (request : ProduceRequest) (deadline : Int) (phase : ProducePhase)
  | replicaFetch (request : ReplicaFetchRequest) (phase : ReplicaFetchPhase)
  | fetch (request : FetchRequest) (phase : FetchPhase)
  deriving DecidableEq, Repr

def produceDeadline (timeoutMs : Int32) (now : Int) : Int :=
  if timeoutMs ≤ 0 then now + 30000000000 else now + timeoutMs.toInt * 1000000

def Request.begin (now : Int) : Request → Task
  | .produce request => .produce request (produceDeadline request.timeoutMs now) .received
  | .replicaFetch request => .replicaFetch request .received
  | .fetch request => .fetch request .received

def Task.next (crc : Checksum) (cfg : BrokerConfig) (key : TopicPartition) (channel : Nat)
    (now : Int) (choice : Choice) (p : Partition) (q : Purgatory) :
    Task → Option (Task × Partition × Purgatory)
  | .produce request deadline phase =>
    (phase.next crc cfg request deadline key channel now choice p q).map
      (Prod.map (.produce request deadline) id)
  | .replicaFetch request phase =>
    (phase.next crc cfg request key now p q).map (Prod.map (.replicaFetch request) id)
  | .fetch request phase => (phase.next crc request p).map fun phase => (.fetch request phase, p, q)

/-- A task takes steps to its end, `n` of them at most, with no other thread in
between. -/
def Task.finish (crc : Checksum) (cfg : BrokerConfig) (key : TopicPartition) (channel : Nat)
    (now : Int) (choice : Choice) :
    Nat → Task → Partition → Purgatory → Task × Partition × Purgatory
  | 0, task, p, q => (task, p, q)
  | n + 1, task, p, q =>
    match task.next crc cfg key channel now choice p q with
    | none => (task, p, q)
    | some (task, p, q) => Task.finish crc cfg key channel now choice n task p q

/-- The call of `UpdateLEO` that the next step of a task makes: the replica,
its log end and the leader's. -/
def Task.pendingUpdate (cfg : BrokerConfig) : Task → Option (Int32 × Int64 × Int64)
  | .produce _ _ (.measured _ leaderLEO) => some (cfg.localID, leaderLEO, leaderLEO)
  | .replicaFetch _ (.measured _ leaderLEO) => some (cfg.localID, leaderLEO, leaderLEO)
  | .replicaFetch request (.leaderUpdated records leaderLEO) =>
    some (request.replicaID, followerLEO request records, leaderLEO)
  | _ => none

def Task.pendingWatermark : Task → Option Int64
  | .produce _ _ (.updated _ _ hw) => some hw
  | .replicaFetch _ (.replicaUpdated _ hw) => some hw
  | _ => none

section

variable (crc : Checksum) (cfg : BrokerConfig) (request : ProduceRequest) (deadline : Int)
  (key : TopicPartition) (channel : Nat) (now : Int) (choice : Choice) (p : Partition)
  (q : Purgatory)

/-- The steps of `handleProduce`, one for each branch of it. -/
inductive ProduceStep : ProducePhase → ProducePhase → Partition → Purgatory → Prop
  | refuse : ProduceStep .received (.answered .notEnoughReplicas ⟨0, 0⟩) p q
  | accept : ¬ (request.acks = -1 ∧ (p.tracker.getISR.length : Int) < cfg.minInsync.toInt) →
      ProduceStep .received .accepted p q
  | reject {code : ErrorCode} : code ≠ .none → ProduceStep .accepted (.answered code ⟨0, 0⟩) p q
  | empty : ProduceStep .accepted (.answered .none ⟨0, 0⟩) p q
  | fail {records : List Record} {log : Log} {base : Int64} {e : LogError} :
      OffsetsLeft p.log records.length →
      p.log.appendRecords crc records choice.surroundings = (log, base, some e) →
      ProduceStep .accepted (.answered .unknown ⟨0, 0⟩) { p with log := log } q
  | append {records : List Record} {log : Log} {base : Int64} : records ≠ [] →
      OffsetsLeft p.log records.length →
      p.log.appendRecords crc records choice.surroundings = (log, base, none) →
      ProduceStep .accepted (.appended ⟨base, records.length⟩) { p with log := log } q
  | measure {block : Block} :
      ProduceStep (.appended block) (.measured block p.log.highestOffset) p q
  | update {block : Block} {leaderLEO : Int64} :
      ProduceStep (.measured block leaderLEO)
        (.updated block leaderLEO
          (p.updateLEO cfg.localID leaderLEO leaderLEO now).tracker.highWatermark)
        (p.updateLEO cfg.localID leaderLEO leaderLEO now) q
  | publish {block : Block} {leaderLEO hw : Int64} :
      ProduceStep (.updated block leaderLEO hw) (.published block leaderLEO hw)
        (p.setHighWatermark hw) q
  | await {block : Block} {leaderLEO hw : Int64} : request.acks = -1 →
      ProduceStep (.published block leaderLEO hw) (.waiting block leaderLEO) p
        (q.checkAndComplete key hw)
  | answer {block : Block} {leaderLEO hw : Int64} : request.acks ≠ -1 →
      ProduceStep (.published block leaderLEO hw) (.answered .none block) p
        (q.checkAndComplete key hw)
  | met {block : Block} {requiredHW : Int64} :
      requiredHW ≤ 0 ∨ requiredHW ≤ p.tracker.highWatermark →
      ProduceStep (.waiting block requiredHW) (.answered .none block) p q
  | unmet {block : Block} {requiredHW : Int64} :
      ProduceStep (.waiting block requiredHW) (.notYet block requiredHW) p q
  | watch {block : Block} {requiredHW : Int64} :
      ProduceStep (.notYet block requiredHW)
        (.watching block requiredHW (q.watch key requiredHW channel).2) p
        (q.watch key requiredHW channel).1
  | recheck {block : Block} {requiredHW id : Int64} :
      ProduceStep (.watching block requiredHW id) (.reached block requiredHW id) p q
  | wait {block : Block} {requiredHW id : Int64} :
      ProduceStep (.watching block requiredHW id) (.timing block requiredHW id) p q
  | reread {block : Block} {requiredHW id : Int64} :
      ProduceStep (.reached block requiredHW id)
        (.releasing block requiredHW id p.tracker.highWatermark) p q
  | release {block : Block} {requiredHW id hw : Int64} :
      ProduceStep (.releasing block requiredHW id hw) (.timing block requiredHW id) p
        (q.checkAndComplete key hw)
  | late {block : Block} {requiredHW id : Int64} : elapsed deadline now ≤ 0 →
      ProduceStep (.timing block requiredHW id) (.answered .requestTimedOut block) p (q.cancel id)
  | select {block : Block} {requiredHW id : Int64} : ¬ elapsed deadline now ≤ 0 →
      ProduceStep (.timing block requiredHW id) (.selecting block requiredHW id) p q
  | timeOut {block : Block} {requiredHW id : Int64} : choice.timerFires = true →
      ProduceStep (.selecting block requiredHW id) (.answered .requestTimedOut block) p
        (q.cancel id)
  | receive {block : Block} {requiredHW id : Int64} : ¬ choice.timerFires = true →
      channel ∈ q.answers →
      ProduceStep (.selecting block requiredHW id) (.answered .none block) p
        { q with answers := q.answers.filter (· ≠ channel) }

end

/-- What a step of a task can do to its partition. -/
inductive PartitionStep (crc : Checksum) (cfg : BrokerConfig) (now : Int) (task : Task)
    (p : Partition) : Partition → Prop
  | same : PartitionStep crc cfg now task p p
  | append {records : List Record} (env : Nat → Surroundings)
      (hleft : OffsetsLeft p.log records.length) :
      PartitionStep crc cfg now task p
        { p with log := (p.log.appendRecords crc records env).1 }
  | update {id : Int32} {leo leaderLEO : Int64}
      (hpending : task.pendingUpdate cfg = some (id, leo, leaderLEO)) :
      PartitionStep crc cfg now task p (p.updateLEO id leo leaderLEO now)
  | publish {hw : Int64} (hpending : task.pendingWatermark = some hw) :
      PartitionStep crc cfg now task p (p.setHighWatermark hw)

/-- What a step of a handler asks of the purgatory. -/
inductive PurgatoryCall where
  | none
  | watch (requiredHW : Int64)
  | complete (hw : Int64)
  | cancel (id : Int64)
  | receive
  deriving DecidableEq, Repr

def Task.purgatoryCall (now : Int) (choice : Choice) : Task → PurgatoryCall
  | .produce _ _ (.published _ _ hw) => .complete hw
  | .produce _ _ (.notYet _ requiredHW) => .watch requiredHW
  | .produce _ _ (.releasing _ _ _ hw) => .complete hw
  | .produce _ deadline (.timing _ _ id) => if elapsed deadline now ≤ 0 then .cancel id else .none
  | .produce _ _ (.selecting _ _ id) => if choice.timerFires then .cancel id else .receive
  | .replicaFetch _ (.published _ hw) => .complete hw
  | _ => .none

def Purgatory.serve (q : Purgatory) (key : TopicPartition) (channel : Nat) :
    PurgatoryCall → Purgatory
  | .none => q
  | .watch requiredHW => (q.watch key requiredHW channel).1
  | .complete hw => q.checkAndComplete key hw
  | .cancel id => q.cancel id
  | .receive => { q with answers := q.answers.filter (· ≠ channel) }

structure Handler where
  key : TopicPartition
  task : Task
  deriving DecidableEq, Repr

/-- A broker: the partitions it leads, the purgatory they share, and the
threads that serve requests. -/
structure Broker where
  partitions : TopicPartition → Partition
  purgatory : Purgatory
  handlers : List Handler
  now : Int

inductive Event where
  | arrive (key : TopicPartition) (request : Request)
  | run (thread : Nat) (choice : Choice)
  | tick (elapsed : Nat)

/-- One step of a broker: a request arrives, a thread takes its next step, or
time goes on. -/
def Broker.step (crc : Checksum) (cfg : BrokerConfig) (b : Broker) : Event → Option Broker
  | .arrive key request =>
    some { b with handlers := b.handlers ++ [⟨key, request.begin b.now⟩] }
  | .run thread choice =>
    match b.handlers[thread]? with
    | none => none
    | some h =>
      (h.task.next crc cfg h.key thread b.now choice (b.partitions h.key) b.purgatory).map
        fun (task, p, q) =>
          { b with
            partitions := Function.update b.partitions h.key p
            purgatory := q
            handlers := b.handlers.set thread ⟨h.key, task⟩ }
  | .tick elapsed => some { b with now := b.now + elapsed }

def newBroker (cfg : BrokerConfig) (logs : TopicPartition → Log) (now : Int) : Broker where
  partitions key := newPartition cfg (logs key) now
  purgatory := ⟨[], 0, []⟩
  handlers := []
  now := now

/-- What every partition and every thread of a broker satisfies: `PInv` says
what holds of a partition, `HInv` what a task knows about its partition. -/
structure Threads (PInv : Int → TopicPartition → Partition → Prop)
    (HInv : TopicPartition → Partition → Task → Prop) (b : Broker) : Prop where
  partitions : ∀ key, PInv b.now key (b.partitions key)
  handlers : ∀ h ∈ b.handlers, HInv h.key (b.partitions h.key) h.task

section

variable {crc : Checksum} {cfg : BrokerConfig} {b b' : Broker}

variable {channel thread : Nat} {choice : Choice} {task : Task} {p p' : Partition}
  {q q' : Purgatory} {e : Event} {key : TopicPartition} {request : ProduceRequest}
  {deadline now : Int} {phase' : ProducePhase} {phase : ReplicaFetchPhase}

theorem step_run (hstep : b.step crc cfg (.run thread choice) = some b') :
    ∃ h task p q, b.handlers[thread]? = some h ∧
      h.task.next crc cfg h.key thread b.now choice (b.partitions h.key) b.purgatory =
        some (task, p, q) ∧
      b' =
        { b with
          partitions := Function.update b.partitions h.key p
          purgatory := q
          handlers := b.handlers.set thread ⟨h.key, task⟩ } := by
  rw [Broker.step] at hstep
  split at hstep
  · cases hstep
  · rename_i h hthread
    obtain ⟨⟨task, p, q⟩, hnext, rfl⟩ := Option.map_eq_some_iff.mp hstep
    exact ⟨h, task, p, q, hthread, hnext, rfl⟩

theorem partitions_run {h : Handler} (hstep : b.step crc cfg (.run thread choice) = some b')
    (hthread : b.handlers[thread]? = some h)
    (hnext : h.task.next crc cfg h.key thread b.now choice (b.partitions h.key) b.purgatory =
      some (task, p, q)) : b'.partitions h.key = p := by
  obtain ⟨g, task', p', q', hg, hnext', rfl⟩ := step_run hstep
  obtain rfl := Option.some.inj (hthread.symm.trans hg)
  cases Option.some.inj (hnext.symm.trans hnext')
  exact Function.update_self ..

/-- One step keeps the invariants if the thread that runs establishes them for
its partition and itself, and what it does to the partition disturbs no other
thread. -/
theorem threads_step {PInv : Int → TopicPartition → Partition → Prop}
    {HInv : TopicPartition → Partition → Task → Prop} (hb : Threads PInv HInv b)
    (hstep : b.step crc cfg e = some b')
    (hlater : ∀ now now' key p, now ≤ now' → PInv now key p → PInv now' key p)
    (hbegin : ∀ key request, e = .arrive key request →
      HInv key (b.partitions key) (request.begin b.now))
    (hrun : ∀ thread choice h task p q, e = .run thread choice → b.handlers[thread]? = some h →
      h.task.next crc cfg h.key thread b.now choice (b.partitions h.key) b.purgatory =
        some (task, p, q) →
      PInv b.now h.key p ∧ HInv h.key p task ∧
        ∀ other, HInv h.key (b.partitions h.key) other → HInv h.key p other) :
    Threads PInv HInv b' := by
  cases e with
  | arrive key request =>
    obtain rfl := Option.some.inj hstep
    refine ⟨hb.partitions, fun h hh => ?_⟩
    rcases List.mem_append.mp hh with hold | hnew
    · exact hb.handlers h hold
    · obtain rfl := List.mem_singleton.mp hnew
      exact hbegin key request rfl
  | tick elapsed =>
    obtain rfl := Option.some.inj hstep
    exact ⟨fun key => hlater _ _ _ _ (by simp) (hb.partitions key), hb.handlers⟩
  | run thread choice =>
    obtain ⟨h, task, p, q, hthread, hnext, rfl⟩ := step_run hstep
    obtain ⟨hp, htask, hothers⟩ := hrun thread choice h task p q rfl hthread hnext
    constructor
    · intro key
      by_cases hkey : key = h.key
      · subst hkey
        simpa using hp
      · simpa [hkey] using hb.partitions key
    · intro g hg
      rcases List.mem_or_eq_of_mem_set hg with hold | rfl
      · by_cases hkey : g.key = h.key
        · have hg' := hb.handlers g hold
          simp only [hkey, Function.update_self] at hg' ⊢
          exact hothers g.task hg'
        · simpa [hkey] using hb.handlers g hold
      · simpa using htask

theorem threads_step_key {PInv : Int → Partition → Prop} {HInv : Partition → Task → Prop}
    (hb : Threads (fun now k p => k = key → PInv now p) (fun k p task => k = key → HInv p task) b)
    (hstep : b.step crc cfg e = some b')
    (hlater : ∀ now now' p, now ≤ now' → PInv now p → PInv now' p)
    (hbegin : ∀ request, e = .arrive key request →
      HInv (b.partitions key) (request.begin b.now))
    (hrun : ∀ thread choice task task' p q, e = .run thread choice →
      b.handlers[thread]? = some ⟨key, task⟩ →
      task.next crc cfg key thread b.now choice (b.partitions key) b.purgatory =
        some (task', p, q) →
      PInv b.now p ∧ HInv p task' ∧ ∀ other, HInv (b.partitions key) other → HInv p other) :
    Threads (fun now k p => k = key → PInv now p) (fun k p task => k = key → HInv p task) b' := by
  refine threads_step hb hstep ?_ ?_ ?_
  · exact fun now now' k p hclock hp hkey => hlater now now' p hclock (hp hkey)
  · rintro k request rfl rfl
    exact hbegin request rfl
  · rintro thread choice ⟨k, task⟩ task' p q he hg hnext
    by_cases hkey : k = key
    · subst hkey
      obtain ⟨hp, htask, hothers⟩ := hrun thread choice task task' p q he hg hnext
      exact ⟨fun _ => hp, fun _ => htask, fun other hother _ => hothers other (hother rfl)⟩
    · exact ⟨fun h => absurd h hkey, fun h => absurd h hkey, fun _ _ h => absurd h hkey⟩

theorem produceStep_accepted
    (hnext : ProducePhase.accepted.next crc cfg request deadline key channel now choice p q =
      some (phase', p', q')) :
    ProduceStep crc cfg request deadline key channel now choice p q .accepted phase' p' q' := by
  rw [ProducePhase.next] at hnext
  split at hnext
  · cases hnext
    exact .reject (by decide)
  split at hnext
  · rename_i code hdecode
    cases hnext
    refine .reject ?_
    rw [decodeRecordSet] at hdecode
    split at hdecode <;> cases hdecode
    decide
  · cases hnext
    exact .empty
  · rename_i records hne _
    split at hnext
    · rename_i hleft
      split at hnext
      · rename_i heq
        cases hnext
        exact .fail hleft heq
      · rename_i heq
        cases hnext
        exact .append (fun hnil => hne (by rw [hnil])) hleft heq
    · cases hnext

/-- Every step of `handleProduce` is one of these. -/
theorem produceStep_of_next {phase : ProducePhase}
    (hnext : phase.next crc cfg request deadline key channel now choice p q =
      some (phase', p', q')) :
    ProduceStep crc cfg request deadline key channel now choice p q phase phase' p' q' := by
  cases phase with
  | received =>
    rw [ProducePhase.next] at hnext
    split at hnext
    · cases hnext
      exact .refuse
    · cases hnext
      exact .accept ‹_›
  | accepted => exact produceStep_accepted hnext
  | published block leaderLEO hw =>
    cases hnext
    split
    · exact .await ‹_›
    · exact .answer ‹_›
  | waiting block requiredHW =>
    cases hnext
    split
    · exact .met ‹_›
    · exact .unmet
  | watching block requiredHW id =>
    cases hnext
    split
    · exact .recheck
    · exact .wait
  | timing block requiredHW id =>
    rw [ProducePhase.next] at hnext
    split at hnext
    · cases hnext
      exact .late ‹_›
    · cases hnext
      exact .select ‹_›
  | selecting block requiredHW id =>
    rw [ProducePhase.next] at hnext
    split at hnext
    · split at hnext
      · cases hnext
        exact .timeOut ‹_›
      · cases hnext
    · split at hnext
      · cases hnext
        exact .receive ‹_› ‹_›
      · cases hnext
  | answered code block => cases hnext
  | _ =>
    cases hnext
    constructor

theorem partitionStep_produce {phase : ProducePhase}
    (hnext : phase.next crc cfg request deadline key channel now choice p q =
      some (phase', p', q')) :
    PartitionStep crc cfg now (.produce request deadline phase) p p' := by
  cases produceStep_of_next hnext with
  | fail hleft heq =>
    have happend := @PartitionStep.append crc cfg now (.produce request deadline .accepted) p _
      choice.surroundings hleft
    rwa [heq] at happend
  | append hne hleft heq =>
    have happend := @PartitionStep.append crc cfg now (.produce request deadline .accepted) p _
      choice.surroundings hleft
    rwa [heq] at happend
  | update => exact .update rfl
  | publish => exact .publish rfl
  | _ => exact .same

theorem partitionStep_replicaFetch {request : ReplicaFetchRequest} {phase' : ReplicaFetchPhase}
    (hnext : phase.next crc cfg request key now p q = some (phase', p', q')) :
    PartitionStep crc cfg now (.replicaFetch request phase) p p' := by
  cases phase with
  | received =>
    rw [ReplicaFetchPhase.next] at hnext
    split at hnext <;> cases hnext <;> exact .same
  | measured records leaderLEO =>
    cases hnext
    exact .update rfl
  | leaderUpdated records leaderLEO =>
    cases hnext
    exact .update rfl
  | replicaUpdated records hw =>
    cases hnext
    exact .publish rfl
  | answered payload => cases hnext
  | _ =>
    cases hnext
    exact .same

theorem partitionStep_next {task' : Task}
    (hnext : task.next crc cfg key channel now choice p q = some (task', p', q')) :
    PartitionStep crc cfg now task p p' := by
  cases task with
  | produce request deadline phase =>
    obtain ⟨⟨phase', p'', q''⟩, hphase, heq⟩ := Option.map_eq_some_iff.mp hnext
    cases heq
    exact partitionStep_produce hphase
  | replicaFetch request phase =>
    obtain ⟨⟨phase', p'', q''⟩, hphase, heq⟩ := Option.map_eq_some_iff.mp hnext
    cases heq
    exact partitionStep_replicaFetch hphase
  | fetch request phase =>
    obtain ⟨phase', -, heq⟩ := Option.map_eq_some_iff.mp hnext
    cases heq
    exact .same

theorem purgatory_next {task' : Task}
    (hnext : task.next crc cfg key channel now choice p q = some (task', p', q')) :
    q' = q.serve key channel (task.purgatoryCall now choice) := by
  cases task with
  | produce request deadline phase =>
    obtain ⟨⟨phase', p'', q''⟩, hphase, heq⟩ := Option.map_eq_some_iff.mp hnext
    cases heq
    cases produceStep_of_next hphase with
    | late hlate =>
      rw [Task.purgatoryCall, if_pos hlate]
      rfl
    | select hearly =>
      rw [Task.purgatoryCall, if_neg hearly]
      rfl
    | timeOut hfires =>
      rw [Task.purgatoryCall, if_pos hfires]
      rfl
    | receive hquiet hanswer =>
      rw [Task.purgatoryCall, if_neg hquiet]
      rfl
    | _ => rfl
  | replicaFetch request phase =>
    obtain ⟨⟨phase', p'', q''⟩, hphase, heq⟩ := Option.map_eq_some_iff.mp hnext
    cases heq
    cases phase with
    | received =>
      rw [ReplicaFetchPhase.next] at hphase
      split at hphase <;> cases hphase <;> rfl
    | answered payload => cases hphase
    | _ =>
      cases hphase
      rfl
  | fetch request phase =>
    obtain ⟨phase', -, heq⟩ := Option.map_eq_some_iff.mp hnext
    cases heq
    rfl

theorem watch_call {requiredHW : Int64}
    (hcall : task.purgatoryCall now choice = .watch requiredHW) :
    ∃ request deadline block, task = .produce request deadline (.notYet block requiredHW) := by
  cases task with
  | produce request deadline phase =>
    cases phase with
    | notYet block required =>
      cases hcall
      exact ⟨request, deadline, block, rfl⟩
    | timing block required id =>
      rw [Task.purgatoryCall] at hcall
      split at hcall <;> cases hcall
    | selecting block required id =>
      rw [Task.purgatoryCall] at hcall
      split at hcall <;> cases hcall
    | _ => cases hcall
  | replicaFetch request phase => cases phase <;> cases hcall
  | fetch request phase => cases hcall

theorem complete_call {hw : Int64} (hcall : task.purgatoryCall now choice = .complete hw) :
    (∃ request deadline block leaderLEO,
        task = .produce request deadline (.published block leaderLEO hw)) ∨
      (∃ request deadline block requiredHW id,
        task = .produce request deadline (.releasing block requiredHW id hw)) ∨
      ∃ request records, task = .replicaFetch request (.published records hw) := by
  cases task with
  | produce request deadline phase =>
    cases phase with
    | published block leaderLEO hw' =>
      cases hcall
      exact .inl ⟨_, _, _, _, rfl⟩
    | releasing block required id hw' =>
      cases hcall
      exact .inr (.inl ⟨_, _, _, _, _, rfl⟩)
    | timing block required id =>
      rw [Task.purgatoryCall] at hcall
      split at hcall <;> cases hcall
    | selecting block required id =>
      rw [Task.purgatoryCall] at hcall
      split at hcall <;> cases hcall
    | _ => cases hcall
  | replicaFetch request phase =>
    cases phase with
    | published records hw' =>
      cases hcall
      exact .inr (.inr ⟨_, _, rfl⟩)
    | _ => cases hcall
  | fetch request phase => cases hcall

theorem update_call {id : Int32} {leo leaderLEO : Int64}
    (hpending : task.pendingUpdate cfg = some (id, leo, leaderLEO)) :
    (∃ request deadline block, task = .produce request deadline (.measured block leaderLEO) ∧
        id = cfg.localID ∧ leo = leaderLEO) ∨
      (∃ request records, task = .replicaFetch request (.measured records leaderLEO) ∧
        id = cfg.localID ∧ leo = leaderLEO) ∨
      ∃ request records, task = .replicaFetch request (.leaderUpdated records leaderLEO) ∧
        id = request.replicaID ∧ leo = followerLEO request records := by
  cases task with
  | produce request deadline phase =>
    cases phase with
    | measured block leaderEnd =>
      cases hpending
      exact .inl ⟨_, _, _, rfl, rfl, rfl⟩
    | _ => cases hpending
  | replicaFetch request phase =>
    cases phase with
    | measured records leaderEnd =>
      cases hpending
      exact .inr (.inl ⟨_, _, rfl, rfl, rfl⟩)
    | leaderUpdated records leaderEnd =>
      cases hpending
      exact .inr (.inr ⟨_, _, rfl, rfl, rfl⟩)
    | _ => cases hpending
  | fetch request phase => cases hpending

theorem pending_produce {phase : ProducePhase}
    (hnext : phase.next crc cfg request deadline key channel now choice p q =
      some (phase', p', q')) :
    ((Task.produce request deadline phase').pendingUpdate cfg = none ∨
        (Task.produce request deadline phase').pendingUpdate cfg =
          some (cfg.localID, p'.log.highestOffset, p'.log.highestOffset)) ∧
      ∀ hw ∈ (Task.produce request deadline phase').pendingWatermark,
        hw = p'.tracker.highWatermark := by
  cases produceStep_of_next hnext with
  | measure => exact ⟨.inr rfl, nofun⟩
  | update => exact ⟨.inl rfl, fun hw hhw => (Option.some.inj hhw).symm⟩
  | _ => exact ⟨.inl rfl, nofun⟩

theorem pending_replicaFetch {request : ReplicaFetchRequest} {phase' : ReplicaFetchPhase}
    (hnext : phase.next crc cfg request key now p q = some (phase', p', q')) :
    ((Task.replicaFetch request phase').pendingUpdate cfg = none ∨
        (Task.replicaFetch request phase').pendingUpdate cfg =
          some (cfg.localID, p'.log.highestOffset, p'.log.highestOffset) ∨
        ∃ records leaderLEO, phase' = .leaderUpdated records leaderLEO) ∧
      ∀ hw ∈ (Task.replicaFetch request phase').pendingWatermark,
        hw = p'.tracker.highWatermark := by
  cases phase with
  | received =>
    rw [ReplicaFetchPhase.next] at hnext
    split at hnext
    · cases hnext
      exact ⟨.inl rfl, nofun⟩
    · cases hnext
      split <;> exact ⟨.inl rfl, nofun⟩
  | fetched records =>
    cases hnext
    exact ⟨.inr (.inl rfl), nofun⟩
  | measured records leaderLEO =>
    cases hnext
    exact ⟨.inr (.inr ⟨records, leaderLEO, rfl⟩), nofun⟩
  | leaderUpdated records leaderLEO =>
    cases hnext
    exact ⟨.inl rfl, fun hw hhw => (Option.some.inj hhw).symm⟩
  | answered payload => cases hnext
  | _ =>
    cases hnext
    exact ⟨.inl rfl, nofun⟩

theorem replicaFetch_kept {request : ReplicaFetchRequest} (hstep : b.step crc cfg e = some b')
    (hthread : b.handlers[thread]? = some ⟨key, .replicaFetch request phase⟩) :
    ∃ phase', b'.handlers[thread]? = some ⟨key, .replicaFetch request phase'⟩ := by
  have hlt := (List.getElem?_eq_some_iff.mp hthread).1
  cases e with
  | arrive key request =>
    obtain rfl := Option.some.inj hstep
    exact ⟨phase, (List.getElem?_append_left hlt).trans hthread⟩
  | tick elapsed =>
    obtain rfl := Option.some.inj hstep
    exact ⟨phase, hthread⟩
  | run other choice =>
    obtain ⟨h, task, p, q, hother, hnext, rfl⟩ := step_run hstep
    by_cases heq : other = thread
    · subst heq
      obtain rfl := Option.some.inj (hthread.symm.trans hother)
      obtain ⟨⟨phase', p', q'⟩, -, heq⟩ := Option.map_eq_some_iff.mp hnext
      cases heq
      exact ⟨phase', List.getElem?_set_self hlt⟩
    · exact ⟨phase, (List.getElem?_set_ne heq).trans hthread⟩

theorem fetchBudget_pos (cfg : BrokerConfig) : 0 < cfg.fetchBudget := by
  rw [BrokerConfig.fetchBudget]
  split
  · decide
  · rename_i hnot
    rw [Int32.le_iff_toInt_le, not_le] at hnot
    rwa [Int32.lt_iff_toInt_lt]

theorem received_next {request : ReplicaFetchRequest} (hopen : p.log.closed = false)
    (hnext : ReplicaFetchPhase.received.next crc cfg request key now p q = some (phase, p', q')) :
    p' = p ∧ q' = q ∧ (phase = .answered none ∨ ∃ records, phase = .fetched records ∧
      p.log.lowestOffset.toInt ≤ request.fetchOffset.toInt ∧
      (p.log.readFrom crc request.fetchOffset cfg.fetchBudget).1 = records) := by
  have hpos : ¬ cfg.fetchBudget ≤ 0 := by
    have hbudget := fetchBudget_pos cfg
    rw [Int32.lt_iff_toInt_lt] at hbudget
    rw [Int32.le_iff_toInt_le]
    omega
  by_cases hbelow : request.fetchOffset < p.log.lowestOffset
  · have hread : p.log.readFrom crc request.fetchOffset cfg.fetchBudget =
        ([], some .offsetOutOfRange) := by
      rw [Log.readFrom, if_neg (by simp [hopen]), if_neg hpos, if_pos hbelow]
    rw [ReplicaFetchPhase.next, hread] at hnext
    cases hnext
    exact ⟨rfl, rfl, .inl rfl⟩
  · rw [Int64.lt_iff_toInt_lt, not_lt] at hbelow
    rw [ReplicaFetchPhase.next] at hnext
    split at hnext
    · rename_i records hread
      cases hnext
      exact ⟨rfl, rfl, .inr ⟨records, rfl, hbelow, by rw [hread]⟩⟩
    · rename_i records error hread
      cases hnext
      refine ⟨rfl, rfl, ?_⟩
      split
      · exact .inr ⟨records, rfl, hbelow, by rw [hread]⟩
      · exact .inl rfl

end

/-- Two replicas, both required, and a lag of one millisecond. -/
def pairConfig : BrokerConfig :=
  { localID := 1, replicaIDs := [1, 2], minInsyncReplicas := 2, replicaLagTimeMaxMs := 1,
    replicaFetchMaxBytes := 1024, maxMessageBytes := 0 }

def events : TopicPartition := ⟨"events", 0⟩

def produceOne (acks : Int16) : ProduceRequest :=
  { acks := acks, timeoutMs := 1000, recordSet := (bareRecord 7).wireImage castagnoli }

def calm : Choice := ⟨fun _ => ⟨0, none⟩, false⟩

end MiniKafka.BrokerHandlers
