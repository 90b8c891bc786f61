import MiniKafka.Frames
import MiniKafka.RecordSets
import MiniKafka.ResponseBodies

/-!
The batching producer of `pkg/client/producer.go`, with `LingerMs` above zero:
`Send`, the linger timers, `flushBatch` with the request it makes, and `Close`.

A call is cut where it takes or gives up a lock, where it reads `p.bw` or `p.br`,
and where it uses a channel or the connection.  What the network does is a label
of the step.  A batch that leaves the map gets a `flushBatch` call of its own;
the calls of one `Close`, which the source makes one after the other, may take
their steps in any order here.
-/

namespace MiniKafka.ProducerBatches

open BigEndian Frames RecordCodec RecordSets RequestBodies ResponseBodies WireCodec

structure TopicPartition where
  topic : Bytes
  partition : Int32
  deriving DecidableEq, Repr

structure ProducerConfig where
  clientID : Bytes
  acks : Int16
  timeoutMs : Int32
  batchSize : Nat
  deriving DecidableEq, Repr

inductive ProducerError where
  | producerClosed
  | connectFailed
  | recordEncode (e : EncodeError)
  | requestEncode (e : WireError)
  | writeFrame
  | flushFrame
  | readResponse
  | correlationMismatch (got want : Int32)
  | brokerError (code : Int16)
  | responseDecode (e : WireError)
  | malformedResponse
  | partitionError (code : Int16)
  | missingOffset (i : Nat)
  deriving DecidableEq, Repr

abbrev BatchResult := Except ProducerError Int64

/-- A timer is `stopped` also when its callback has run. -/
inductive Timer where
  | armed
  | fired
  | stopped
  deriving DecidableEq, Repr

def Timer.stop : Timer → Timer
  | .armed => .stopped
  | t => t

/-- A waiter is the channel of a `Send` call, named by the number of the call. -/
structure PendingBatch where
  tp : TopicPartition
  records : List Record
  bytes : Nat
  waiters : List Nat
  timer : Timer
  deriving DecidableEq, Repr

def newPendingBatch (tp : TopicPartition) : PendingBatch := ⟨tp, [], 0, [], .armed⟩

inductive SendPhase where
  | entering
  | locked
  | waiting
  | returned (result : BatchResult)
  | canceled
  | refused
  deriving DecidableEq

def SendPhase.enqueued : SendPhase → Bool
  | .entering => false
  | .locked => false
  | .waiting => true
  | .returned _ => true
  | .canceled => true
  | .refused => false

/-- A call of `Send`, with what its buffered channel holds. -/
structure Send where
  tp : TopicPartition
  record : Record
  phase : SendPhase
  waiter : List BatchResult
  deriving DecidableEq

/-- How far a `flushBatch` call has come.  From `writing` to `reading` it has a
connection and is going to use `p.bw` or `p.br`; while it is `awaiting`, the
reader is in its hands. -/
inductive FlushPhase where
  | queued
  | framed (frame : RequestFrame)
  | locked (frame : RequestFrame)
  | writing (frame : RequestFrame)
  | flushing (frame : RequestFrame)
  | reading (frame : RequestFrame)
  | awaiting (frame : RequestFrame)
  | answering (outcome : Except ProducerError Int64) (next : Nat)
  | skipped
  deriving DecidableEq

structure Flush where
  batch : Nat
  phase : FlushPhase
  deriving DecidableEq

inductive ClosePhase where
  | closing (first : Bool)
  | draining (flushes : List Nat)
  | returned (drained : Bool)
  deriving DecidableEq, Repr

/-- The producer, the batches it has made and the calls that are on their way.
`pending` leads from a partition to a batch, `sent` are the results that waiters
were sent. -/
structure Producer where
  closed : Bool
  finalized : Bool
  connected : Bool
  nextID : Int32
  batchMu : Option Nat
  reqMu : Option Nat
  pending : List (TopicPartition × Nat)
  batches : List PendingBatch
  sends : List Send
  flushes : List Flush
  closes : List ClosePhase
  sent : List (Nat × BatchResult)
  panicked : Bool
  deriving DecidableEq

def newProducer : Producer where
  closed := false
  finalized := false
  connected := false
  nextID := 0
  batchMu := none
  reqMu := none
  pending := []
  batches := []
  sends := []
  flushes := []
  closes := []
  sent := []
  panicked := false

section Request

variable (cfg : ProducerConfig) (crc : Checksum)

def produceRequest (tp : TopicPartition) (records : List Record) : Except ProducerError Bytes :=
  match encodeRecords crc records with
  | .error e => .error (.recordEncode e)
  | .ok recordSet =>
    let produceReq : ProduceRequest :=
      { acks := cfg.acks
        timeoutMs := cfg.timeoutMs
        topics := some [⟨tp.topic, some [⟨tp.partition, some recordSet⟩]⟩] }
    produceReq.encode.mapError .requestEncode

def requestFrame (corrID : Int32) (payload : Bytes) : RequestFrame where
  size := 0
  apiKey := 0
  apiVersion := 1
  correlationID := corrID
  clientID := cfg.clientID
  payload := some payload

/-- `partResp.BaseOffset`, or the error that `produceRecords` makes of the
response. -/
def baseOffset (corrID : Int32) (resp : ResponseFrame) : Except ProducerError Int64 :=
  if resp.correlationID ≠ corrID then .error (.correlationMismatch resp.correlationID corrID)
  else if resp.errorCode ≠ 0 then .error (.brokerError resp.errorCode)
  else
    match ProduceResponse.decode (elements resp.payload) with
    | .error e => .error (.responseDecode e)
    | .ok (produceResp, _) =>
      match (elements produceResp.topics).head?.bind fun t => (elements t.partitions).head? with
      | none => .error .malformedResponse
      | some partResp =>
        if partResp.errorCode ≠ 0 then .error (.partitionError partResp.errorCode)
        else .ok partResp.baseOffset

def offsets (base : Int64) (n : Nat) : List Int64 :=
  (List.range n).map fun i => base + Int64.ofNat i

/-- What `flushBatch` sends to the waiter in place `i`. -/
def PendingBatch.result (pb : PendingBatch) (outcome : Except ProducerError Int64) (i : Nat) :
    BatchResult :=
  match outcome with
  | .error e => .error e
  | .ok base =>
    match (offsets base pb.records.length)[i]? with
    | none => .error (.missingOffset i)
    | some offset => .ok offset

end Request

section CriticalSections

def PendingBatch.append (pb : PendingBatch) (rec : Record) (waiter : Nat) : PendingBatch :=
  { pb with
    records := pb.records ++ [rec]
    bytes := pb.bytes + rec.encodedSize
    waiters := pb.waiters ++ [waiter] }

def Producer.openBatch (s : Producer) (tp : TopicPartition) : Producer × Nat :=
  match s.pending.find? fun e => decide (e.1 = tp) with
  | some e => (s, e.2)
  | none =>
    ({ s with
        pending := s.pending ++ [(tp, s.batches.length)]
        batches := s.batches ++ [newPendingBatch tp] }, s.batches.length)

/-- The batch leaves the map, with its timer as given, and is flushed. -/
def Producer.detach (s : Producer) (tp : TopicPartition) (k : Nat) (pb : PendingBatch)
    (timer : Timer) : Producer :=
  { s with
    pending := s.pending.filter fun e => decide (e.1 ≠ tp)
    batches := s.batches.set k { pb with timer }
    flushes := s.flushes ++ [⟨k, .queued⟩] }

def Producer.enqueue (cfg : ProducerConfig) (s : Producer) (i : Nat) (call : Send) :
    Option Producer :=
  let (s, k) := s.openBatch call.tp
  match s.batches[k]? with
  | none => none
  | some pb =>
    let pb := pb.append call.record i
    let s := { s with
      batchMu := none
      batches := s.batches.set k pb
      sends := s.sends.set i { call with phase := .waiting } }
    if cfg.batchSize ≤ pb.bytes then some (s.detach call.tp k pb pb.timer.stop) else some s

/-- A timer whose batch has left the map does nothing. -/
def Producer.lingerFire (s : Producer) (k : Nat) (pb : PendingBatch) : Producer :=
  if (s.pending.find? fun e => decide (e.1 = pb.tp)).map Prod.snd = some k then
    s.detach pb.tp k pb .stopped
  else { s with batches := s.batches.set k { pb with timer := .stopped } }

def stopTimers (pending : List (TopicPartition × Nat)) (batches : List PendingBatch) :
    List PendingBatch :=
  batches.mapIdx fun k pb =>
    if pending.any fun e => decide (e.2 = k) then { pb with timer := pb.timer.stop } else pb

def Producer.flushAllPending (s : Producer) : Producer :=
  { s with
    pending := []
    batches := stopTimers s.pending s.batches
    flushes := s.flushes ++ s.pending.map fun e => ⟨e.2, .queued⟩ }

def Producer.setFlush (s : Producer) (j k : Nat) (phase : FlushPhase) : Producer :=
  { s with flushes := s.flushes.set j ⟨k, phase⟩ }

def Producer.release (s : Producer) (j k : Nat) (outcome : Except ProducerError Int64) : Producer :=
  { s.setFlush j k (.answering outcome 0) with reqMu := none }

def Producer.closeConn (s : Producer) : Producer := { s with connected := false }

def Producer.getConn (s : Producer) (j k : Nat) (frame : RequestFrame) (dialed : Bool) : Producer :=
  if s.connected then s.setFlush j k (.writing frame)
  else if s.finalized then s.release j k (.error .producerClosed)
  else if dialed then { s.setFlush j k (.writing frame) with connected := true }
  else s.release j k (.error .connectFailed)

/-- A use of `p.bw` or `p.br`, which are nil if the connection is gone. -/
def Producer.deref (s : Producer) (next : Producer) : Producer :=
  if s.connected then next else { s with panicked := true }

def Producer.finished (s : Producer) (f : Flush) : Bool :=
  match f.phase with
  | .answering _ next =>
    match s.batches[f.batch]? with
    | none => false
    | some pb => decide (pb.waiters.length ≤ next)
  | .skipped => true
  | _ => false

/-- The next round of the loop over the waiters.  The channel of a waiter has
room for one result. -/
def Producer.answer (s : Producer) (j : Nat) : Option Producer :=
  match s.flushes[j]? with
  | some ⟨k, .answering outcome next⟩ =>
    match s.batches[k]? with
    | none => none
    | some pb =>
      match pb.waiters[next]? with
      | none => none
      | some w =>
        match s.sends[w]? with
        | none => none
        | some call =>
          if call.waiter = [] then
            some { s.setFlush j k (.answering outcome (next + 1)) with
              sends := s.sends.set w { call with waiter := [pb.result outcome next] }
              sent := s.sent ++ [(w, pb.result outcome next)] }
          else none
  | _ => none

def Producer.finalize (s : Producer) (c : Nat) (drained : Bool) : Producer :=
  let s := { s with closes := s.closes.set c (.returned drained) }
  if s.finalized then s else { s with finalized := true, connected := false }

end CriticalSections

inductive ProducerEvent where
  | send (tp : TopicPartition) (rec : Record) (canceled : Bool)
  | enter (call : Nat)
  | enqueue (call : Nat)
  | receive (call : Nat)
  | cancel (call : Nat)
  | fire (batch : Nat)
  | lingerFire (batch : Nat)
  | frame (flush : Nat)
  | lock (flush : Nat)
  | connect (flush : Nat) (dialed : Bool)
  | write (flush : Nat) (ok : Bool)
  | flush (flush : Nat) (ok : Bool)
  | read (flush : Nat)
  | respond (flush : Nat) (resp : Option ResponseFrame)
  | answer (flush : Nat)
  | close
  | drain (close : Nat)
  | finalize (close : Nat)
  deriving DecidableEq

section Steps

variable (cfg : ProducerConfig) (crc : Checksum)

def Producer.next (s : Producer) : ProducerEvent → Option Producer
  | .send tp rec canceled =>
    let phase := if canceled || s.closed then .refused else .entering
    some { s with sends := s.sends ++ [⟨tp, rec, phase, []⟩] }
  | .enter i =>
    match s.sends[i]?, s.batchMu with
    | some ⟨tp, rec, .entering, waiter⟩, none =>
      if s.closed then some { s with sends := s.sends.set i ⟨tp, rec, .refused, waiter⟩ }
      else some { s with
        batchMu := some i
        sends := s.sends.set i ⟨tp, rec, .locked, waiter⟩ }
    | _, _ => none
  | .enqueue i =>
    match s.sends[i]? with
    | some call => if call.phase = .locked then s.enqueue cfg i call else none
    | none => none
  | .receive i =>
    match s.sends[i]? with
    | some ⟨tp, rec, .waiting, [result]⟩ =>
      some { s with sends := s.sends.set i ⟨tp, rec, .returned result, []⟩ }
    | _ => none
  | .cancel i =>
    match s.sends[i]? with
    | some ⟨tp, rec, .waiting, waiter⟩ =>
      some { s with sends := s.sends.set i ⟨tp, rec, .canceled, waiter⟩ }
    | _ => none
  | .fire k =>
    match s.batches[k]? with
    | some pb =>
      if pb.timer = .armed then
        some { s with batches := s.batches.set k { pb with timer := .fired } }
      else none
    | none => none
  | .lingerFire k =>
    match s.batches[k]? with
    | some pb =>
      if pb.timer = .fired ∧ s.batchMu = none then some (s.lingerFire k pb) else none
    | none => none
  | .frame j =>
    match s.flushes[j]? with
    | some ⟨k, .queued⟩ =>
      match s.batches[k]? with
      | none => none
      | some pb =>
        if pb.records = [] then some (s.setFlush j k .skipped)
        else
          match produceRequest cfg crc pb.tp pb.records with
          | .error e => some (s.setFlush j k (.answering (.error e) 0))
          | .ok payload =>
            let frame := requestFrame cfg (s.nextID + 1) payload
            some { s.setFlush j k (.framed frame) with nextID := s.nextID + 1 }
    | _ => none
  | .lock j =>
    match s.flushes[j]? with
    | some ⟨k, .framed frame⟩ =>
      if s.reqMu = none then some { s.setFlush j k (.locked frame) with reqMu := some j }
      else none
    | _ => none
  | .connect j dialed =>
    match s.flushes[j]? with
    | some ⟨k, .locked frame⟩ => some (s.getConn j k frame dialed)
    | _ => none
  | .write j ok =>
    match s.flushes[j]? with
    | some ⟨k, .writing frame⟩ =>
      let failed := (s.release j k (.error .writeFrame)).closeConn
      -- The body is put together before the writer is used.
      match frame.body with
      | .error _ => some failed
      | .ok _ => some (s.deref (if ok then s.setFlush j k (.flushing frame) else failed))
    | _ => none
  | .flush j ok =>
    match s.flushes[j]? with
    | some ⟨k, .flushing frame⟩ =>
      some (s.deref (if ok then s.setFlush j k (.reading frame)
        else (s.release j k (.error .flushFrame)).closeConn))
    | _ => none
  | .read j =>
    match s.flushes[j]? with
    | some ⟨k, .reading frame⟩ => some (s.deref (s.setFlush j k (.awaiting frame)))
    | _ => none
  | .respond j resp =>
    match s.flushes[j]? with
    | some ⟨k, .awaiting frame⟩ =>
      match resp with
      | none => some (s.release j k (.error .readResponse)).closeConn
      | some respFrame =>
        let outcome := baseOffset frame.correlationID respFrame
        -- A response to another request makes the connection useless.
        if respFrame.correlationID ≠ frame.correlationID then
          some (s.release j k outcome).closeConn
        else some (s.release j k outcome)
    | _ => none
  | .answer j => s.answer j
  | .close =>
    if s.finalized then some { s with closes := s.closes ++ [.returned false] }
    else some { s with closed := true, closes := s.closes ++ [.closing (!s.closed)] }
  | .drain c =>
    match s.closes[c]?, s.batchMu with
    | some (.closing true), none =>
      let flushes := List.range' s.flushes.length s.pending.length
      some { s.flushAllPending with closes := s.closes.set c (.draining flushes) }
    | _, _ => none
  | .finalize c =>
    match s.closes[c]? with
    | some (.closing false) => some (s.finalize c false)
    | some (.draining flushes) =>
      if flushes.all fun j => (s.flushes[j]?.map s.finished).getD false then
        some (s.finalize c true)
      else none
    | _ => none

/-- Nothing happens any more in a process that has panicked. -/
def Producer.step (s : Producer) (e : ProducerEvent) : Option Producer :=
  if s.panicked then none else s.next cfg crc e

end Steps

end MiniKafka.ProducerBatches
