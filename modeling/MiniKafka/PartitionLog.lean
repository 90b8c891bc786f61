import Mathlib.Data.List.Sort
import MiniKafka.Durations
import MiniKafka.SegmentStore

/-!
The partition log of `internal/storage/log.go`.

A log is its sealed segments, oldest first, and the active segment after them.
What a call reads from outside is an argument: the clock, the modification
times of the files, and whether the file system refuses an operation.
-/

namespace MiniKafka.PartitionLog

open BinarySearch Durations RecordCodec SegmentStore

inductive LogError where
  | logClosed
  | emptyBatch
  | nilRecord
  | offsetOutOfRange
  | append (e : SegmentError)
  | flushForRead (e : SegmentError)
  | read (e : SegmentError)
  | readFrom (e : SegmentError)
  | rotateFlush (e : SegmentError)
  | rotateSync
  | rotateOpen
  | openSegment (e : SegmentError)
  | recover (e : SegmentError)
  | truncateRemove (base : Int64)
  | truncateRebuild (base : Int64) (e : SegmentError)
  deriving DecidableEq, Repr

/-- An operation of the file system that can fail while a segment is rotated:
syncing the outgoing segment, or opening the files of the incoming one. -/
inductive RotationFault where
  | sync
  | openFiles
  deriving DecidableEq, Repr

structure Surroundings where
  now : Int
  fault : Option RotationFault
  deriving DecidableEq, Repr

structure Log where
  config : Config
  sealed : List Segment
  active : Segment
  activeCreatedAt : Int
  messagesSinceFlush : Int64
  lastFlush : Int
  closed : Bool
  deriving DecidableEq, Repr

def Log.segments (l : Log) : List Segment := l.sealed ++ [l.active]

def Log.lowestOffset (l : Log) : Int64 :=
  if l.closed then 0
  else match l.sealed with
    | [] => l.active.baseOffset
    | s :: _ => s.baseOffset

def Log.highestOffset (l : Log) : Int64 := if l.closed then 0 else l.active.nextOffset

/-- `scanBaseOffsets`: the segments of a directory by base offset.  Negative
base offsets are ignored. -/
def scanSegments (dir : List SegmentFiles) : List SegmentFiles :=
  (dir.filter fun f => decide (0 ≤ f.baseOffset)).insertionSort
    fun f g => f.baseOffset.toInt ≤ g.baseOffset.toInt

def openSegments (cfg : Config) (modTime : Int64 → Int) (now : Int) :
    List SegmentFiles → Except LogError (List Segment)
  | [] => return []
  | f :: rest => do
    let s ← (newSegment f.baseOffset f.logFile f.indexFile (modTime f.baseOffset) now
      cfg).mapError .openSegment
    let segments ← openSegments cfg modTime now rest
    return s :: segments

/-- `NewLog` on a directory.  Only the active segment, the last one, is
scanned. -/
def newLog (crc : Checksum) (cfg : Config) (dir : List SegmentFiles) (modTime : Int64 → Int)
    (now : Int) : Except LogError Log :=
  let cfg := cfg.withDefaults
  match openSegments cfg modTime now (scanSegments dir) with
  | .error e => .error e
  | .ok segments =>
    match segments.getLast? with
    | none =>
      match newSegment 0 [] [] now now cfg with
      | .error e => .error (.openSegment e)
      | .ok active => .ok
          { config := cfg, sealed := [], active := active, activeCreatedAt := now,
            messagesSinceFlush := 0, lastFlush := now, closed := false }
    | some last =>
      match rebuildSegment crc last (-1) with
      | .error e => .error (.recover e)
      | .ok active => .ok
          { config := cfg, sealed := segments.dropLast, active := active,
            activeCreatedAt := now, messagesSinceFlush := 0, lastFlush := now,
            closed := false }

def Log.close (l : Log) : Log × List SegmentFiles :=
  ({ l with closed := true }, l.segments.map Segment.files)

/-- `shouldRotateLocked`.  Age only counts once the active segment has a
record. -/
def Log.shouldRotate (l : Log) (now : Int) : Bool :=
  l.active.isFull ||
    (decide (0 < l.config.segmentMs) && decide (l.active.baseOffset < l.active.nextOffset) &&
      decide (milliseconds l.config.segmentMs ≤ elapsed now l.activeCreatedAt))

/-- `rotateLocked`: seal the active segment and open one at its next offset. -/
def Log.rotate (l : Log) (env : Surroundings) : Log × Option LogError :=
  match l.active.flush with
  | .error e => (l, some (.rotateFlush e))
  | .ok flushed =>
    if env.fault = some .sync then ({ l with active := flushed }, some .rotateSync)
    else
      let outgoing := { flushed with index := flushed.index.seal }
      if env.fault = some .openFiles then ({ l with active := outgoing }, some .rotateOpen)
      else
        match newSegment outgoing.nextOffset [] [] env.now env.now l.config with
        | .error e => ({ l with active := outgoing }, some (.openSegment e))
        | .ok incoming =>
          ({ l with
              sealed := l.sealed ++ [outgoing]
              active := incoming
              activeCreatedAt := env.now
              messagesSinceFlush := 0 }, none)

def Log.maybeRotate (l : Log) (env : Surroundings) : Log × Option LogError :=
  if l.shouldRotate env.now then l.rotate env else (l, none)

def Log.flushActive (l : Log) : Log :=
  match l.active.flush with
  | .error _ => l
  | .ok flushed => { l with active := flushed }

def Log.countAppend (l : Log) : Log :=
  if 0 < l.config.flushMessages then
    let count := l.messagesSinceFlush + 1
    if l.config.flushMessages ≤ count then { l.flushActive with messagesSinceFlush := 0 }
    else { l with messagesSinceFlush := count }
  else l

/-- What `Append` and one round of `AppendBatch` do with a record that may be
nil, once the log is known to be open. -/
def Log.appendOne (crc : Checksum) (l : Log) (record : Option Record) (env : Surroundings) :
    Log × Except LogError Int64 :=
  match record with
  | none => (l, .error .nilRecord)
  | some r =>
    match l.maybeRotate env with
    | (l, some e) => (l, .error e)
    | (l, none) =>
      match l.active.append crc r with
      | (active, .error e) => ({ l with active := active }, .error (.append e))
      | (active, .ok offset) => (Log.countAppend { l with active := active }, .ok offset)

/-- `Append`: the value returned and the error, as the source returns both. -/
def Log.append (crc : Checksum) (l : Log) (record : Option Record) (env : Surroundings) :
    Log × Int64 × Option LogError :=
  if l.closed then (l, 0, some .logClosed)
  else
    match l.appendOne crc record env with
    | (l, .error e) => (l, 0, some e)
    | (l, .ok offset) => (l, offset, none)

/-- The loop of `AppendBatch`.  `base` is the offset of the first record once
there is one. -/
def Log.appendLoop (crc : Checksum) :
    Option Int64 → List (Option Record × Surroundings) → Log → Log × Int64 × Option LogError
  | base, [], l => (l, base.getD 0, none)
  | base, (record, env) :: rest, l =>
    match l.appendOne crc record env with
    | (l, .error e) => (l, base.getD 0, some e)
    | (l, .ok offset) => Log.appendLoop crc (some (base.getD offset)) rest l

def Log.appendBatch (crc : Checksum) (l : Log) (records : List (Option Record × Surroundings)) :
    Log × Int64 × Option LogError :=
  if l.closed then (l, 0, some .logClosed)
  else if records = [] then (l, 0, some .emptyBatch)
  else Log.appendLoop crc none records l

/-- `AppendBatch` of records none of which is nil, the `i`-th of them appended in
the surroundings `env i`. -/
def Log.appendRecords (crc : Checksum) (l : Log) (records : List Record)
    (env : Nat → Surroundings) : Log × Int64 × Option LogError :=
  l.appendBatch crc (records.mapIdx fun i r => (some r, env i))

/-- `findSegmentLocked`: the place in the list of the segment with the largest
base offset that is not above `offset`. -/
def Log.findSegment (l : Log) (offset : Int64) : Option Nat :=
  if offset < l.lowestOffset then none
  else
    let idx := search l.segments.length fun i =>
      decide (offset < (l.segments.getD i l.active).baseOffset)
    if idx = 0 then none else some (idx - 1)

def readable (isActive : Bool) (s : Segment) : Except SegmentError Segment :=
  if isActive then s.flush else .ok s

/-- `Read`.  Apart from flushing the active segment a read leaves the log as
it is, so only its result is returned; likewise for `readFrom`. -/
def Log.read (crc : Checksum) (l : Log) (offset : Int64) : Except LogError Record :=
  if l.closed then .error .logClosed
  else if offset < l.lowestOffset then .error .offsetOutOfRange
  else
    match l.findSegment offset with
    | none => .error .offsetOutOfRange
    | some i =>
      match readable (decide (i = l.sealed.length)) (l.segments.getD i l.active) with
      | .error e => .error (.flushForRead e)
      | .ok s =>
        match s.read crc offset with
        | .error e => .error (.read e)
        | .ok r => .ok r

/-- The loop of `ReadFrom` over the segments not yet visited, with the records
collected and the bytes accumulated so far. -/
def readFromLoop (crc : Checksum) (maxBytes : Int32) :
    List Segment → Int64 → List Record → Int32 → List Record × Option LogError
  | [], _, out, _ => (out, none)
  | s :: rest, offset, out, accumulated =>
    let next := match rest with
      | [] => -1
      | t :: _ => t.baseOffset
    if 0 ≤ next ∧ next ≤ offset then readFromLoop crc maxBytes rest offset out accumulated
    else if offset < s.baseOffset then (out, none)
    else
      match readable rest.isEmpty s with
      | .error e => (out, some (.flushForRead e))
      | .ok s =>
        match s.readFrom crc offset (maxBytes - accumulated) with
        | (_, some e) => (out, some (.readFrom e))
        | (records, none) =>
          let out := out ++ records
          let accumulated := records.foldl
            (fun acc r => acc + Int32.ofNat r.encodedSize) accumulated
          if maxBytes ≤ accumulated then (out, none)
          else if s.nextOffset ≤ offset then (out, none)
          else readFromLoop crc maxBytes rest s.nextOffset out accumulated

/-- `ReadFrom`: the records read and the error that cut them short. -/
def Log.readFrom (crc : Checksum) (l : Log) (offset : Int64) (maxBytes : Int32) :
    List Record × Option LogError :=
  if l.closed then ([], some .logClosed)
  else if maxBytes ≤ 0 then ([], none)
  else if offset < l.lowestOffset then ([], some .offsetOutOfRange)
  else readFromLoop crc maxBytes l.segments offset [] 0

/-- The removals of `Truncate` in list order: the base offset of the first
segment that cannot be removed. -/
def firstRefused (offset : Int64) (refused : Int64 → Bool) (segments : List Segment) :
    Option Int64 :=
  ((segments.filter fun s => decide (offset ≤ s.baseOffset)).find?
    fun s => refused s.baseOffset).map Segment.baseOffset

/-- `Truncate`.  `refused` says which segments the file system does not let go;
the first of them ends the call, with every segment tried so far closed. -/
def Log.truncate (crc : Checksum) (l : Log) (offset : Int64) (refused : Int64 → Bool)
    (now : Int) : Log × Option LogError :=
  if l.closed then (l, some .logClosed)
  else
    match firstRefused offset refused l.segments with
    | some base =>
      let closeTried := fun s : Segment =>
        if offset ≤ s.baseOffset ∧ s.baseOffset ≤ base then s.close else s
      ({ l with sealed := l.sealed.map closeTried, active := closeTried l.active },
        some (.truncateRemove base))
    | none =>
      let kept := l.segments.filter fun s => decide (s.baseOffset < offset)
      match kept.getLast? with
      | none =>
        match newSegment offset [] [] now now l.config with
        | .error e => (l, some (.openSegment e))
        | .ok active =>
          ({ l with
              sealed := []
              active := active
              activeCreatedAt := now
              messagesSinceFlush := 0 }, none)
      | some last =>
        match rebuildSegment crc last offset with
        | .error e =>
          ({ l with sealed := kept.dropLast, active := last },
            some (.truncateRebuild last.baseOffset e))
        | .ok active =>
          ({ l with
              sealed := kept.dropLast
              active := active
              activeCreatedAt := now
              messagesSinceFlush := 0 }, none)

/-- What retention does to the segment list when it deletes the oldest
`count` segments; the active segment always stays. -/
def Log.deleteOldest (l : Log) (count : Nat) : Log := { l with sealed := l.sealed.drop count }

/-- The zero `time.Time`, on a clock that counts from 1970. -/
def zeroTime : Int := -62135596800000000000

/-- The age test of `runRetention` for a sealed segment. -/
def Log.expired (l : Log) (now : Int) (s : Segment) : Bool :=
  decide (0 < l.config.retentionMs) && decide (s.createdAt ≠ zeroTime) &&
    decide (milliseconds l.config.retentionMs ≤ elapsed now s.createdAt)

/-- The loop over the sealed segments by age.  A segment that the file system
does not let go is kept, although it is closed. -/
def Log.dropExpired (l : Log) (now : Int) (refused : Int64 → Bool) : List Segment :=
  l.sealed.filterMap fun s =>
    if l.expired now s then (if refused s.baseOffset then some s.close else none) else some s

def totalSize (segments : List Segment) : Int64 :=
  segments.foldl (fun total s => total + Int64.ofNat s.bytesWritten) 0

/-- The loop over the sealed segments by size, from the oldest on. -/
def dropOversize (retentionBytes : Int64) (refused : Int64 → Bool) :
    Int64 → List Segment → List Segment
  | _, [] => []
  | total, oldest :: rest =>
    if retentionBytes < total then
      if refused oldest.baseOffset then oldest.close :: rest
      else dropOversize retentionBytes refused (total - Int64.ofNat oldest.bytesWritten) rest
    else oldest :: rest

/-- `runRetention`.  A segment may be tried by age and again by size, so each pass
has the segments that the file system does not let go. -/
def Log.runRetentionPasses (l : Log) (now : Int) (refusedByAge refusedBySize : Int64 → Bool) : Log :=
  if l.closed ∨ l.sealed = [] then l
  else
    let kept := l.dropExpired now refusedByAge
    if 0 < l.config.retentionBytes then
      { l with
        sealed := dropOversize l.config.retentionBytes refusedBySize
          (totalSize (kept ++ [l.active])) kept }
    else { l with sealed := kept }

def Log.runRetention (l : Log) (now : Int) (refused : Int64 → Bool) : Log :=
  l.runRetentionPasses now refused refused

def Log.runFlush (l : Log) (now : Int) : Log :=
  if l.closed then l
  else if l.config.flushMs ≤ 0 then l
  else if elapsed now l.lastFlush < milliseconds l.config.flushMs then l
  else { l.flushActive with messagesSinceFlush := 0, lastFlush := now }

def emptyLog : Log :=
  { config := smallConfig, sealed := [], active := emptySegment, activeCreatedAt := 0,
    messagesSinceFlush := 0, lastFlush := 0, closed := false }

end MiniKafka.PartitionLog
