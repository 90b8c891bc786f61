import MiniKafka.LogContents
import MiniKafka.Runs

/-!
A partition log together with its directory.

`NewSegment` opens whatever files stand at its base offset.  The files that no segment
of the log stands for are therefore part of the state: what a removal that was cut
short has left, and files with a negative base offset, which `NewLog` passes over.
-/

namespace MiniKafka.LogDirectory

open BigEndian RecordCodec OffsetIndex SegmentStore PartitionLog LogContents

/-- The segments that `Truncate` keeps, and those it removes. -/
def kept (l : Log) (offset : Int64) : List Segment :=
  l.segments.filter fun s => decide (s.baseOffset < offset)

def doomed (l : Log) (offset : Int64) : List Segment :=
  l.segments.filter fun s => decide (offset ≤ s.baseOffset)

/-- Files at a base offset.  The `.log` file may be gone while the index is still
there. -/
structure Stray where
  baseOffset : Int64
  logFile : Option Bytes
  indexFile : Bytes
  modTime : Int
  deriving DecidableEq, Repr

/-- A log and the files beside it.  `removed` are the base offsets of segments that the
log still lists although their `.log` file is gone. -/
structure Directory where
  log : Log
  removed : List Int64
  strays : List Stray
  deriving DecidableEq, Repr

def strayAt (strays : List Stray) (base : Int64) : Option Stray :=
  strays.find? fun f => decide (f.baseOffset = base)

def vacant (strays : List Stray) (base : Int64) : Bool :=
  match strayAt strays base with
  | none => true
  | some f => (f.logFile.getD []).isEmpty && f.indexFile.isEmpty

/-- `NewSegment` at the base offset of `s`, which has been opened over no files, with
the files that stand there. -/
def adopt (strays : List Stray) (cfg : Config) (now : Int) (s : Segment) : Segment :=
  match strayAt strays s.baseOffset with
  | none => s
  | some f =>
    match newSegment s.baseOffset (f.logFile.getD []) f.indexFile f.modTime now cfg with
    | .error _ => s
    | .ok opened => opened

/-- The directory once the log is `l`: the files at the base offset of an open active
segment are its own. -/
def Directory.settle (d : Directory) (l : Log) : Directory :=
  if l.active.closed then { d with log := l }
  else
    { log := l
      removed := d.removed.filter fun base => decide (base ≠ l.active.baseOffset)
      strays := d.strays.filter fun f => decide (f.baseOffset ≠ l.active.baseOffset) }

/-- The surroundings of an append.  A `NewSegment` that fails after it has created its
`.log` file leaves that file and, with the bytes `created`, an index. -/
structure Conditions extends Surroundings where
  created : Option Bytes
  deriving DecidableEq, Repr

/-- What a rotation finds.  The files of an active segment without records stand where
the next segment is opened. -/
def Directory.standing (d : Directory) (now : Int) : List Stray :=
  let active := d.log.active
  if active.baseOffset = active.nextOffset then
    ⟨active.baseOffset, some active.writer.contents, active.index.close, now⟩ :: d.strays
  else d.strays

def Directory.rotate (d : Directory) (env : Conditions) : Log × Option LogError :=
  match d.log.rotate env.toSurroundings with
  | (l, some e) => (l, some e)
  | (l, none) =>
    ({ l with active := adopt (d.standing env.now) l.config env.now l.active }, none)

def Directory.maybeRotate (d : Directory) (env : Conditions) : Log × Option LogError :=
  if d.log.shouldRotate env.now then d.rotate env else (d.log, none)

/-- The files that a rotation leaves when it cannot open its segment. -/
def Directory.abandon (d : Directory) (env : Conditions) (e : LogError) : Directory :=
  let base := d.log.active.nextOffset
  match e, env.created with
  | .rotateOpen, some index =>
    if base = d.log.active.baseOffset then d
    else
      let found := (strayAt d.strays base).getD ⟨base, none, [], env.now⟩
      { d with
        strays :=
          { found with logFile := some (found.logFile.getD []), indexFile := index } ::
            d.strays.filter fun f => decide (f.baseOffset ≠ base) }
  | _, _ => d

def Directory.appendOne (crc : Checksum) (d : Directory) (record : Option Record)
    (env : Conditions) : Directory × Except LogError Int64 :=
  match record with
  | none => (d, .error .nilRecord)
  | some r =>
    match d.maybeRotate env with
    | (l, some e) => ((d.abandon env e).settle l, .error e)
    | (l, none) =>
      match l.active.append crc r with
      | (active, .error e) => (d.settle { l with active := active }, .error (.append e))
      | (active, .ok offset) =>
        (d.settle (Log.countAppend { l with active := active }), .ok offset)

def Directory.append (crc : Checksum) (d : Directory) (record : Option Record)
    (env : Conditions) : Directory × Int64 × Option LogError :=
  if d.log.closed then (d, 0, some .logClosed)
  else
    match d.appendOne crc record env with
    | (d, .error e) => (d, 0, some e)
    | (d, .ok offset) => (d, offset, none)

def Directory.appendLoop (crc : Checksum) :
    Option Int64 → List (Option Record × Conditions) → Directory →
      Directory × Int64 × Option LogError
  | base, [], d => (d, base.getD 0, none)
  | base, (record, env) :: rest, d =>
    match d.appendOne crc record env with
    | (d, .error e) => (d, base.getD 0, some e)
    | (d, .ok offset) => Directory.appendLoop crc (some (base.getD offset)) rest d

def Directory.appendBatch (crc : Checksum) (d : Directory)
    (records : List (Option Record × Conditions)) : Directory × Int64 × Option LogError :=
  if d.log.closed then (d, 0, some .logClosed)
  else if records = [] then (d, 0, some .emptyBatch)
  else Directory.appendLoop crc none records d

def Directory.remove (d : Directory) (s : Segment) : Directory :=
  { d with
    removed := s.baseOffset :: d.removed
    strays := d.strays.filter fun f => decide (f.baseOffset ≠ s.baseOffset) }

/-- `Segment.Remove` up to the removal of the `.log` file.  The index has been closed
and is as long as its entries. -/
def Directory.removeLog (d : Directory) (s : Segment) : Directory :=
  if d.removed.contains s.baseOffset then d
  else
    { d with
      removed := s.baseOffset :: d.removed
      strays := ⟨s.baseOffset, none, s.index.close, 0⟩ :: d.strays }

def Directory.removeAll (d : Directory) (segments : List Segment) : Directory :=
  segments.foldl Directory.remove d

/-- The first `count` of the segments are removed; where `half` is set, so is the `.log`
file of the next one. -/
def Directory.removeFirst (d : Directory) (segments : List Segment) (count : Nat) (half : Bool) :
    Directory :=
  match segments[count]? with
  | none => d.removeAll (segments.take count)
  | some s =>
    if half then (d.removeAll (segments.take count)).removeLog s
    else d.removeAll (segments.take count)

/-- Which segments the file system does not let go, and whether it is only the index
of the first of them that stays. -/
structure Removals where
  refused : Int64 → Bool
  half : Bool

def Directory.truncate (crc : Checksum) (d : Directory) (offset : Int64) (removals : Removals)
    (now : Int) : Directory × Option LogError :=
  if d.log.closed then (d, some .logClosed)
  else
    let removable := (doomed d.log offset).takeWhile fun s => !removals.refused s.baseOffset
    let after := d.removeFirst (doomed d.log offset) removable.length removals.half
    match d.log.truncate crc offset removals.refused now with
    | (l, some e) => (after.settle l, some e)
    | (l, none) =>
      if (kept d.log offset).isEmpty then
        (after.settle { l with active := adopt after.strays l.config now l.active }, none)
      else (after.settle l, none)

/-- A truncation that the process was in: the removals done. -/
structure Interrupted where
  offset : Int64
  removals : Nat
  half : Bool
  deriving DecidableEq, Repr

/-- How the process ended: the bytes of the active segment that are in its file, the
zeros after the entries of each index file, and a truncation in progress. -/
structure Ending where
  written : Nat
  padding : Int64 → Nat
  interrupted : Option Interrupted

def Directory.interrupt (d : Directory) (ending : Ending) : Directory :=
  match ending.interrupted with
  | none => d
  | some i => d.removeFirst (doomed d.log i.offset) i.removals i.half

def Directory.filesOf (d : Directory) (ending : Ending) (s : Segment) : SegmentFiles :=
  { baseOffset := s.baseOffset
    logFile :=
      if s.baseOffset = d.log.active.baseOffset then s.writer.contents.take ending.written
      else s.writer.file
    indexFile := padded s.index.entries (ending.padding s.baseOffset) }

def Stray.files (f : Stray) : Option SegmentFiles :=
  f.logFile.map fun logFile => ⟨f.baseOffset, logFile, f.indexFile⟩

def Directory.left (d : Directory) (ending : Ending) : List SegmentFiles :=
  ((d.log.segments.filter fun s => !d.removed.contains s.baseOffset).map (d.filesOf ending)) ++
    d.strays.filterMap Stray.files

def Directory.passedOver (d : Directory) (ending : Ending) (modTime : Int64 → Int) : List Stray :=
  (((d.left ending).filter fun f => decide (f.baseOffset < 0)).map fun f =>
      ⟨f.baseOffset, some f.logFile, f.indexFile, modTime f.baseOffset⟩) ++
    d.strays.filter fun f => f.logFile.isNone

def Directory.recover (crc : Checksum) (d : Directory) (ending : Ending) (modTime : Int64 → Int)
    (now : Int) : Except LogError Directory :=
  let before := d.interrupt ending
  let strays := before.passedOver ending modTime
  match newLog crc d.log.config (before.left ending) modTime now with
  | .error e => .error e
  | .ok l =>
    if (scanSegments (before.left ending)).isEmpty then
      .ok (Directory.settle ⟨l, [], strays⟩
        { l with active := adopt strays l.config now l.active })
    else .ok (Directory.settle ⟨l, [], strays⟩ l)

inductive Event where
  | append (record : Option Record) (env : Conditions)
  | appendBatch (records : List (Option Record × Conditions))
  | truncate (offset : Int64) (removals : Removals) (now : Int)
  | recover (ending : Ending) (modTime : Int64 → Int) (now : Int)

/-- The directory after an event and the error its call returns.  There is no log after
a `NewLog` that fails. -/
def Directory.outcome (crc : Checksum) (d : Directory) : Event → Option Directory × Option LogError
  | .append record env => (some (d.append crc record env).1, (d.append crc record env).2.2)
  | .appendBatch records => (some (d.appendBatch crc records).1, (d.appendBatch crc records).2.2)
  | .truncate offset removals now =>
    (some (d.truncate crc offset removals now).1, (d.truncate crc offset removals now).2)
  | .recover ending modTime now =>
    match d.recover crc ending modTime now with
    | .error e => (none, some e)
    | .ok d => (some d, none)

def next (crc : Checksum) (d : Directory) (event : Event) : Option Directory :=
  (d.outcome crc event).1

/-- A rotation opens its segment where there are no bytes or leaves no files, and there
is an offset left for the record. -/
def Directory.appendFree (d : Directory) (record : Option Record) (env : Conditions) : Bool :=
  record.isNone || (decide (OffsetsLeft d.log 1) && env.created.isNone &&
    (d.log.active.closed || env.fault.isSome || !d.log.shouldRotate env.now ||
      vacant (d.standing env.now) d.log.active.nextOffset))

def Directory.batchFree (crc : Checksum) :
    List (Option Record × Conditions) → Directory → Bool
  | [], _ => true
  | (record, env) :: rest, d =>
    d.appendFree record env &&
      match d.appendOne crc record env with
      | (_, .error _) => true
      | (d, .ok _) => Directory.batchFree crc rest d

/-- Where the event opens a segment without scanning it, there are no bytes at its base
offset. -/
def Directory.Free (crc : Checksum) (d : Directory) : Event → Bool
  | .append record env => d.appendFree record env
  | .appendBatch records => Directory.batchFree crc records d
  | .truncate offset removals _ =>
    !(kept d.log offset).isEmpty ||
      (doomed d.log offset).any (fun s => removals.refused s.baseOffset) ||
      vacant (d.removeAll (doomed d.log offset)).strays offset
  | .recover ending modTime _ =>
    !(scanSegments ((d.interrupt ending).left ending)).isEmpty ||
      vacant ((d.interrupt ending).passedOver ending modTime) 0

end MiniKafka.LogDirectory
