import MiniKafka.BufferedWriter
import MiniKafka.OffsetIndex
import MiniKafka.RecordCodec

/-!
Segments, from `internal/storage/segment.go`, and `rebuildSegment` of
`internal/storage/log.go`.

A segment owns its two files, so the bytes on disk are part of its state: the
`.log` file sits behind the buffered writer and the `.index` file behind the
mapped index.  File operations succeed; every failure the code decides itself
is an error value.
-/

namespace MiniKafka.SegmentStore

open BigEndian ReadLoop BufferedWriter RecordCodec OffsetIndex

structure Config where
  segmentBytes : Int64
  indexMaxBytes : Int64
  indexIntervalBytes : Int64
  retentionMs : Int64
  retentionBytes : Int64
  flushMs : Int64
  flushMessages : Int64
  segmentMs : Int64
  deriving DecidableEq, Repr

def defaultSegmentBytes : Int64 := 128 * 1024 * 1024
def defaultIndexMaxBytes : Int64 := 10 * 1024 * 1024
def defaultIndexIntervalBytes : Int64 := 4096
def defaultRetentionMs : Int64 := 7 * 24 * 60 * 60 * 1000
def defaultRetentionBytes : Int64 := -1
def defaultFlushMs : Int64 := 1000
def defaultFlushMessages : Int64 := 0
def defaultSegmentMs : Int64 := 7 * 24 * 60 * 60 * 1000

def Config.withDefaults (c : Config) : Config where
  segmentBytes := if c.segmentBytes ≤ 0 then defaultSegmentBytes else c.segmentBytes
  indexMaxBytes := if c.indexMaxBytes ≤ 0 then defaultIndexMaxBytes else c.indexMaxBytes
  indexIntervalBytes :=
    if c.indexIntervalBytes ≤ 0 then defaultIndexIntervalBytes else c.indexIntervalBytes
  retentionMs := if c.retentionMs = 0 then defaultRetentionMs else c.retentionMs
  retentionBytes := if c.retentionBytes = 0 then defaultRetentionBytes else c.retentionBytes
  flushMs := if c.flushMs = 0 then defaultFlushMs else c.flushMs
  flushMessages := if c.flushMessages < 0 then defaultFlushMessages else c.flushMessages
  segmentMs := if c.segmentMs = 0 then defaultSegmentMs else c.segmentMs

inductive SegmentError where
  | segmentClosed
  | offsetOutOfRange
  | positionOutOfRange
  | encode (e : EncodeError)
  | index (e : IndexError)
  | decode (e : DecodeError)
  | notFound (target : Int64)
  deriving DecidableEq, Repr

/-- Times are nanoseconds on one clock. -/
structure Segment where
  baseOffset : Int64
  nextOffset : Int64
  writer : Writer
  index : Index
  maxBytes : Int64
  indexInterval : Int64
  bytesWritten : Nat
  bytesSinceLastIndex : Nat
  createdAt : Int
  closed : Bool
  deriving DecidableEq, Repr

def writerSize : Nat := 256 * 1024

def maxUint32 : Nat := 4294967295

def relativeOffset (offset base : Int64) : UInt32 := (offset - base).toUInt64.toUInt32

/-- `NewSegment` over the current contents of the two files.  `modTime` is the
modification time of the `.log` file, used when the file is not empty. -/
def newSegment (base : Int64) (logFile indexFile : Bytes) (modTime now : Int)
    (cfg : Config) : Except SegmentError Segment :=
  let cfg := cfg.withDefaults
  match newIndex indexFile cfg.indexMaxBytes with
  | .error e => .error (.index e)
  | .ok index => .ok
      { baseOffset := base
        nextOffset := base
        writer := openAtEnd logFile
        index := index
        maxBytes := cfg.segmentBytes
        indexInterval := cfg.indexIntervalBytes
        bytesWritten := logFile.length
        bytesSinceLastIndex := 0
        createdAt := if 0 < logFile.length then modTime else now
        closed := false }

/-- `Segment.Append`.  The state is returned on failure as well: an index that
refuses its entry leaves the encoded bytes behind. -/
def Segment.append (crc : Checksum) (s : Segment) (r : Record) :
    Segment × Except SegmentError Int64 :=
  if s.closed then (s, .error .segmentClosed)
  else if maxUint32 < s.bytesWritten then (s, .error .positionOutOfRange)
  else
    let offset := s.nextOffset
    let position := UInt32.ofNat s.bytesWritten
    match Record.encode crc { r with offset := offset } with
    | .error e => (s, .error (.encode e))
    | .ok image =>
      let written :=
        { s with
          writer := s.writer.write writerSize image
          bytesWritten := s.bytesWritten + image.length
          bytesSinceLastIndex := s.bytesSinceLastIndex + image.length }
      if written.index.entries.length = 0 ∨
          written.indexInterval.toInt ≤ written.bytesSinceLastIndex then
        match written.index.append (relativeOffset offset s.baseOffset) position with
        | .error e => (written, .error (.index e))
        | .ok index =>
          ({ written with
              index := index
              bytesSinceLastIndex := 0
              nextOffset := offset + 1 }, .ok offset)
      else ({ written with nextOffset := offset + 1 }, .ok offset)

def Segment.readHandle (s : Segment) : Bytes := s.writer.file.take s.bytesWritten

def scanFromBody (target : Int64) (_ : Option Record) (r : Record) (_ : Nat) :
    Flow (Option Record) :=
  if r.offset = target then .stop (some r)
  else if target < r.offset then .stop none
  else .next none

def Segment.scanFrom (crc : Checksum) (s : Segment) (position : Nat) (target : Int64) :
    Except SegmentError Record :=
  match readLoop (decodeRecord crc) (scanFromBody target) (s.readHandle.drop position) none with
  | (some r, _) => .ok r
  | (none, none) => .error (.notFound target)
  | (none, some e) =>
    if e.isEnd then .error (.notFound target) else .error (.decode e)

def Segment.readAt (crc : Checksum) (s : Segment) (position : Nat) (target : Int64) :
    Except SegmentError Record :=
  match decodeRecord crc (s.readHandle.drop position) with
  | .error e =>
    if e.isEnd then .error (.notFound target) else .error (.decode e)
  | .ok (r, _) =>
    if r.offset ≠ target then s.scanFrom crc position target else .ok r

def Segment.read (crc : Checksum) (s : Segment) (offset : Int64) :
    Except SegmentError Record :=
  if s.closed then .error .segmentClosed
  else if offset < s.baseOffset then .error .offsetOutOfRange
  else
    match s.index.lookup (relativeOffset offset s.baseOffset) with
    | .error e => .error (.index e)
    | .ok (position, found) =>
      if found then s.readAt crc position.toNat offset
      else s.scanFrom crc position.toNat offset

/-- One round of the loop of `Segment.ReadFrom`: skip records below `offset`,
then take records until the next one would exceed the budget.  The first
record is taken whatever its size. -/
def readFromBody (offset : Int64) (maxBytes : Int32) (st : List Record × Int32)
    (r : Record) (n : Nat) : Flow (List Record × Int32) :=
  if r.offset < offset then .next st
  else if 0 < st.2 ∧ maxBytes < st.2 + Int32.ofNat n then .stop st
  else .next (st.1 ++ [r], st.2 + Int32.ofNat n)

/-- `Segment.ReadFrom`: the records read and the error that cut them short. -/
def Segment.readFrom (crc : Checksum) (s : Segment) (offset : Int64) (maxBytes : Int32) :
    List Record × Option SegmentError :=
  if s.closed then ([], some .segmentClosed)
  else if maxBytes ≤ 0 then ([], none)
  else if offset < s.baseOffset then ([], some .offsetOutOfRange)
  else
    match s.index.lookup (relativeOffset offset s.baseOffset) with
    | .error e => ([], some (.index e))
    | .ok (position, _) =>
      match readLoop (decodeRecord crc) (readFromBody offset maxBytes)
        (s.readHandle.drop position.toNat) ([], 0) with
      | ((records, _), none) => (records, none)
      | ((records, _), some e) =>
        if e.isEnd then (records, none) else (records, some (.decode e))

def Segment.isFull (s : Segment) : Bool :=
  s.closed || decide (s.maxBytes.toInt ≤ s.bytesWritten) ||
    decide (s.index.maxSize < s.index.size + entrySize)

/-- `Flush` and `FlushWriter`; the model does not tell the file from the
device it is synced to. -/
def Segment.flush (s : Segment) : Except SegmentError Segment :=
  if s.closed then .error .segmentClosed else .ok { s with writer := s.writer.flush }

def Segment.close (s : Segment) : Segment :=
  { s with closed := true, writer := s.writer.flush }

structure SegmentFiles where
  baseOffset : Int64
  logFile : Bytes
  indexFile : Bytes
  deriving DecidableEq, Repr

def Segment.files (s : Segment) : SegmentFiles :=
  ⟨s.baseOffset, s.writer.flush.file, s.index.close⟩

def rebuildBody (stopOffset : Int64) (st : Segment × Option IndexError) (r : Record)
    (n : Nat) : Flow (Segment × Option IndexError) :=
  let s := st.1
  let pos := s.bytesWritten
  if 0 ≤ stopOffset ∧ stopOffset ≤ r.offset then .stop st
  else
    let counted :=
      { s with
        bytesWritten := s.bytesWritten + n
        bytesSinceLastIndex := s.bytesSinceLastIndex + n }
    if counted.index.entries.length = 0 ∨
        counted.indexInterval.toInt ≤ counted.bytesSinceLastIndex then
      match counted.index.append (relativeOffset r.offset s.baseOffset) (UInt32.ofNat pos) with
      | .error e => .stop (counted, some e)
      | .ok index =>
        .next ({ counted with
            index := index
            bytesSinceLastIndex := 0
            nextOffset := r.offset + 1 }, none)
    else .next ({ counted with nextOffset := r.offset + 1 }, none)

/-- `rebuildSegment`: recreate the index from the `.log` file and cut the file
at the first record that does not decode or, when `stopOffset` is not
negative, at the first record at or beyond it. -/
def rebuildSegment (crc : Checksum) (s : Segment) (stopOffset : Int64) :
    Except SegmentError Segment :=
  if s.closed then .error .segmentClosed
  else
    let file := s.writer.flush.file
    match newIndex [] (Int64.ofNat s.index.maxSize) with
    | .error e => .error (.index e)
    | .ok index =>
      let start :=
        { s with
          writer := openAtEnd file
          index := index
          bytesWritten := 0
          bytesSinceLastIndex := 0
          nextOffset := s.baseOffset }
      match (readLoop (decodeRecord crc) (rebuildBody stopOffset) file (start, none)).1 with
      | (_, some e) => .error (.index e)
      | (scanned, none) =>
        .ok { scanned with writer := openAtEnd (file.take scanned.bytesWritten) }

/-- A configuration with segments of two small records and an index of eight
entries. -/
def smallConfig : Config :=
  { segmentBytes := 60, indexMaxBytes := 64, indexIntervalBytes := 4096, retentionMs := -1,
    retentionBytes := -1, flushMs := -1, flushMessages := 0, segmentMs := -1 }

def bareRecord (timestamp : Int64) : Record := ⟨0, timestamp, 0, none, none⟩

def emptySegment : Segment :=
  { baseOffset := 0, nextOffset := 0, writer := openAtEnd [], index := ⟨[], 64, true⟩,
    maxBytes := 60, indexInterval := 4096, bytesWritten := 0, bytesSinceLastIndex := 0,
    createdAt := 0, closed := false }

end MiniKafka.SegmentStore
