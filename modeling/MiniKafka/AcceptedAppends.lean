import MiniKafka.IndexArithmetic

/-!
Directories whose log takes every record that can be encoded.

An index that was left alone has entries of records that are gone.  A segment that is
opened over it takes records all the same, as long as the index has room for another
entry.
-/

namespace MiniKafka.AcceptedAppends

open BigEndian RecordCodec OffsetIndex SegmentStore SegmentContents SegmentWrites PartitionLog
  LogContents LogWrites ExactIndexes LogDirectory IndexArithmetic

/-- The error that stops one append after another. -/
def appends (crc : Checksum) : List (Record × Conditions) → Directory → Option LogError
  | [], _ => none
  | (r, env) :: rest, d =>
    match d.append crc (some r) env with
    | (_, _, some e) => some e
    | (d, _, none) => appends crc rest d

def Roomy (cfg : Config) (indexFile : Bytes) : Prop :=
  indexFile.length + entrySize ≤ indexCapacity cfg.indexMaxBytes

/-- A segment without bytes that takes the record at `base`. -/
structure Opened (cfg : Config) (base : Int64) (s : Segment) : Prop where
  baseOffset : s.baseOffset = base
  nextOffset : s.nextOffset = base
  isOpen : s.closed = false
  contents : s.writer.contents = []
  bytesWritten : s.bytesWritten = 0
  maxBytes : s.maxBytes = cfg.segmentBytes
  room : HasRoom s.index

/-- The active segment is open, and the strays are indexes with room or lie behind. -/
structure Accepting (cfg : Config) (d : Directory) : Prop where
  isOpen : d.log.closed = false
  config : d.log.config = cfg
  active : d.log.active.closed = false
  mapped : d.log.active.index.mapped = true
  maxBytes : d.log.active.maxBytes = cfg.segmentBytes
  ordered : d.log.active.baseOffset.toInt ≤ d.log.active.nextOffset.toInt
  fresh : d.log.active.baseOffset = d.log.active.nextOffset → d.log.active.isFull = false
  strays : ∀ f ∈ d.strays, f.logFile = none ∧
    (Roomy cfg f.indexFile ∨ f.baseOffset.toInt < d.log.active.nextOffset.toInt)

section

variable {crc : Checksum} {cfg : Config} {d : Directory} {l : Log}

theorem Opened.isFull (hcfg : ValidConfig cfg) {base : Int64} {s : Segment}
    (h : Opened cfg base s) : s.isFull = false := by
  have hpos := withDefaults_segmentBytes_pos cfg
  have hroom := h.room.1
  rw [hcfg.defaults, ← h.maxBytes] at hpos
  simp [Segment.isFull, h.isOpen, h.bytesWritten]
  omega

theorem Opened.accepting (hcfg : ValidConfig cfg) {base : Int64} (hopen : d.log.closed = false)
    (hconfig : d.log.config = cfg) (h : Opened cfg base d.log.active)
    (hstrays : ∀ f ∈ d.strays, f.logFile = none ∧ Roomy cfg f.indexFile) : Accepting cfg d where
  isOpen := hopen
  config := hconfig
  active := h.isOpen
  mapped := h.room.2
  maxBytes := h.maxBytes
  ordered := (congrArg Int64.toInt (h.baseOffset.trans h.nextOffset.symm)).le
  fresh := fun _ => h.isFull hcfg
  strays := fun f hf => (hstrays f hf).imp_right .inl

end

end MiniKafka.AcceptedAppends
