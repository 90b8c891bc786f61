import MiniKafka.LastWrite
import MiniKafka.PartitionLog

/-!
The committed offsets of `internal/coordinator/offsets.go`.

A store keeps its offsets in a map by one key per group, topic and partition,
and appends every change to one of its logs, which the group picks.  Starting
a store reads all its logs back into the map.
-/

namespace MiniKafka.CommittedOffsets

open BigEndian LastWrite RecordCodec SegmentStore PartitionLog

def digits (n : Nat) : Bytes := (Nat.toDigits 10 n).map fun c => UInt8.ofNat c.toNat

def decimal : Int → Bytes
  | .ofNat n => digits n
  | .negSucc n => 45 :: digits (n + 1)

def colon : UInt8 := 58

def commitKey (groupID topic : Bytes) (partition : Int32) : Bytes :=
  groupID ++ colon :: (topic ++ colon :: decimal partition.toInt)

def fnv32a (bs : Bytes) : UInt32 :=
  bs.foldl (fun h b => (h ^^^ b.toUInt32) * 16777619) 2166136261

def topicNameByte (b : UInt8) : Bool :=
  (97 ≤ b && b ≤ 122) || (65 ≤ b && b ≤ 90) || (48 ≤ b && b ≤ 57) || b = 46 || b = 95 || b = 45

def maxTopicNameLen : Nat := 249

/-- `validateTopicName`.  The names it lets through have no path separator, so
its last check, of the path made from the name, has nothing left to refuse. -/
def validTopicName (name : Bytes) : Bool :=
  decide (name ≠ []) && decide (name ≠ [46]) && decide (name ≠ [46, 46]) &&
    decide (name.length ≤ maxTopicNameLen) && name.all topicNameByte

def offsetsConfig : Config where
  segmentBytes := 10 * 1024 * 1024
  indexMaxBytes := 1024 * 1024
  indexIntervalBytes := 4096
  retentionMs := -1
  retentionBytes := -1
  flushMs := 1000
  flushMessages := 0
  segmentMs := 0

/-- The number of logs is an `int` in the source.  Its low 32 bits are a
divisor, so the model keeps to the counts that fit a 32-bit integer. -/
structure OffsetStore where
  cache : Bytes → Option Int64
  numParts : Nat
  logs : List Log
  started : Bool

def newOffsetStore (numPartitions : Int32) : OffsetStore where
  cache := fun _ => none
  numParts := if numPartitions ≤ 0 then 50 else numPartitions.toNatClampNeg
  logs := []
  started := false

/-- The change to the map a record stands for, if it has a key and eight bytes
of value. -/
def restorable (r : Record) : Option (Bytes × Int64) :=
  match r.key, r.value with
  | some key, some value =>
    if key = [] ∨ value.length < 8 then none
    else some (key, (getUint64 (value.take 8)).toInt64)
  | _, _ => none

def writesOf (records : List Record) : List (Bytes × Int64) := records.filterMap restorable

def replayBytes : Int32 := 1073741824

/-- The loop of `Start` that reads one log back.  It gives up after `fuel`
rounds, which is `none`. -/
def replayLoop (crc : Checksum) (l : Log) :
    Nat → Int64 → (Bytes → Option Int64) → Option (Bytes → Option Int64)
  | 0, _, _ => none
  | fuel + 1, offset, cache =>
    match l.readFrom crc offset replayBytes with
    | (_, some _) => some cache
    | (records, none) =>
      match records.getLast? with
      | none => some cache
      | some last =>
        replayLoop crc l fuel (last.offset + 1) (overwrite cache (writesOf records))

/-- Every round but the last reads a record, so there are no more rounds than
offsets. -/
def replay (crc : Checksum) (l : Log) (cache : Bytes → Option Int64) :
    Option (Bytes → Option Int64) :=
  replayLoop crc l (l.highestOffset.toNatClampNeg + 1) 0 cache

inductive StartError where
  | openLog (i : Nat) (e : LogError)
  deriving DecidableEq, Repr

/-- What `Start` and `Close` meet on disk: the files of each log, their
modification times, and the clock when the log is opened. -/
structure Directory where
  files : Nat → List SegmentFiles
  modTime : Nat → Int64 → Int
  now : Nat → Int

def OffsetStore.openLogs (crc : Checksum) (dir : Directory) :
    Nat → OffsetStore → Option (OffsetStore × Option StartError)
  | 0, s => some ({ s with started := true }, none)
  | n + 1, s =>
    let i := s.logs.length
    match newLog crc offsetsConfig (dir.files i) (dir.modTime i) (dir.now i) with
    -- the logs opened before are closed again; the map keeps what was read from them
    | .error e => some ({ s with logs := [] }, some (.openLog i e))
    | .ok l =>
      match replay crc l s.cache with
      | none => none
      | some cache => openLogs crc dir n { s with logs := s.logs ++ [l], cache := cache }

/-- `Start`.  `none` stands for a replay that does not end. -/
def OffsetStore.start (crc : Checksum) (s : OffsetStore) (dir : Directory) :
    Option (OffsetStore × Option StartError) :=
  if s.started then some (s, none) else OffsetStore.openLogs crc dir s.numParts { s with logs := [] }

def OffsetStore.partitionFor (s : OffsetStore) (groupID : Bytes) : Nat :=
  (fnv32a groupID % UInt32.ofNat s.numParts).toNat

/-- What `Commit` remembers between its critical sections: the value it has
replaced, and the log it is going to append to. -/
structure Staged where
  key : Bytes
  offset : Int64
  old : Option Int64
  log : Option Nat
  deriving DecidableEq, Repr

/-- The first critical section of `Commit`. -/
def OffsetStore.stage (s : OffsetStore) (groupID topic : Bytes) (partition : Int32)
    (offset : Int64) : OffsetStore × Staged :=
  let key := commitKey groupID topic partition
  let partIdx := s.partitionFor groupID
  ({ s with cache := Function.update s.cache key (some offset) },
    { key := key
      offset := offset
      old := s.cache key
      log := if s.started ∧ partIdx < s.logs.length then some partIdx else none })

def Staged.record (c : Staged) (timestamp : Int64) : Record where
  offset := 0
  timestamp := timestamp
  attributes := 0
  key := some c.key
  value := some (putUint64 c.offset.toUInt64)

/-- The append of `Commit`.  A log that is gone was closed in the meantime. -/
def OffsetStore.persist (crc : Checksum) (s : OffsetStore) (i : Nat) (r : Record)
    (env : Surroundings) : OffsetStore × Option LogError :=
  match s.logs[i]? with
  | none => (s, some .logClosed)
  | some l =>
    match l.append crc (some r) env with
    | (l, _, error) => ({ s with logs := s.logs.set i l }, error)

/-- The second critical section of `Commit`, after an append that failed. -/
def OffsetStore.rollback (s : OffsetStore) (c : Staged) : OffsetStore :=
  { s with cache := Function.update s.cache c.key c.old }

/-- `Commit` without others in between.  The error of the append is returned
here; the source drops it. -/
def OffsetStore.commit (crc : Checksum) (s : OffsetStore) (groupID topic : Bytes)
    (partition : Int32) (offset timestamp : Int64) (env : Surroundings) :
    OffsetStore × Option LogError :=
  match s.stage groupID topic partition offset with
  | (s, c) =>
    match c.log with
    | none => (s, none)
    | some i =>
      match s.persist crc i (c.record timestamp) env with
      | (s, none) => (s, none)
      | (s, some e) => (s.rollback c, some e)

def OffsetStore.fetch (s : OffsetStore) (groupID topic : Bytes) (partition : Int32) : Int64 :=
  (s.cache (commitKey groupID topic partition)).getD (-1)

def OffsetStore.close (s : OffsetStore) (files : Nat → List SegmentFiles) :
    OffsetStore × (Nat → List SegmentFiles) :=
  if s.started then
    ({ s with logs := [], started := false },
      fun i => match s.logs[i]? with
        | none => files i
        | some l => l.close.2)
  else (s, files)

def OffsetStore.tick (s : OffsetStore) (i : Nat) (now : Int) : OffsetStore :=
  { s with logs := s.logs.modify i fun l => l.runFlush now }

theorem digit_range {b : UInt8} {n : Nat} (hb : b ∈ digits n) : 48 ≤ b.toNat ∧ b.toNat ≤ 57 := by
  obtain ⟨c, hc, rfl⟩ := List.mem_map.mp hb
  have hdigit := Nat.isDigit_of_mem_toDigits (by decide) le_rfl hc
  rw [Char.isDigit_iff_toNat] at hdigit
  rw [UInt8.toNat_ofNat']
  have h0 : '0'.toNat = 48 := rfl
  have h9 : '9'.toNat = 57 := rfl
  omega

theorem digits_injective : Function.Injective digits := by
  intro n m h
  have hback (k : Nat) : (digits k).map (fun b => Char.ofNat b.toNat) = Nat.toDigits 10 k := by
    rw [digits, List.map_map]
    conv_rhs => rw [← List.map_id (Nat.toDigits 10 k)]
    apply List.map_congr_left
    intro c hc
    have hdigit := Nat.isDigit_of_mem_toDigits (by decide) le_rfl hc
    rw [Char.isDigit_iff_toNat] at hdigit
    have h9 : '9'.toNat = 57 := rfl
    rw [Function.comp_apply, UInt8.toNat_ofNat', Nat.mod_eq_of_lt (by omega), Char.ofNat_toNat,
      id_eq]
  rw [← Nat.ofDigitChars_toDigits (b := 10) (n := n) (by decide) le_rfl, ← hback n, h, hback m,
    Nat.ofDigitChars_toDigits (by decide) le_rfl]

theorem decimal_injective : Function.Injective decimal := by
  have hsign (n m : Nat) : 45 :: digits (n + 1) ≠ digits m := by
    intro h
    have hrange := digit_range (b := 45) (n := m) (by rw [← h]; simp)
    exact absurd hrange.1 (by decide)
  rintro (n | n) (m | m) h
  · exact congrArg Int.ofNat (digits_injective h)
  · exact absurd h.symm (hsign m n)
  · exact absurd h (hsign n m)
  · have hsucc := digits_injective (List.cons.inj h).2
    exact congrArg Int.negSucc (Nat.succ.inj hsucc)

theorem colon_notMem_decimal (n : Int) : colon ∉ decimal n := by
  have hdigits (m : Nat) : colon ∉ digits m := by
    intro h
    exact absurd (digit_range h).2 (by decide)
  cases n with
  | ofNat n => exact hdigits n
  | negSucc n =>
    rw [decimal, List.mem_cons, not_or]
    exact ⟨by decide, hdigits _⟩

theorem colon_notMem_topic {topic : Bytes} (h : validTopicName topic = true) :
    colon ∉ topic := by
  rw [validTopicName, Bool.and_eq_true, List.all_eq_true] at h
  intro hmem
  exact absurd (h.2 colon hmem) (by decide)

theorem length_topic_le {topic : Bytes} (h : validTopicName topic = true) :
    topic.length ≤ maxTopicNameLen := by
  simp only [validTopicName, Bool.and_eq_true, decide_eq_true_eq] at h
  exact h.1.2

theorem append_separator_inj {α : Type} {c : α} {xs ys zs ws : List α} (hys : c ∉ ys)
    (hws : c ∉ ws) (h : xs ++ c :: ys = zs ++ c :: ws) : xs = zs ∧ ys = ws := by
  rcases List.append_eq_append_iff.mp h with ⟨a, rfl, ha⟩ | ⟨a, rfl, ha⟩
  · cases a with
    | nil => exact ⟨by simp, (List.cons.inj ha).2⟩
    | cons b bs =>
      refine absurd ?_ hys
      rw [(List.cons.inj ha).2]
      simp
  · cases a with
    | nil => exact ⟨by simp, ((List.cons.inj ha).2).symm⟩
    | cons b bs =>
      refine absurd ?_ hws
      rw [(List.cons.inj ha).2]
      simp

/-- Two keys are equal exactly when group and topic are, once joined. -/
theorem commitKey_eq_iff {g t g' t' : Bytes} {p p' : Int32} :
    commitKey g t p = commitKey g' t' p' ↔ g ++ colon :: t = g' ++ colon :: t' ∧ p = p' := by
  have hjoined (g t : Bytes) (p : Int32) :
      commitKey g t p = (g ++ colon :: t) ++ colon :: decimal p.toInt := by
    simp [commitKey]
  rw [hjoined, hjoined]
  constructor
  · intro h
    obtain ⟨hname, hnumber⟩ :=
      append_separator_inj (colon_notMem_decimal _) (colon_notMem_decimal _) h
    exact ⟨hname, Int32.toInt_inj.mp (decimal_injective hnumber)⟩
  · rintro ⟨hname, rfl⟩
    rw [hname]

theorem commitKey_injective {g t g' t' : Bytes} {p p' : Int32} (ht : validTopicName t = true)
    (ht' : validTopicName t' = true) (h : commitKey g t p = commitKey g' t' p') :
    g = g' ∧ t = t' ∧ p = p' := by
  obtain ⟨hname, hp⟩ := commitKey_eq_iff.mp h
  obtain ⟨hg, htopic⟩ :=
    append_separator_inj (colon_notMem_topic ht) (colon_notMem_topic ht') hname
  exact ⟨hg, htopic, hp⟩

theorem commitKey_ne_nil (g t : Bytes) (p : Int32) : commitKey g t p ≠ [] := by
  simp [commitKey]

theorem length_commitKey_le (g t : Bytes) (p : Int32) :
    (commitKey g t p).length ≤ g.length + t.length + 13 := by
  have hlength (n : Nat) (hn : n < 10 ^ 10) : (digits n).length ≤ 10 := by
    rw [digits, List.length_map]
    exact (Nat.length_toDigits_le_iff (by decide) (by decide)).mpr hn
  have hlt := p.toInt_lt
  have hge := p.le_toInt
  have hdecimal : (decimal p.toInt).length ≤ 11 := by
    cases hp : p.toInt with
    | ofNat n =>
      rw [hp, Int.ofNat_eq_natCast] at hlt
      exact (hlength n (by omega)).trans (by decide)
    | negSucc n => exact Nat.succ_le_succ (hlength (n + 1) (by omega))
  simp only [commitKey, List.length_append, List.length_cons]
  omega

theorem writesOf_record (c : Staged) (hkey : c.key ≠ []) (timestamp base : Int64) :
    writesOf [{ c.record timestamp with offset := base }] = [(c.key, c.offset)] := by
  have hvalue : (putUint64 c.offset.toUInt64).take 8 = putUint64 c.offset.toUInt64 :=
    List.take_of_length_le (by simp)
  simp [writesOf, restorable, Staged.record, hkey, hvalue]

end MiniKafka.CommittedOffsets
