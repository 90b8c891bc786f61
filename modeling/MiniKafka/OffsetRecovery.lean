import MiniKafka.CommittedOffsets
import MiniKafka.ReopenedReads
import MiniKafka.WireCodec

/-!
Committed offsets across restarts.

What a store has on disk is one journal of changes per log.  Starting it reads
the journals one after the other, and every record of them although a read
stops at the end of a segment.
-/

namespace MiniKafka.OffsetRecovery

open BigEndian LastWrite RecordCodec SegmentStore SegmentContents SegmentWrites PartitionLog
  LogContents LogWrites LogMaintenance LogReopen LogRefinement ReopenedReads CommittedOffsets Runs
  WireCodec

theorem writesOf_append (xs ys : List Record) :
    writesOf (xs ++ ys) = writesOf xs ++ writesOf ys := List.filterMap_append

section

variable {crc : Checksum} {l : Log}

theorem replayLoop_spec (h : WellFormed crc l) (hends : EndsForgotten l)
    (hlow : l.lowestOffset = 0) {fuel : Nat} {offset : Int64} (hle : 0 ≤ offset.toInt)
    (hhigh : offset.toInt ≤ l.highestOffset.toInt)
    (hfuel : l.highestOffset.toInt - offset.toInt < fuel) (cache : Bytes → Option Int64) :
    replayLoop crc l fuel offset cache =
      some (overwrite cache (writesOf ((storedRecords crc l).drop offset.toInt.toNat))) := by
  have hzero : l.lowestOffset.toInt = 0 := by rw [hlow]; rfl
  have hhighest := h.highestOffset
  rw [hzero] at hhighest
  -- every round that reads something leaves fewer records to read
  induction fuel generalizing offset cache with
  | zero => omega
  | succ fuel ih =>
    obtain ⟨records, hread, hinitial, hconsecutive, hne⟩ :=
      contiguous_forgotten h hends (show l.lowestOffset.toInt ≤ offset.toInt by omega)
        (show 0 < replayBytes by decide)
    rw [hzero, Int.sub_zero] at hinitial
    rw [replayLoop, hread]
    dsimp only
    rcases List.eq_nil_or_concat' records with rfl | ⟨init, last, rfl⟩
    · have hend : ¬ offset < l.highestOffset := fun hlt => hne hlt rfl
      rw [Int64.lt_iff_toInt_lt] at hend
      rw [List.drop_eq_nil_of_le (by omega)]
      rfl
    · have hlast := hconsecutive init.length (by simp)
      rw [List.getElem_concat_length rfl] at hlast
      obtain ⟨rest, hrest⟩ := hinitial
      have hlength := congrArg List.length hrest
      simp only [List.length_append, List.length_drop, List.length_singleton] at hlength
      have hnext : (last.offset + 1).toInt = offset.toInt + init.length + 1 := by
        rw [toInt_add_one (by have := l.highestOffset.toInt_lt; omega), hlast]
      have hdrop : (storedRecords crc l).drop (last.offset + 1).toInt.toNat = rest := by
        have hcount : (offset.toInt + init.length + 1).toNat =
            offset.toInt.toNat + (init ++ [last]).length := by
          rw [List.length_append, List.length_singleton]
          omega
        rw [hnext, hcount, ← List.drop_drop, ← hrest, List.drop_left]
      rw [List.getLast?_concat]
      dsimp only
      rw [ih (by omega) (by omega) (by omega), hdrop, ← hrest, writesOf_append (init ++ [last]),
        overwrite_append]

theorem replay_spec (h : WellFormed crc l) (hends : EndsForgotten l) (hlow : l.lowestOffset = 0)
    (cache : Bytes → Option Int64) :
    replay crc l cache = some (overwrite cache (writesOf (storedRecords crc l))) := by
  have hnonneg := h.highestOffset_nonneg
  have hclamp : (l.highestOffset.toNatClampNeg : Int) = l.highestOffset.toInt := by
    rw [Int64.toNatClampNeg]
    omega
  rw [replay, replayLoop_spec h hends hlow (by decide) (by simpa using hnonneg)
    (by rw [Int64.toInt_zero]; omega)]
  rfl

end

structure Kept (crc : Checksum) (l : Log) : Prop where
  wellFormed : WellFormed crc l
  config : l.config = offsetsConfig.withDefaults
  lowest : l.lowestOffset = 0

/-- A store that is running: all its logs are open and complete. -/
structure Backed (crc : Checksum) (numPartitions : Int32) (s : OffsetStore) : Prop where
  started : s.started = true
  numParts : s.numParts = (newOffsetStore numPartitions).numParts
  count : s.logs.length = s.numParts
  kept : ∀ l ∈ s.logs, Kept crc l

def contents (crc : Checksum) (s : OffsetStore) : List (List Record) :=
  s.logs.map (storedRecords crc)

def journal (crc : Checksum) (s : OffsetStore) : List (List (Bytes × Int64)) :=
  (contents crc s).map writesOf

def Holds (crc : Checksum) (dir : Directory) (i : Nat) (records : List Record) : Prop :=
  ∃ l, newLog crc offsetsConfig (dir.files i) (dir.modTime i) (dir.now i) = .ok l ∧
    Kept crc l ∧ EndsForgotten l ∧ storedRecords crc l = records

section

variable {crc : Checksum} {dir : Directory} {numPartitions : Int32} {s : OffsetStore}

variable {i : Nat} {l l' : Log} {groupID : Bytes}

theorem holds_nil (h : dir.files i = []) : Holds crc dir i [] := by
  obtain ⟨l, hnew⟩ : ∃ l, newLog crc offsetsConfig [] (dir.modTime i) (dir.now i) = .ok l :=
    ⟨_, rfl⟩
  obtain ⟨hwf, hstored, hlow, hsealed, hconfig⟩ := newLog_empty hnew
  refine ⟨l, by rw [h, hnew], ⟨hwf, hconfig, hlow⟩, ?_, hstored⟩
  intro t ht
  rw [hsealed] at ht
  cases ht

theorem holds_close (hl : Kept crc l) (h : dir.files i = l.close.2) :
    Holds crc dir i (storedRecords crc l) := by
  obtain ⟨l', hnew, hreopened⟩ :=
    reopen_spec hl.wellFormed hl.config.symm (dir.modTime i) (dir.now i)
  refine ⟨l', by rw [h, hnew], ⟨Reopened.wellFormed hl.wellFormed hreopened, ?_, ?_⟩,
    endsForgotten_reopened hreopened, Reopened.stored hl.wellFormed hreopened⟩
  · rw [hreopened.config, hl.config]
  · rw [Reopened.lowest hl.wellFormed hreopened, hl.lowest]

theorem openLogs_spec (crc : Checksum) (dir : Directory) (s : OffsetStore)
    (logs : List (List Record)) (hkept : ∀ l ∈ s.logs, Kept crc l)
    (hdir : ∀ j records, logs[j]? = some records → Holds crc dir (s.logs.length + j) records) :
    ∃ s', OffsetStore.openLogs crc dir logs.length s = some (s', none) ∧
      s'.started = true ∧ s'.numParts = s.numParts ∧ (∀ l ∈ s'.logs, Kept crc l) ∧
      s'.cache = overwrite s.cache (logs.map writesOf).flatten ∧
      contents crc s' = contents crc s ++ logs := by
  induction logs generalizing s with
  | nil => exact ⟨_, rfl, rfl, rfl, hkept, rfl, (List.append_nil _).symm⟩
  | cons records logs ih =>
    obtain ⟨l, hnew, hl, hends, hstored⟩ := hdir 0 records rfl
    have hreplay := replay_spec hl.wellFormed hends hl.lowest s.cache
    rw [hstored] at hreplay
    rw [Nat.add_zero] at hnew
    rw [List.length_cons, OffsetStore.openLogs, hnew]
    dsimp only
    rw [hreplay]
    dsimp only
    obtain ⟨s', hopen, hstarted, hnum, hkept', hcache, hcontents⟩ :=
      ih { s with logs := s.logs ++ [l], cache := overwrite s.cache (writesOf records) }
        (by
          intro m hm
          rcases List.mem_append.mp hm with hold | hlast
          · exact hkept m hold
          · rwa [List.mem_singleton.mp hlast])
        (by
          intro j more hj
          have hholds := hdir (j + 1) more hj
          rw [← Nat.add_assoc, Nat.add_right_comm] at hholds
          change Holds crc dir ((s.logs ++ [l]).length + j) more
          rwa [List.length_append, List.length_singleton])
    refine ⟨s', hopen, hstarted, hnum, hkept', ?_, ?_⟩
    · rw [hcache, List.map_cons, List.flatten_cons, overwrite_append]
    · rw [hcontents]
      simp [contents, hstored]

theorem start_spec (crc : Checksum) (numPartitions : Int32) (dir : Directory)
    (logs : List (List Record))
    (hcount : logs.length = (newOffsetStore numPartitions).numParts)
    (hdir : ∀ i records, logs[i]? = some records → Holds crc dir i records) :
    ∃ s, (newOffsetStore numPartitions).start crc dir = some (s, none) ∧
      Backed crc numPartitions s ∧ contents crc s = logs ∧
      s.cache = latest (journal crc s).flatten := by
  obtain ⟨s, hopen, hstarted, hnum, hkept, hcache, hcontents⟩ :=
    openLogs_spec crc dir (newOffsetStore numPartitions) logs (by simp [newOffsetStore])
      (by
        intro j records hj
        have hholds := hdir j records hj
        rwa [← Nat.zero_add j] at hholds)
  refine ⟨s, ?_, ⟨hstarted, hnum, ?_, hkept⟩, hcontents, ?_⟩
  · rw [← hopen, OffsetStore.start, if_neg (by simp [newOffsetStore]), hcount]
    rfl
  · have hlength := congrArg List.length hcontents
    rw [contents, List.length_map] at hlength
    rw [hlength, hnum, ← hcount]
    rfl
  · rw [hcache, journal, hcontents]
    rfl

def restart (crc : Checksum) (numPartitions : Int32) (s : OffsetStore) (dir : Directory) :
    Option (OffsetStore × Option StartError) :=
  (newOffsetStore numPartitions).start crc { dir with files := (s.close dir.files).2 }

theorem numParts_range (numPartitions : Int32) :
    0 < (newOffsetStore numPartitions).numParts ∧
      (newOffsetStore numPartitions).numParts < 2 ^ 31 := by
  have hlt := numPartitions.toInt_lt
  rw [newOffsetStore]
  dsimp only
  split
  · decide
  · rename_i hpos
    rw [Int32.le_iff_toInt_le, Int32.toInt_zero] at hpos
    rw [Int32.toNatClampNeg]
    omega

theorem partitionFor_lt (h : Backed crc numPartitions s) (groupID : Bytes) :
    s.partitionFor groupID < s.logs.length := by
  obtain ⟨hpos, hlt⟩ := numParts_range numPartitions
  rw [← h.numParts] at hpos hlt
  rw [OffsetStore.partitionFor, h.count, UInt32.toNat_mod, UInt32.toNat_ofNat',
    Nat.mod_eq_of_lt (show s.numParts < 2 ^ 32 by omega)]
  exact Nat.mod_lt _ hpos

theorem restart_spec (h : Backed crc numPartitions s) (dir : Directory) :
    ∃ s', restart crc numPartitions s dir = some (s', none) ∧ Backed crc numPartitions s' ∧
      journal crc s' = journal crc s ∧ s'.cache = latest (journal crc s).flatten := by
  obtain ⟨s', hstart, hbacked, hcontents, hcache⟩ :=
    start_spec crc numPartitions { dir with files := (s.close dir.files).2 } (contents crc s)
      (by rw [contents, List.length_map, h.count, h.numParts])
      (by
        intro i records hi
        rw [contents, List.getElem?_map, Option.map_eq_some_iff] at hi
        obtain ⟨l, hl, rfl⟩ := hi
        apply holds_close (h.kept l (List.mem_of_getElem? hl))
        rw [OffsetStore.close, if_pos h.started]
        dsimp only
        rw [hl])
  have hjournal : journal crc s' = journal crc s := by rw [journal, hcontents, journal]
  exact ⟨s', hstart, hbacked, hjournal, by rw [hcache, hjournal]⟩

theorem partitionFor_eq {s' : OffsetStore} (h : Backed crc numPartitions s)
    (h' : Backed crc numPartitions s') (groupID : Bytes) :
    s'.partitionFor groupID = s.partitionFor groupID := by
  rw [OffsetStore.partitionFor, OffsetStore.partitionFor, h.numParts, h'.numParts]

theorem Backed.withCache (h : Backed crc numPartitions s) (cache : Bytes → Option Int64) :
    Backed crc numPartitions { s with cache := cache } := ⟨h.started, h.numParts, h.count, h.kept⟩

theorem Backed.withLog (h : Backed crc numPartitions s) (hl : Kept crc l) (i : Nat) :
    Backed crc numPartitions { s with logs := s.logs.set i l } where
  started := h.started
  numParts := h.numParts
  count := by rw [List.length_set, h.count]
  kept := by
    intro m hm
    rcases List.mem_or_eq_of_mem_set hm with hold | rfl
    · exact h.kept m hold
    · exact hl

theorem Kept.extends {added : List Record} (h : Kept crc l) (hextends : Extends crc l l' added) :
    Kept crc l' :=
  ⟨hextends.wellFormed, hextends.config.trans h.config, hextends.lowest.trans h.lowest⟩

theorem journal_set {added : List Record} (hextends : Extends crc l l' added) :
    journal crc { s with logs := s.logs.set i l' } =
      (journal crc s).set i (writesOf (storedRecords crc l) ++ writesOf added) := by
  rw [journal, contents, List.map_set, List.map_set, hextends.stored, writesOf_append]
  rfl

theorem journal_getElem? (crc : Checksum) (hl : s.logs[i]? = some l) :
    (journal crc s)[i]? = some (writesOf (storedRecords crc l)) := by
  rw [journal, contents, List.getElem?_map, List.getElem?_map, hl]
  rfl

theorem journal_set_nil (hl : s.logs[i]? = some l) (hextends : Extends crc l l' []) :
    journal crc { s with logs := s.logs.set i l' } = journal crc s := by
  obtain ⟨hi, hget⟩ := List.getElem?_eq_some_iff.mp (journal_getElem? crc hl)
  rw [journal_set hextends, show writesOf [] = [] from rfl, List.append_nil, ← hget,
    List.set_getElem_self]

theorem persist_spec (h : Backed crc numPartitions s) (hl : s.logs[i]? = some l)
    (hleft : OffsetsLeft l 1) {c : Staged} (hkey : c.key ≠ []) (timestamp : Int64)
    (env : Surroundings) :
    ∃ s' error, s.persist crc i (c.record timestamp) env = (s', error) ∧
      Backed crc numPartitions s' ∧ s'.cache = s.cache ∧
      (∀ n, OffsetsLeft l (n + 1) → ∃ l', s'.logs[i]? = some l' ∧ OffsetsLeft l' n) ∧
      (error ≠ none ∧ journal crc s' = journal crc s ∨
        error = none ∧ Appended i (c.key, c.offset) (journal crc s) (journal crc s')) := by
  have hkept := h.kept l (List.mem_of_getElem? hl)
  have hoffsets {l' : Log} {added : List Record} (hextends : Extends crc l l' added)
      (hadded : added.length ≤ 1) (n : Nat) (hn : OffsetsLeft l (n + 1)) :
      ∃ l'', (s.logs.set i l')[i]? = some l'' ∧ OffsetsLeft l'' n := by
    refine ⟨l', List.getElem?_set_self (List.getElem?_eq_some_iff.mp hl).1, ?_⟩
    rw [OffsetsLeft] at hn ⊢
    rw [Extends.highestOffset hkept.wellFormed hextends]
    omega
  rw [OffsetStore.persist, hl]
  dsimp only
  rcases append_spec hkept.wellFormed hleft (some (c.record timestamp)) env with
    ⟨l', e, happend, hextends⟩ | ⟨l', r, hr, happend, hextends⟩
  · rw [happend]
    exact ⟨_, _, rfl, h.withLog (hkept.extends hextends) i, rfl, hoffsets hextends (by simp),
      .inl ⟨by simp, journal_set_nil hl hextends⟩⟩
  · obtain rfl := Option.some.inj hr
    rw [happend]
    refine ⟨_, _, rfl, h.withLog (hkept.extends hextends) i, rfl, hoffsets hextends (by simp),
      .inr ⟨rfl, ?_⟩⟩
    rw [journal_set hextends]
    have hwrites : writesOf [stamp l.highestOffset (c.record timestamp)] = [(c.key, c.offset)] :=
      writesOf_record c hkey timestamp l.highestOffset
    rw [hwrites]
    exact appended_set (journal_getElem? crc hl)

def hasOffsets (s : OffsetStore) (groupID : Bytes) (n : Nat) : Bool :=
  (s.logs[s.partitionFor groupID]?).all fun l => decide (OffsetsLeft l n)

theorem hasOffsets_iff (hl : s.logs[s.partitionFor groupID]? = some l) (n : Nat) :
    hasOffsets s groupID n = true ↔ OffsetsLeft l n := by
  rw [hasOffsets, hl]
  exact decide_eq_true_iff

theorem log_of_group (h : Backed crc numPartitions s) (groupID : Bytes) :
    ∃ l, s.logs[s.partitionFor groupID]? = some l ∧ Kept crc l := by
  have hl := List.getElem?_eq_getElem (partitionFor_lt h groupID)
  exact ⟨_, hl, h.kept _ (List.mem_of_getElem? hl)⟩

theorem stage_spec (h : Backed crc numPartitions s) (groupID topic : Bytes) (partition : Int32)
    (offset : Int64) :
    s.stage groupID topic partition offset =
      ({ s with cache := Function.update s.cache (commitKey groupID topic partition) (some offset) },
        { key := commitKey groupID topic partition
          offset := offset
          old := s.cache (commitKey groupID topic partition)
          log := some (s.partitionFor groupID) }) := by
  rw [OffsetStore.stage, if_pos ⟨h.started, partitionFor_lt h groupID⟩]

theorem commit_spec (h : Backed crc numPartitions s) (hleft : hasOffsets s groupID 1 = true)
    (topic : Bytes) (partition : Int32) (offset timestamp : Int64) (env : Surroundings) :
    ∃ s' error, s.commit crc groupID topic partition offset timestamp env = (s', error) ∧
      Backed crc numPartitions s' ∧
      (∀ n, hasOffsets s groupID (n + 1) = true → hasOffsets s' groupID n = true) ∧
      (error ≠ none ∧ s'.cache = s.cache ∧ journal crc s' = journal crc s ∨
        error = none ∧
          s'.cache = Function.update s.cache (commitKey groupID topic partition) (some offset) ∧
          Appended (s.partitionFor groupID) (commitKey groupID topic partition, offset)
            (journal crc s) (journal crc s')) := by
  obtain ⟨l, hl, -⟩ := log_of_group h groupID
  obtain ⟨s', error, hpersist, hbacked, hcache, hoffsets, hcases⟩ :=
    persist_spec
      (c := ⟨commitKey groupID topic partition, offset, s.cache (commitKey groupID topic partition),
        some (s.partitionFor groupID)⟩)
      (h.withCache (Function.update s.cache (commitKey groupID topic partition) (some offset)))
      hl ((hasOffsets_iff hl 1).mp hleft) (commitKey_ne_nil groupID topic partition) timestamp env
  have hleft' (n : Nat) (hn : hasOffsets s groupID (n + 1) = true) :
      hasOffsets s' groupID n = true := by
    obtain ⟨l', hl', hn'⟩ := hoffsets n ((hasOffsets_iff hl (n + 1)).mp hn)
    rw [← partitionFor_eq h hbacked] at hl'
    exact (hasOffsets_iff hl' n).mpr hn'
  rw [OffsetStore.commit, stage_spec h]
  dsimp only
  rw [hpersist]
  rcases hcases with ⟨herror, hjournal⟩ | ⟨rfl, happended⟩
  · obtain ⟨e, rfl⟩ := Option.ne_none_iff_exists'.mp herror
    refine ⟨_, _, rfl, hbacked.withCache _, hleft', .inl ⟨by simp, ?_, hjournal⟩⟩
    change Function.update s'.cache _ _ = _
    rw [hcache, Function.update_idem, Function.update_eq_self]
  · exact ⟨_, _, rfl, hbacked, hleft', .inr ⟨rfl, hcache, happended⟩⟩

theorem commit_ok (h : Backed crc numPartitions s) {topic : Bytes} {env : Surroundings}
    (hgroup : groupID.length ≤ maxInt16) (htopic : topic.length ≤ maxInt16)
    (hfault : env.fault = none) (partition : Int32) (offset timestamp : Int64) :
    (s.commit crc groupID topic partition offset timestamp env).2 = none := by
  obtain ⟨l, hl, hkept⟩ := log_of_group h groupID
  have hsegment : l.config.segmentBytes.toInt ≤ maxUint32 := by
    rw [hkept.config]
    decide
  have hsize : (Staged.record ⟨commitKey groupID topic partition, offset,
      s.cache (commitKey groupID topic partition), some (s.partitionFor groupID)⟩
      timestamp).encodedSize ≤ maxRecordSize := by
    have hkey := length_commitKey_le groupID topic partition
    simp only [Record.encodedSize, Staged.record, payloadLength, Option.map_some, Option.getD_some,
      length_putUint64, maxRecordSize, maxInt16] at hgroup htopic ⊢
    omega
  have happend := append_ok hkept.wellFormed hsegment hsize hfault
  rw [OffsetStore.commit, stage_spec h]
  dsimp only
  rw [OffsetStore.persist, hl]
  dsimp only
  generalize Log.append crc _ _ env = res at happend ⊢
  obtain ⟨l', o, error⟩ := res
  obtain rfl : error = none := happend
  rfl

theorem tick_spec (h : Backed crc numPartitions s) (i : Nat) (now : Int) :
    Backed crc numPartitions (s.tick i now) ∧ (s.tick i now).cache = s.cache ∧
      journal crc (s.tick i now) = journal crc s := by
  cases hl : s.logs[i]? with
  | none =>
    have hsame : s.tick i now = s := by
      rw [OffsetStore.tick, List.modify_eq_self (List.getElem?_eq_none_iff.mp hl)]
    rw [hsame]
    exact ⟨h, rfl, rfl⟩
  | some l =>
    have hkept := h.kept l (List.mem_of_getElem? hl)
    have hextends := runFlush_extends hkept.wellFormed now
    have hset : s.tick i now = { s with logs := s.logs.set i (l.runFlush now) } := by
      obtain ⟨hi, rfl⟩ := List.getElem?_eq_some_iff.mp hl
      rw [OffsetStore.tick, List.modify_eq_set_get _ hi]
      rfl
    rw [hset]
    exact ⟨h.withLog (hkept.extends hextends) i, rfl, journal_set_nil hl hextends⟩

end

inductive Event where
  | commit (groupID topic : Bytes) (partition : Int32) (offset timestamp : Int64)
      (env : Surroundings) (error : Option LogError)
  | tick (i : Nat) (now : Int)
  | restart (dir : Directory)

def guard (s : OffsetStore) : Event → Bool
  | .commit groupID _ _ _ _ _ _ => hasOffsets s groupID 1
  | _ => true

/-- One call on a running store.  The error a commit met is part of the event. -/
def next (crc : Checksum) (numPartitions : Int32) (s : OffsetStore) : Event → Option OffsetStore
  | .commit groupID topic partition offset timestamp env error =>
    match s.commit crc groupID topic partition offset timestamp env with
    | (s', error') => if error' = error then some s' else none
  | .tick i now => some (s.tick i now)
  | .restart dir =>
    match restart crc numPartitions s dir with
    | some (s', none) => some s'
    | _ => none

def Event.legal : Event → Bool
  | .commit _ topic _ _ _ _ _ => validTopicName topic
  | _ => true

/-- What a commit has changed, if its append went through. -/
def Event.accepted : Event → Option ((Bytes × Bytes × Int32) × Int64)
  | .commit groupID topic partition offset _ _ none => some ((groupID, topic, partition), offset)
  | _ => none

/-- What a call does to the map and to the journals, given the change it has
made. -/
inductive Effect (crc : Checksum) (s s' : OffsetStore) :
    Option ((Bytes × Bytes × Int32) × Int64) → Prop
  | unchanged (hcache : s'.cache = s.cache) (hjournal : journal crc s' = journal crc s) :
      Effect crc s s' none
  | recovered (hcache : s'.cache = latest (journal crc s).flatten)
      (hjournal : journal crc s' = journal crc s) : Effect crc s s' none
  | committed {g t : Bytes} {p : Int32} {offset : Int64}
      (hcache : s'.cache = Function.update s.cache (commitKey g t p) (some offset))
      (happended : Appended (s.partitionFor g) (commitKey g t p, offset) (journal crc s)
        (journal crc s')) : Effect crc s s' (some ((g, t, p), offset))

/-- Every change on disk is one of a legal topic, in the log its group picks. -/
def Placed (crc : Checksum) (s : OffsetStore) : Prop :=
  ∀ i writes, (journal crc s)[i]? = some writes → ∀ w ∈ writes,
    ∃ g t p, validTopicName t = true ∧ w.1 = commitKey g t p ∧ s.partitionFor g = i

/-- The store answers what `committed` says, and a restart would not change
that. -/
structure Represents (crc : Checksum) (numPartitions : Int32) (s : OffsetStore)
    (committed : Bytes × Bytes × Int32 → Option Int64) : Prop where
  backed : Backed crc numPartitions s
  answers : ∀ g t p, validTopicName t = true → s.cache (commitKey g t p) = committed (g, t, p)
  restored : latest (journal crc s).flatten = s.cache
  placed : Placed crc s

section

variable {crc : Checksum} {numPartitions : Int32} {s s' : OffsetStore}
  {committed : Bytes × Bytes × Int32 → Option Int64}

variable {g t : Bytes} {p : Int32} {offset : Int64} {event : Event} {dir : Directory}

theorem placed_unchanged (h : Backed crc numPartitions s) (h' : Backed crc numPartitions s')
    (hplaced : Placed crc s) (hjournal : journal crc s' = journal crc s) : Placed crc s' := by
  intro i writes hi w hw
  rw [hjournal] at hi
  obtain ⟨g, t, p, ht, hkey, hplace⟩ := hplaced i writes hi w hw
  exact ⟨g, t, p, ht, hkey, by rw [partitionFor_eq h h', hplace]⟩

theorem placed_appended (h : Backed crc numPartitions s) (h' : Backed crc numPartitions s')
    (hplaced : Placed crc s) (ht : validTopicName t = true)
    (happended : Appended (s.partitionFor g) (commitKey g t p, offset) (journal crc s)
      (journal crc s')) : Placed crc s' := by
  intro i writes hi w hw
  rcases mem_of_appended happended hi hw with ⟨rfl, rfl⟩ | ⟨old, hold, hmem⟩
  · exact ⟨g, t, p, ht, rfl, partitionFor_eq h h' g⟩
  · obtain ⟨g', t', p', ht', hkey, hplace⟩ := hplaced i old hold w hmem
    exact ⟨g', t', p', ht', hkey, by rw [partitionFor_eq h h', hplace]⟩

/-- What the journals say after one more change.  The changes of a key are all
in the log its group picks, so none is read after the new one. -/
theorem latest_journal_appended (hplaced : Placed crc s) (ht : validTopicName t = true)
    (happended : Appended (s.partitionFor g) (commitKey g t p, offset) (journal crc s)
      (journal crc s')) :
    latest (journal crc s').flatten =
      Function.update (latest (journal crc s).flatten) (commitKey g t p) (some offset) := by
  funext k
  by_cases hk : k = commitKey g t p
  · subst hk
    rw [Function.update_self]
    apply latest_of_appended_self happended
    intro j writes hj hlater w hw heq
    obtain ⟨g', t', p', ht', hkey, hplace⟩ := hplaced j writes hj w hw
    obtain ⟨rfl, -⟩ := commitKey_injective ht' ht (hkey.symm.trans heq)
    omega
  · rw [Function.update_of_ne hk, latest_of_appended_ne happended hk]

theorem represents_unchanged (h : Represents crc numPartitions s committed)
    (hbacked : Backed crc numPartitions s') (hcache : s'.cache = s.cache)
    (hjournal : journal crc s' = journal crc s) : Represents crc numPartitions s' committed where
  backed := hbacked
  answers := by rw [hcache]; exact h.answers
  restored := by rw [hcache, hjournal]; exact h.restored
  placed := placed_unchanged h.backed hbacked h.placed hjournal

theorem represents_committed (h : Represents crc numPartitions s committed)
    (hbacked : Backed crc numPartitions s') (ht : validTopicName t = true)
    (hcache : s'.cache = Function.update s.cache (commitKey g t p) (some offset))
    (happended : Appended (s.partitionFor g) (commitKey g t p, offset) (journal crc s)
      (journal crc s')) :
    Represents crc numPartitions s' (Function.update committed (g, t, p) (some offset)) where
  backed := hbacked
  answers := by
    intro g' t' p' ht'
    rw [hcache]
    by_cases hsame : (g', t', p') = (g, t, p)
    · obtain ⟨rfl, rfl, rfl⟩ : g' = g ∧ t' = t ∧ p' = p := by simpa using hsame
      rw [Function.update_self, Function.update_self]
    · have hkey : commitKey g' t' p' ≠ commitKey g t p := by
        intro heq
        obtain ⟨rfl, rfl, rfl⟩ := commitKey_injective ht' ht heq
        exact hsame rfl
      rw [Function.update_of_ne hkey, Function.update_of_ne hsame, h.answers g' t' p' ht']
  restored := by rw [latest_journal_appended h.placed ht happended, h.restored, hcache]
  placed := placed_appended h.backed hbacked h.placed ht happended

/-- What one call does to a running store. -/
theorem next_effect (h : Backed crc numPartitions s) (hguard : guard s event = true)
    (hnext : next crc numPartitions s event = some s') :
    Backed crc numPartitions s' ∧ Effect crc s s' event.accepted := by
  cases event with
  | commit g t p offset timestamp env error =>
    obtain ⟨s₁, error₁, hcommit, hbacked, -, hcases⟩ :=
      commit_spec h hguard t p offset timestamp env
    rw [next, hcommit] at hnext
    dsimp only at hnext
    split at hnext
    · rename_i herror
      obtain rfl := Option.some.inj hnext
      subst herror
      refine ⟨hbacked, ?_⟩
      rcases hcases with ⟨hfailed, hcache, hjournal⟩ | ⟨rfl, hcache, happended⟩
      · obtain ⟨e, rfl⟩ := Option.ne_none_iff_exists'.mp hfailed
        exact .unchanged hcache hjournal
      · exact .committed hcache happended
    · cases hnext
  | tick i now =>
    obtain rfl := Option.some.inj hnext
    obtain ⟨hbacked, hcache, hjournal⟩ := tick_spec h i now
    exact ⟨hbacked, .unchanged hcache hjournal⟩
  | restart dir =>
    obtain ⟨s₁, hrestart, hbacked, hjournal, hcache⟩ := restart_spec h dir
    rw [next, hrestart] at hnext
    obtain rfl := Option.some.inj hnext
    exact ⟨hbacked, .recovered hcache hjournal⟩

theorem legal_accepted (hlegal : event.legal = true)
    (haccepted : event.accepted = some ((g, t, p), offset)) :
    validTopicName t = true := by
  cases event with
  | commit g₁ t₁ p₁ offset₁ timestamp env error =>
    cases error with
    | none =>
      obtain ⟨⟨-, rfl, -⟩, -⟩ : (g₁ = g ∧ t₁ = t ∧ p₁ = p) ∧ offset₁ = offset := by
        simpa [Event.accepted] using haccepted
      exact hlegal
    | some e => cases haccepted
  | tick i now => cases haccepted
  | restart dir => cases haccepted

theorem represents_next (h : Represents crc numPartitions s committed) (hlegal : event.legal = true)
    (hguard : guard s event = true) (hnext : next crc numPartitions s event = some s') :
    Represents crc numPartitions s' (overwrite committed event.accepted.toList) := by
  obtain ⟨hbacked, heffect⟩ := next_effect h.backed hguard hnext
  have hvalid {g t : Bytes} {p : Int32} {offset : Int64}
      (haccepted : event.accepted = some ((g, t, p), offset)) : validTopicName t = true :=
    legal_accepted hlegal haccepted
  generalize event.accepted = accepted at heffect hvalid
  cases heffect with
  | unchanged hcache hjournal => exact represents_unchanged h hbacked hcache hjournal
  | recovered hcache hjournal =>
    exact represents_unchanged h hbacked (hcache.trans h.restored) hjournal
  | committed hcache happended => exact represents_committed h hbacked (hvalid rfl) hcache happended

theorem accepted_of_next {timestamp : Int64} {env : Surroundings} {error : Option LogError}
    (h : Backed crc numPartitions s)
    (hnext : next crc numPartitions s (.commit g t p offset timestamp env error) = some s')
    (hgroup : g.length ≤ maxInt16) (htopic : t.length ≤ maxInt16) (hfault : env.fault = none) :
    error = none := by
  have hok := commit_ok h hgroup htopic hfault p offset timestamp
  rw [next] at hnext
  generalize s.commit crc g t p offset timestamp env = res at hok hnext
  obtain ⟨s₁, error₁⟩ := res
  obtain rfl : error₁ = none := hok
  dsimp only at hnext
  split at hnext
  · rename_i herror
    exact herror.symm
  · cases hnext

theorem start_empty (crc : Checksum) (numPartitions : Int32) (dir : Directory)
    (hdir : ∀ i, dir.files i = []) :
    ∃ s, (newOffsetStore numPartitions).start crc dir = some (s, none) ∧
      Backed crc numPartitions s ∧ (∀ records ∈ contents crc s, records = []) ∧
      s.cache = fun _ => none := by
  obtain ⟨s, hstart, hbacked, hcontents, hcache⟩ :=
    start_spec crc numPartitions dir
      (List.replicate (newOffsetStore numPartitions).numParts []) List.length_replicate
      (by
        intro i records hi
        obtain rfl := List.eq_of_mem_replicate (List.mem_of_getElem? hi)
        exact holds_nil (hdir i))
  refine ⟨s, hstart, hbacked, ?_, ?_⟩
  · intro records hrecords
    rw [hcontents] at hrecords
    exact List.eq_of_mem_replicate hrecords
  · rw [hcache, journal, hcontents, List.map_replicate, show writesOf [] = [] from rfl,
      List.flatten_replicate_nil]
    rfl

theorem started_empty (hdir : ∀ i, dir.files i = [])
    (hstart : (newOffsetStore numPartitions).start crc dir = some (s, none)) :
    Backed crc numPartitions s ∧ (∀ records ∈ contents crc s, records = []) ∧
      s.cache = fun _ => none := by
  obtain ⟨s₁, hstart', hempty⟩ := start_empty crc numPartitions dir hdir
  rw [hstart] at hstart'
  obtain rfl : s = s₁ := (Prod.mk.inj (Option.some.inj hstart')).1
  exact hempty

theorem journal_started (hdir : ∀ i, dir.files i = [])
    (hstart : (newOffsetStore numPartitions).start crc dir = some (s, none)) :
    ∀ writes ∈ journal crc s, writes = [] := by
  intro writes hwrites
  obtain ⟨records, hrecords, rfl⟩ := List.mem_map.mp hwrites
  rw [(started_empty hdir hstart).2.1 records hrecords]
  rfl

theorem represents_started (hdir : ∀ i, dir.files i = [])
    (hstart : (newOffsetStore numPartitions).start crc dir = some (s, none)) :
    Represents crc numPartitions s fun _ => none := by
  obtain ⟨hbacked, -, hcache⟩ := started_empty hdir hstart
  have hempty := journal_started hdir hstart
  refine ⟨hbacked, fun g t p _ => by rw [hcache], ?_, ?_⟩
  · rw [hcache, List.flatten_eq_nil_iff.mpr hempty]
    rfl
  · intro i writes hi w hw
    rw [hempty writes (List.mem_of_getElem? hi)] at hw
    cases hw

theorem represents_run {events : List Event} {s₀ : OffsetStore}
    (hrun : Run (Guarded guard (next crc numPartitions)) s₀ events s)
    (hlegal : ∀ e ∈ events, e.legal = true)
    (hinit : Represents crc numPartitions s₀ fun _ => none) :
    Represents crc numPartitions s (latest (events.filterMap Event.accepted)) := by
  induction hrun with
  | nil => exact hinit
  | @snoc events event s s' _ hstep ih =>
    have hs := ih fun e he => hlegal e (by simp [he])
    have hs' := represents_next hs (hlegal event (by simp)) hstep.1 hstep.2
    rw [List.filterMap_append, latest, overwrite_append]
    cases hevent : event.accepted with
    | none =>
      rw [hevent] at hs'
      rwa [List.filterMap_cons_none hevent]
    | some change =>
      rw [hevent] at hs'
      rwa [List.filterMap_cons_some hevent]

def Running (crc : Checksum) (numPartitions : Int32) (s : OffsetStore) : Prop :=
  ∃ dir s₀ events, (∀ i, dir.files i = []) ∧
    (newOffsetStore numPartitions).start crc dir = some (s₀, none) ∧
    Run (Guarded guard (next crc numPartitions)) s₀ events s

theorem Running.backed (h : Running crc numPartitions s) : Backed crc numPartitions s := by
  obtain ⟨dir, s₀, events, hdir, hstart, hrun⟩ := h
  refine hrun.invariant (started_empty hdir hstart).1 ?_
  rintro s event s' hs ⟨hguard, hnext⟩
  exact (next_effect hs hguard hnext).1

/-- Every offset that was committed is answered until the next one, across any
number of restarts.  No commit that fits the wire is refused without a fault,
and a restart always succeeds. -/
theorem offsets_survive_restart {dir : Directory} {s₀ : OffsetStore} {events : List Event}
    (hdir : ∀ i, dir.files i = [])
    (hstart : (newOffsetStore numPartitions).start crc dir = some (s₀, none))
    (hrun : Run (Guarded guard (next crc numPartitions)) s₀ events s)
    (hlegal : ∀ e ∈ events, e.legal = true) :
    (∀ g t p, validTopicName t = true →
      s.fetch g t p = (latest (events.filterMap Event.accepted) (g, t, p)).getD (-1)) ∧
    (∀ g t p offset timestamp env error,
      Event.commit g t p offset timestamp env error ∈ events → g.length ≤ maxInt16 →
        env.fault = none → error = none) ∧
    ∀ dir', ∃ s', restart crc numPartitions s dir' = some (s', none) := by
  have hinit := represents_started hdir hstart
  have hs := represents_run hrun hlegal hinit
  refine ⟨?_, ?_, ?_⟩
  · intro g t p ht
    rw [OffsetStore.fetch, hs.answers g t p ht]
  · intro g t p offset timestamp env error hmem hgroup hfault
    obtain ⟨before, u, v, hbefore, hpre, -, hnext⟩ := hrun.step_of_mem hmem
    have hu := represents_run hbefore (fun e he => hlegal e (hpre.subset he)) hinit
    have htopic : t.length ≤ maxInt16 :=
      (length_topic_le (hlegal _ hmem)).trans (by decide)
    exact accepted_of_next hu.backed hnext hgroup htopic hfault
  · intro dir'
    obtain ⟨s', hrestart, -⟩ := restart_spec hs.backed dir'
    exact ⟨s', hrestart⟩

end

def emptyDirectory : Directory := ⟨fun _ => [], fun _ _ => 0, fun _ => 0⟩

def commitEvent (groupID topic : Bytes) (offset : Int64) : Event :=
  .commit groupID topic 0 offset 0 ⟨0, none⟩ none

def opened : Option OffsetStore :=
  match (newOffsetStore 2).start castagnoli emptyDirectory with
  | some (s, none) => some s
  | _ => none

theorem start_of_opened {s : OffsetStore} (h : opened = some s) :
    (newOffsetStore 2).start castagnoli emptyDirectory = some (s, none) := by
  rw [opened] at h
  split at h
  · rename_i hstart
    rw [hstart, Option.some.inj h]
  · cases h

theorem run_of_opened {σ ε β : Type} {guard : σ → ε → Bool} {next : σ → ε → Option σ}
    {init : OffsetStore → σ} {observe : σ → β} {events : List ε} {v : β}
    (h : (opened.bind fun s => (execute guard next (init s) events).map observe) = some v) :
    ∃ s t, (newOffsetStore 2).start castagnoli emptyDirectory = some (s, none) ∧
      Run (Guarded guard next) (init s) events t ∧ observe t = v := by
  obtain ⟨s, hopened, hrest⟩ := Option.bind_eq_some_iff.mp h
  obtain ⟨t, hrun, hobserved⟩ := exists_run_of_execute hrest
  exact ⟨s, t, start_of_opened hopened, hrun, hobserved⟩

def commitsAndRestarts : List Event :=
  [commitEvent [103] [116] 5, commitEvent [104] [116] 3, .restart emptyDirectory,
    commitEvent [103] [116] 7, .restart emptyDirectory]

theorem offsets_survive_restart_twice :
    ∃ s₀ s, (newOffsetStore 2).start castagnoli emptyDirectory = some (s₀, none) ∧
      Run (Guarded guard (next castagnoli 2)) s₀ commitsAndRestarts s ∧
      s.fetch [103] [116] 0 = 7 ∧ s.fetch [104] [116] 0 = 3 ∧ s.fetch [105] [116] 0 = -1 := by
  have hsome : (opened.bind fun s₀ =>
      (execute guard (next castagnoli 2) s₀ commitsAndRestarts).map OffsetStore.started) =
      some true := by decide +kernel
  obtain ⟨s₀, s, hstart, hrun, -⟩ := run_of_opened hsome
  obtain ⟨hfetch, -⟩ := offsets_survive_restart (fun _ => rfl) hstart hrun (by decide)
  refine ⟨s₀, s, hstart, hrun, ?_, ?_, ?_⟩
  · exact (hfetch _ _ _ (by decide)).trans (by decide)
  · exact (hfetch _ _ _ (by decide)).trans (by decide)
  · exact (hfetch _ _ _ (by decide)).trans (by decide)

end MiniKafka.OffsetRecovery
