import MiniKafka.LogRefinement

/-!
The writer of a partition: `AppendBatch` and `writerLoop` of
`internal/broker/partition.go`.

Any number of producers send their batches over one channel to the goroutine
that alone appends to the log.  Every operation on a channel and every call on
the log is a step of its own.
-/

namespace MiniKafka.PartitionWriter

open RecordCodec SegmentStore SegmentContents SegmentReads SegmentWrites PartitionLog LogContents
  LogWrites LogReads Runs
open LogRefinement (Reached observed_abstraction reached_small runFlush_extends)

inductive AppendError where
  | log (e : LogError)
  | partitionClosed
  deriving DecidableEq, Repr

/-- How far a call of `AppendBatch` has come: it offers its request to the
channel, waits for the response, or has returned. -/
inductive CallPhase where
  | sending
  | waiting
  | returned (base : Int64) (error : Option AppendError)
  deriving DecidableEq, Repr

structure Call where
  records : List (Option Record)
  phase : CallPhase
  deriving DecidableEq, Repr

/-- What the writer is doing.  Inside the loop that drains the channel it goes
through the same phases. -/
inductive WriterPhase where
  | selecting
  | holding (call : Nat)
  | replying (call : Nat) (base : Int64) (error : Option LogError)
  | exited
  deriving DecidableEq, Repr

structure Block where
  call : Nat
  start : Int64
  taken : List Record
  deriving DecidableEq, Repr

/-- A partition with the calls made so far.  A request is named by its call.
`blocks` keeps a record of the appends in their order; the code has nothing like
it. -/
structure WriterState where
  log : Log
  appendCh : List Nat
  closed : Bool
  draining : Bool
  writer : WriterPhase
  calls : List Call
  blocks : List Block
  deriving DecidableEq

def appendChCapacity : Nat := 256

def newWriter (log : Log) : WriterState := ⟨log, [], false, false, .selecting, [], []⟩

inductive WriterEvent where
  | call (records : List (Option Record))
  | send (call : Nat)
  | refuse (call : Nat)
  | receive
  | append (env : Nat → Surroundings)
  | reply
  | close
  | drain
  | exit
  | flush (now : Int)

/-- The writer appends the batch of the call it holds.  There is no step without
offsets for its records. -/
def WriterState.append (crc : Checksum) (s : WriterState) (i : Nat) (c : Call)
    (env : Nat → Surroundings) : Option WriterState :=
  if OffsetsLeft s.log c.records.length then
    match s.log.appendBatch crc (c.records.mapIdx fun j r => (r, env j)) with
    | (log, base, error) =>
      let count := (log.highestOffset.toInt - s.log.highestOffset.toInt).toNat
      some { s with
        log := log
        writer := .replying i base error
        blocks := s.blocks ++ [⟨i, s.log.highestOffset, (c.records.take count).reduceOption⟩] }
  else none

/-- One step: a producer calls `AppendBatch` or takes a case of its `select`,
the writer takes its next step, or another goroutine closes the partition or
flushes the log. -/
def WriterState.step (crc : Checksum) (s : WriterState) : WriterEvent → Option WriterState
  | .call records => some { s with calls := s.calls ++ [⟨records, .sending⟩] }
  | .send i =>
    match s.calls[i]? with
    | some ⟨records, .sending⟩ =>
      if s.appendCh.length < appendChCapacity then
        some { s with
          appendCh := s.appendCh ++ [i]
          calls := s.calls.set i ⟨records, .waiting⟩ }
      else none
    | _ => none
  | .refuse i =>
    match s.calls[i]? with
    | some ⟨records, .sending⟩ =>
      if s.closed then
        some { s with calls := s.calls.set i ⟨records, .returned (-1) (some .partitionClosed)⟩ }
      else none
    | _ => none
  | .receive =>
    match s.writer, s.appendCh with
    | .selecting, i :: rest => some { s with writer := .holding i, appendCh := rest }
    | _, _ => none
  | .append env =>
    match s.writer with
    | .holding i => s.calls[i]?.bind fun c => s.append crc i c env
    | _ => none
  | .reply =>
    match s.writer with
    | .replying i base error =>
      s.calls[i]?.map fun c =>
        { s with
          writer := .selecting
          calls := s.calls.set i ⟨c.records, .returned base (error.map .log)⟩ }
    | _ => none
  | .close => some { s with closed := true }
  | .drain =>
    if s.writer = .selecting ∧ s.closed = true then some { s with draining := true } else none
  | .exit =>
    if s.writer = .selecting ∧ s.draining = true ∧ s.appendCh = [] then
      some { s with writer := .exited }
    else none
  | .flush now => some { s with log := s.log.runFlush now }

/-- The steps of a partition and its producers, one for each way an event can go. -/
inductive WriterStep (crc : Checksum) (s : WriterState) : WriterEvent → WriterState → Prop
  | call {records : List (Option Record)} :
      WriterStep crc s (.call records) { s with calls := s.calls ++ [⟨records, .sending⟩] }
  | send {i : Nat} {records : List (Option Record)} : s.calls[i]? = some ⟨records, .sending⟩ →
      s.appendCh.length < appendChCapacity →
      WriterStep crc s (.send i)
        { s with appendCh := s.appendCh ++ [i], calls := s.calls.set i ⟨records, .waiting⟩ }
  | refuse {i : Nat} {records : List (Option Record)} : s.calls[i]? = some ⟨records, .sending⟩ →
      s.closed = true →
      WriterStep crc s (.refuse i)
        { s with calls := s.calls.set i ⟨records, .returned (-1) (some .partitionClosed)⟩ }
  | receive {i : Nat} {rest : List Nat} : s.writer = .selecting → s.appendCh = i :: rest →
      WriterStep crc s .receive { s with writer := .holding i, appendCh := rest }
  | append {i : Nat} {c : Call} {env : Nat → Surroundings} {s' : WriterState} :
      s.writer = .holding i → s.calls[i]? = some c → s.append crc i c env = some s' →
      WriterStep crc s (.append env) s'
  | reply {i : Nat} {base : Int64} {error : Option LogError} {c : Call} :
      s.writer = .replying i base error → s.calls[i]? = some c →
      WriterStep crc s .reply
        { s with
          writer := .selecting
          calls := s.calls.set i ⟨c.records, .returned base (error.map .log)⟩ }
  | close : WriterStep crc s .close { s with closed := true }
  | drain : s.writer = .selecting ∧ s.closed = true →
      WriterStep crc s .drain { s with draining := true }
  | exit : s.writer = .selecting ∧ s.draining = true ∧ s.appendCh = [] →
      WriterStep crc s .exit { s with writer := .exited }
  | flush {now : Int} : WriterStep crc s (.flush now) { s with log := s.log.runFlush now }

theorem writerStep_of_step {crc : Checksum} {s s' : WriterState} {e : WriterEvent}
    (hstep : s.step crc e = some s') : WriterStep crc s e s' := by
  cases e with
  | send i =>
    rw [WriterState.step] at hstep
    split at hstep
    · split at hstep <;> cases hstep
      exact .send ‹_› ‹_›
    · cases hstep
  | refuse i =>
    rw [WriterState.step] at hstep
    split at hstep
    · split at hstep <;> cases hstep
      exact .refuse ‹_› ‹_›
    · cases hstep
  | receive =>
    rw [WriterState.step] at hstep
    split at hstep <;> cases hstep
    exact .receive ‹_› ‹_›
  | append env =>
    rw [WriterState.step] at hstep
    split at hstep
    · obtain ⟨c, hi, happend⟩ := Option.bind_eq_some_iff.mp hstep
      exact .append ‹_› hi happend
    · cases hstep
  | reply =>
    rw [WriterState.step] at hstep
    split at hstep
    · obtain ⟨c, hi, rfl⟩ := Option.map_eq_some_iff.mp hstep
      exact .reply ‹_› hi
    · cases hstep
  | drain =>
    rw [WriterState.step] at hstep
    split at hstep <;> cases hstep
    exact .drain ‹_›
  | exit =>
    rw [WriterState.step] at hstep
    split at hstep <;> cases hstep
    exact .exit ‹_›
  | _ =>
    cases hstep
    constructor

def producedOffset (baseOffset : Int64) (i : Nat) : Int64 := baseOffset + Int64.ofNat i

def Consecutive : Int → List Block → Int → Prop
  | lo, [], hi => lo = hi
  | lo, b :: rest, hi => b.start.toInt = lo ∧ Consecutive (lo + b.taken.length) rest hi

def Block.stored (b : Block) : List Record := stampAll b.start b.taken

def WriterState.pending (s : WriterState) : List Nat :=
  match s.writer with
  | .holding i => i :: s.appendCh
  | _ => s.appendCh

def CallPhase.sent : CallPhase → Prop
  | .sending => False
  | .waiting => True
  | .returned _ error => error ≠ some .partitionClosed

/-- The log of a partition that was opened on `l₀`: what it held then, followed
by the blocks. -/
structure Stored (crc : Checksum) (l₀ l : Log) (blocks : List Block) : Prop where
  log : WellFormed crc l
  lowest : l.lowestOffset = l₀.lowestOffset
  stored : storedRecords crc l = storedRecords crc l₀ ++ blocks.flatMap Block.stored
  consecutive : Consecutive l₀.highestOffset.toInt blocks l.highestOffset.toInt

/-- How calls and blocks belong together: every request is served once, a block
holds a first part of the batch of its call, and a call that succeeded has its
whole batch in a block. -/
structure Accounted (s : WriterState) : Prop where
  once : (s.blocks.map Block.call ++ s.pending).Nodup
  pending : ∀ i ∈ s.pending, ∃ records, s.calls[i]? = some ⟨records, .waiting⟩
  blocks : ∀ b ∈ s.blocks, ∃ c, s.calls[b.call]? = some c ∧ c.phase.sent ∧
    b.taken.map some <+: c.records
  replying : ∀ i base error, s.writer = .replying i base error →
    ∃ b ∈ s.blocks, b.call = i ∧ (error = none → b.start = base ∧
      ∃ c, s.calls[i]? = some c ∧ b.taken.map some = c.records)
  returned : ∀ (i : Nat) records base, s.calls[i]? = some ⟨records, .returned base none⟩ →
    ∃ b ∈ s.blocks, b.call = i ∧ b.start = base ∧ b.taken.map some = records

theorem consecutive_append {lo hi : Int} {xs ys : List Block} :
    Consecutive lo (xs ++ ys) hi ↔ ∃ mid, Consecutive lo xs mid ∧ Consecutive mid ys hi := by
  induction xs generalizing lo with
  | nil => simp [Consecutive]
  | cons b xs ih => simp [Consecutive, ih, and_assoc]

@[simp] theorem length_stored (b : Block) : b.stored.length = b.taken.length :=
  length_stampAll b.start b.taken

theorem Consecutive.length {lo hi : Int} {xs : List Block} (h : Consecutive lo xs hi) :
    hi = lo + (xs.flatMap Block.stored).length := by
  induction xs generalizing lo with
  | nil =>
    obtain rfl : lo = hi := h
    simp
  | cons b xs ih =>
    have hrest := ih h.2
    rw [List.flatMap_cons, List.length_append, length_stored]
    omega

/-- What becomes of calls: they keep their records, and a call that was sent
stays so. -/
def Kept (calls calls' : List Call) : Prop :=
  ∀ (i : Nat) c, calls[i]? = some c →
    ∃ c', calls'[i]? = some c' ∧ c'.records = c.records ∧ (c.phase.sent → c'.phase.sent)

section

variable {crc : Checksum} {l₀ : Log} {s s' : WriterState} {calls : List Call} {i : Nat}
  {c c' : Call}

theorem kept_concat (calls : List Call) (c : Call) : Kept calls (calls ++ [c]) := by
  intro j d hj
  have hlt := (List.getElem?_eq_some_iff.mp hj).1
  exact ⟨d, (List.getElem?_append_left hlt).trans hj, rfl, id⟩

theorem kept_set (hi : calls[i]? = some c) (hrecords : c'.records = c.records)
    (hsent : c.phase.sent → c'.phase.sent) : Kept calls (calls.set i c') := by
  intro j d hj
  by_cases hji : i = j
  · subst hji
    obtain rfl := Option.some.inj (hi.symm.trans hj)
    exact ⟨c', List.getElem?_set_self (List.getElem?_eq_some_iff.mp hi).1, hrecords, hsent⟩
  · exact ⟨d, (List.getElem?_set_ne hji).trans hj, rfl, id⟩

theorem Accounted.blocks_kept (h : Accounted s) {calls' : List Call} (hkept : Kept s.calls calls') :
    ∀ b ∈ s.blocks, ∃ c, calls'[b.call]? = some c ∧ c.phase.sent ∧
      b.taken.map some <+: c.records := by
  intro b hb
  obtain ⟨c, hc, hsent, hinitial⟩ := h.blocks b hb
  obtain ⟨c', hc', hrecords, hsent'⟩ := hkept b.call c hc
  exact ⟨c', hc', hsent' hsent, hrecords ▸ hinitial⟩

theorem Accounted.replying_kept (h : Accounted s) {calls' : List Call}
    (hkept : Kept s.calls calls') :
    ∀ i base error, s.writer = .replying i base error →
      ∃ b ∈ s.blocks, b.call = i ∧ (error = none → b.start = base ∧
        ∃ c, calls'[i]? = some c ∧ b.taken.map some = c.records) := by
  intro i base error hwriter
  obtain ⟨b, hb, hcall, hok⟩ := h.replying i base error hwriter
  refine ⟨b, hb, hcall, fun hnone => ?_⟩
  obtain ⟨hstart, c, hc, hall⟩ := hok hnone
  obtain ⟨c', hc', hrecords, -⟩ := hkept i c hc
  exact ⟨hstart, c', hc', hall.trans hrecords.symm⟩

theorem Accounted.not_sent (h : Accounted s) (hi : s.calls[i]? = some c) (hsent : ¬ c.phase.sent) :
    i ∉ s.blocks.map Block.call ∧ i ∉ s.pending := by
  constructor
  · intro hmem
    obtain ⟨b, hb, rfl⟩ := List.mem_map.mp hmem
    obtain ⟨d, hd, hdsent, -⟩ := h.blocks b hb
    obtain rfl := Option.some.inj (hi.symm.trans hd)
    exact hsent hdsent
  · intro hmem
    obtain ⟨records, hwaiting⟩ := h.pending i hmem
    obtain rfl := Option.some.inj (hi.symm.trans hwaiting)
    exact hsent trivial

theorem accounted_call (h : Accounted s) (records : List (Option Record)) :
    Accounted { s with calls := s.calls ++ [⟨records, .sending⟩] } := by
  have hkept := kept_concat s.calls ⟨records, .sending⟩
  refine ⟨h.once, ?_, h.blocks_kept hkept, h.replying_kept hkept, ?_⟩
  · intro j hj
    obtain ⟨records', hwaiting⟩ := h.pending j hj
    have hlt := (List.getElem?_eq_some_iff.mp hwaiting).1
    exact ⟨records', (List.getElem?_append_left hlt).trans hwaiting⟩
  · intro j records' base hreturned
    rw [List.getElem?_append] at hreturned
    split at hreturned
    · exact h.returned j records' base hreturned
    · rw [List.getElem?_singleton] at hreturned
      split at hreturned <;> cases hreturned

theorem accounted_send (h : Accounted s) {records : List (Option Record)}
    (hi : s.calls[i]? = some ⟨records, .sending⟩) :
    Accounted { s with
      appendCh := s.appendCh ++ [i]
      calls := s.calls.set i ⟨records, .waiting⟩ } := by
  obtain ⟨hblocks, hpending⟩ := h.not_sent hi (fun hsent => hsent)
  have hkept : Kept s.calls (s.calls.set i ⟨records, .waiting⟩) := kept_set hi rfl fun _ => trivial
  have hnew : WriterState.pending { s with
      appendCh := s.appendCh ++ [i]
      calls := s.calls.set i ⟨records, .waiting⟩ } = s.pending ++ [i] := by
    rw [WriterState.pending, WriterState.pending]
    cases s.writer <;> rfl
  refine ⟨?_, ?_, h.blocks_kept hkept, h.replying_kept hkept, ?_⟩
  · rw [hnew, ← List.append_assoc, ← List.concat_eq_append]
    refine List.Nodup.concat ?_ h.once
    rw [List.mem_append, not_or]
    exact ⟨hblocks, hpending⟩
  · intro j hj
    rw [hnew] at hj
    by_cases hji : i = j
    · subst hji
      exact ⟨records, List.getElem?_set_self (List.getElem?_eq_some_iff.mp hi).1⟩
    · rcases List.mem_append.mp hj with hold | hlast
      · obtain ⟨records', hwaiting⟩ := h.pending j hold
        exact ⟨records', (List.getElem?_set_ne hji).trans hwaiting⟩
      · exact absurd (List.mem_singleton.mp hlast).symm hji
  · intro j records' base hreturned
    rw [List.getElem?_set] at hreturned
    split at hreturned
    · split at hreturned <;> cases hreturned
    · exact h.returned j records' base hreturned

theorem accounted_return (h : Accounted s) {writer : WriterPhase} {base : Int64}
    {error : Option AppendError} (hi : s.calls[i]? = some c)
    (hpending : i ∉ s.pending) (hsent : c.phase.sent → error ≠ some .partitionClosed)
    (hwriter : WriterState.pending { s with writer := writer } = s.pending)
    (hreplying : ∀ j b e, writer = .replying j b e → s.writer = .replying j b e)
    (hok : error = none → ∃ b ∈ s.blocks, b.call = i ∧ b.start = base ∧
      b.taken.map some = c.records) :
    Accounted { s with
      writer := writer
      calls := s.calls.set i ⟨c.records, .returned base error⟩ } := by
  have hkept : Kept s.calls (s.calls.set i ⟨c.records, .returned base error⟩) :=
    kept_set hi rfl hsent
  have hsame : WriterState.pending { s with
      writer := writer
      calls := s.calls.set i ⟨c.records, .returned base error⟩ } = s.pending := hwriter
  refine ⟨?_, ?_, h.blocks_kept hkept,
    fun j b e hj => h.replying_kept hkept j b e (hreplying j b e hj), ?_⟩
  · rw [hsame]
    exact h.once
  · intro j hj
    rw [hsame] at hj
    obtain ⟨records, hwaiting⟩ := h.pending j hj
    have hji : i ≠ j := by
      rintro rfl
      exact hpending hj
    exact ⟨records, (List.getElem?_set_ne hji).trans hwaiting⟩
  · intro j records base' hreturned
    rw [List.getElem?_set] at hreturned
    split at hreturned
    · rename_i hij
      subst hij
      split at hreturned
      · cases hreturned
        exact hok rfl
      · cases hreturned
    · exact h.returned j records base' hreturned

theorem accounted_receive (h : Accounted s) {rest : List Nat} (hwriter : s.writer = .selecting)
    (hch : s.appendCh = i :: rest) :
    Accounted { s with writer := .holding i, appendCh := rest } := by
  have hsame : s.pending = i :: rest := by
    rw [WriterState.pending, hwriter, hch]
  refine ⟨?_, ?_, h.blocks, nofun, h.returned⟩
  · have honce := h.once
    rwa [hsame] at honce
  · have hpending := h.pending
    rwa [hsame] at hpending

theorem accounted_append (h : Accounted s) {log : Log} {base : Int64} {error : Option LogError}
    {start : Int64} {taken : List Record} (hwriter : s.writer = .holding i)
    (hi : s.calls[i]? = some c) (hinitial : taken.map some <+: c.records)
    (hok : error = none → start = base ∧ taken.map some = c.records) :
    Accounted { s with
      log := log
      writer := .replying i base error
      blocks := s.blocks ++ [⟨i, start, taken⟩] } := by
  have hsame : s.pending = i :: s.appendCh := by
    rw [WriterState.pending, hwriter]
  have hmem : (⟨i, start, taken⟩ : Block) ∈ s.blocks ++ [⟨i, start, taken⟩] := by simp
  refine ⟨?_, ?_, ?_, ?_, ?_⟩
  · have honce := h.once
    rw [hsame] at honce
    change (List.map Block.call (s.blocks ++ [⟨i, start, taken⟩]) ++ s.appendCh).Nodup
    rw [List.map_append, List.append_assoc]
    exact honce
  · have hpending := h.pending
    rw [hsame] at hpending
    exact fun j hj => hpending j (List.mem_cons_of_mem _ hj)
  · intro b hb
    rcases List.mem_append.mp hb with hold | hnew
    · exact h.blocks b hold
    · obtain rfl := List.mem_singleton.mp hnew
      obtain ⟨records, hwaiting⟩ := h.pending i (by rw [hsame]; simp)
      obtain rfl := Option.some.inj (hi.symm.trans hwaiting)
      exact ⟨_, hi, trivial, hinitial⟩
  · intro j base' error' heq
    cases heq
    exact ⟨_, hmem, rfl, fun hnone => ⟨(hok hnone).1, c, hi, (hok hnone).2⟩⟩
  · intro j records base' hreturned
    obtain ⟨b, hb, hrest⟩ := h.returned j records base' hreturned
    exact ⟨b, List.mem_append_left _ hb, hrest⟩

theorem stored_extends {l l' : Log} {blocks : List Block} (h : Stored crc l₀ l blocks) {b : Block}
    (hstart : b.start = l.highestOffset) (hextends : Extends crc l l' b.stored) :
    Stored crc l₀ l' (blocks ++ [b]) := by
  refine ⟨hextends.wellFormed, hextends.lowest.trans h.lowest, ?_, ?_⟩
  · rw [hextends.stored, h.stored, List.flatMap_append, List.append_assoc]
    simp
  · rw [consecutive_append]
    refine ⟨_, h.consecutive, congrArg Int64.toInt hstart, ?_⟩
    change l.highestOffset.toInt + b.taken.length = l'.highestOffset.toInt
    rw [hextends.highestOffset h.log, length_stored]

theorem taken_eq {records : List (Option Record)} {rs : List Record}
    (h : rs.map some <+: records) : (records.take rs.length).reduceOption = rs := by
  have htake := List.prefix_iff_eq_take.mp h
  rw [List.length_map] at htake
  rw [← htake]
  change (rs.map some).filterMap id = rs
  rw [List.filterMap_map]
  exact List.filterMap_some

structure Sound (crc : Checksum) (l₀ : Log) (s : WriterState) : Prop where
  stored : Stored crc l₀ s.log s.blocks
  accounted : Accounted s

theorem sound_append (h : Sound crc l₀ s) {env : Nat → Surroundings}
    (hwriter : s.writer = .holding i) (hi : s.calls[i]? = some c)
    (happend : s.append crc i c env = some s') : Sound crc l₀ s' := by
  rw [WriterState.append] at happend
  split at happend
  · rename_i hleft
    have hfst : (c.records.mapIdx fun j r => (r, env j)).map Prod.fst = c.records := by
      apply List.ext_getElem <;> simp
    obtain ⟨rs, hinitial, hextends, hok⟩ := appendBatch_spec h.stored.log
      (c.records.mapIdx fun j r => (r, env j)) (by simpa using hleft)
    rw [hfst] at hinitial hok
    have hgrown := hextends.highestOffset h.stored.log
    split at happend
    rename_i log base error heq
    rw [heq] at hextends hok hgrown
    have hcount : (log.highestOffset.toInt - s.log.highestOffset.toInt).toNat = rs.length := by
      rw [length_stampAll] at hgrown
      change log.highestOffset.toInt = _ at hgrown
      omega
    dsimp only at happend
    rw [hcount, taken_eq hinitial] at happend
    cases happend
    refine ⟨stored_extends h.stored rfl hextends,
      accounted_append h.accounted hwriter hi hinitial ?_⟩
    exact fun hnone => ⟨(hok hnone).2.2.symm, (hok hnone).1⟩
  · cases happend

theorem accounted_reply (h : Accounted s) {base : Int64} {error : Option LogError}
    (hwriter : s.writer = .replying i base error) (hi : s.calls[i]? = some c) :
    Accounted { s with
      writer := .selecting
      calls := s.calls.set i ⟨c.records, .returned base (error.map .log)⟩ } := by
  have hsame : WriterState.pending { s with writer := .selecting } = s.pending := by
    rw [WriterState.pending, WriterState.pending, hwriter]
  obtain ⟨b, hb, hcall, hok⟩ := h.replying i base error hwriter
  have hserved : i ∉ s.pending := by
    have hdisjoint := (List.nodup_append.mp h.once).2.2 i (hcall ▸ List.mem_map_of_mem hb)
    exact fun hmem => hdisjoint i hmem rfl
  have hlog : error.map AppendError.log ≠ some .partitionClosed := by
    cases error <;> simp
  refine accounted_return h hi hserved (fun _ => hlog) hsame nofun fun hnone => ?_
  obtain ⟨hstart, d, hd, hall⟩ := hok (Option.map_eq_none_iff.mp hnone)
  obtain rfl := Option.some.inj (hi.symm.trans hd)
  exact ⟨b, hb, hcall, hstart, hall⟩

theorem sound_step {e : WriterEvent} (h : Sound crc l₀ s) (hstep : s.step crc e = some s') :
    Sound crc l₀ s' := by
  have hstored := h.stored
  have haccounted := h.accounted
  cases writerStep_of_step hstep with
  | call => exact ⟨hstored, accounted_call haccounted _⟩
  | send hi hroom => exact ⟨hstored, accounted_send haccounted hi⟩
  | refuse hi hclosed =>
    have hunsent := (haccounted.not_sent hi fun hsent => hsent).2
    exact ⟨hstored, accounted_return haccounted hi hunsent (fun hsent => hsent.elim) rfl
      (fun _ _ _ hwriter => hwriter) nofun⟩
  | receive hwriter hch => exact ⟨hstored, accounted_receive haccounted hwriter hch⟩
  | append hwriter hi happend => exact sound_append h hwriter hi happend
  | reply hwriter hi => exact ⟨hstored, accounted_reply haccounted hwriter hi⟩
  | close =>
    exact ⟨hstored, haccounted.once, haccounted.pending, haccounted.blocks, haccounted.replying,
      haccounted.returned⟩
  | drain hready =>
    exact ⟨hstored, haccounted.once, haccounted.pending, haccounted.blocks, haccounted.replying,
      haccounted.returned⟩
  | exit hdone =>
    have hsame : WriterState.pending { s with writer := .exited } = s.pending := by
      rw [WriterState.pending, WriterState.pending, hdone.1]
    exact ⟨hstored, hsame ▸ haccounted.once, hsame ▸ haccounted.pending, haccounted.blocks,
      nofun, haccounted.returned⟩
  | @flush now =>
    have hflushed := runFlush_extends hstored.log now
    refine ⟨⟨hflushed.wellFormed, hflushed.lowest.trans hstored.lowest, ?_, ?_⟩,
      haccounted.once, haccounted.pending, haccounted.blocks, haccounted.replying,
      haccounted.returned⟩
    · rw [hflushed.stored, List.append_nil]
      exact hstored.stored
    · have hend := hflushed.highestOffset hstored.log
      rw [List.length_nil, Nat.cast_zero, add_zero] at hend
      change Consecutive _ s.blocks (s.log.runFlush now).highestOffset.toInt
      rw [hend]
      exact hstored.consecutive

theorem sound_newWriter (h : WellFormed crc l₀) : Sound crc l₀ (newWriter l₀) := by
  refine ⟨⟨h, rfl, ?_, rfl⟩, List.nodup_nil, ?_, ?_, nofun, ?_⟩
  · simp [newWriter]
  · intro i hi
    cases hi
  · intro b hb
    cases hb
  · simp [newWriter]

theorem getElem?_stampAll (base : Int64) (rs : List Record) (j : Nat) :
    (stampAll base rs)[j]? = rs[j]?.map (stamp (producedOffset base j)) := by
  induction rs generalizing base j with
  | nil => rfl
  | cons r rs ih =>
    cases j with
    | zero => simp [stampAll, producedOffset]
    | succ j =>
      rw [stampAll, List.getElem?_cons_succ, List.getElem?_cons_succ, ih]
      have hnext : producedOffset (base + 1) j = producedOffset base (j + 1) := by
        rw [producedOffset, producedOffset, Int64.ofNat_add, Int64.add_assoc, Int64.add_comm 1]
        rfl
      rw [hnext]

theorem Stored.read {l : Log} {blocks : List Block} {b : Block} {j : Nat} {r : Record}
    (h : Stored crc l₀ l blocks) (hl₀ : WellFormed crc l₀) (hb : b ∈ blocks)
    (hj : b.taken[j]? = some r) :
    l.read crc (producedOffset b.start j) = .ok (stamp (producedOffset b.start j) r) := by
  obtain ⟨xs, ys, rfl⟩ := List.append_of_mem hb
  obtain ⟨mid, hxs, hstart, -⟩ := consecutive_append.mp h.consecutive
  have hmid := hxs.length
  rw [hl₀.highestOffset, ← h.lowest] at hmid
  have hlt : j < b.taken.length := (List.getElem?_eq_some_iff.mp hj).1
  have hrange := h.log.range
  have hstored := h.stored
  rw [List.flatMap_append, List.flatMap_cons, ← List.append_assoc, ← List.append_assoc] at hstored
  rw [hstored] at hrange
  simp only [List.length_append, length_stored] at hrange
  have hoffset : (producedOffset b.start j).toInt = b.start.toInt + j :=
    toInt_add_ofNat (by omega)
  have hat : recordAt l.lowestOffset (storedRecords crc l) (producedOffset b.start j) =
      some (stamp (producedOffset b.start j) r) := by
    have hindex : ((producedOffset b.start j).toInt - l.lowestOffset.toInt).toNat =
        (storedRecords crc l₀ ++ xs.flatMap Block.stored).length + j := by
      rw [hoffset, List.length_append]
      omega
    rw [recordAt, if_pos (by omega), hindex, hstored, List.append_assoc,
      List.getElem?_append_right (by omega), Nat.add_sub_cancel_left,
      List.getElem?_append_left (by rw [length_stored]; exact hlt), Block.stored,
      getElem?_stampAll, hj]
    rfl
  have hspec := read_spec h.log (producedOffset b.start j)
  rwa [hat] at hspec

end

/-- What producers can rely on, for a partition that was opened on `l₀`. -/
structure Truthful (crc : Checksum) (l₀ : Log) (s : WriterState) : Prop where
  /-- A call that succeeded has its batch in one block, and every record is at
  the offset the client computes for it. -/
  succeeded : ∀ (i : Nat) records base, s.calls[i]? = some ⟨records, .returned base none⟩ →
    ∃ b ∈ s.blocks, b.call = i ∧ b.start = base ∧ b.taken.map some = records ∧
      ∀ (j : Nat) r, records[j]? = some (some r) →
        s.log.read crc (producedOffset base j) = .ok (stamp (producedOffset base j) r)
  /-- Whatever became of a call, it has stored a first part of its batch. -/
  initial : ∀ b ∈ s.blocks, ∃ c, s.calls[b.call]? = some c ∧ b.taken.map some <+: c.records ∧
    ∀ (j : Nat) r, b.taken[j]? = some r →
      s.log.read crc (producedOffset b.start j) = .ok (stamp (producedOffset b.start j) r)
  /-- A call that was refused has stored nothing. -/
  refused : ∀ (i : Nat) records base,
    s.calls[i]? = some ⟨records, .returned base (some .partitionClosed)⟩ →
    ∀ b ∈ s.blocks, b.call ≠ i
  /-- No call has two blocks. -/
  once : (s.blocks.map Block.call).Nodup
  /-- The blocks neither overlap nor leave a gap. -/
  consecutive : Consecutive l₀.highestOffset.toInt s.blocks s.log.highestOffset.toInt
  /-- The log holds the blocks and nothing else besides what it held before. -/
  stored : storedRecords crc s.log = storedRecords crc l₀ ++ s.blocks.flatMap Block.stored
  lowest : s.log.lowestOffset = l₀.lowestOffset
  /-- Exactly the offsets from the start of the log to its end can be read. -/
  filled : ∀ x : Int64, (∃ r, s.log.read crc x = .ok r) ↔
    s.log.lowestOffset ≤ x ∧ x < s.log.highestOffset

/-- Producers get truthful offsets in every run. -/
theorem produced_offsets_truthful {crc : Checksum} {cfg : Config} {l₀ : Log} {s : WriterState}
    {steps : List WriterEvent} (hlog : Reached crc cfg l₀)
    (hrun : Run (Guarded (fun _ _ => true) (WriterState.step crc)) (newWriter l₀) steps s) :
    Truthful crc l₀ s := by
  have hsound : Sound crc l₀ s :=
    hrun.invariant (sound_newWriter hlog.wellFormed) fun _ _ _ hs hstep => sound_step hs hstep.2
  have hstored := hsound.stored
  have haccounted := hsound.accounted
  have hread {b : Block} (hb : b ∈ s.blocks) (j : Nat) (r : Record) (hj : b.taken[j]? = some r) :
      s.log.read crc (producedOffset b.start j) = .ok (stamp (producedOffset b.start j) r) :=
    hstored.read hlog.wellFormed hb hj
  refine ⟨?_, ?_, ?_, (List.nodup_append.mp haccounted.once).1, hstored.consecutive, hstored.stored,
    hstored.lowest, ?_⟩
  · intro i records base hreturned
    obtain ⟨b, hb, hcall, rfl, rfl⟩ := haccounted.returned i records base hreturned
    refine ⟨b, hb, hcall, rfl, rfl, fun j r hj => hread hb j r ?_⟩
    simpa using hj
  · intro b hb
    obtain ⟨c, hc, -, hinitial⟩ := haccounted.blocks b hb
    exact ⟨c, hc, hinitial, hread hb⟩
  · rintro i records base hrefused b hb rfl
    obtain ⟨c, hc, hsent, -⟩ := haccounted.blocks b hb
    obtain rfl := Option.some.inj (hrefused.symm.trans hc)
    exact hsent rfl
  · intro x
    have hobserved := observed_abstraction hstored.log
    rw [Int64.le_iff_toInt_le, Int64.lt_iff_toInt_lt, hobserved.highest]
    constructor
    · rintro ⟨r, hr⟩
      by_contra hout
      obtain ⟨e, herror⟩ := hobserved.readError x hout
      rw [hr] at herror
      cases herror
    · rintro ⟨hlo, hhi⟩
      obtain ⟨r, -, -, hr⟩ := hobserved.read x hlo hhi
      exact ⟨r, hr⟩

/-- Two producers call at the same time; the second one is served first, and the
batch of the other one goes on in a new segment. -/
def twoProducers : List WriterEvent :=
  [.call [some (bareRecord 1), some (bareRecord 2)], .call [some (bareRecord 3)], .send 1, .send 0,
    .receive, .append fun _ => ⟨0, none⟩, .reply, .receive, .append fun _ => ⟨0, none⟩, .reply]

theorem produced_offsets_truthful_twoProducers :
    ∃ s, Run (Guarded (fun _ _ => true) (WriterState.step castagnoli)) (newWriter emptyLog)
        twoProducers s ∧
      s.calls[0]? = some ⟨[some (bareRecord 1), some (bareRecord 2)], .returned 1 none⟩ ∧
      s.log.read castagnoli 2 = .ok { bareRecord 2 with offset := 2 } := by
  have hend : (execute (fun _ _ => true) (WriterState.step castagnoli) (newWriter emptyLog)
      twoProducers).map (fun s => s.calls[0]?) =
      some (some ⟨[some (bareRecord 1), some (bareRecord 2)], .returned 1 none⟩) := by
    decide +kernel
  obtain ⟨s, hrun, hcall⟩ := exists_run_of_execute hend
  have htruthful := produced_offsets_truthful reached_small hrun
  obtain ⟨b, -, -, -, -, hread⟩ := htruthful.succeeded 0 _ _ hcall
  exact ⟨s, hrun, hcall, hread 1 (bareRecord 2) rfl⟩

end MiniKafka.PartitionWriter
