import Mathlib.Data.List.GetD
import MiniKafka.LogReads
import MiniKafka.Runs

/-!
A partition log refines a list of records with a lowest offset.

The model knows nothing of segments, indexes, buffers or files.  Rotation,
flushing, closing and reopening do not show in it; deleting old segments and
truncating are cuts at an offset.
-/

namespace MiniKafka.LogRefinement

open RecordCodec SegmentStore SegmentContents SegmentReads SegmentWrites PartitionLog LogContents
  LogWrites LogMaintenance LogReopen LogReads Runs

/-- The abstract log: the records from offset `lo` on. -/
@[ext]
structure ModelLog where
  lo : Int
  records : List Record

def ModelLog.leo (m : ModelLog) : Int := m.lo + m.records.length

/-- One call on a log, with what it returned. -/
inductive Event where
  | append (record : Option Record) (env : Surroundings) (offset : Int64)
      (error : Option LogError)
  | appendBatch (records : List (Option Record × Surroundings)) (base : Int64)
      (error : Option LogError)
  | rotate (env : Surroundings) (error : Option LogError)
  | flush
  | runFlush (now : Int)
  | truncate (offset : Int64) (refused : Int64 → Bool) (now : Int)
  | deleteOldest (count : Nat) (lowest : Int64)
  | reopen (modTime : Int64 → Int) (now : Int)

def Event.isReopen : Event → Bool
  | .reopen _ _ => true
  | _ => false

/-- The steps of a log opened with `cfg`.  An append needs offsets left for its
records, a truncation has to succeed and its offset is not negative.  A deletion of
segments is labelled with the base offset of the first one that stays. -/
def Step (crc : Checksum) (cfg : Config) (l : Log) : Event → Log → Prop
  | .append record env offset error, l' =>
    OffsetsLeft l 1 ∧ l.append crc record env = (l', offset, error)
  | .appendBatch records base error, l' =>
    OffsetsLeft l records.length ∧ l.appendBatch crc records = (l', base, error)
  | .rotate env error, l' => l.maybeRotate env = (l', error)
  | .flush, l' => l' = l.flushActive
  | .runFlush now, l' => l' = l.runFlush now
  | .truncate offset refused now, l' =>
    0 ≤ offset.toInt ∧ l.truncate crc offset refused now = (l', none)
  | .deleteOldest count lowest, l' =>
    l' = l.deleteOldest count ∧ lowest = (l.segments.getD count l.active).baseOffset
  | .reopen modTime now, l' => newLog crc cfg l.close.2 modTime now = .ok l'

def ModelStep (m : ModelLog) : Event → ModelLog → Prop
  | .append record _ offset none, m' =>
    ∃ r, record = some r ∧ offset.toInt = m.leo ∧
      m' = { m with records := m.records ++ [stamp offset r] }
  | .append _ _ _ (some _), m' => m' = m
  | .appendBatch records base error, m' =>
    ∃ taken start, taken.map some <+: records.map Prod.fst ∧ start.toInt = m.leo ∧
      m' = { m with records := m.records ++ stampAll start taken } ∧
      (error = none → taken.map some = records.map Prod.fst ∧ base = start)
  | .rotate _ _, m' => m' = m
  | .flush, m' => m' = m
  | .runFlush _, m' => m' = m
  | .truncate offset _ _, m' =>
    m' = if offset.toInt ≤ m.leo then
      ⟨min m.lo offset.toInt, m.records.take (offset.toInt - m.lo).toNat⟩ else m
  | .deleteOldest _ lowest, m' =>
    m.lo ≤ lowest.toInt ∧ lowest.toInt ≤ m.leo ∧
      m' = ⟨lowest.toInt, m.records.drop (lowest.toInt - m.lo).toNat⟩
  | .reopen _ _, m' => m' = m

/-- What the abstract log says about the calls that only observe. -/
structure Observed (crc : Checksum) (l : Log) (m : ModelLog) : Prop where
  lowest : l.lowestOffset.toInt = m.lo
  highest : l.highestOffset.toInt = m.leo
  read : ∀ x : Int64, m.lo ≤ x.toInt → x.toInt < m.leo →
    ∃ r, r.offset = x ∧ m.records[(x.toInt - m.lo).toNat]? = some r ∧ l.read crc x = .ok r
  readError : ∀ x : Int64, ¬ (m.lo ≤ x.toInt ∧ x.toInt < m.leo) → ∃ e, l.read crc x = .error e

/-- The calls that succeed: appends of records that can be encoded if no file operation
fails, reopening, and truncations unless the file system keeps a segment. -/
structure Succeeds (crc : Checksum) (cfg : Config) (l : Log) : Prop where
  append : l.config.segmentBytes.toInt ≤ maxUint32 → OffsetsLeft l 1 →
    ∀ r env, encodable r = true → env.fault = none →
      ∃ l', Step crc cfg l (.append (some r) env l.highestOffset none) l'
  appendBatch : l.config.segmentBytes.toInt ≤ maxUint32 → ∀ xs : List (Record × Surroundings),
    xs ≠ [] → OffsetsLeft l xs.length → (∀ x ∈ xs, encodable x.1 = true ∧ x.2.fault = none) →
      ∃ l', Step crc cfg l (.appendBatch (xs.map fun x => (some x.1, x.2)) l.highestOffset none) l'
  reopen : ∀ modTime now, ∃ l', Step crc cfg l (.reopen modTime now) l'
  truncate : ∀ offset refused now, 0 ≤ offset.toInt →
    firstRefused offset refused l.segments = none →
      ∃ l', Step crc cfg l (.truncate offset refused now) l'

def abstraction (crc : Checksum) (l : Log) : ModelLog :=
  ⟨l.lowestOffset.toInt, storedRecords crc l⟩

def Represents (crc : Checksum) (cfg : Config) (l : Log) (m : ModelLog) : Prop :=
  WellFormed crc l ∧ l.config = cfg.withDefaults ∧ m = abstraction crc l

section

variable {crc : Checksum} {cfg : Config} {l l' : Log}

theorem abstraction_leo (h : WellFormed crc l) :
    (abstraction crc l).leo = l.highestOffset.toInt := h.highestOffset.symm

theorem abstraction_extends {added : List Record} (h : Extends crc l l' added) :
    abstraction crc l' =
      { abstraction crc l with records := (abstraction crc l).records ++ added } := by
  rw [abstraction, abstraction, h.lowest, h.stored]

theorem observed_abstraction (h : WellFormed crc l) : Observed crc l (abstraction crc l) := by
  have hread := read_spec h
  refine ⟨rfl, (abstraction_leo h).symm, ?_, ?_⟩
  · intro x hlo hhi
    rw [abstraction_leo h] at hhi
    have hlo' : l.lowestOffset.toInt ≤ x.toInt := hlo
    obtain ⟨r, hat, hx⟩ := read_present h hlo' hhi
    rw [recordAt, if_pos hlo'] at hat
    obtain ⟨hi, rfl⟩ := List.getElem?_eq_some_iff.mp hat
    refine ⟨_, ?_, hat, hx⟩
    apply Int64.toInt_inj.mp
    rw [numbered_toInt (numbered_stored h) h.range.le _ hi]
    omega
  · intro x hout
    have hat : recordAt l.lowestOffset (storedRecords crc l) x = none := by
      rw [abstraction_leo h, h.highestOffset] at hout
      change ¬ (l.lowestOffset.toInt ≤ x.toInt ∧ _) at hout
      rw [recordAt]
      split
      · exact List.getElem?_eq_none (by omega)
      · rfl
    have hx := hread x
    rwa [hat] at hx

theorem runFlush_extends (h : WellFormed crc l) (now : Int) :
    Extends crc l (l.runFlush now) [] := by
  have hflush := flushActive_extends h
  rw [Log.runFlush]
  split
  · exact Extends.refl h
  · split
    · exact Extends.refl h
    · split
      · exact Extends.refl h
      · exact hflush.trans (extends_of_same_segments hflush.wellFormed hflush.wellFormed.isOpen
          rfl rfl rfl)

theorem represents_of_extends_nil (hcfg : l.config = cfg.withDefaults)
    (hextends : Extends crc l l' []) :
    Represents crc cfg l' (abstraction crc l) := by
  refine ⟨hextends.wellFormed, hextends.config.trans hcfg, ?_⟩
  rw [abstraction_extends hextends, List.append_nil]

theorem represents_of_extends {added : List Record} (hcfg : l.config = cfg.withDefaults)
    (hextends : Extends crc l l' added) :
    Represents crc cfg l'
      { abstraction crc l with records := (abstraction crc l).records ++ added } :=
  ⟨hextends.wellFormed, hextends.config.trans hcfg, (abstraction_extends hextends).symm⟩

theorem simulate_truncate (h : WellFormed crc l) (hcfg : l.config = cfg.withDefaults)
    {offset : Int64} (htruncated : Truncated crc l l' offset) :
    Represents crc cfg l'
      (if offset.toInt ≤ (abstraction crc l).leo then
        ⟨min (abstraction crc l).lo offset.toInt,
          (abstraction crc l).records.take (offset.toInt - (abstraction crc l).lo).toNat⟩
      else abstraction crc l) := by
  refine ⟨htruncated.wellFormed, htruncated.config.trans hcfg, ?_⟩
  rw [abstraction_leo h, h.highestOffset]
  split
  · rw [abstraction, abstraction, htruncated.lowest, htruncated.stored]
  · rw [abstraction, abstraction, htruncated.lowest, htruncated.stored,
      List.take_of_length_le (by omega), Int.min_eq_left (by omega)]

theorem lowestOffset_deleteOldest (hopen : l.closed = false) (count : Nat) :
    (l.deleteOldest count).lowestOffset = (l.segments.getD count l.active).baseOffset := by
  rw [Log.lowestOffset, if_neg (by simp [Log.deleteOldest, hopen]), Log.deleteOldest, Log.segments]
  rcases lt_trichotomy count l.sealed.length with hlt | heq | hgt
  · rw [List.drop_eq_getElem_cons hlt, List.getD_append _ _ _ _ hlt, List.getD_eq_getElem _ _ hlt]
  · rw [heq, List.drop_length, List.getD_append_right _ _ _ _ le_rfl, Nat.sub_self]
    rfl
  · rw [List.drop_of_length_le hgt.le, List.getD_eq_default _ _ (by simp; omega)]

theorem step_simulates (event : Event) (m : ModelLog) (hm : Represents crc cfg l m)
    (hstep : Step crc cfg l event l') : ∃ m', ModelStep m event m' ∧ Represents crc cfg l' m' := by
  obtain ⟨h, hcfg, rfl⟩ := hm
  cases event with
  | append record env offset error =>
    obtain ⟨hleft, hcall⟩ := hstep
    obtain ⟨l₁, e, heq, hextends⟩ | ⟨l₁, r, hr, heq, hextends⟩ := append_spec h hleft record env
    · rw [heq] at hcall
      obtain ⟨rfl, rfl, rfl⟩ : l₁ = l' ∧ 0 = offset ∧ some e = error := by simpa using hcall
      exact ⟨_, rfl, represents_of_extends_nil hcfg hextends⟩
    · rw [heq] at hcall
      obtain ⟨rfl, rfl, rfl⟩ : l₁ = l' ∧ l.highestOffset = offset ∧ none = error := by
        simpa using hcall
      exact ⟨_, ⟨r, hr, (abstraction_leo h).symm, rfl⟩, represents_of_extends hcfg hextends⟩
  | appendBatch records base error =>
    obtain ⟨hleft, hcall⟩ := hstep
    obtain ⟨taken, hinitial, hextends, hall⟩ := appendBatch_spec h records hleft
    rw [hcall] at hextends hall
    exact ⟨_, ⟨taken, l.highestOffset, hinitial, (abstraction_leo h).symm, rfl,
      fun herr => ⟨(hall herr).1, (hall herr).2.2⟩⟩, represents_of_extends hcfg hextends⟩
  | rotate env error =>
    have hextends := (maybeRotate_extends h env).1
    rw [show l.maybeRotate env = (l', error) from hstep] at hextends
    exact ⟨_, rfl, represents_of_extends_nil hcfg hextends⟩
  | flush =>
    obtain rfl : l' = l.flushActive := hstep
    exact ⟨_, rfl, represents_of_extends_nil hcfg (flushActive_extends h)⟩
  | runFlush now =>
    obtain rfl : l' = l.runFlush now := hstep
    exact ⟨_, rfl, represents_of_extends_nil hcfg (runFlush_extends h now)⟩
  | truncate offset refused now =>
    obtain ⟨hoffset, hcall⟩ := hstep
    exact ⟨_, rfl, simulate_truncate h hcfg (truncate_ok h hoffset hcall)⟩
  | deleteOldest count lowest =>
    obtain ⟨rfl, rfl⟩ := hstep
    obtain ⟨hwf, hconfig, hle, hstored⟩ := deleteOldest_spec h count
    rw [← lowestOffset_deleteOldest h.isOpen]
    refine ⟨_, ⟨hle, ?_, rfl⟩, hwf, hconfig.trans hcfg, ?_⟩
    · have hhighest := hwf.highestOffset
      rw [abstraction_leo h]
      change l.highestOffset.toInt = _ at hhighest
      omega
    · rw [abstraction, abstraction, hstored]
  | reopen modTime now =>
    obtain ⟨l₁, hnew, hreopened⟩ := reopen_spec h hcfg.symm modTime now
    obtain rfl : l₁ = l' := Except.ok.inj (hnew.symm.trans hstep)
    refine ⟨_, rfl, Reopened.wellFormed h hreopened, hreopened.config.trans hcfg, ?_⟩
    rw [abstraction, abstraction, Reopened.lowest h hreopened, Reopened.stored h hreopened]

theorem step_keeps_nextOffsets (event : Event) (hevent : event.isReopen = false)
    (h : WellFormed crc l) (hknown : NextOffsetsKnown crc l) (hstep : Step crc cfg l event l') :
    NextOffsetsKnown crc l' := by
  cases event with
  | append record env offset error =>
    obtain ⟨hleft, hcall⟩ := hstep
    obtain ⟨l₁, e, heq, hextends⟩ | ⟨l₁, r, hr, heq, hextends⟩ := append_spec h hleft record env
    · rw [heq] at hcall
      obtain rfl := (Prod.mk.inj hcall).1
      exact hextends.nextOffsets hknown
    · rw [heq] at hcall
      obtain rfl := (Prod.mk.inj hcall).1
      exact hextends.nextOffsets hknown
  | appendBatch records base error =>
    obtain ⟨hleft, hcall⟩ := hstep
    obtain ⟨taken, -, hextends, -⟩ := appendBatch_spec h records hleft
    rw [hcall] at hextends
    exact hextends.nextOffsets hknown
  | rotate env error =>
    have hextends := (maybeRotate_extends h env).1
    rw [show l.maybeRotate env = (l', error) from hstep] at hextends
    exact hextends.nextOffsets hknown
  | flush =>
    obtain rfl : l' = l.flushActive := hstep
    exact (flushActive_extends h).nextOffsets hknown
  | runFlush now =>
    obtain rfl : l' = l.runFlush now := hstep
    exact (runFlush_extends h now).nextOffsets hknown
  | truncate offset refused now =>
    obtain ⟨hoffset, hcall⟩ := hstep
    exact (truncate_ok h hoffset hcall).nextOffsets hknown
  | deleteOldest count lowest =>
    obtain ⟨rfl, -⟩ := hstep
    exact fun s hs => hknown s (List.mem_of_mem_drop hs)
  | reopen modTime now => simp [Event.isReopen] at hevent

theorem represents_newLog {modTime : Int64 → Int} {now : Int}
    (h : newLog crc cfg [] modTime now = .ok l) : Represents crc cfg l ⟨0, []⟩ := by
  obtain ⟨hwf, hstored, hlowest, -, hconfig⟩ := newLog_empty h
  refine ⟨hwf, hconfig, ?_⟩
  rw [abstraction, hlowest, hstored]
  rfl

/-- A log that was reached is well-formed. -/
theorem wellFormed_of_run {modTime : Int64 → Int} {now : Int} {l₀ : Log} {events : List Event}
    (hnew : newLog crc cfg [] modTime now = .ok l₀) (hrun : Run (Step crc cfg) l₀ events l) :
    WellFormed crc l ∧ l.config = cfg.withDefaults := by
  refine hrun.invariant (P := fun l => WellFormed crc l ∧ l.config = cfg.withDefaults) ?_ ?_
  · obtain ⟨h, hcfg, -⟩ := represents_newLog hnew
    exact ⟨h, hcfg⟩
  · rintro l event l' ⟨h, hcfg⟩ hstep
    obtain ⟨_, -, h', hcfg', -⟩ := step_simulates event _ ⟨h, hcfg, rfl⟩ hstep
    exact ⟨h', hcfg'⟩

def Reached (crc : Checksum) (cfg : Config) (l : Log) : Prop :=
  ∃ modTime now l₀ events, newLog crc cfg [] modTime now = .ok l₀ ∧
    Run (Step crc cfg) l₀ events l

theorem Reached.wellFormed (h : Reached crc cfg l) : WellFormed crc l := by
  obtain ⟨_, _, _, _, hnew, hrun⟩ := h
  exact (wellFormed_of_run hnew hrun).1

theorem nextOffsetsKnown_of_run {modTime : Int64 → Int} {now : Int} {l₀ : Log}
    {events : List Event} (hnew : newLog crc cfg [] modTime now = .ok l₀)
    (hrun : Run (Step crc cfg) l₀ events l) (hevents : ∀ e ∈ events, e.isReopen = false) :
    NextOffsetsKnown crc l := by
  refine (hrun.invariant_of_labels
    (P := fun l => (WellFormed crc l ∧ l.config = cfg.withDefaults) ∧ NextOffsetsKnown crc l)
    hevents ?_ ?_).2
  · obtain ⟨-, -, -, hsealed, -⟩ := newLog_empty hnew
    exact ⟨wellFormed_of_run hnew .nil, by simp [NextOffsetsKnown, hsealed]⟩
  · rintro l event l' hevent ⟨⟨h, hcfg⟩, hknown⟩ hstep
    obtain ⟨_, -, h', hcfg', -⟩ := step_simulates event _ ⟨h, hcfg, rfl⟩ hstep
    exact ⟨⟨h', hcfg'⟩, step_keeps_nextOffsets event hevent h hknown hstep⟩

theorem succeeds_of_wellFormed (h : WellFormed crc l) (hcfg : l.config = cfg.withDefaults) :
    Succeeds crc cfg l where
  append := by
    intro hsegment hleft r env hsize hfault
    obtain ⟨l', hone, -⟩ := appendOne_accepted h hsegment hleft (of_decide_eq_true hsize) hfault
    refine ⟨l', hleft, ?_⟩
    rw [Log.append, if_neg (by simp [h.isOpen]), hone]
  appendBatch := by
    intro hsegment xs hne hleft hfine
    have hleft' : OffsetsLeft l (xs.map fun x => (some x.1, x.2)).length := by
      rwa [List.length_map]
    have hnone : (l.appendBatch crc (xs.map fun x => (some x.1, x.2))).2.2 = none := by
      rw [Log.appendBatch, if_neg (by simp [h.isOpen]), if_neg (by simpa using hne)]
      refine (appendLoop_exact h hsegment xs hleft (fun x hx => (hfine x hx).2) none).2.mpr ?_
      simpa [List.all_map] using fun r env hx => (hfine (r, env) hx).1
    obtain ⟨_, -, -, hall⟩ := appendBatch_spec h _ hleft'
    exact ⟨_, hleft', Prod.ext rfl (Prod.ext (hall hnone).2.2 hnone)⟩
  reopen := by
    intro modTime now
    obtain ⟨l', hreopen, -⟩ := reopen_spec h hcfg.symm modTime now
    exact ⟨l', hreopen⟩
  truncate := by
    intro offset refused now hoffset hremove
    obtain ⟨l', htruncate, -⟩ := truncate_spec h hoffset hremove now
    exact ⟨l', hoffset, htruncate⟩

/-- Every run of a log follows a run of the abstract log, which answers every
observation; and a log that was reached takes what it can store, and can be reopened and
truncated. -/
theorem log_refines_model {modTime : Int64 → Int} {now : Int} {l₀ : Log} {events : List Event}
    (hnew : newLog crc cfg [] modTime now = .ok l₀) (hrun : Run (Step crc cfg) l₀ events l) :
    (∃ m, Run ModelStep ⟨0, []⟩ events m ∧ Observed crc l m) ∧ Succeeds crc cfg l := by
  obtain ⟨m, hfollow, h, hcfg, rfl⟩ :=
    hrun.simulation (represents_newLog hnew) fun _ event _ m hm hstep =>
      step_simulates event m hm hstep
  exact ⟨⟨_, hfollow, observed_abstraction h⟩, succeeds_of_wellFormed h hcfg⟩

end

theorem newLog_small :
    newLog castagnoli smallConfig [] (fun _ => 0) 0 = .ok emptyLog := by decide +kernel

theorem reached_small : Reached castagnoli smallConfig emptyLog := ⟨_, _, _, [], newLog_small, .nil⟩

def fiveRecords : List (Option Record × Surroundings) :=
  [1, 2, 3, 4, 5].map fun timestamp => (some (bareRecord timestamp), ⟨0, none⟩)

/-- Five records in three segments, of which the oldest is deleted and the newest cut off
before the log is closed and opened again. -/
def cutAndReopened : List Event :=
  [.appendBatch fiveRecords 0 none, .deleteOldest 1 2, .truncate 4 (fun _ => false) 0,
    .reopen (fun _ => 0) 0, .append (some (bareRecord 6)) ⟨0, none⟩ 4 none]

theorem log_refines_model_cutAndReopened :
    ∃ l m, Run (Step castagnoli smallConfig) emptyLog cutAndReopened l ∧
      Run ModelStep ⟨0, []⟩ cutAndReopened m ∧ Observed castagnoli l m ∧ m.lo = 2 ∧
        Succeeds castagnoli smallConfig l := by
  let batched := (emptyLog.appendBatch castagnoli fiveRecords).1
  let trimmed := ((batched.deleteOldest 1).truncate castagnoli 4 (fun _ => false) 0).1
  let reopened := (newLog castagnoli smallConfig trimmed.close.2 (fun _ => 0) 0).toOption.getD
    emptyLog
  let l := (reopened.append castagnoli (some (bareRecord 6)) ⟨0, none⟩).1
  have hbatch : emptyLog.appendBatch castagnoli fiveRecords = (batched, 0, none) := by
    decide +kernel
  have hlowest : 2 = (batched.segments.getD 1 batched.active).baseOffset := by decide +kernel
  have htruncate : (batched.deleteOldest 1).truncate castagnoli 4 (fun _ => false) 0 =
      (trimmed, none) := by
    decide +kernel
  have hreopen : newLog castagnoli smallConfig trimmed.close.2 (fun _ => 0) 0 = .ok reopened := by
    decide +kernel
  have happend : reopened.append castagnoli (some (bareRecord 6)) ⟨0, none⟩ = (l, 4, none) := by
    decide +kernel
  have hrun : Run (Step castagnoli smallConfig) emptyLog cutAndReopened l :=
    .cons ⟨by decide, hbatch⟩ (.cons ⟨rfl, hlowest⟩ (.cons ⟨by decide, htruncate⟩
      (.cons hreopen (.cons ⟨by decide +kernel, happend⟩ .nil))))
  obtain ⟨⟨m, hmodel, hobserved⟩, hsucceeds⟩ := log_refines_model newLog_small hrun
  have hlo : l.lowestOffset = 2 := by decide +kernel
  exact ⟨l, m, hrun, hmodel, hobserved, by rw [← hobserved.lowest, hlo]; rfl, hsucceeds⟩

end MiniKafka.LogRefinement
