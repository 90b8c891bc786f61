import MiniKafka.CrashFiles
import MiniKafka.ExactIndexes

/-!
The arithmetic of the index entries over whole runs.

What the indexes of a log need of its directory is that a segment which is opened
without a scan finds no bytes.  The directory then takes no part in appends and
truncations, and a recovery gives a log of the segments that are left.
-/

namespace MiniKafka.IndexArithmetic

open BigEndian BufferedWriter RecordCodec OffsetIndex SegmentStore SegmentContents SegmentWrites
  PartitionLog LogContents LogWrites LogMaintenance LogReopen CrashFiles ExactIndexes
  LogDirectory Runs

/-- The log of the directory is sound, and no segment is hidden among the strays. -/
structure SoundDirectory (crc : Checksum) (cfg : Config) (d : Directory) : Prop where
  log : Sound crc cfg d.log
  strays : ∀ f ∈ d.strays, f.logFile.isSome = true → f.baseOffset.toInt < 0

section

variable {crc : Checksum} {cfg : Config} {d d' : Directory} {l : Log}

variable {now : Int} {env : Conditions} {record : Option Record} {offset : Int64}

theorem log_settle (d : Directory) (l : Log) : (d.settle l).log = l := by
  rw [Directory.settle]
  split
  · rfl
  · rfl

theorem mem_strays_settle {f : Stray} (hf : f ∈ (d.settle l).strays) : f ∈ d.strays := by
  rw [Directory.settle] at hf
  split at hf
  · exact hf
  · exact (List.mem_filter.mp hf).1

theorem SoundDirectory.settle (hlog : Sound crc cfg l)
    (hstrays : ∀ f ∈ d.strays, f.logFile.isSome = true → f.baseOffset.toInt < 0) :
    SoundDirectory crc cfg (d.settle l) :=
  ⟨by rwa [log_settle], fun f hf => hstrays f (mem_strays_settle hf)⟩

theorem adopt_vacant {strays : List Stray} {base : Int64} {s : Segment}
    (hnew : newSegment base [] [] now now cfg = .ok s) (hvacant : vacant strays base = true) :
    adopt strays cfg now s = s := by
  have hbase : s.baseOffset = base := by
    obtain ⟨index, -, rfl⟩ := newSegment_eq_ok hnew
    rfl
  rw [adopt, hbase]
  cases hstray : strayAt strays base with
  | none => rfl
  | some f =>
    rw [vacant, hstray] at hvacant
    obtain ⟨hlog, hindex⟩ : f.logFile.getD [] = [] ∧ f.indexFile = [] := by simpa using hvacant
    have hsame : newSegment base [] [] f.modTime now cfg = newSegment base [] [] now now cfg := by
      simp [newSegment]
    dsimp only
    rw [hlog, hindex, hsame, hnew]

theorem rotate_eq_none {env : Surroundings} {m : Log} (h : l.rotate env = (m, none)) :
    newSegment l.active.nextOffset [] [] env.now env.now l.config = .ok m.active ∧
      m.config = l.config ∧ env.fault = none ∧ l.active.closed = false := by
  rw [Log.rotate, Segment.flush] at h
  by_cases hclosed : l.active.closed = true
  · rw [if_pos hclosed] at h
    cases h
  rw [if_neg hclosed] at h
  dsimp only at h
  split at h
  · cases h
  · rename_i hsync
    split at h
    · cases h
    · rename_i hfiles
      split at h
      · cases h
      · rename_i incoming hnew
        cases h
        refine ⟨hnew, rfl, ?_, by simpa using hclosed⟩
        cases hfault : env.fault with
        | none => rfl
        | some fault =>
          cases fault with
          | sync => exact absurd hfault hsync
          | openFiles => exact absurd hfault hfiles

theorem abandon_nothing (h : env.created = none) (e : LogError) :
    d.abandon env e = d := by
  unfold Directory.abandon
  rw [h]
  cases e <;> rfl

theorem maybeRotate_free (hrecord : record ≠ none) (hfree : d.appendFree record env = true) :
    OffsetsLeft d.log 1 ∧ env.created = none ∧
      d.maybeRotate env = d.log.maybeRotate env.toSurroundings := by
  obtain ⟨r, rfl⟩ := Option.ne_none_iff_exists'.mp hrecord
  simp only [Directory.appendFree, Option.isNone_some, Bool.false_or, Bool.and_eq_true,
    decide_eq_true_eq, Bool.or_eq_true, Bool.not_eq_true', Option.isNone_iff_eq_none] at hfree
  obtain ⟨⟨hleft, hcreated⟩, hvacant⟩ := hfree
  refine ⟨hleft, hcreated, ?_⟩
  rw [Directory.maybeRotate, Log.maybeRotate]
  by_cases hrotate : d.log.shouldRotate env.now = true
  · rw [if_pos hrotate, if_pos hrotate, Directory.rotate]
    cases hres : d.log.rotate env.toSurroundings with
    | mk m err =>
      cases err with
      | some e => rfl
      | none =>
        obtain ⟨hnew, hconfig, hfault, hopen⟩ := rotate_eq_none hres
        simp only [hopen, hfault, hrotate, Option.isSome_none, Bool.false_eq_true,
          Bool.true_eq_false, false_or] at hvacant
        have hsame : adopt (d.standing env.now) m.config env.now m.active = m.active := by
          rw [hconfig]
          exact adopt_vacant hnew hvacant
        dsimp only
        rw [hsame]
  · rw [if_neg hrotate, if_neg hrotate]

theorem appendOne_free (crc : Checksum) (hfree : d.appendFree record env = true) :
    (d.appendOne crc record env).1.log =
        (d.log.appendOne crc record env.toSurroundings).1 ∧
      (∀ f ∈ (d.appendOne crc record env).1.strays, f ∈ d.strays) ∧
      (d.appendOne crc record env).2 = (d.log.appendOne crc record env.toSurroundings).2 := by
  cases record with
  | none => exact ⟨rfl, fun f hf => hf, rfl⟩
  | some r =>
    obtain ⟨-, hcreated, hrotate⟩ := maybeRotate_free (by simp) hfree
    rw [Directory.appendOne, Log.appendOne, hrotate]
    rcases d.log.maybeRotate env.toSurroundings with ⟨m, _ | e⟩
    · dsimp only
      rcases m.active.append crc r with ⟨active, e | offset⟩
      · exact ⟨log_settle _ _, fun f hf => mem_strays_settle hf, rfl⟩
      · exact ⟨log_settle _ _, fun f hf => mem_strays_settle hf, rfl⟩
    · dsimp only
      rw [abandon_nothing hcreated]
      exact ⟨log_settle _ _, fun f hf => mem_strays_settle hf, rfl⟩

theorem appendOne_step (hcfg : ValidConfig cfg) (h : SoundDirectory crc cfg d)
    (hfree : d.appendFree record env = true) :
    SoundDirectory crc cfg (d.appendOne crc record env).1 ∧
      ∀ e, (d.appendOne crc record env).2 = .error e → indexOverflow e = false := by
  obtain ⟨hlog, hstrays, hresult⟩ := appendOne_free crc hfree
  obtain ⟨hsound, herror⟩ := appendOne_sound hcfg h.log
    (fun hrecord => (maybeRotate_free hrecord hfree).1) env.toSurroundings
  rw [hresult]
  exact ⟨⟨by rwa [hlog], fun f hf => h.strays f (hstrays f hf)⟩, herror⟩

theorem appendLoop_step (hcfg : ValidConfig cfg) (base : Option Int64)
    {records : List (Option Record × Conditions)} (h : SoundDirectory crc cfg d)
    (hfree : Directory.batchFree crc records d = true) :
    SoundDirectory crc cfg (Directory.appendLoop crc base records d).1 ∧
      ∀ e, (Directory.appendLoop crc base records d).2.2 = some e → indexOverflow e = false := by
  induction records generalizing d base with
  | nil => exact ⟨h, by simp [Directory.appendLoop]⟩
  | cons x rest ih =>
    obtain ⟨record, env⟩ := x
    rw [Directory.batchFree, Bool.and_eq_true] at hfree
    obtain ⟨hsound, herror⟩ := appendOne_step hcfg h hfree.1
    have hrest := hfree.2
    rw [Directory.appendLoop]
    cases hres : d.appendOne crc record env with
    | mk d₁ result =>
      rw [hres] at hsound herror hrest
      cases result with
      | error e => exact ⟨hsound, by rintro e' ⟨⟩; exact herror e rfl⟩
      | ok offset => exact ih _ hsound hrest

theorem log_removeAll (d : Directory) (segments : List Segment) :
    (d.removeAll segments).log = d.log := by
  induction segments generalizing d with
  | nil => rfl
  | cons s rest ih => exact ih (d.remove s)

theorem mem_strays_removeAll {segments : List Segment} {f : Stray}
    (hf : f ∈ (d.removeAll segments).strays) : f ∈ d.strays := by
  induction segments generalizing d with
  | nil => exact hf
  | cons s rest ih => exact (List.mem_filter.mp (ih hf)).1

theorem removeFirst_spec (d : Directory) (segments : List Segment) (count : Nat) (half : Bool) :
    (d.removeFirst segments count half).log = d.log ∧
      ∀ f ∈ (d.removeFirst segments count half).strays, f.logFile.isSome = true → f ∈ d.strays := by
  have hall : (d.removeAll (segments.take count)).log = d.log ∧
      ∀ f ∈ (d.removeAll (segments.take count)).strays, f.logFile.isSome = true → f ∈ d.strays :=
    ⟨log_removeAll d _, fun f hf _ => mem_strays_removeAll hf⟩
  rw [Directory.removeFirst]
  split
  · exact hall
  · split
    · rw [Directory.removeLog]
      split
      · exact hall
      · refine ⟨hall.1, fun f hf hsome => ?_⟩
        rcases List.mem_cons.mp hf with rfl | hmem
        · cases hsome
        · exact hall.2 f hmem hsome
    · exact hall

theorem firstRefused_eq_none {refused : Int64 → Bool}
    (h : firstRefused offset refused l.segments = none) :
    ∀ s ∈ doomed l offset, refused s.baseOffset = false := by
  intro s hs
  rw [firstRefused, Option.map_eq_none_iff, List.find?_eq_none] at h
  simpa using h s hs

theorem truncate_eq_none {refused : Int64 → Bool} {m : Log} (hopen : l.closed = false)
    (hkept : kept l offset = []) (h : l.truncate crc offset refused now = (m, none)) :
    firstRefused offset refused l.segments = none ∧ m.config = l.config ∧
      newSegment offset [] [] now now l.config = .ok m.active := by
  rw [Log.truncate, if_neg (by simp [hopen])] at h
  cases hfirst : firstRefused offset refused l.segments with
  | some base =>
    rw [hfirst] at h
    cases h
  | none =>
    rw [hfirst] at h
    dsimp only at h
    rw [← kept, hkept, List.getLast?_nil] at h
    dsimp only at h
    split at h
    · cases h
    · rename_i active hnew
      cases h
      exact ⟨rfl, rfl, hnew⟩

theorem truncate_free (crc : Checksum) {removals : Removals} (hopen : d.log.closed = false)
    (hfree : d.Free crc (.truncate offset removals now) = true) :
    (d.truncate crc offset removals now).1.log =
        (d.log.truncate crc offset removals.refused now).1 ∧
      (∀ f ∈ (d.truncate crc offset removals now).1.strays, f.logFile.isSome = true →
        f ∈ d.strays) ∧
      (d.truncate crc offset removals now).2 =
        (d.log.truncate crc offset removals.refused now).2 := by
  simp only [Directory.Free, Bool.or_eq_true, Bool.not_eq_true', List.any_eq_true] at hfree
  rw [Directory.truncate, if_neg (by simp [hopen])]
  dsimp only
  generalize hcount : ((doomed d.log offset).takeWhile fun s =>
    !removals.refused s.baseOffset).length = count
  obtain ⟨-, hstrays⟩ := removeFirst_spec d (doomed d.log offset) count removals.half
  cases hres : d.log.truncate crc offset removals.refused now with
  | mk m err =>
    cases err with
    | some e => exact ⟨log_settle _ _, fun f hf => hstrays f (mem_strays_settle hf), rfl⟩
    | none =>
      dsimp only
      split
      · rename_i hempty
        obtain ⟨hfirst, hconfig, hnew⟩ :=
          truncate_eq_none hopen (List.isEmpty_iff.mp hempty) hres
        have hgone := firstRefused_eq_none hfirst
        -- Nothing was refused, so the removals are those of all the segments.
        have hall : d.removeFirst (doomed d.log offset) count removals.half =
            d.removeAll (doomed d.log offset) := by
          rw [List.takeWhile_eq_self_iff.mpr fun s hs => by simp [hgone s hs]] at hcount
          rw [Directory.removeFirst, ← hcount, List.getElem?_length, List.take_length]
        have hvacant : vacant (d.removeAll (doomed d.log offset)).strays offset = true := by
          rcases hfree with (hkept | ⟨s, hs, hrefused⟩) | hvacant
          · simp [hempty] at hkept
          · simp [hgone s hs] at hrefused
          · exact hvacant
        have hsame : adopt (d.removeAll (doomed d.log offset)).strays m.config now m.active =
            m.active := by
          rw [hconfig]
          exact adopt_vacant hnew hvacant
        rw [hall] at hstrays ⊢
        rw [hsame]
        exact ⟨log_settle _ _, fun f hf => hstrays f (mem_strays_settle hf), rfl⟩
      · exact ⟨log_settle _ _, fun f hf => hstrays f (mem_strays_settle hf), rfl⟩

end

def surviving (d : Directory) : List Segment :=
  (d.log.segments.filter fun s => !d.removed.contains s.baseOffset).filter fun s =>
    decide (0 ≤ s.baseOffset)

/-- The records of a segment that are in its file once the process has ended, `written`
bytes of the active segment among them. -/
def remains (crc : Checksum) (l : Log) (written : Nat) (s : Segment) : List Record :=
  if s.baseOffset = l.active.baseOffset then wholeRecords written (segmentRecords crc s)
  else segmentRecords crc s

theorem remains_initial (crc : Checksum) (l : Log) (written : Nat) (s : Segment) :
    remains crc l written s <+: segmentRecords crc s := by
  rw [remains]
  split
  · exact wholeRecords_initial _ _
  · exact List.prefix_rfl

section

variable {crc : Checksum} {cfg : Config} {d : Directory} {l : Log} {init : List Segment}
  {last : Segment} {ending : Ending} {modTime : Int64 → Int} {now : Int}

theorem surviving_sublist (d : Directory) : List.Sublist (surviving d) d.log.segments :=
  List.filter_sublist.trans List.filter_sublist

theorem scanSegments_left (h : SoundDirectory crc cfg d) (ending : Ending) :
    scanSegments (d.left ending) = (surviving d).map (d.filesOf ending) := by
  have hstrays : ((d.strays.filterMap Stray.files).filter fun f =>
      decide (0 ≤ f.baseOffset)) = [] := by
    refine List.filter_eq_nil_iff.mpr fun g hg => ?_
    obtain ⟨f, hf, hfiles⟩ := List.mem_filterMap.mp hg
    obtain ⟨logFile, hlog, rfl⟩ := Option.map_eq_some_iff.mp hfiles
    have hnegative := h.strays f hf (by simp [hlog])
    rw [decide_eq_true_eq, Int64.le_iff_toInt_le, Int64.toInt_zero]
    exact not_le.mpr hnegative
  rw [scanSegments, Directory.left, List.filter_append, hstrays, List.append_nil, List.filter_map]
  apply List.Pairwise.insertionSort_eq
  have hsorted := h.log.increasing.sublist ((surviving_sublist d).map _)
  refine List.pairwise_map.mpr ((List.pairwise_map.mp hsorted).imp fun hlt => ?_)
  exact hlt.le

theorem reopened_sound (hcfg : ValidConfig cfg) {s : Segment} (h : SoundSegment crc cfg s) :
    SoundSegment crc cfg (reopened cfg modTime now s) ∧
      segmentRecords crc (reopened cfg modTime now s) = segmentRecords crc s := by
  have hstores : Stores crc (reopened cfg modTime now s) (segmentRecords crc s) :=
    reopened_stores h.stores h.unclosed_configured hcfg.indexRoom modTime now
  exact ⟨soundSegment_of_stores hstores (reopened_configured modTime now) h.range,
    segmentRecords_eq hstores⟩

theorem logFile_filesOf (h : SoundDirectory crc cfg d) {s : Segment} (hs : s ∈ d.log.segments)
    (ending : Ending) :
    ∃ cut, (d.filesOf ending s).logFile = s.writer.contents.take cut ∧
      wholeRecords cut (segmentRecords crc s) = remains crc d.log ending.written s := by
  rw [Directory.filesOf, remains]
  dsimp only
  split
  · exact ⟨_, rfl, rfl⟩
  · rename_i hbase
    have hsealed : s ∈ d.log.sealed := by
      refine (List.mem_append.mp hs).resolve_right fun hactive => hbase ?_
      rw [List.mem_singleton.mp hactive]
    have hcontents : s.writer.contents = image crc (segmentRecords crc s) :=
      (h.log.segments s hs).stores.contents
    refine ⟨s.writer.contents.length, ?_, wholeRecords_of_le ?_⟩
    · rw [List.take_length, Writer.contents, (h.log.sealed s hsealed).2, List.append_nil]
    · rw [hcontents, length_image]

/-- `NewLog` reopens the sealed segments and scans the last one, of which a part is
left. -/
theorem newLog_surviving (hcfg : ValidConfig cfg) (h : SoundDirectory crc cfg d)
    (hsurviving : surviving d = init ++ [last]) :
    ∃ l, newLog crc cfg (d.left ending) modTime now = .ok l ∧
      Recovered crc cfg modTime now init last (remains crc d.log ending.written last) l := by
  have hsub := surviving_sublist d
  rw [hsurviving] at hsub
  have hlast := h.log.segments last (hsub.subset (by simp))
  obtain ⟨cut, hfile, hremains⟩ :=
    logFile_filesOf h (hsub.subset (by simp : last ∈ init ++ [last])) ending
  obtain ⟨t, u, hnew, hrebuild, hbase, hwritable, hconfigured⟩ :=
    recover_cut hlast.stores hlast.unclosed_configured hcfg.defaults hcfg.indexRoom cut
      (d.filesOf ending last).indexFile (modTime last.baseOffset) now
  have hopened : openSegments cfg.withDefaults modTime now (scanSegments (d.left ending)) =
      .ok (init.map (reopened cfg modTime now) ++ [t]) := by
    rw [hcfg.defaults, scanSegments_left h, hsurviving, List.map_append]
    refine openSegments_concat (openSegments_map fun s hs => ?_) ?_
    · have hsealed := (sublist_sealed hsub).subset hs
      have hpadded := newSegment_padded (h.log.sealedSegment hsealed) hcfg.defaults
        (ending.padding s.baseOffset) modTime now
      rw [Directory.filesOf]
      dsimp only
      rw [if_neg fun hbase => (h.log.base_lt_active hsealed).ne (congrArg Int64.toInt hbase)]
      exact hpadded
    · rw [hfile]
      exact hnew
  rw [← hremains]
  exact ⟨_, newLog_scanned hopened hrebuild, rfl, hcfg.defaults, rfl, hbase, hwritable,
    hconfigured⟩

theorem recovered_sound (hcfg : ValidConfig cfg) (h : Sound crc cfg l)
    (hsub : List.Sublist (init ++ [last]) l.segments) {rs : List Record} {l' : Log}
    (hinitial : rs <+: segmentRecords crc last)
    (hrecovered : Recovered crc cfg modTime now init last rs l') : Sound crc cfg l' := by
  have hinit : ∀ s ∈ init, s ∈ l.sealed := fun s hs => (sublist_sealed hsub).subset hs
  have hsegments : ∀ s ∈ init ++ [last], SoundSegment crc cfg s := fun s hs =>
    h.segments s (hsub.subset hs)
  refine ⟨hrecovered.isOpen, hrecovered.config, ?_, ?_, fun _ => ?_, ?_⟩
  · intro s hs
    rw [Log.segments, hrecovered.sealed] at hs
    rcases List.mem_append.mp hs with hmem | hmem
    · obtain ⟨x, hx, rfl⟩ := List.mem_map.mp hmem
      exact (reopened_sound hcfg (hsegments x (List.mem_append_left _ hx))).1
    · rw [List.mem_singleton.mp hmem]
      refine soundSegment_of_stores hrecovered.active.toStores hrecovered.configured ?_
      have hfewer := hinitial.length_le
      have hrange := (hsegments last (by simp)).range
      rw [hrecovered.baseOffset]
      omega
  · intro s hs
    rw [hrecovered.sealed] at hs
    obtain ⟨x, hx, rfl⟩ := List.mem_map.mp hs
    rw [(reopened_sound hcfg (hsegments x (List.mem_append_left _ hx))).2]
    exact ⟨(h.sealed x (hinit x hx)).1, rfl⟩
  · rw [segmentRecords_eq hrecovered.active.toStores]
    exact hrecovered.active
  · have hbases := h.increasing.sublist (hsub.map fun s => s.baseOffset.toInt)
    simpa [Log.segments, Function.comp_def, reopened, hrecovered.sealed, hrecovered.baseOffset]
      using hbases

theorem strays_passedOver (d : Directory) (ending : Ending) (modTime : Int64 → Int) :
    ∀ f ∈ d.passedOver ending modTime, f.logFile.isSome = true → f.baseOffset.toInt < 0 := by
  intro f hf hsome
  rcases List.mem_append.mp hf with hmem | hmem
  · obtain ⟨g, hg, rfl⟩ := List.mem_map.mp hmem
    have hnegative := (List.mem_filter.mp hg).2
    rwa [decide_eq_true_eq, Int64.lt_iff_toInt_lt, Int64.toInt_zero] at hnegative
  · have hnone := (List.mem_filter.mp hmem).2
    rw [Option.isNone_iff_eq_none] at hnone
    rw [hnone] at hsome
    cases hsome

theorem SoundDirectory.interrupt (h : SoundDirectory crc cfg d) (ending : Ending) :
    SoundDirectory crc cfg (d.interrupt ending) ∧ (d.interrupt ending).log = d.log := by
  rw [Directory.interrupt]
  split
  · exact ⟨h, rfl⟩
  · rename_i i _
    obtain ⟨hlog, hstrays⟩ := removeFirst_spec d (doomed d.log i.offset) i.removals i.half
    exact ⟨⟨by rw [hlog]; exact h.log, fun f hf hsome => h.strays f (hstrays f hf hsome) hsome⟩,
      hlog⟩

theorem recover_eq
    (hnew : newLog crc d.log.config ((d.interrupt ending).left ending) modTime now = .ok l) :
    d.recover crc ending modTime now = .ok (Directory.settle
      ⟨l, [], (d.interrupt ending).passedOver ending modTime⟩
      (if (scanSegments ((d.interrupt ending).left ending)).isEmpty then
        { l with
          active := adopt ((d.interrupt ending).passedOver ending modTime) l.config now l.active }
      else l)) := by
  rw [Directory.recover]
  rw [hnew]
  dsimp only
  split
  · rfl
  · rfl

theorem recover_step (hcfg : ValidConfig cfg) (h : SoundDirectory crc cfg d)
    (hfree : d.Free crc (.recover ending modTime now) = true) :
    ∃ d', d.recover crc ending modTime now = .ok d' ∧ SoundDirectory crc cfg d' := by
  obtain ⟨hbefore, hlog⟩ := h.interrupt ending
  have hstrays := strays_passedOver (d.interrupt ending) ending modTime
  have hscan := scanSegments_left hbefore ending
  simp only [Directory.Free, Bool.or_eq_true, Bool.not_eq_true'] at hfree
  rcases List.eq_nil_or_concat' (surviving (d.interrupt ending)) with hnone | ⟨init, last, hsome⟩
  · rw [hnone, List.map_nil] at hscan
    obtain ⟨active, hactive⟩ := hcfg.opens 0 now
    have hvacant : vacant ((d.interrupt ending).passedOver ending modTime) 0 = true := by
      rcases hfree with hfound | hvacant
      · simp [hscan] at hfound
      · exact hvacant
    have hnew := newLog_unscanned crc cfg hscan modTime now
    rw [hcfg.defaults, hactive] at hnew
    dsimp only [Except.mapError, Except.map] at hnew
    rw [← h.log.config] at hnew
    rw [recover_eq hnew, if_pos (by simp [hscan])]
    dsimp only
    rw [h.log.config, adopt_vacant hactive hvacant]
    exact ⟨_, rfl, .settle (sound_fresh hcfg rfl rfl rfl hactive) hstrays⟩
  · obtain ⟨l, hnew, hrecovered⟩ := newLog_surviving hcfg hbefore hsome
    have hsound := recovered_sound hcfg hbefore.log (hsome ▸ surviving_sublist _)
      (remains_initial crc _ _ last) hrecovered
    rw [← h.log.config] at hnew
    rw [recover_eq hnew, if_neg (by simp [hscan, hsome])]
    exact ⟨_, rfl, .settle hsound hstrays⟩

/-- What one event does: the directory stays sound, and no call is refused for an index
or a position. -/
theorem outcome_step (hcfg : ValidConfig cfg) (h : SoundDirectory crc cfg d) {event : Event}
    (hfree : d.Free crc event = true) :
    (∀ d', next crc d event = some d' → SoundDirectory crc cfg d') ∧
      ∀ e, (d.outcome crc event).2 = some e → indexOverflow e = false := by
  have hopen := h.log.isOpen
  cases event with
  | append record env =>
    obtain ⟨hsound, herror⟩ := appendOne_step hcfg h hfree
    rw [next, Directory.outcome, Directory.append, if_neg (by simp [hopen])]
    rcases hres : d.appendOne crc record env with ⟨d₁, e | offset⟩
    · rw [hres] at hsound herror
      exact ⟨by rintro d' ⟨⟩; exact hsound, by rintro e' ⟨⟩; exact herror e rfl⟩
    · rw [hres] at hsound
      exact ⟨by rintro d' ⟨⟩; exact hsound, by rintro e ⟨⟩⟩
  | appendBatch records =>
    obtain ⟨hsound, herror⟩ := appendLoop_step hcfg none h hfree
    rw [next, Directory.outcome, Directory.appendBatch, if_neg (by simp [hopen])]
    split
    · exact ⟨by rintro d' ⟨⟩; exact h, by rintro e ⟨⟩; rfl⟩
    · exact ⟨by rintro d' ⟨⟩; exact hsound, herror⟩
  | truncate offset removals now =>
    obtain ⟨hlog, hstrays, herror⟩ := truncate_free crc hopen hfree
    obtain ⟨hsound, hrefused⟩ := truncate_sound hcfg h.log offset removals.refused now
    rw [next, Directory.outcome, herror]
    refine ⟨?_, hrefused⟩
    rintro d' ⟨⟩
    exact ⟨by rwa [hlog], fun f hf hsome => h.strays f (hstrays f hf hsome) hsome⟩
  | recover ending modTime now =>
    obtain ⟨d₁, hd₁, hsound⟩ := recover_step hcfg h hfree
    rw [next, Directory.outcome, hd₁]
    exact ⟨by rintro d' ⟨⟩; exact hsound, by rintro e ⟨⟩⟩

end

theorem newIndex_error {file : Bytes} {maxBytes : Int64} {e : IndexError}
    (h : newIndex file maxBytes = .error e) : e ≠ .indexFull := by
  rw [newIndex] at h
  split at h
  · cases h
    simp
  · dsimp only at h
    split at h
    · cases h
      simp
    · cases h

theorem newLog_error {crc : Checksum} {cfg : Config} {modTime : Int64 → Int} {now : Int}
    {e : LogError} (h : newLog crc cfg [] modTime now = .error e) : indexOverflow e = false := by
  rw [newLog_unscanned crc cfg rfl, newSegment] at h
  cases hindex : newIndex [] cfg.withDefaults.withDefaults.indexMaxBytes with
  | error e' =>
    rw [hindex] at h
    cases h
    have hne := newIndex_error hindex
    cases e' with
    | indexFull => exact absurd rfl hne
    | negativeMaxSize => rfl
    | maxSizeTooSmall => rfl
    | notMapped => rfl
  | ok index =>
    rw [hindex] at h
    cases h

theorem withDefaults_segmentBytes_le {cfg : Config}
    (h : cfg.segmentBytes.toInt ≤ 4294967295) :
    cfg.withDefaults.segmentBytes.toInt ≤ 4294967295 := by
  rw [Config.withDefaults]
  dsimp only
  split
  · decide
  · exact h

/-- In every run whose segments are opened where there are no bytes, every index is
exact and strictly increasing, and no call is refused because a position is too large
or an index is full. -/
theorem index_arithmetic_exact {crc : Checksum} {cfg : Config} {modTime : Int64 → Int} {now : Int}
    (hsegment : cfg.segmentBytes.toInt ≤ 4294967295) :
    (∀ e, newLog crc cfg [] modTime now = .error e → indexOverflow e = false) ∧
      ∀ l, newLog crc cfg [] modTime now = .ok l →
        ∀ events d, Run (Guarded (Directory.Free crc) (next crc)) ⟨l, [], []⟩ events d →
          (∀ s ∈ d.log.segments, ExactIndex crc s) ∧
            ∀ event, d.Free crc event = true →
              ∀ e, (d.outcome crc event).2 = some e → indexOverflow e = false := by
  refine ⟨fun e he => newLog_error he, fun l hl events d hrun => ?_⟩
  obtain ⟨hopen, hconfig, hsealed, hnew⟩ := newLog_unscanned_ok rfl hl
  obtain ⟨index, hindex, -⟩ := newSegment_eq_ok hnew
  have hcfg : ValidConfig cfg.withDefaults :=
    { defaults := withDefaults_idem cfg
      indexRoom := by
        rw [withDefaults_idem] at hindex
        exact (newIndex_eq_ok hindex).1
      positions := withDefaults_segmentBytes_le hsegment }
  rw [← hconfig] at hnew
  have hsound : SoundDirectory crc cfg.withDefaults d :=
    hrun.invariant ⟨sound_fresh hcfg hopen hconfig hsealed hnew, by simp⟩
      fun s event t hs hstep => (outcome_step hcfg hs hstep.1).1 t hstep.2
  exact ⟨fun s hs => (hsound.log.segments s hs).exactIndex, fun event hfree =>
    (outcome_step hcfg hsound hfree).2⟩

def everyRecord (indexMaxBytes : Int64) : Config :=
  { segmentBytes := 1000, indexMaxBytes := indexMaxBytes, indexIntervalBytes := 1,
    retentionMs := -1, retentionBytes := -1, flushMs := -1, flushMessages := 0, segmentMs := -1 }

def newDirectory (indexMaxBytes : Int64) : Directory where
  log :=
    { emptyLog with
      config := everyRecord indexMaxBytes
      active :=
        { emptySegment with
          index := ⟨[], indexMaxBytes.toNatClampNeg, true⟩, maxBytes := 1000, indexInterval := 1 } }
  removed := []
  strays := []

def appendBare (timestamp : Int64) : Event :=
  .append (some (bareRecord timestamp)) ⟨⟨0, none⟩, none⟩

def truncateTo (offset : Int64) : Event := .truncate offset ⟨fun _ => false, false⟩ 0

def restart (interrupted : Option Interrupted) : Event :=
  .recover ⟨1000, fun _ => 0, interrupted⟩ (fun _ => 0) 0

/-- Three segments, of which the second is removed before the process dies; the gap is
filled again after another truncation. -/
theorem index_arithmetic_exact_gap :
    (everyRecord 8).segmentBytes.toInt ≤ 4294967295 ∧
      newLog castagnoli (everyRecord 8) [] (fun _ => 0) 0 = .ok (newDirectory 8).log ∧
      ∃ d, Run (Guarded (Directory.Free castagnoli) (next castagnoli)) (newDirectory 8)
          [appendBare 1, appendBare 2, appendBare 3, restart (some ⟨1, 1, false⟩), appendBare 4,
            truncateTo 2, appendBare 5] d ∧
        d.log.segments.map (fun s => (s.baseOffset, s.index.entries)) =
          [(0, [⟨0, 0⟩]), (1, [⟨0, 0⟩])] ∧
        ∀ s ∈ d.log.segments, ExactIndex castagnoli s := by
  have hbytes : (everyRecord 8).segmentBytes.toInt ≤ 4294967295 := by decide
  have hnew : newLog castagnoli (everyRecord 8) [] (fun _ => 0) 0 = .ok (newDirectory 8).log := by
    decide +kernel
  have hend : (execute (Directory.Free castagnoli) (next castagnoli) (newDirectory 8)
      [appendBare 1, appendBare 2, appendBare 3, restart (some ⟨1, 1, false⟩), appendBare 4,
        truncateTo 2, appendBare 5]).map
          (fun d => d.log.segments.map fun s => (s.baseOffset, s.index.entries)) =
      some [(0, [⟨0, 0⟩]), (1, [⟨0, 0⟩])] := by decide +kernel
  obtain ⟨d, hrun, hsegments⟩ := exists_run_of_execute hend
  exact ⟨hbytes, hnew, d, hrun, hsegments,
    ((index_arithmetic_exact hbytes).2 _ hnew _ d hrun).1⟩

/-- Where a segment is opened over bytes that were left behind.  A process that dies in
`Truncate(0)` between the removals of `0.log` and `0.index` leaves the entries of two
records, and the next record gets its entry after them.  One that dies in `Truncate(1)`
leaves the full index `1.index`, which the rotation to offset 1 takes over.  Without
any crash, the files at a negative base offset are passed over by `NewLog` and taken
over by `Truncate`. -/
theorem index_arithmetic_leftovers :
    newLog castagnoli (everyRecord 80) [] (fun _ => 0) 0 = .ok (newDirectory 80).log ∧
      newLog castagnoli (everyRecord 8) [] (fun _ => 0) 0 = .ok (newDirectory 8).log ∧
      (∃ d, Run (Guarded (fun _ _ => true) (next castagnoli)) (newDirectory 80)
          [appendBare 1, appendBare 2, restart (some ⟨0, 0, true⟩), appendBare 3] d ∧
        d.log.active.index.entries = [⟨0, 0⟩, ⟨1, 33⟩, ⟨0, 0⟩]) ∧
      (∃ d, Run (Guarded (fun _ _ => true) (next castagnoli)) (newDirectory 8)
          [appendBare 1, appendBare 2, restart (some ⟨1, 0, true⟩)] d ∧
        (d.outcome castagnoli (appendBare 3)).2 = some (.append (.index .indexFull))) ∧
      ∃ d, Run (Guarded (fun _ _ => true) (next castagnoli)) (newDirectory 80)
          [truncateTo (-2), appendBare 1, appendBare 2, restart none, truncateTo (-2),
            appendBare 3] d ∧
        d.log.active.index.entries = [⟨0, 0⟩, ⟨1, 33⟩, ⟨0, 66⟩] := by
  refine ⟨by decide +kernel, by decide +kernel, ?_, ?_, ?_⟩
  · have hend : (execute (fun _ _ => true) (next castagnoli) (newDirectory 80)
        [appendBare 1, appendBare 2, restart (some ⟨0, 0, true⟩), appendBare 3]).map
          (fun d => d.log.active.index.entries) = some [⟨0, 0⟩, ⟨1, 33⟩, ⟨0, 0⟩] := by
      decide +kernel
    exact exists_run_of_execute hend
  · have hend : (execute (fun _ _ => true) (next castagnoli) (newDirectory 8)
        [appendBare 1, appendBare 2, restart (some ⟨1, 0, true⟩)]).map
          (fun d => (d.outcome castagnoli (appendBare 3)).2) =
        some (some (.append (.index .indexFull))) := by decide +kernel
    exact exists_run_of_execute hend
  · have hend : (execute (fun _ _ => true) (next castagnoli) (newDirectory 80)
        [truncateTo (-2), appendBare 1, appendBare 2, restart none, truncateTo (-2),
          appendBare 3]).map (fun d => d.log.active.index.entries) =
        some [⟨0, 0⟩, ⟨1, 33⟩, ⟨0, 66⟩] := by decide +kernel
    exact exists_run_of_execute hend

end MiniKafka.IndexArithmetic
