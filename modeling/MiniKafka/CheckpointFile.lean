import MiniKafka.CommittedOffsets
import MiniKafka.InSyncReplicas
import MiniKafka.PlainText
import MiniKafka.Runs

/-!
The checkpoint file of the high watermarks (`CheckpointHW` and `loadCheckpoint` in
`internal/replication/isr.go`).

All trackers of a broker share the file.  A call reads it, writes the new contents to a
second file and renames that one; the steps of several calls interleave, since each
tracker has a lock of its own, and the process may end between any two of them.
-/

namespace MiniKafka.CheckpointFile

open BigEndian CommittedOffsets InSyncReplicas LastWrite PlainText Runs

def linePrefix (topic : Bytes) (partition : Int32) : Bytes :=
  topic ++ 32 :: (signed partition.toInt ++ [32])

def loadLine (topic : Bytes) (partition : Int32) (highWatermark : Option Int64) (line : Bytes) :
    Option Int64 :=
  if (linePrefix topic partition).isPrefixOf (trim line) then
    match (fields (trim line))[2]? with
    | none => highWatermark
    | some part =>
      match integer 64 part with
      | none => highWatermark
      | some hw => some (Int64.ofInt hw)
  else highWatermark

def loadCheckpoint (file : Option Bytes) (topic : Bytes) (partition : Int32) : Option Int64 :=
  match file with
  | none => none
  | some data => (data.splitOn 10).foldl (loadLine topic partition) none

def existing (file : Option Bytes) (topic : Bytes) (partition : Int32) : List Bytes :=
  match file with
  | none => []
  | some data =>
    ((data.splitOn 10).map trim).filter fun l =>
      !l.isEmpty && !(linePrefix topic partition).isPrefixOf l

def checkpointContent (file : Option Bytes) (topic : Bytes) (partition : Int32) (hw : Int64) :
    Bytes :=
  let line := linePrefix topic partition ++ (signed hw.toInt ++ [10])
  [10].intercalate (existing file topic partition ++ [trim line]) ++ [10]

/-- A call of `CheckpointHW` that has read the file, if it was `readable`; `written` once it
has written the temporary one. -/
structure Call where
  topic : Bytes
  partition : Int32
  hw : Int64
  readable : Bool
  content : Bytes
  written : Bool
  deriving DecidableEq, Repr

/-- The two files, the calls under way, and the checkpoints in the order in which they
were renamed, from the last one on that could not read the file. -/
structure Disk where
  file : Option Bytes
  tmp : Option Bytes
  calls : List Call
  completed : List ((Bytes × Int32) × Int64)
  deriving DecidableEq, Repr

def newDisk : Disk := ⟨none, none, [], []⟩

def Disk.reread (d : Disk) (readable : Bool) : List ((Bytes × Int32) × Int64) :=
  if readable then d.completed else []

inductive Event where
  | checkpoint (topic : Bytes) (partition : Int32) (hw : Int64) (readable : Bool)
  | writeFile (i : Nat)
  | writeFails (i : Nat) (n : Option Nat)
  | rename (i : Nat)
  | renameFails (i : Nat)
  | crash
  deriving DecidableEq, Repr

def Disk.step (d : Disk) : Event → Option Disk
  | .checkpoint topic partition hw readable =>
    -- A read that fails leaves `existing` empty.
    let content := checkpointContent (if readable then d.file else none) topic partition hw
    some { d with calls := d.calls ++ [⟨topic, partition, hw, readable, content, false⟩] }
  | .writeFile i =>
    match d.calls[i]? with
    | none => none
    | some c =>
      if c.written then none
      else some { d with
        tmp := some c.content
        calls := d.calls.set i { c with written := true } }
  | .writeFails i n =>
    match d.calls[i]? with
    | none => none
    | some c =>
      -- `os.WriteFile` fails to open the file, or after `n` bytes.
      if c.written then none
      else some { d with
        tmp := (n.map c.content.take).or d.tmp
        calls := d.calls.eraseIdx i }
  | .rename i =>
    match d.calls[i]?, d.tmp with
    | some c, some content =>
      if c.written then
        some { d with
          file := some content
          tmp := none
          calls := d.calls.eraseIdx i
          completed := d.reread c.readable ++ [((c.topic, c.partition), c.hw)] }
      else none
    | _, _ => none
  | .renameFails i =>
    match d.calls[i]? with
    | none => none
    | some c => if c.written then some { d with calls := d.calls.eraseIdx i } else none
  | .crash =>
    -- In the middle of a write this is `writeFails` first.
    some { d with calls := [] }

/-- Checkpoints are made one at a time, of topics that could be created. -/
def oneAtATime (d : Disk) : Event → Bool
  | .checkpoint topic _ _ _ => d.calls.isEmpty && validTopicName topic
  | .writeFile _ => true
  | .writeFails _ _ => true
  | .rename _ => true
  | .renameFails _ => true
  | .crash => true

def render (w : (Bytes × Int32) × Int64) : Bytes := linePrefix w.1.1 w.1.2 ++ signed w.2.toInt

def save (marks : List ((Bytes × Int32) × Int64)) (w : (Bytes × Int32) × Int64) :
    List ((Bytes × Int32) × Int64) :=
  (marks.filter fun u => decide (u.1 ≠ w.1)) ++ [w]

/-- The lines in the file after these checkpoints. -/
def marksOf (completed : List ((Bytes × Int32) × Int64)) : List ((Bytes × Int32) × Int64) :=
  completed.foldl save []

def fileOf (marks : List ((Bytes × Int32) × Int64)) : Option Bytes :=
  if marks = [] then none else some ([10].intercalate (marks.map render) ++ [10])

section Lines

variable {topic topic' : Bytes} {partition partition' : Int32} {hw : Int64}
  {w : (Bytes × Int32) × Int64} {marks : List ((Bytes × Int32) × Int64)}

theorem not_space_topic (h : validTopicName topic = true) {b : UInt8} (hb : b ∈ topic) :
    space b = false := by
  rw [validTopicName, Bool.and_eq_true, List.all_eq_true] at h
  have hbyte := h.2 b hb
  simp only [topicNameByte, Bool.or_eq_true, Bool.and_eq_true, decide_eq_true_eq,
    UInt8.le_iff_toNat_le, ← UInt8.toNat_inj] at hbyte
  simp only [space, Bool.or_eq_false_iff, Bool.and_eq_false_iff, decide_eq_false_iff_not,
    UInt8.le_iff_toNat_le, ← UInt8.toNat_inj]
  simp only [UInt8.toNat_ofNat] at hbyte ⊢
  omega

theorem notMem_topic (h : validTopicName topic = true) {b : UInt8} (hb : space b = true) :
    b ∉ topic := by
  intro hmem
  rw [not_space_topic h hmem] at hb
  cases hb

theorem topic_ne_nil (h : validTopicName topic = true) : topic ≠ [] := by
  rintro rfl
  cases h

theorem line_eq (w : (Bytes × Int32) × Int64) :
    render w = w.1.1 ++ 32 :: (signed w.1.2.toInt ++ 32 :: signed w.2.toInt) := by
  simp [render, linePrefix]

theorem head_render (h : validTopicName w.1.1 = true) {b : UInt8}
    (hb : (render w).head? = some b) : space b = false := by
  rw [line_eq, List.head?_append_of_ne_nil _ (topic_ne_nil h)] at hb
  exact not_space_topic h (List.mem_of_head? hb)

theorem last_render {b : UInt8} (hb : (render w).getLast? = some b) : space b = false := by
  rw [render, List.getLast?_append_of_ne_nil _ (signed_ne_nil _)] at hb
  exact not_space_signed (List.mem_of_getLast? hb)

theorem render_ne_nil (w : (Bytes × Int32) × Int64) : render w ≠ [] := by
  rw [line_eq]
  simp

theorem trim_render (h : validTopicName w.1.1 = true) : trim (render w) = render w :=
  trim_eq_self (fun _ hb => head_render h hb) fun _ hb => last_render hb

theorem trim_line (h : validTopicName topic = true) :
    trim (linePrefix topic partition ++ (signed hw.toInt ++ [10])) =
      render ((topic, partition), hw) := by
  have hhead {b : UInt8} (hb : (render ((topic, partition), hw)).head? = some b) :
      space b = false := head_render h hb
  rw [← List.append_assoc]
  exact trim_concat (render_ne_nil ((topic, partition), hw)) (fun _ hb => hhead hb)
    (fun _ hb => last_render (w := ((topic, partition), hw)) hb) (by decide)

theorem isPrefixOf_render (h : validTopicName topic = true) (hvalid : validTopicName w.1.1 = true) :
    (linePrefix topic partition).isPrefixOf (render w) = decide (w.1 = (topic, partition)) := by
  have hspace : space 32 = true := by decide
  rw [Bool.eq_iff_iff, List.isPrefixOf_iff_prefix, decide_eq_true_eq]
  constructor
  · rintro ⟨rest, hrest⟩
    rw [line_eq, linePrefix, List.append_assoc, List.cons_append, List.append_assoc,
      List.singleton_append] at hrest
    obtain ⟨hname, hafter⟩ := first_separator_inj (notMem_topic h hspace)
      (notMem_topic hvalid hspace) hrest
    obtain ⟨hnumber, -⟩ := first_separator_inj (notMem_signed hspace _) (notMem_signed hspace _)
      hafter
    exact Prod.ext hname.symm (Int32.toInt_inj.mp (signed_injective hnumber).symm)
  · intro hkey
    rw [render, hkey]
    exact List.prefix_append _ _

theorem fields_render (h : validTopicName w.1.1 = true) :
    fields (render w) = [w.1.1, signed w.1.2.toInt, signed w.2.toInt] := by
  rw [line_eq, fields_cons (fun b hb => not_space_topic h hb) (topic_ne_nil h),
    fields_cons (fun b hb => not_space_signed hb) (signed_ne_nil _),
    fields_singleton (fun b hb => not_space_signed hb) (signed_ne_nil _)]

theorem newline_notMem_render (h : validTopicName w.1.1 = true) : 10 ∉ render w := by
  have hspace : space 10 = true := by decide
  rw [line_eq]
  simp [notMem_signed hspace, notMem_topic h hspace]

theorem loadLine_render (h : validTopicName topic = true) (hvalid : validTopicName w.1.1 = true)
    (before : Option Int64) :
    loadLine topic partition before (render w) =
      if w.1 = (topic, partition) then some w.2 else before := by
  have hlow := Int64.le_toInt w.2
  have hhigh := Int64.toInt_lt w.2
  rw [loadLine, trim_render hvalid, isPrefixOf_render h hvalid, fields_render hvalid]
  by_cases hkey : w.1 = (topic, partition)
  · rw [if_pos (decide_eq_true hkey), if_pos hkey]
    dsimp only [List.getElem?_cons_succ, List.getElem?_cons_zero]
    rw [integer_signed hlow hhigh]
    dsimp only
    rw [Int64.ofInt_toInt]
  · rw [if_neg (by simp [hkey]), if_neg hkey]

theorem lines_fileOf {data : Bytes} (hvalid : ∀ w ∈ marks, validTopicName w.1.1 = true)
    (hdata : fileOf marks = some data) : data.splitOn 10 = marks.map render ++ [[]] := by
  rw [fileOf] at hdata
  split at hdata
  · cases hdata
  · rename_i hne
    obtain rfl := Option.some.inj hdata
    rw [intercalate_concat 10 (by simpa using hne)]
    apply List.splitOn_intercalate
    · intro l hl
      rcases List.mem_append.mp hl with hline | hlast
      · obtain ⟨w, hw, rfl⟩ := List.mem_map.mp hline
        exact newline_notMem_render (hvalid w hw)
      · rw [List.mem_singleton.mp hlast]
        exact List.not_mem_nil
    · simp

theorem eq_nil_of_fileOf (hnone : fileOf marks = none) : marks = [] := by
  rw [fileOf] at hnone
  split at hnone
  · assumption
  · cases hnone

theorem isPrefixOf_nil (topic : Bytes) (partition : Int32) :
    (linePrefix topic partition).isPrefixOf [] = false := by
  simp [linePrefix]

theorem loadCheckpoint_fileOf (hvalid : ∀ w ∈ marks, validTopicName w.1.1 = true)
    (h : validTopicName topic = true) (partition : Int32) :
    loadCheckpoint (fileOf marks) topic partition = latest marks (topic, partition) := by
  have hlines (ws : List ((Bytes × Int32) × Int64))
      (hws : ∀ w ∈ ws, validTopicName w.1.1 = true) :
      (ws.map render).foldl (loadLine topic partition) none = latest ws (topic, partition) := by
    induction ws using List.reverseRecOn with
    | nil => rfl
    | append_singleton ws w ih =>
      rw [List.map_append, List.foldl_append,
        ih fun u hu => hws u (List.mem_append_left _ hu), List.map_singleton, List.foldl_cons,
        List.foldl_nil, loadLine_render h (hws w (by simp)), show w = (w.1, w.2) from rfl,
        latest_concat]
      by_cases hkey : w.1 = (topic, partition)
      · rw [if_pos hkey, hkey, Function.update_self]
      · rw [if_neg hkey, Function.update_of_ne (Ne.symm hkey)]
  cases hdata : fileOf marks with
  | none =>
    rw [eq_nil_of_fileOf hdata]
    rfl
  | some data =>
    rw [loadCheckpoint, lines_fileOf hvalid hdata, List.foldl_append, hlines marks hvalid,
      List.foldl_cons, List.foldl_nil, loadLine, show trim [] = [] from rfl, isPrefixOf_nil,
      if_neg (by decide)]

theorem existing_fileOf (hvalid : ∀ w ∈ marks, validTopicName w.1.1 = true)
    (h : validTopicName topic = true) (partition : Int32) :
    existing (fileOf marks) topic partition =
      (marks.filter fun u => decide (u.1 ≠ (topic, partition))).map render := by
  have hlines (ws : List ((Bytes × Int32) × Int64))
      (hws : ∀ w ∈ ws, validTopicName w.1.1 = true) :
      (((ws.map render).map trim).filter fun l =>
        !l.isEmpty && !(linePrefix topic partition).isPrefixOf l) =
      (ws.filter fun u => decide (u.1 ≠ (topic, partition))).map render := by
    induction ws with
    | nil => rfl
    | cons w ws ih =>
      have hw := hws w List.mem_cons_self
      have hkeep : (!(render w).isEmpty && !(linePrefix topic partition).isPrefixOf (render w)) =
          decide (w.1 ≠ (topic, partition)) := by
        rw [isPrefixOf_render h hw]
        simp [render_ne_nil w]
      rw [List.map_cons, List.map_cons, trim_render hw, List.filter_cons, hkeep,
        ih fun u hu => hws u (List.mem_cons_of_mem w hu), List.filter_cons]
      split <;> rfl
  cases hdata : fileOf marks with
  | none =>
    rw [eq_nil_of_fileOf hdata]
    rfl
  | some data =>
    rw [existing, lines_fileOf hvalid hdata, List.map_append, List.filter_append,
      hlines marks hvalid, List.map_singleton, show trim [] = [] from rfl]
    exact List.append_nil _

theorem checkpointContent_fileOf (hvalid : ∀ w ∈ marks, validTopicName w.1.1 = true)
    (h : validTopicName topic = true) (partition : Int32) (hw : Int64) :
    some (checkpointContent (fileOf marks) topic partition hw) =
      fileOf (save marks ((topic, partition), hw)) := by
  rw [checkpointContent, existing_fileOf hvalid h, trim_line h, fileOf, if_neg (by simp [save]),
    save, List.map_append]
  rfl

end Lines

section Runs

variable {completed : List ((Bytes × Int32) × Int64)}

theorem marksOf_concat (completed : List ((Bytes × Int32) × Int64)) (w : (Bytes × Int32) × Int64) :
    marksOf (completed ++ [w]) = save (marksOf completed) w := by
  rw [marksOf, List.foldl_append]
  rfl

theorem mem_of_mem_marksOf {w : (Bytes × Int32) × Int64} (hw : w ∈ marksOf completed) :
    w ∈ completed := by
  induction completed using List.reverseRecOn with
  | nil => cases hw
  | append_singleton ws u ih =>
    rw [marksOf_concat, save, List.mem_append] at hw
    apply List.mem_append.mpr
    rcases hw with hold | hnew
    · exact Or.inl (ih (List.mem_of_mem_filter hold))
    · exact Or.inr hnew

theorem latest_marksOf (completed : List ((Bytes × Int32) × Int64)) :
    latest (marksOf completed) = latest completed := by
  induction completed using List.reverseRecOn with
  | nil => rfl
  | append_singleton ws w ih =>
    rw [marksOf_concat, save, latest_replace, ih, latest_concat]

/-- What a call that is under way has read and written. -/
structure Call.Sound (d : Disk) (c : Call) : Prop where
  name : validTopicName c.topic = true
  content : some c.content =
    fileOf (marksOf (d.reread c.readable ++ [((c.topic, c.partition), c.hw)]))
  tmp : c.written = true → d.tmp = some c.content

structure Disk.Sound (d : Disk) : Prop where
  file : d.file = fileOf (marksOf d.completed)
  names : ∀ w ∈ d.completed, validTopicName w.1.1 = true
  single : d.calls.length ≤ 1
  calls : ∀ c ∈ d.calls, c.Sound d

variable {d d' : Disk} {c : Call} {i : Nat}

theorem newDisk_sound : newDisk.Sound where
  file := rfl
  names := by
    intro w hw
    cases hw
  single := Nat.zero_le 1
  calls := by
    intro c hc
    cases hc

theorem Disk.Sound.calls_eq (hs : d.Sound) (hc : d.calls[i]? = some c) :
    i = 0 ∧ d.calls = [c] := by
  obtain ⟨hi, hget⟩ := List.getElem?_eq_some_iff.mp hc
  have hsingle := hs.single
  obtain ⟨c', hcalls⟩ := List.length_eq_one_iff.mp (show d.calls.length = 1 by omega)
  have hzero : i = 0 := by omega
  subst hzero
  refine ⟨rfl, ?_⟩
  rw [hcalls] at hc ⊢
  rw [Option.some.inj hc]

theorem Disk.Sound.idle (hs : d.Sound) (tmp : Option Bytes) :
    Disk.Sound { d with tmp := tmp, calls := [] } where
  file := hs.file
  names := hs.names
  single := Nat.zero_le 1
  calls := by
    intro c hc
    cases hc

theorem reread_names (hs : d.Sound) (readable : Bool) {w : (Bytes × Int32) × Int64}
    (hw : w ∈ d.reread readable) : validTopicName w.1.1 = true := by
  cases readable with
  | false => cases hw
  | true => exact hs.names w hw

theorem reread_file (hs : d.Sound) (readable : Bool) :
    (if readable then d.file else none) = fileOf (marksOf (d.reread readable)) := by
  cases readable with
  | false => rfl
  | true => exact hs.file

theorem checkpoint_sound {topic : Bytes} (hs : d.Sound) (hidle : d.calls = [])
    (hname : validTopicName topic = true) (partition : Int32) (hw : Int64) (readable : Bool)
    (hstep : d.step (.checkpoint topic partition hw readable) = some d') : d'.Sound := by
  obtain rfl := Option.some.inj hstep
  have hmarks : ∀ w ∈ marksOf (d.reread readable), validTopicName w.1.1 = true :=
    fun w hmem => reread_names hs readable (mem_of_mem_marksOf hmem)
  refine ⟨hs.file, hs.names, ?_, ?_⟩
  · rw [hidle]
    exact Nat.le_refl 1
  · intro c hc
    rw [hidle] at hc
    obtain rfl := List.mem_singleton.mp hc
    refine ⟨hname, ?_, by rintro ⟨⟩⟩
    dsimp only
    rw [reread_file hs readable, checkpointContent_fileOf hmarks hname, ← marksOf_concat]
    rfl

theorem writeFile_sound (hs : d.Sound) (hstep : d.step (.writeFile i) = some d') : d'.Sound := by
  rw [Disk.step] at hstep
  cases hc : d.calls[i]? with
  | none =>
    rw [hc] at hstep
    cases hstep
  | some c =>
    obtain ⟨rfl, hcalls⟩ := hs.calls_eq hc
    have hsound := hs.calls c (by simp [hcalls])
    rw [hc] at hstep
    dsimp only at hstep
    split at hstep
    · cases hstep
    · obtain rfl := Option.some.inj hstep
      refine ⟨hs.file, hs.names, ?_, ?_⟩
      · rw [List.length_set]
        exact hs.single
      · intro c' hc'
        rw [hcalls] at hc'
        obtain rfl := List.mem_singleton.mp hc'
        exact ⟨hsound.name, hsound.content, fun _ => rfl⟩

/-- The one moment at which the file changes. -/
theorem rename_sound (hs : d.Sound) (hstep : d.step (.rename i) = some d') : d'.Sound := by
  rw [Disk.step] at hstep
  split at hstep
  · rename_i c content hc htmp
    split at hstep
    · rename_i hwritten
      obtain ⟨rfl, hcalls⟩ := hs.calls_eq hc
      have hsound := hs.calls c (by simp [hcalls])
      have hcontent := hsound.tmp hwritten
      rw [htmp] at hcontent
      obtain rfl := Option.some.inj hstep
      refine ⟨?_, ?_, ?_, ?_⟩
      · exact hcontent.trans hsound.content
      · intro w hw
        rcases List.mem_append.mp hw with hold | hnew
        · exact reread_names hs c.readable hold
        · rw [List.mem_singleton.mp hnew]
          exact hsound.name
      · rw [hcalls]
        exact Nat.zero_le 1
      · intro c' hc'
        rw [hcalls] at hc'
        cases hc'
    · cases hstep
  · cases hstep

theorem next_sound {e : Event} (hs : d.Sound) (hguard : oneAtATime d e = true)
    (hstep : d.step e = some d') : d'.Sound := by
  cases e with
  | checkpoint topic partition hw readable =>
    rw [oneAtATime, Bool.and_eq_true, List.isEmpty_iff] at hguard
    exact checkpoint_sound hs hguard.1 hguard.2 partition hw readable hstep
  | writeFile i => exact writeFile_sound hs hstep
  | writeFails i n =>
    rw [Disk.step] at hstep
    split at hstep
    · cases hstep
    · rename_i c hc
      obtain ⟨rfl, hcalls⟩ := hs.calls_eq hc
      split at hstep
      · cases hstep
      · obtain rfl := Option.some.inj hstep
        rw [hcalls]
        exact hs.idle _
  | rename i => exact rename_sound hs hstep
  | renameFails i =>
    rw [Disk.step] at hstep
    split at hstep
    · cases hstep
    · rename_i c hc
      obtain ⟨rfl, hcalls⟩ := hs.calls_eq hc
      split at hstep
      · obtain rfl := Option.some.inj hstep
        rw [hcalls]
        exact hs.idle _
      · cases hstep
  | crash =>
    obtain rfl := Option.some.inj hstep
    exact hs.idle _

theorem run_sound {es : List Event} (hrun : Run (Guarded oneAtATime Disk.step) newDisk es d) :
    d.Sound :=
  hrun.invariant newDisk_sound fun _ _ _ hs hstep => next_sound hs hstep.1 hstep.2

/-- A tracker that is made from the file starts at the last high watermark that was
checkpointed for its partition, whichever writes, renames and processes failed in between,
and whatever was checkpointed for the other partitions. -/
theorem checkpoint_restores_last {es : List Event} {topic : Bytes}
    (hrun : Run (Guarded oneAtATime Disk.step) newDisk es d) (htopic : validTopicName topic = true)
    (partition leaderID : Int32) (replicaIDs : List Int32) (lagTimeMaxMs : Int64) (now : Int) :
    (newISRTracker leaderID replicaIDs lagTimeMaxMs now
      (loadCheckpoint d.file topic partition)).highWatermark =
      (latest d.completed (topic, partition)).getD 0 := by
  have hs := run_sound hrun
  have hmarks : ∀ w ∈ marksOf d.completed, validTopicName w.1.1 = true :=
    fun w hmem => hs.names w (mem_of_mem_marksOf hmem)
  rw [newISRTracker, hs.file, loadCheckpoint_fileOf hmarks htopic, latest_marksOf]

/-- The process ends after the third checkpoint has written its file and before it renames
it: the partition starts at the first one again. -/
theorem checkpoint_restores_last_crashed :
    ∃ d, Run (Guarded oneAtATime Disk.step) newDisk
        [.checkpoint [97] 0 5 true, .writeFile 0, .rename 0, .checkpoint [97] 1 7 true,
          .writeFile 0, .rename 0, .checkpoint [97] 0 9 true, .writeFile 0, .crash] d ∧
      (newISRTracker 1 [1, 2] 0 0 (loadCheckpoint d.file [97] 0)).highWatermark = 5 := by
  have hend : (execute oneAtATime Disk.step newDisk
        [.checkpoint [97] 0 5 true, .writeFile 0, .rename 0, .checkpoint [97] 1 7 true,
          .writeFile 0, .rename 0, .checkpoint [97] 0 9 true, .writeFile 0, .crash]).map
      Disk.completed = some [(([97], 0), 5), (([97], 1), 7)] := by decide +kernel
  obtain ⟨d, hrun, hcompleted⟩ := exists_run_of_execute hend
  refine ⟨d, hrun, ?_⟩
  rw [checkpoint_restores_last hrun (by decide), hcompleted]
  decide +kernel

end Runs

end MiniKafka.CheckpointFile
