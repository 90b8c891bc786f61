import Mathlib.Data.List.Infix
import MiniKafka.LogReadFrom

/-!
The records that a log ever got, and the logs it has been on the way.

A broker appends to its logs and deletes their oldest segments.  It does not truncate
them, and it opens them once.
-/

namespace MiniKafka.LogHistories

open LogContents LogReads LogRefinement PartitionLog RecordCodec SegmentContents
open SegmentStore (Config)

def keepsRecords : Event → Bool
  | .append _ _ _ _ => true
  | .appendBatch _ _ _ => true
  | .rotate _ _ => true
  | .flush => true
  | .runFlush _ => true
  | .truncate _ _ _ => false
  | .deleteOldest _ _ => true
  | .reopen _ _ => false

/-- All records that were ever stored, from the logs in the order in which they were. -/
def historyOf (crc : Checksum) (versions : List Log) : List Record :=
  versions.foldl (fun records l =>
    records.take l.lowestOffset.toInt.toNat ++ storedRecords crc l) []

section History

variable {crc : Checksum} {cfg : Config} {l l' : Log} {event : Event} {versions : List Log}
  {history : List Record}

/-- The logs are pieces of the history, and the last one is the end of it. -/
structure Chronicle (crc : Checksum) (cfg : Config) (versions : List Log) (history : List Record) :
    Prop where
  whole : history = historyOf crc versions
  growing : ∀ older, older <+: versions → historyOf crc older <+: history
  numbered : Numbered 0 history
  fits : history.length < 2 ^ 63
  sound : ∀ l ∈ versions, WellFormed crc l ∧ NextOffsetsKnown crc l ∧ l.config = cfg.withDefaults
  pieces : ∀ l ∈ versions, storedRecords crc l <+: history.drop l.lowestOffset.toInt.toNat
  last : ∀ l, versions.getLast? = some l →
    storedRecords crc l = history.drop l.lowestOffset.toInt.toNat ∧
      l.lowestOffset.toInt.toNat ≤ history.length

theorem chronicle_nil : Chronicle crc cfg [] [] where
  whole := rfl
  growing := by
    intro older holder
    rw [List.prefix_nil.mp holder]
    exact List.prefix_rfl
  numbered := trivial
  fits := by decide
  sound := by
    intro l hl
    cases hl
  pieces := by
    intro l hl
    cases hl
  last := by
    intro l hl
    cases hl

theorem chronicle_newLog {modTime : Int64 → Int} {now : Int}
    (hnew : newLog crc cfg [] modTime now = .ok l) : Chronicle crc cfg [l] [] := by
  have hknown : NextOffsetsKnown crc l := nextOffsetsKnown_of_run hnew .nil (by simp)
  obtain ⟨hwf, hcfg, hmodel⟩ := represents_newLog hnew
  have hstored : storedRecords crc l = [] := (congrArg ModelLog.records hmodel).symm
  have hlowest : l.lowestOffset.toInt = 0 := (congrArg ModelLog.lo hmodel).symm
  have hwhole : [] = historyOf crc [l] := by
    rw [historyOf, List.foldl_cons, List.foldl_nil, hstored, List.take_nil]
    rfl
  refine ⟨hwhole, ?_, trivial, by decide, ?_, ?_, ?_⟩
  · intro older holder
    rcases List.prefix_concat_iff.mp (show older <+: [] ++ [l] from holder) with rfl | hnone
    · exact hwhole ▸ List.prefix_rfl
    · rw [List.prefix_nil.mp hnone]
      exact List.prefix_rfl
  · intro l' hl'
    rw [List.mem_singleton.mp hl']
    exact ⟨hwf, hknown, hcfg⟩
  · intro l' hl'
    rw [List.mem_singleton.mp hl', hstored]
    exact List.nil_prefix
  · intro l' hl'
    rw [List.getLast?_singleton] at hl'
    obtain rfl := Option.some.inj hl'
    rw [hstored, hlowest]
    exact ⟨rfl, le_rfl⟩

/-- Records are added at the end and taken away at the beginning. -/
theorem step_stored (hwf : WellFormed crc l) (hcfg : l.config = cfg.withDefaults)
    (hkeeps : keepsRecords event = true) (hstep : Step crc cfg l event l') :
    ∃ added, l.lowestOffset.toInt ≤ l'.lowestOffset.toInt ∧
      l'.lowestOffset.toInt ≤ l.lowestOffset.toInt + (storedRecords crc l).length ∧
      storedRecords crc l' = (storedRecords crc l ++ added).drop
        (l'.lowestOffset.toInt - l.lowestOffset.toInt).toNat := by
  obtain ⟨m', hmodel, -, -, hm'⟩ := step_simulates event _ ⟨hwf, hcfg, rfl⟩ hstep
  have hextended {added : List Record}
      (heq : m' = { abstraction crc l with records := (abstraction crc l).records ++ added }) :
      ∃ added, l.lowestOffset.toInt ≤ l'.lowestOffset.toInt ∧
        l'.lowestOffset.toInt ≤ l.lowestOffset.toInt + (storedRecords crc l).length ∧
        storedRecords crc l' = (storedRecords crc l ++ added).drop
          (l'.lowestOffset.toInt - l.lowestOffset.toInt).toNat := by
    rw [hm'] at heq
    have hlowest : l'.lowestOffset.toInt = l.lowestOffset.toInt := congrArg ModelLog.lo heq
    have hstored : storedRecords crc l' = storedRecords crc l ++ added :=
      congrArg ModelLog.records heq
    refine ⟨added, hlowest.ge, by omega, ?_⟩
    rw [hlowest, sub_self, Int.toNat_zero, List.drop_zero, hstored]
  have hsame (heq : m' = abstraction crc l) :=
    @hextended [] (by rw [heq, List.append_nil])
  cases event with
  | append record env offset error =>
    cases error with
    | none =>
      obtain ⟨r, -, -, heq⟩ := hmodel
      exact hextended heq
    | some e => exact hsame hmodel
  | appendBatch records base error =>
    obtain ⟨taken, start, -, -, heq, -⟩ := hmodel
    exact hextended heq
  | rotate env error => exact hsame hmodel
  | flush => exact hsame hmodel
  | runFlush now => exact hsame hmodel
  | truncate offset refused now => cases hkeeps
  | deleteOldest count lowest =>
    obtain ⟨hlow, hhigh, heq⟩ := hmodel
    rw [hm'] at heq
    have hlowest : l'.lowestOffset.toInt = lowest.toInt := congrArg ModelLog.lo heq
    refine ⟨[], ?_, ?_, ?_⟩
    · rw [hlowest]
      exact hlow
    · rw [hlowest]
      exact hhigh
    · rw [hlowest, List.append_nil]
      exact congrArg ModelLog.records heq
  | reopen modTime now => cases hkeeps

theorem chronicle_step {older : List Log} (h : Chronicle crc cfg versions history)
    (hlast : versions = older ++ [l]) (hkeeps : keepsRecords event = true)
    (hstep : Step crc cfg l event l') :
    ∃ added, Chronicle crc cfg (versions ++ [l']) (history ++ added) := by
  obtain ⟨hwf, hknown, hcfg⟩ := h.sound l (by simp [hlast])
  obtain ⟨hstored, hinside⟩ := h.last l (by simp [hlast])
  obtain ⟨m', -, hwf', hcfg', -⟩ := step_simulates event _ ⟨hwf, hcfg, rfl⟩ hstep
  obtain ⟨added, hlow, hhigh, hstored'⟩ := step_stored hwf hcfg hkeeps hstep
  have hknown' : NextOffsetsKnown crc l' := by
    apply step_keeps_nextOffsets event _ hwf hknown hstep
    cases event with
    | reopen modTime now => cases hkeeps
    | _ => rfl
  have hpos := hwf.lowest
  have hlength : (storedRecords crc l).length = history.length - l.lowestOffset.toInt.toNat := by
    rw [hstored, List.length_drop]
  have hinside' : l'.lowestOffset.toInt.toNat ≤ history.length := by omega
  have hpiece : storedRecords crc l' = (history ++ added).drop l'.lowestOffset.toInt.toNat := by
    rw [hstored', hstored, ← List.drop_append_of_le_length hinside, List.drop_drop]
    congr 1
    omega
  have hnumbered : Numbered 0 (history ++ added) := by
    have hfirst : Numbered 0 (history.take l'.lowestOffset.toInt.toNat) := by
      have hall := h.numbered
      rw [← List.take_append_drop l'.lowestOffset.toInt.toNat history, numbered_append] at hall
      exact hall.1
    have hrest := numbered_stored hwf'
    rw [hpiece] at hrest
    rw [← List.take_append_drop l'.lowestOffset.toInt.toNat (history ++ added), numbered_append,
      List.take_append_of_le_length hinside', List.length_take, Nat.min_eq_left hinside']
    refine ⟨hfirst, ?_⟩
    have hbase : (0 : Int64) + Int64.ofNat l'.lowestOffset.toInt.toNat = l'.lowestOffset := by
      have hpos' := hwf'.lowest
      have hlt := l'.lowestOffset.toInt_lt
      apply Int64.toInt_inj.mp
      rw [toInt_add_ofNat (by rw [Int64.toInt_zero]; omega), Int64.toInt_zero]
      omega
    rw [hbase]
    exact hrest
  have hfits := hwf'.range
  rw [hpiece, List.length_drop] at hfits
  have hwhole : history ++ added = historyOf crc (versions ++ [l']) := by
    rw [historyOf, List.foldl_append, List.foldl_cons, List.foldl_nil, ← historyOf, ← h.whole,
      hpiece, ← List.take_append_of_le_length hinside', List.take_append_drop]
  refine ⟨added, hwhole, ?_, hnumbered, by omega, ?_, ?_, ?_⟩
  · intro older holder
    rcases List.prefix_concat_iff.mp holder with rfl | hbefore
    · exact hwhole ▸ List.prefix_rfl
    · exact (h.growing older hbefore).trans (List.prefix_append history added)
  · intro v hv
    rcases List.mem_append.mp hv with hold | hnew
    · exact h.sound v hold
    · rw [List.mem_singleton.mp hnew]
      exact ⟨hwf', hknown', hcfg'⟩
  · intro v hv
    rcases List.mem_append.mp hv with hold | hnew
    · exact (h.pieces v hold).trans ((List.prefix_append history added).drop _)
    · rw [List.mem_singleton.mp hnew, hpiece]
  · intro v hv
    rw [List.getLast?_concat] at hv
    obtain rfl := Option.some.inj hv
    exact ⟨hpiece, by rw [List.length_append]; omega⟩

end History

end MiniKafka.LogHistories
