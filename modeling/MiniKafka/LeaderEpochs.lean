import MiniKafka.BigEndian

/-!
Leader epochs (`internal/replication/epoch.go`): a counter for each partition that
goes up with every change of its leader.
-/

namespace MiniKafka.LeaderEpochs

open BigEndian

structure PartitionEpoch where
  epoch : Int32
  leaderID : Int32
  deriving DecidableEq, Repr

/-- The map of the topics, with a map of the partitions in each. -/
structure EpochManager where
  epochs : Bytes → Option (Int32 → Option PartitionEpoch)

inductive EpochError where
  | unknownTopic (topic : Bytes)
  | unknownPartition (topic : Bytes) (partition : Int32)
  deriving DecidableEq, Repr

def newEpochManager : EpochManager := ⟨fun _ => none⟩

def EpochManager.incrementEpoch (em : EpochManager) (topic : Bytes)
    (partition newLeaderID : Int32) : EpochManager × Int32 :=
  let tEpochs := (em.epochs topic).getD fun _ => none
  let pe : PartitionEpoch :=
    match tEpochs partition with
    | none => ⟨1, newLeaderID⟩
    | some pe => ⟨pe.epoch + 1, newLeaderID⟩
  (⟨Function.update em.epochs topic (some (Function.update tEpochs partition (some pe)))⟩, pe.epoch)

def EpochManager.getEpoch (em : EpochManager) (topic : Bytes) (partition : Int32) :
    Except EpochError (Int32 × Int32) :=
  match em.epochs topic with
  | none => .error (.unknownTopic topic)
  | some tEpochs =>
    match tEpochs partition with
    | none => .error (.unknownPartition topic partition)
    | some pe => .ok (pe.epoch, pe.leaderID)

def EpochManager.entry (em : EpochManager) (topic : Bytes) (partition : Int32) :
    Option PartitionEpoch :=
  (em.epochs topic).bind fun tEpochs => tEpochs partition

section

variable {em : EpochManager} {topic : Bytes} {partition : Int32}

theorem getEpoch_eq_ok_iff {epoch leaderID : Int32} :
    em.getEpoch topic partition = .ok (epoch, leaderID) ↔
      em.entry topic partition = some ⟨epoch, leaderID⟩ := by
  rw [EpochManager.getEpoch, EpochManager.entry]
  cases em.epochs topic with
  | none => simp
  | some tEpochs =>
    rw [Option.bind_some]
    dsimp only
    cases tEpochs partition with
    | none => simp
    | some pe =>
      obtain ⟨e, l⟩ := pe
      simp

theorem exists_getEpoch_error_iff :
    (∃ e, em.getEpoch topic partition = .error e) ↔ em.entry topic partition = none := by
  rw [EpochManager.getEpoch, EpochManager.entry]
  cases em.epochs topic with
  | none => simp
  | some tEpochs =>
    rw [Option.bind_some]
    dsimp only
    cases tEpochs partition with
    | none => simp
    | some pe => simp

/-- The entry that `IncrementEpoch` leaves behind. -/
def succeeding (pe : Option PartitionEpoch) (newLeaderID : Int32) : PartitionEpoch :=
  ⟨pe.elim 1 fun pe => pe.epoch + 1, newLeaderID⟩

theorem entry_incrementEpoch (em : EpochManager) (topic topic' : Bytes)
    (partition partition' newLeaderID : Int32) :
    (em.incrementEpoch topic partition newLeaderID).1.entry topic' partition' =
      if topic' = topic ∧ partition' = partition then
        some (succeeding (em.entry topic partition) newLeaderID)
      else em.entry topic' partition' := by
  rw [EpochManager.incrementEpoch]
  simp only [EpochManager.entry]
  by_cases htopic : topic' = topic
  · subst htopic
    rw [Function.update_self, Option.bind_some]
    by_cases hpartition : partition' = partition
    · subst hpartition
      rw [Function.update_self, if_pos ⟨rfl, rfl⟩, succeeding]
      cases em.epochs topic' with
      | none => rfl
      | some tEpochs =>
        rw [Option.getD_some, Option.bind_some]
        cases tEpochs partition' with
        | none => rfl
        | some pe => rfl
    · rw [Function.update_of_ne hpartition, if_neg fun h => hpartition h.2]
      cases em.epochs topic' with
      | none => rfl
      | some tEpochs => rfl
  · rw [Function.update_of_ne htopic, if_neg fun h => htopic h.1]

end

end MiniKafka.LeaderEpochs
