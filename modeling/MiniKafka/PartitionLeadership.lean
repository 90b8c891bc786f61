import MiniKafka.InSyncReplicas
import MiniKafka.LastWrite
import MiniKafka.LeaderEpochs
import MiniKafka.Runs

/-!
Who leads a partition (`internal/broker/broker_replication.go`): the leader that
follows from the configuration, the one that the epochs of a broker name, and
`PromoteLeader`.

Every broker keeps its own epochs and trackers; nothing is agreed between brokers.
The steps are the critical sections of the epoch manager and of the tracker map, and
the calls of one broker interleave between them.
-/

namespace MiniKafka.PartitionLeadership

open BigEndian InSyncReplicas LastWrite LeaderEpochs Runs

structure ClusterBroker where
  id : Int
  host : Bytes
  port : Int
  deriving DecidableEq, Repr

/-- The parts of the configuration that replication reads. -/
structure ReplicationConfig where
  brokerID : Int
  host : Bytes
  port : Int
  brokers : List ClusterBroker
  replicaLagTimeMaxMs : Int64
  deriving DecidableEq, Repr

def ReplicationConfig.localID (cfg : ReplicationConfig) : Int32 := Int32.ofInt cfg.brokerID

def addReplica (ids : List Int32) (br : ClusterBroker) : List Int32 :=
  if Int32.ofInt br.id ∈ ids then ids else ids ++ [Int32.ofInt br.id]

def clusterReplicaIDs (cfg : ReplicationConfig) : List Int32 :=
  if cfg.brokers = [] then [cfg.localID] else cfg.brokers.foldl addReplica []

def lagTimeMaxMs (cfg : ReplicationConfig) : Int64 :=
  if cfg.replicaLagTimeMaxMs ≤ 0 then 30000 else cfg.replicaLagTimeMaxMs

def brokerAddr (cfg : ReplicationConfig) (id : Int32) : Option (Bytes × Int) :=
  if cfg.brokers = [] then if id = cfg.localID then some (cfg.host, cfg.port) else none
  else (cfg.brokers.find? fun br => decide (Int32.ofInt br.id = id)).map fun br =>
    (br.host, br.port)

/-- A call that has found a partition without an epoch and will give it one, or a
promotion that has changed the epoch and will change the tracker. -/
inductive Task where
  | seeding (topic : Bytes) (partition : Int32)
  | promoting (topic : Bytes) (partition newLeaderID : Int32)
  deriving DecidableEq, Repr

/-- The part of a broker that knows about leaders.  While `creating` holds something,
`getOrCreateISRTracker` is between looking up the leader and storing the tracker, and
has the lock of the trackers. -/
structure Node where
  config : ReplicationConfig
  replicaIDs : List Int32
  epochMgr : EpochManager
  isrTrackers : Bytes → Int32 → Option ISRTracker
  creating : Option (Bytes × Int32 × Int32)
  tasks : List Task

def newNode (cfg : ReplicationConfig) : Node :=
  ⟨cfg, clusterReplicaIDs cfg, newEpochManager, fun _ _ => none, none, []⟩

def Node.localID (n : Node) : Int32 := n.config.localID

def Node.staticPartitionLeader (n : Node) (partition : Int32) : Int32 :=
  if n.replicaIDs = [] then n.localID
  else
    let idx := partition.toInt.tmod n.replicaIDs.length
    let idx := if idx < 0 then -idx else idx
    n.replicaIDs.getD idx.toNat n.localID

def Node.partitionLeader (n : Node) (topic : Bytes) (partition : Int32) : Int32 :=
  match n.epochMgr.getEpoch topic partition with
  | .error _ => n.staticPartitionLeader partition
  | .ok (_, leaderID) => leaderID

/-- What `isLeader` returns; the epoch that it gives to a partition without one is a
step of its own. -/
def Node.isLeader (n : Node) (topic : Bytes) (partition : Int32) : Bool :=
  decide (n.partitionLeader topic partition = n.localID)

def Node.newTracker (n : Node) (leaderID : Int32) (now : Int) (checkpoint : Option Int64) :
    ISRTracker :=
  newISRTracker leaderID n.replicaIDs (lagTimeMaxMs n.config) now checkpoint

def Node.putTracker (n : Node) (topic : Bytes) (partition : Int32) (t : ISRTracker) : Node :=
  { n with
    isrTrackers :=
      Function.update n.isrTrackers topic
        (Function.update (n.isrTrackers topic) partition (some t)) }

inductive Event where
  | look (topic : Bytes) (partition : Int32)
  | seed (task : Nat)
  | track (topic : Bytes) (partition : Int32)
  | store (now : Int) (checkpoint : Option Int64)
  | promote (topic : Bytes) (partition newLeaderID : Int32)
  | install (task : Nat) (now : Int) (checkpoint : Option Int64)
  deriving DecidableEq, Repr

def Node.step (n : Node) : Event → Option Node
  | .look topic partition =>
    -- `isLeader` and each round of `initTopicReplication` begin like this.
    match n.epochMgr.getEpoch topic partition with
    | .ok _ => some n
    | .error _ => some { n with tasks := n.tasks ++ [.seeding topic partition] }
  | .seed i =>
    match n.tasks[i]? with
    | some (.seeding topic partition) =>
      some { n with
        epochMgr := (n.epochMgr.incrementEpoch topic partition
          (n.staticPartitionLeader partition)).1
        tasks := n.tasks.eraseIdx i }
    | _ => none
  | .track topic partition =>
    if n.creating = none then
      match n.isrTrackers topic partition with
      | some _ => some n
      | none =>
        some { n with creating := some (topic, partition, n.partitionLeader topic partition) }
    else none
  | .store now checkpoint =>
    match n.creating with
    | none => none
    | some (topic, partition, leaderID) =>
      some { n.putTracker topic partition (n.newTracker leaderID now checkpoint) with
        creating := none }
  | .promote topic partition newLeaderID =>
    some { n with
      epochMgr := (n.epochMgr.incrementEpoch topic partition newLeaderID).1
      tasks := n.tasks ++ [.promoting topic partition newLeaderID] }
  | .install i now checkpoint =>
    match n.creating, n.tasks[i]? with
    | none, some (.promoting topic partition newLeaderID) =>
      some { n.putTracker topic partition (n.newTracker newLeaderID now checkpoint) with
        tasks := n.tasks.eraseIdx i }
    | _, _ => none

def Task.concerns (topic : Bytes) (partition : Int32) : Task → Bool
  | .seeding t p => decide (t = topic ∧ p = partition)
  | .promoting t p _ => decide (t = topic ∧ p = partition)

/-- A promotion begins only when no other call is at the epoch or the tracker of the
partition. -/
def promotesAlone (n : Node) : Event → Bool
  | .promote topic partition _ => !n.tasks.any (Task.concerns topic partition)
  | _ => true

def Event.promotion : Event → Option ((Bytes × Int32) × Int32)
  | .promote topic partition newLeaderID => some ((topic, partition), newLeaderID)
  | _ => none

def promotions (events : List Event) : List ((Bytes × Int32) × Int32) :=
  events.filterMap Event.promotion

/-- No promotion of the partition has yet to change the tracker. -/
def Node.Quiet (n : Node) (topic : Bytes) (partition : Int32) : Prop :=
  ∀ newLeaderID, .promoting topic partition newLeaderID ∉ n.tasks

section Replicas

variable {cfg : ReplicationConfig}

theorem nodup_foldl_addReplica {ids : List Int32} (brokers : List ClusterBroker) (h : ids.Nodup) :
    (brokers.foldl addReplica ids).Nodup := by
  induction brokers generalizing ids with
  | nil => exact h
  | cons br brokers ih =>
    apply ih
    rw [addReplica]
    split
    · exact h
    · rename_i hnew
      exact List.nodup_append.mpr ⟨h, List.nodup_singleton _, by
        rintro a ha b hb rfl
        exact hnew (List.mem_singleton.mp hb ▸ ha)⟩

theorem mem_addReplica {ids : List Int32} {br : ClusterBroker} {id : Int32} :
    id ∈ addReplica ids br ↔ id ∈ ids ∨ Int32.ofInt br.id = id := by
  rw [addReplica]
  split
  · rename_i hmem
    constructor
    · exact .inl
    · rintro (hid | rfl)
      · exact hid
      · exact hmem
  · rw [List.mem_append, List.mem_singleton, eq_comm (a := id)]

theorem mem_foldl_addReplica {ids : List Int32} (brokers : List ClusterBroker) {id : Int32} :
    id ∈ brokers.foldl addReplica ids ↔ id ∈ ids ∨ ∃ br ∈ brokers, Int32.ofInt br.id = id := by
  induction brokers generalizing ids with
  | nil => simp
  | cons br brokers ih => simp only [List.foldl_cons, ih, mem_addReplica, or_assoc,
      List.exists_mem_cons_iff]

theorem nodup_clusterReplicaIDs (cfg : ReplicationConfig) : (clusterReplicaIDs cfg).Nodup := by
  rw [clusterReplicaIDs]
  split
  · exact List.nodup_singleton _
  · exact nodup_foldl_addReplica _ List.nodup_nil

theorem clusterReplicaIDs_ne_nil (cfg : ReplicationConfig) : clusterReplicaIDs cfg ≠ [] := by
  rw [clusterReplicaIDs]
  split
  · exact List.cons_ne_nil _ _
  · rename_i hbrokers
    obtain ⟨br, brokers, hcons⟩ := List.exists_cons_of_ne_nil hbrokers
    apply List.ne_nil_of_mem
    exact (mem_foldl_addReplica _).mpr (.inr ⟨br, by rw [hcons]; exact List.mem_cons_self, rfl⟩)

theorem isSome_brokerAddr {id : Int32} (h : id ∈ clusterReplicaIDs cfg) :
    (brokerAddr cfg id).isSome = true := by
  rw [clusterReplicaIDs] at h
  rw [brokerAddr]
  split at h
  · rename_i hnone
    rw [if_pos hnone, if_pos (List.mem_singleton.mp h)]
    rfl
  · rename_i hsome
    rcases (mem_foldl_addReplica _).mp h with ⟨⟨⟩⟩ | ⟨br, hbr, rfl⟩
    rw [if_neg hsome, Option.isSome_map, List.find?_isSome]
    exact ⟨br, hbr, decide_eq_true rfl⟩

/-- The leader by the configuration is a replica, and does not depend on which broker
asks. -/
theorem staticPartitionLeader_eq {n : Node} (h : n.replicaIDs ≠ []) (partition : Int32) :
    n.replicaIDs[(partition.toInt.tmod n.replicaIDs.length).natAbs]? =
      some (n.staticPartitionLeader partition) := by
  have hpos : (0 : Int) < n.replicaIDs.length := by
    have := List.length_pos_iff.mpr h
    omega
  have hlt := Int.tmod_lt_of_pos partition.toInt hpos
  have hgt := Int.lt_tmod_of_pos partition.toInt hpos
  have hidx : (if partition.toInt.tmod n.replicaIDs.length < 0 then
      -partition.toInt.tmod n.replicaIDs.length
      else partition.toInt.tmod n.replicaIDs.length).toNat =
        (partition.toInt.tmod n.replicaIDs.length).natAbs := by
    split <;> omega
  rw [Node.staticPartitionLeader, if_neg h]
  dsimp only
  rw [hidx, List.getD_eq_getElem?_getD, List.getElem?_eq_getElem (by omega), Option.getD_some]

end Replicas

section Promotions

/-- The leader of a partition on a broker with these promotions behind it: the last one
promoted, and before that the one of the configuration. -/
def led (cfg : ReplicationConfig) (promoted : List ((Bytes × Int32) × Int32)) (topic : Bytes)
    (partition : Int32) : Int32 :=
  (latest promoted (topic, partition)).getD ((newNode cfg).staticPartitionLeader partition)

variable {cfg : ReplicationConfig} {promoted : List ((Bytes × Int32) × Int32)} {n n' : Node}

theorem partitionLeader_eq (n : Node) (topic : Bytes) (partition : Int32) :
    n.partitionLeader topic partition =
      ((n.epochMgr.entry topic partition).map PartitionEpoch.leaderID).getD
        (n.staticPartitionLeader partition) := by
  rw [Node.partitionLeader]
  cases hentry : n.epochMgr.entry topic partition with
  | none =>
    obtain ⟨e, he⟩ := exists_getEpoch_error_iff.mpr hentry
    rw [he]
    rfl
  | some pe =>
    rw [getEpoch_eq_ok_iff.mpr hentry]
    rfl

theorem led_concat (topic topic' : Bytes) (partition partition' newLeaderID : Int32) :
    led cfg (promoted ++ [((topic, partition), newLeaderID)]) topic' partition' =
      if topic' = topic ∧ partition' = partition then newLeaderID
      else led cfg promoted topic' partition' := by
  rw [led, latest_concat]
  by_cases h : topic' = topic ∧ partition' = partition
  · rw [if_pos h, h.1, h.2, Function.update_self]
    rfl
  · rw [if_neg h, Function.update_of_ne fun heq => h (Prod.mk.inj heq)]
    rfl

/-- What holds on a broker between any two steps.  A call that has seen a partition
without an epoch and a promotion never meet on it, and while a promotion has yet to
change the tracker nothing is said about the tracker. -/
structure Kept (cfg : ReplicationConfig) (promoted : List ((Bytes × Int32) × Int32)) (n : Node) :
    Prop where
  config : n.config = cfg
  replicaIDs : n.replicaIDs = clusterReplicaIDs cfg
  leader : ∀ topic partition, n.partitionLeader topic partition = led cfg promoted topic partition
  untracked : ∀ topic partition, n.epochMgr.entry topic partition = none →
    latest promoted (topic, partition) = none
  seeding : ∀ topic partition, .seeding topic partition ∈ n.tasks →
    latest promoted (topic, partition) = none
  promoting : ∀ topic partition newLeaderID, .promoting topic partition newLeaderID ∈ n.tasks →
    latest promoted (topic, partition) = some newLeaderID
  tracker : ∀ topic partition t, n.isrTrackers topic partition = some t →
    n.Quiet topic partition → t.leaderID = led cfg promoted topic partition
  creating : ∀ topic partition leaderID, n.creating = some (topic, partition, leaderID) →
    n.Quiet topic partition → leaderID = led cfg promoted topic partition

theorem kept_newNode (cfg : ReplicationConfig) : Kept cfg [] (newNode cfg) where
  config := rfl
  replicaIDs := rfl
  leader _ _ := rfl
  untracked _ _ _ := rfl
  seeding := by rintro topic partition ⟨⟩
  promoting := by rintro topic partition newLeaderID ⟨⟩
  tracker := by rintro topic partition t ⟨⟩
  creating := by rintro topic partition leaderID ⟨⟩

theorem staticPartitionLeader_of_kept (h : Kept cfg promoted n) (partition : Int32) :
    n.staticPartitionLeader partition = (newNode cfg).staticPartitionLeader partition := by
  simp only [Node.staticPartitionLeader, Node.localID, h.config, h.replicaIDs]
  rfl

theorem mem_eraseIdx_of_ne {tasks : List Task} {i : Nat} {a b : Task} (ha : tasks[i]? = some a)
    (hb : b ∈ tasks) (hne : b ≠ a) : b ∈ tasks.eraseIdx i := by
  obtain ⟨j, hj⟩ := List.mem_iff_getElem?.mp hb
  apply List.mem_eraseIdx_iff_getElem?.mpr
  refine ⟨j, ?_, hj⟩
  rintro rfl
  exact hne (Option.some.inj (hj.symm.trans ha))

theorem look_kept {topic : Bytes} {partition : Int32} (h : Kept cfg promoted n)
    (hstep : n.step (.look topic partition) = some n') : Kept cfg promoted n' := by
  simp only [Node.step] at hstep
  split at hstep
  · obtain rfl := Option.some.inj hstep
    exact h
  · rename_i e herror
    obtain rfl := Option.some.inj hstep
    have hquiet {t : Bytes} {p : Int32}
        (hq : Node.Quiet { n with tasks := n.tasks ++ [.seeding topic partition] } t p) :
        n.Quiet t p := fun l hmem => hq l (List.mem_append_left _ hmem)
    refine { h with seeding := ?_, promoting := ?_, tracker := ?_, creating := ?_ }
    · intro t p hmem
      rcases List.mem_append.mp hmem with hold | hnew
      · exact h.seeding t p hold
      · obtain ⟨rfl, rfl⟩ := Task.seeding.inj (List.mem_singleton.mp hnew)
        exact h.untracked t p (exists_getEpoch_error_iff.mp ⟨e, herror⟩)
    · intro t p l hmem
      rcases List.mem_append.mp hmem with hold | hnew
      · exact h.promoting t p l hold
      · cases List.mem_singleton.mp hnew
    · exact fun t p tr htr hq => h.tracker t p tr htr (hquiet hq)
    · exact fun t p l hl hq => h.creating t p l hl (hquiet hq)

theorem seed_kept {i : Nat} (h : Kept cfg promoted n) (hstep : n.step (.seed i) = some n') :
    Kept cfg promoted n' := by
  simp only [Node.step] at hstep
  split at hstep
  · rename_i topic partition htask
    obtain rfl := Option.some.inj hstep
    have hnone := h.seeding topic partition (List.mem_of_getElem? htask)
    have hquiet {t : Bytes} {p : Int32} {m : Node} (hm : m.tasks = n.tasks.eraseIdx i)
        (hq : m.Quiet t p) : n.Quiet t p := by
      intro l hmem
      apply hq l
      rw [hm]
      exact mem_eraseIdx_of_ne htask hmem (by rintro ⟨⟩)
    refine ⟨h.config, h.replicaIDs, ?_, ?_, ?_, ?_, ?_, ?_⟩
    · intro t p
      rw [partitionLeader_eq]
      dsimp only
      rw [entry_incrementEpoch]
      by_cases hfor : t = topic ∧ p = partition
      · obtain ⟨rfl, rfl⟩ := hfor
        rw [if_pos ⟨rfl, rfl⟩, Option.map_some, Option.getD_some, succeeding, led, hnone]
        exact staticPartitionLeader_of_kept h p
      · rw [if_neg hfor, ← h.leader t p, partitionLeader_eq]
        rfl
    · intro t p hentry
      rw [entry_incrementEpoch] at hentry
      split at hentry
      · cases hentry
      · exact h.untracked t p hentry
    · exact fun t p hmem => h.seeding t p (List.mem_of_mem_eraseIdx hmem)
    · exact fun t p l hmem => h.promoting t p l (List.mem_of_mem_eraseIdx hmem)
    · exact fun t p tr htr hq => h.tracker t p tr htr (hquiet rfl hq)
    · exact fun t p l hl hq => h.creating t p l hl (hquiet rfl hq)
  · cases hstep

theorem track_kept {topic : Bytes} {partition : Int32} (h : Kept cfg promoted n)
    (hstep : n.step (.track topic partition) = some n') : Kept cfg promoted n' := by
  simp only [Node.step] at hstep
  split at hstep
  · split at hstep
    · obtain rfl := Option.some.inj hstep
      exact h
    · obtain rfl := Option.some.inj hstep
      refine { h with creating := ?_ }
      intro t p l hl _
      obtain ⟨rfl, rfl, rfl⟩ :
          topic = t ∧ partition = p ∧ n.partitionLeader topic partition = l := by
        simpa using hl
      exact h.leader topic partition
  · cases hstep

theorem putTracker_apply (n : Node) (topic t : Bytes) (partition p : Int32) (tr : ISRTracker) :
    (n.putTracker topic partition tr).isrTrackers t p =
      if t = topic ∧ p = partition then some tr else n.isrTrackers t p := by
  rw [Node.putTracker]
  dsimp only
  by_cases ht : t = topic
  · subst ht
    rw [Function.update_self]
    by_cases hp : p = partition
    · rw [hp, Function.update_self, if_pos ⟨rfl, rfl⟩]
    · rw [Function.update_of_ne hp, if_neg fun h => hp h.2]
  · rw [Function.update_of_ne ht, if_neg fun h => ht h.1]

theorem store_kept {now : Int} {checkpoint : Option Int64} (h : Kept cfg promoted n)
    (hstep : n.step (.store now checkpoint) = some n') : Kept cfg promoted n' := by
  simp only [Node.step] at hstep
  split at hstep
  · cases hstep
  · rename_i topic partition leaderID hcreating
    obtain rfl := Option.some.inj hstep
    refine ⟨h.config, h.replicaIDs, h.leader, h.untracked, h.seeding, h.promoting, ?_, ?_⟩
    · intro t p tr htr hquiet
      rw [show ({ n.putTracker topic partition (n.newTracker leaderID now checkpoint) with
        creating := none } : Node).isrTrackers t p = _ from putTracker_apply ..] at htr
      split at htr
      · rename_i hfor
        obtain ⟨rfl, rfl⟩ := hfor
        obtain rfl := Option.some.inj htr
        exact h.creating t p leaderID hcreating hquiet
      · exact h.tracker t p tr htr hquiet
    · rintro t p l ⟨⟩

theorem promote_kept {topic : Bytes} {partition newLeaderID : Int32} (h : Kept cfg promoted n)
    (halone : promotesAlone n (.promote topic partition newLeaderID) = true)
    (hstep : n.step (.promote topic partition newLeaderID) = some n') :
    Kept cfg (promoted ++ [((topic, partition), newLeaderID)]) n' := by
  obtain rfl := Option.some.inj hstep
  have hfree (task : Task) (hmem : task ∈ n.tasks) : task.concerns topic partition = false := by
    rw [promotesAlone, Bool.not_eq_true', List.any_eq_false] at halone
    exact Bool.not_eq_true _ ▸ halone task hmem
  have hother {t : Bytes} {p : Int32} (hne : ¬(t = topic ∧ p = partition)) :
      latest (promoted ++ [((topic, partition), newLeaderID)]) (t, p) = latest promoted (t, p) := by
    rw [latest_concat, Function.update_of_ne fun heq => hne (Prod.mk.inj heq)]
  -- The partition itself is not quiet until the tracker is replaced.
  have hquiet {t : Bytes} {p : Int32} {m : Node}
      (hm : m.tasks = n.tasks ++ [.promoting topic partition newLeaderID]) (hq : m.Quiet t p) :
      n.Quiet t p ∧ ¬(t = topic ∧ p = partition) := by
    constructor
    · exact fun l hmem => hq l (hm ▸ List.mem_append_left _ hmem)
    · rintro ⟨rfl, rfl⟩
      exact hq newLeaderID (hm ▸ List.mem_append_right _ (List.mem_singleton.mpr rfl))
  refine ⟨h.config, h.replicaIDs, ?_, ?_, ?_, ?_, ?_, ?_⟩
  · intro t p
    rw [partitionLeader_eq, led_concat]
    dsimp only
    rw [entry_incrementEpoch]
    split
    · rfl
    · rw [← h.leader t p, partitionLeader_eq]
      rfl
  · intro t p hentry
    rw [entry_incrementEpoch] at hentry
    split at hentry
    · cases hentry
    · rename_i hne
      rw [hother hne]
      exact h.untracked t p hentry
  · intro t p hmem
    rcases List.mem_append.mp hmem with hold | hnew
    · rw [hother (of_decide_eq_false (hfree _ hold))]
      exact h.seeding t p hold
    · cases List.mem_singleton.mp hnew
  · intro t p l hmem
    rcases List.mem_append.mp hmem with hold | hnew
    · rw [hother (of_decide_eq_false (hfree _ hold))]
      exact h.promoting t p l hold
    · obtain ⟨rfl, rfl, rfl⟩ := Task.promoting.inj (List.mem_singleton.mp hnew)
      rw [latest_concat, Function.update_self]
  · intro t p tr htr hq
    obtain ⟨hold, hne⟩ := hquiet rfl hq
    rw [led_concat, if_neg hne]
    exact h.tracker t p tr htr hold
  · intro t p l hl hq
    obtain ⟨hold, hne⟩ := hquiet rfl hq
    rw [led_concat, if_neg hne]
    exact h.creating t p l hl hold

theorem install_kept {i : Nat} {now : Int} {checkpoint : Option Int64} (h : Kept cfg promoted n)
    (hstep : n.step (.install i now checkpoint) = some n') : Kept cfg promoted n' := by
  simp only [Node.step] at hstep
  split at hstep
  · rename_i topic partition newLeaderID hcreating htask
    obtain rfl := Option.some.inj hstep
    refine ⟨h.config, h.replicaIDs, h.leader, h.untracked, ?_, ?_, ?_, ?_⟩
    · exact fun t p hmem => h.seeding t p (List.mem_of_mem_eraseIdx hmem)
    · exact fun t p l hmem => h.promoting t p l (List.mem_of_mem_eraseIdx hmem)
    · intro t p tr htr hquiet
      rw [show ({ n.putTracker topic partition (n.newTracker newLeaderID now checkpoint) with
        tasks := n.tasks.eraseIdx i } : Node).isrTrackers t p = _ from putTracker_apply ..] at htr
      split at htr
      · rename_i hfor
        obtain ⟨rfl, rfl⟩ := hfor
        obtain rfl := Option.some.inj htr
        rw [led, h.promoting t p newLeaderID (List.mem_of_getElem? htask)]
        rfl
      · rename_i hne
        refine h.tracker t p tr htr fun l hmem => hquiet l (mem_eraseIdx_of_ne htask hmem ?_)
        rintro ⟨⟩
        exact hne ⟨rfl, rfl⟩
    · intro t p l hl
      rw [show ({ n.putTracker topic partition (n.newTracker newLeaderID now checkpoint) with
        tasks := n.tasks.eraseIdx i } : Node).creating = n.creating from rfl, hcreating] at hl
      cases hl
  · cases hstep

theorem step_kept {e : Event} (h : Kept cfg promoted n) (halone : promotesAlone n e = true)
    (hstep : n.step e = some n') : Kept cfg (promoted ++ e.promotion.toList) n' := by
  cases e with
  | promote topic partition newLeaderID => exact promote_kept h halone hstep
  | look topic partition => simpa [Event.promotion] using look_kept h hstep
  | seed i => simpa [Event.promotion] using seed_kept h hstep
  | track topic partition => simpa [Event.promotion] using track_kept h hstep
  | store now checkpoint => simpa [Event.promotion] using store_kept h hstep
  | install i now checkpoint => simpa [Event.promotion] using install_kept h hstep

theorem promotions_concat (events : List Event) (e : Event) :
    promotions (events ++ [e]) = promotions events ++ e.promotion.toList := by
  rw [promotions, List.filterMap_append]
  cases h : e.promotion with
  | none => simp [promotions, h]
  | some w => simp [promotions, h]

theorem run_kept {events : List Event}
    (hrun : Run (Guarded promotesAlone Node.step) (newNode cfg) events n) :
    Kept cfg (promotions events) n := by
  induction hrun with
  | nil => exact kept_newNode cfg
  | snoc _ hlast ih =>
    rw [promotions_concat]
    exact step_kept ih hlast.1 hlast.2

/-- On a broker whose promotions of a partition do not meet other calls at it, the
leader is always the one promoted last, and the configured one before the first
promotion.  The tracker has that leader too, unless a promotion has yet to replace it. -/
theorem leader_is_last_promoted {events : List Event}
    (hrun : Run (Guarded promotesAlone Node.step) (newNode cfg) events n) (topic : Bytes)
    (partition : Int32) :
    n.partitionLeader topic partition =
        (latest (promotions events) (topic, partition)).getD
          ((newNode cfg).staticPartitionLeader partition) ∧
      (n.Quiet topic partition → ∀ t, n.isrTrackers topic partition = some t →
        t.leaderID = n.partitionLeader topic partition) := by
  have hkept := run_kept hrun
  constructor
  · exact hkept.leader topic partition
  · intro hquiet t ht
    rw [hkept.leader topic partition]
    exact hkept.tracker topic partition t ht hquiet

def threeBrokers : List ClusterBroker := [⟨1, [49], 9092⟩, ⟨2, [50], 9092⟩, ⟨3, [51], 9092⟩]

def brokerOf (id : Int) : ReplicationConfig := ⟨id, [48], 9092, threeBrokers, 0⟩

/-- Broker 1 looks at partition 4 of a topic, gives it an epoch and a tracker, and
promotes broker 3 while another request is creating the tracker of partition 5. -/
def overlapping : List Event :=
  [.look [116] 4, .look [116] 4, .seed 0, .seed 0, .track [116] 4, .store 7 none,
    .track [116] 5, .promote [116] 4 3, .store 8 none, .install 0 9 (some 12)]

theorem leader_is_last_promoted_overlapping :
    ∃ n : Node, Run (Guarded promotesAlone Node.step) (newNode (brokerOf 1)) overlapping n ∧
      n.partitionLeader [116] 4 = 3 ∧ n.partitionLeader [116] 5 = 3 ∧
      (∀ t, n.isrTrackers [116] 4 = some t → t.leaderID = 3) := by
  have hend : (execute promotesAlone Node.step (newNode (brokerOf 1)) overlapping).map (fun n =>
      (n.tasks, n.partitionLeader [116] 5)) = some ([], 3) := by
    decide +kernel
  obtain ⟨n, hrun, hseen⟩ := exists_run_of_execute hend
  obtain ⟨htasks, hfive⟩ := Prod.mk.inj hseen
  obtain ⟨hleader, htracker⟩ := leader_is_last_promoted hrun [116] 4
  have hfour : n.partitionLeader [116] 4 = 3 := by
    rw [hleader]
    rfl
  refine ⟨n, hrun, hfour, hfive, fun t ht => ?_⟩
  rw [← hfour]
  exact htracker (by rintro l hmem; rw [htasks] at hmem; cases hmem) t ht

end Promotions

section Cluster

def Node.fetchLoops (n : Node) : List Int32 :=
  n.replicaIDs.filter fun id => !decide (id = n.localID)

def partitionRefs (topics : List (Bytes × List Int32)) : List (Bytes × Int32) :=
  topics.flatMap fun t => t.2.map fun p => (t.1, p)

/-- The partitions that a round of `followerFetchOnce` fetches from one broker. -/
def Node.fetchTargets (n : Node) (topics : List (Bytes × List Int32)) (leaderID : Int32) :
    List (Bytes × Int32) :=
  match brokerAddr n.config leaderID with
  | none => []
  | some _ =>
    (partitionRefs topics).filter fun tp => decide (n.partitionLeader tp.1 tp.2 = leaderID)

variable {brokers : List ClusterBroker} {cfgs : List ReplicationConfig} {nodes : List Node}
  {events : List (Nat × Event)}

/-- A cluster whose brokers share one list and where no broker on it is missing, with what
each broker has done.  Its promotions do not meet other calls at their partition. -/
structure Deployed (brokers : List ClusterBroker) (cfgs : List ReplicationConfig)
    (events : List (Nat × Event)) (nodes : List Node) : Prop where
  listed : brokers ≠ []
  shared : ∀ cfg ∈ cfgs, cfg.brokers = brokers
  distinct : (cfgs.map ReplicationConfig.localID).Nodup
  complete : ∀ br ∈ brokers, ∃ cfg ∈ cfgs, cfg.localID = Int32.ofInt br.id
  run : Run (Guarded (guardComponent promotesAlone) (onComponent Node.step)) (cfgs.map newNode)
    events nodes

/-- The brokers that were promoted for a partition, if any, are on every broker the same
in the end. -/
def SameLast (cfgs : List ReplicationConfig) (events : List (Nat × Event)) (topic : Bytes)
    (partition : Int32) (last : Option Int32) : Prop :=
  ∀ i < cfgs.length, latest (promotions (labelsOf i events)) (topic, partition) = last

theorem clusterReplicaIDs_of_deployed (h : Deployed brokers cfgs events nodes)
    {cfg : ReplicationConfig} (hcfg : cfg ∈ cfgs) :
    clusterReplicaIDs cfg = brokers.foldl addReplica [] := by
  rw [clusterReplicaIDs, h.shared cfg hcfg, if_neg h.listed]

theorem static_of_deployed (h : Deployed brokers cfgs events nodes) {cfg cfg' : ReplicationConfig}
    (hcfg : cfg ∈ cfgs) (hcfg' : cfg' ∈ cfgs) (partition : Int32) :
    (newNode cfg).staticPartitionLeader partition =
      (newNode cfg').staticPartitionLeader partition := by
  have hids : (newNode cfg).replicaIDs = (newNode cfg').replicaIDs :=
    (clusterReplicaIDs_of_deployed h hcfg).trans (clusterReplicaIDs_of_deployed h hcfg').symm
  have heq := staticPartitionLeader_eq (n := newNode cfg) (clusterReplicaIDs_ne_nil cfg) partition
  have heq' := staticPartitionLeader_eq (n := newNode cfg') (clusterReplicaIDs_ne_nil cfg')
    partition
  rw [hids] at heq
  exact Option.some.inj (heq.symm.trans heq')

theorem kept_of_deployed (h : Deployed brokers cfgs events nodes) {i : Nat} {n : Node}
    (hn : nodes[i]? = some n) :
    ∃ cfg, cfgs[i]? = some cfg ∧ Kept cfg (promotions (labelsOf i events)) n := by
  obtain ⟨start, hstart, hrun⟩ := run_component h.run hn
  rw [List.getElem?_map] at hstart
  obtain ⟨cfg, hcfg, rfl⟩ := Option.map_eq_some_iff.mp hstart
  exact ⟨cfg, hcfg, run_kept hrun⟩

theorem exists_node_of_deployed (h : Deployed brokers cfgs events nodes) {i : Nat}
    {cfg : ReplicationConfig} (hcfg : cfgs[i]? = some cfg) : ∃ n, nodes[i]? = some n := by
  have hlength := length_of_component_run h.run
  rw [List.length_map] at hlength
  have hi := (List.getElem?_eq_some_iff.mp hcfg).1
  exact ⟨nodes[i], List.getElem?_eq_getElem (by omega)⟩

/-- The three brokers move partition 1 from broker 2 to broker 3, each in its own time. -/
def moved : List (Nat × Event) :=
  [(0, .look [116] 1), (1, .promote [116] 1 3), (0, .seed 0), (2, .track [116] 1),
    (0, .promote [116] 1 3), (2, .store 5 none), (2, .promote [116] 1 3), (1, .install 0 6 none)]

theorem moved_deployed :
    ∃ nodes, Deployed threeBrokers ([1, 2, 3].map brokerOf) moved nodes := by
  have hend : (execute (guardComponent promotesAlone) (onComponent Node.step)
      (([1, 2, 3].map brokerOf).map newNode) moved).isSome = true := by
    decide +kernel
  exact ⟨_, by decide, by decide, by decide, by decide, run_getD (d := []) hend⟩

theorem moved_sameLast :
    SameLast ([1, 2, 3].map brokerOf) moved [116] 1 (some 3) := by
  unfold SameLast
  decide +kernel

section

variable {topic : Bytes} {partition : Int32} {last : Option Int32}

theorem exists_leader_of_deployed (h : Deployed brokers cfgs events nodes)
    (hsame : SameLast cfgs events topic partition last)
    (hlast : ∀ id, last = some id → id ∈ brokers.foldl addReplica []) :
    ∃ leaderID ∈ brokers.foldl addReplica [],
      ∀ n ∈ nodes, n.partitionLeader topic partition = leaderID := by
  obtain ⟨br, rest, hbrokers⟩ := List.exists_cons_of_ne_nil h.listed
  obtain ⟨cfg, hcfg, -⟩ := h.complete br (by rw [hbrokers]; exact List.mem_cons_self)
  refine ⟨last.getD ((newNode cfg).staticPartitionLeader partition), ?_, ?_⟩
  · cases last with
    | some id => exact hlast id rfl
    | none =>
      have heq := staticPartitionLeader_eq (n := newNode cfg) (clusterReplicaIDs_ne_nil cfg)
        partition
      rw [← clusterReplicaIDs_of_deployed h hcfg]
      exact List.mem_of_getElem? heq
  · intro n hn
    obtain ⟨i, hi⟩ := List.mem_iff_getElem?.mp hn
    obtain ⟨cfg', hcfg', hkept⟩ := kept_of_deployed h hi
    rw [hkept.leader topic partition, led, hsame i (List.getElem?_eq_some_iff.mp hcfg').1,
      static_of_deployed h (List.mem_of_getElem? hcfg') hcfg]

theorem exists_node_of_replica (h : Deployed brokers cfgs events nodes) {id : Int32}
    (hid : id ∈ brokers.foldl addReplica []) :
    ∃ (i : Nat) (n : Node), nodes[i]? = some n ∧ n.localID = id := by
  rcases (mem_foldl_addReplica brokers).mp hid with ⟨⟨⟩⟩ | ⟨br, hbr, rfl⟩
  obtain ⟨cfg, hcfg, hlocal⟩ := h.complete br hbr
  obtain ⟨i, hi⟩ := List.mem_iff_getElem?.mp hcfg
  obtain ⟨n, hn⟩ := exists_node_of_deployed h hi
  obtain ⟨cfg', hcfg', hkept⟩ := kept_of_deployed h hn
  obtain rfl := Option.some.inj (hcfg'.symm.trans hi)
  exact ⟨i, n, hn, by rw [Node.localID, hkept.config, hlocal]⟩

theorem localID_injective (h : Deployed brokers cfgs events nodes) {i j : Nat} {n m : Node}
    (hi : nodes[i]? = some n) (hj : nodes[j]? = some m) (heq : n.localID = m.localID) : i = j := by
  obtain ⟨cfg, hcfg, hn⟩ := kept_of_deployed h hi
  obtain ⟨cfg', hcfg', hm⟩ := kept_of_deployed h hj
  have hat {k : Nat} {c : ReplicationConfig} (hc : cfgs[k]? = some c) :
      (cfgs.map ReplicationConfig.localID)[k]? = some c.localID := by
    rw [List.getElem?_map, hc]
    rfl
  rw [Node.localID, Node.localID, hn.config, hm.config] at heq
  apply (List.getElem?_inj (List.getElem?_eq_some_iff.mp (hat hcfg)).1 h.distinct).mp
  rw [hat hcfg, hat hcfg', heq]

/-- All brokers name the same leader of a partition, and that broker alone takes itself
for it. -/
theorem one_leader (h : Deployed brokers cfgs events nodes)
    (hsame : SameLast cfgs events topic partition last)
    (hlast : ∀ id, last = some id → id ∈ brokers.foldl addReplica []) :
    (∃ leaderID, ∀ n ∈ nodes, n.partitionLeader topic partition = leaderID) ∧
      ∃! i : Nat, ∃ n : Node, nodes[i]? = some n ∧ n.isLeader topic partition = true := by
  obtain ⟨leaderID, hmem, hall⟩ := exists_leader_of_deployed h hsame hlast
  refine ⟨⟨leaderID, hall⟩, ?_⟩
  obtain ⟨i, n, hn, hlocal⟩ := exists_node_of_replica h hmem
  refine ⟨i, ⟨n, hn, ?_⟩, ?_⟩
  · rw [Node.isLeader, hall n (List.mem_of_getElem? hn), hlocal, decide_eq_true rfl]
  · rintro j ⟨m, hm, hleads⟩
    apply localID_injective h hm hn
    rw [hlocal, ← hall m (List.mem_of_getElem? hm)]
    exact (of_decide_eq_true hleads).symm

theorem one_leader_moved :
    ∃ nodes, Deployed threeBrokers ([1, 2, 3].map brokerOf) moved nodes ∧
      ∃! i : Nat, ∃ n : Node, nodes[i]? = some n ∧ n.isLeader [116] 1 = true := by
  obtain ⟨nodes, h⟩ := moved_deployed
  exact ⟨nodes, h, (one_leader h moved_sameLast (by rintro id ⟨⟩; decide)).2⟩

theorem partitionLeader_of_mem_fetchTargets {n : Node} {topics : List (Bytes × List Int32)}
    {id : Int32} {tp : Bytes × Int32} (h : tp ∈ n.fetchTargets topics id) :
    n.partitionLeader tp.1 tp.2 = id := by
  rw [Node.fetchTargets] at h
  split at h
  · cases h
  · exact of_decide_eq_true (List.mem_filter.mp h).2

theorem nodup_fetchTargets {n : Node} {topics : List (Bytes × List Int32)}
    (h : (partitionRefs topics).Nodup) (id : Int32) : (n.fetchTargets topics id).Nodup := by
  rw [Node.fetchTargets]
  split
  · exact List.nodup_nil
  · exact h.filter _

theorem nodup_fetches {n : Node} {topics : List (Bytes × List Int32)}
    (hids : n.replicaIDs.Nodup) (hdistinct : (partitionRefs topics).Nodup) :
    (n.fetchLoops.flatMap (n.fetchTargets topics)).Nodup := by
  rw [List.nodup_flatMap]
  refine ⟨fun id _ => nodup_fetchTargets hdistinct id, ?_⟩
  apply (hids.filter _).imp
  intro id id' hne tp hmem hmem'
  exact hne ((partitionLeader_of_mem_fetchTargets hmem).symm.trans
    (partitionLeader_of_mem_fetchTargets hmem'))

/-- The rounds of all fetch loops of a broker together fetch a partition of another
leader once, from the address of that leader, which takes itself for the leader.  A
partition that the broker leads is not fetched. -/
theorem fetched_from_leader_once (h : Deployed brokers cfgs events nodes)
    (hsame : SameLast cfgs events topic partition last)
    (hlast : ∀ id, last = some id → id ∈ brokers.foldl addReplica [])
    {n : Node} (hn : n ∈ nodes) {topics : List (Bytes × List Int32)}
    (hdistinct : (partitionRefs topics).Nodup) (hhas : (topic, partition) ∈ partitionRefs topics) :
    (n.fetchLoops.flatMap (n.fetchTargets topics)).count (topic, partition) =
        (if n.isLeader topic partition then 0 else 1) ∧
      ∀ id ∈ n.fetchLoops, (topic, partition) ∈ n.fetchTargets topics id →
        (brokerAddr n.config id).isSome = true ∧
          ∃ m ∈ nodes, m.localID = id ∧ m.isLeader topic partition = true := by
  obtain ⟨leaderID, hmem, hall⟩ := exists_leader_of_deployed h hsame hlast
  obtain ⟨i, hi⟩ := List.mem_iff_getElem?.mp hn
  obtain ⟨cfg, hcfg, hkept⟩ := kept_of_deployed h hi
  have haddr {id : Int32} (hid : id ∈ n.replicaIDs) : (brokerAddr n.config id).isSome = true := by
    rw [hkept.config]
    exact isSome_brokerAddr (hkept.replicaIDs ▸ hid)
  have hleader : leaderID ∈ n.replicaIDs := by
    rwa [hkept.replicaIDs, clusterReplicaIDs_of_deployed h (List.mem_of_getElem? hcfg)]
  have hfetched : (topic, partition) ∈ n.fetchLoops.flatMap (n.fetchTargets topics) ↔
      leaderID ≠ n.localID := by
    constructor
    · intro hflat
      obtain ⟨id, hid, htarget⟩ := List.mem_flatMap.mp hflat
      obtain rfl := (partitionLeader_of_mem_fetchTargets htarget).symm.trans (hall n hn)
      simpa using (List.mem_filter.mp hid).2
    · intro hremote
      have hloop : leaderID ∈ n.fetchLoops :=
        List.mem_filter.mpr ⟨hleader, by simpa using hremote⟩
      refine List.mem_flatMap.mpr ⟨leaderID, hloop, ?_⟩
      obtain ⟨addr, hsome⟩ := Option.isSome_iff_exists.mp (haddr hleader)
      rw [Node.fetchTargets, hsome]
      exact List.mem_filter.mpr ⟨hhas, decide_eq_true (hall n hn)⟩
  constructor
  · have hnodup := nodup_fetches (hkept.replicaIDs ▸ nodup_clusterReplicaIDs cfg) hdistinct
    rw [Node.isLeader, hall n hn]
    by_cases hlocal : leaderID = n.localID
    · rw [List.count_eq_zero.mpr fun hflat => hfetched.mp hflat hlocal]
      simp [hlocal]
    · rw [List.count_eq_one_of_mem hnodup (hfetched.mpr hlocal)]
      simp [hlocal]
  · intro id hid htarget
    refine ⟨haddr (List.mem_filter.mp hid).1, ?_⟩
    obtain rfl := (partitionLeader_of_mem_fetchTargets htarget).symm.trans (hall n hn)
    obtain ⟨j, m, hm, hlocal⟩ := exists_node_of_replica h hmem
    refine ⟨m, List.mem_of_getElem? hm, hlocal, ?_⟩
    rw [Node.isLeader, hall m (List.mem_of_getElem? hm), hlocal, decide_eq_true rfl]

theorem fetched_from_leader_once_moved :
    ∃ nodes, Deployed threeBrokers ([1, 2, 3].map brokerOf) moved nodes ∧
      ∀ n ∈ nodes,
        (n.fetchLoops.flatMap (n.fetchTargets [([116], [0, 1])])).count ([116], 1) =
          if n.isLeader [116] 1 then 0 else 1 := by
  obtain ⟨nodes, h⟩ := moved_deployed
  refine ⟨nodes, h, fun n hn => ?_⟩
  exact (fetched_from_leader_once h moved_sameLast (by rintro id ⟨⟩; decide) hn (by decide)
    (by decide)).1

end

end Cluster

end MiniKafka.PartitionLeadership
