import MiniKafka.GroupLedger
import MiniKafka.OffsetRecovery

/-!
`OffsetCommit` requests of members that a rebalance has left behind.

The request names the member and the generation it believes in, as those of
`SyncGroup` and `Heartbeat` do.  The handler looks at neither.
-/

namespace MiniKafka.CommitFencing

open BigEndian RecordCodec PartitionLog LogContents CommittedOffsets OffsetRecovery GroupCoordinator
  Runs WireCodec

structure Coordinator where
  groups : Bytes → Option Coordination
  offsetStore : OffsetStore

structure OffsetCommitRequestPartition where
  partitionID : Int32
  offset : Int64
  deriving DecidableEq, Repr

structure OffsetCommitRequestTopic where
  name : Bytes
  partitions : List OffsetCommitRequestPartition
  deriving DecidableEq, Repr

structure OffsetCommitRequest where
  groupID : Bytes
  generationID : Int32
  memberID : Bytes
  topics : List OffsetCommitRequestTopic
  deriving DecidableEq, Repr

structure OffsetCommitResponsePartition where
  partitionID : Int32
  errorCode : ErrorCode
  deriving DecidableEq, Repr

structure OffsetCommitResponseTopic where
  name : Bytes
  partitions : List OffsetCommitResponsePartition
  deriving DecidableEq, Repr

structure OffsetCommitResponse where
  topics : List OffsetCommitResponseTopic
  deriving DecidableEq, Repr

def newCoordinator (offsetStore : OffsetStore) : Coordinator := ⟨fun _ => none, offsetStore⟩

/-- An operation on one group.  Joining creates the group, unless its id is
empty; the other requests are refused without one. -/
def Coordinator.onGroup (c : Coordinator) (groupID : Bytes) (event : GroupCoordinator.Event) :
    Option Coordinator :=
  let set := fun w => { c with groups := Function.update c.groups groupID (some w) }
  match event with
  | .join _ _ _ _ _ =>
    if groupID = [] then some c
    else (((c.groups groupID).getD newCoordination).step event).map set
  | _ =>
    match c.groups groupID with
    | none => some c
    | some w => (w.step event).map set

def OffsetCommitRequest.commits (request : OffsetCommitRequest) : List (Bytes × Int32 × Int64) :=
  request.topics.flatMap fun t => t.partitions.map fun p => (t.name, p.partitionID, p.offset)

/-- The commits of a request.  `world` is the time and the surroundings of each. -/
def commitAll (crc : Checksum) (groupID : Bytes) (world : Nat → Int64 × Surroundings) :
    Nat → List (Bytes × Int32 × Int64) → OffsetStore → OffsetStore
  | _, [], store => store
  | i, (topic, partition, offset) :: commits, store =>
    commitAll crc groupID world (i + 1) commits
      (store.commit crc groupID topic partition offset (world i).1 (world i).2).1

def Coordinator.handleOffsetCommit (crc : Checksum) (c : Coordinator)
    (request : OffsetCommitRequest) (world : Nat → Int64 × Surroundings) :
    Coordinator × OffsetCommitResponse :=
  ({ c with offsetStore := commitAll crc request.groupID world 0 request.commits c.offsetStore },
    ⟨request.topics.map fun t => ⟨t.name, t.partitions.map fun p => ⟨p.partitionID, .none⟩⟩⟩)

inductive Event where
  | group (groupID : Bytes) (event : GroupCoordinator.Event)
  | commit (request : OffsetCommitRequest) (world : Nat → Int64 × Surroundings)

def next (crc : Checksum) (c : Coordinator) : Event → Option Coordinator
  | .group groupID event => c.onGroup groupID event
  | .commit request world => some (c.handleOffsetCommit crc request world).1

def guard (c : Coordinator) : Event → Bool
  | .group _ _ => true
  | .commit request _ => hasOffsets c.offsetStore request.groupID request.commits.length

def Current (c : Coordinator) (request : OffsetCommitRequest) : Prop :=
  ∃ w, c.groups request.groupID = some w ∧ request.generationID = w.group.generationID ∧
    request.memberID ∈ w.group.ids

/-- The group has members, and the request is not from one of them in the
current generation. -/
def Stale (c : Coordinator) (request : OffsetCommitRequest) : Prop :=
  ∃ w, c.groups request.groupID = some w ∧ w.group.members ≠ [] ∧
    (request.generationID ≠ w.group.generationID ∨ request.memberID ∉ w.group.ids)

/-- Every partition is refused for the generation or the member, and no offset
changes. -/
def Fenced (crc : Checksum) (c : Coordinator) (request : OffsetCommitRequest)
    (world : Nat → Int64 × Surroundings) : Prop :=
  (∀ t ∈ (c.handleOffsetCommit crc request world).2.topics, ∀ p ∈ t.partitions,
    p.errorCode = .illegalGeneration ∨ p.errorCode = .unknownMemberID) ∧
  ∀ g t p, (c.handleOffsetCommit crc request world).1.offsetStore.fetch g t p =
    c.offsetStore.fetch g t p

section

variable {crc : Checksum} {c : Coordinator} {request : OffsetCommitRequest}
  {world : Nat → Int64 × Surroundings}

theorem errorCode_handleOffsetCommit {t : OffsetCommitResponseTopic}
    {p : OffsetCommitResponsePartition}
    (ht : t ∈ (c.handleOffsetCommit crc request world).2.topics) (hp : p ∈ t.partitions) :
    p.errorCode = .none := by
  obtain ⟨requested, -, rfl⟩ := List.mem_map.mp ht
  obtain ⟨partition, -, rfl⟩ := List.mem_map.mp hp
  rfl

theorem exists_answered (crc : Checksum) (c : Coordinator) (world : Nat → Int64 × Surroundings)
    (hcommits : request.commits ≠ []) :
    ∃ t ∈ (c.handleOffsetCommit crc request world).2.topics, ∃ p, p ∈ t.partitions := by
  obtain ⟨entry, hentry⟩ := List.exists_mem_of_ne_nil _ hcommits
  obtain ⟨t, ht, hmem⟩ := List.mem_flatMap.mp hentry
  obtain ⟨p, hp, -⟩ := List.mem_map.mp hmem
  exact ⟨_, List.mem_map.mpr ⟨t, ht, rfl⟩, _, List.mem_map.mpr ⟨p, hp, rfl⟩⟩

theorem backed_commitAll {numPartitions : Int32} {groupID : Bytes}
    (commits : List (Bytes × Int32 × Int64)) (i : Nat) {store : OffsetStore}
    (h : Backed crc numPartitions store) (hleft : hasOffsets store groupID commits.length = true) :
    Backed crc numPartitions (commitAll crc groupID world i commits store) := by
  induction commits generalizing i store with
  | nil => exact h
  | cons entry commits ih =>
    obtain ⟨topic, partition, offset⟩ := entry
    have hone : hasOffsets store groupID 1 = true := by
      obtain ⟨l, hl, -⟩ := log_of_group h groupID
      rw [hasOffsets_iff hl, OffsetsLeft] at hleft ⊢
      rw [List.length_cons] at hleft
      omega
    obtain ⟨s, error, hcommit, hbacked, hrest, -⟩ :=
      commit_spec h hone topic partition offset (world i).1 (world i).2
    rw [commitAll, hcommit]
    exact ih (i + 1) hbacked (hrest commits.length hleft)

theorem offsetStore_onGroup {c' : Coordinator} {groupID : Bytes} {event : GroupCoordinator.Event}
    (h : c.onGroup groupID event = some c') : c'.offsetStore = c.offsetStore := by
  have hset {o : Option Coordination}
      (hmap : (o.map fun w => { c with groups := Function.update c.groups groupID (some w) }) =
        some c') : c'.offsetStore = c.offsetStore := by
    obtain ⟨w, -, rfl⟩ := Option.map_eq_some_iff.mp hmap
    rfl
  unfold Coordinator.onGroup at h
  dsimp only at h
  split at h
  · split at h
    · rw [Option.some.inj h]
    · exact hset h
  · split at h
    · rw [Option.some.inj h]
    · exact hset h

theorem backed_run {numPartitions : Int32} {dir : Directory} {store : OffsetStore}
    {events : List Event} (hdir : ∀ i, dir.files i = [])
    (hstart : (newOffsetStore numPartitions).start crc dir = some (store, none))
    (hrun : Run (Guarded guard (next crc)) (newCoordinator store) events c) :
    Backed crc numPartitions c.offsetStore := by
  refine hrun.invariant (P := fun c => Backed crc numPartitions c.offsetStore)
    (started_empty hdir hstart).1 ?_
  rintro c event c' hc ⟨hguard, hnext⟩
  cases event with
  | group groupID event =>
    rw [offsetStore_onGroup hnext]
    exact hc
  | commit request world =>
    obtain rfl := Option.some.inj hnext
    exact backed_commitAll request.commits 0 hc hguard

theorem fetch_handleOffsetCommit {numPartitions : Int32} {topic : Bytes} {partition : Int32}
    {offset : Int64} (hcommits : request.commits = [(topic, partition, offset)])
    (hbacked : Backed crc numPartitions c.offsetStore)
    (hleft : hasOffsets c.offsetStore request.groupID 1 = true)
    (hgroup : request.groupID.length ≤ maxInt16) (htopic : topic.length ≤ maxInt16)
    (hfault : (world 0).2.fault = none) :
    (c.handleOffsetCommit crc request world).1.offsetStore.fetch request.groupID topic partition =
      offset := by
  obtain ⟨s, error, hcommit, -, -, hcases⟩ :=
    commit_spec hbacked hleft topic partition offset (world 0).1 (world 0).2
  have hok := commit_ok hbacked hgroup htopic hfault partition offset (world 0).1
  rw [hcommit] at hok
  rw [Coordinator.handleOffsetCommit, hcommits]
  dsimp only
  rw [commitAll, hcommit, commitAll, OffsetStore.fetch]
  rcases hcases with ⟨hfailed, -⟩ | ⟨-, hcache, -⟩
  · exact absurd hok hfailed
  · rw [hcache, Function.update_self]
    rfl

/-- No stale request is ever refused.  It does what the same request from a
member of the current generation does, and a single commit without a fault
takes the place of whatever was committed before. -/
theorem commit_never_fenced {numPartitions : Int32} {dir : Directory} {store : OffsetStore}
    {events : List Event} (hdir : ∀ i, dir.files i = [])
    (hstart : (newOffsetStore numPartitions).start crc dir = some (store, none))
    (hrun : Run (Guarded guard (next crc)) (newCoordinator store) events c)
    (hstale : Stale c request) (hcommits : request.commits ≠ []) :
    ¬ Fenced crc c request world ∧
    (∃ current, Current c current ∧ current.groupID = request.groupID ∧
      current.topics = request.topics ∧
      c.handleOffsetCommit crc current world = c.handleOffsetCommit crc request world) ∧
    ∀ topic partition offset, request.commits = [(topic, partition, offset)] →
      hasOffsets c.offsetStore request.groupID 1 = true →
      request.groupID.length ≤ maxInt16 → topic.length ≤ maxInt16 → (world 0).2.fault = none →
      (c.handleOffsetCommit crc request world).1.offsetStore.fetch request.groupID topic
        partition = offset := by
  refine ⟨?_, ?_, ?_⟩
  · rintro ⟨hrefused, -⟩
    obtain ⟨t, ht, p, hp⟩ := exists_answered crc c world hcommits
    have hnone := errorCode_handleOffsetCommit ht hp
    rcases hrefused t ht p hp with hcode | hcode
    · exact absurd (hcode.symm.trans hnone) (by decide)
    · exact absurd (hcode.symm.trans hnone) (by decide)
  · obtain ⟨w, hgroup, hmembers, -⟩ := hstale
    obtain ⟨m, hm⟩ := List.exists_mem_of_ne_nil _ hmembers
    exact ⟨{ request with generationID := w.group.generationID, memberID := m.id },
      ⟨w, hgroup, rfl, List.mem_map_of_mem hm⟩, rfl, rfl, rfl⟩
  · intro topic partition offset hsingle hleft hgroup htopic hfault
    exact fetch_handleOffsetCommit hsingle (backed_run hdir hstart hrun) hleft hgroup htopic hfault

end

/-- Both have joined before one of them leaves; the other commits in the new
generation. -/
def takenOver : List Event :=
  [.group [103] (GroupLedger.joins GroupLedger.alice),
    .group [103] (GroupLedger.joins GroupLedger.bob),
    .group [103] (.leave GroupLedger.alice 0),
    .commit ⟨[103], 2, GroupLedger.bob, [⟨[116], [⟨0, 20⟩]⟩]⟩ fun _ => (0, ⟨0, none⟩)]

def leftBehind : OffsetCommitRequest := ⟨[103], 1, GroupLedger.alice, [⟨[116], [⟨0, 11⟩]⟩]⟩

def calm : Nat → Int64 × Surroundings := fun _ => (0, ⟨0, none⟩)

/-- The generation and the members of the group, what is fetched, and what is
answered to the one left behind and fetched afterwards. -/
def observed (c : Coordinator) :
    Option (Int32 × List Bytes) × Int64 × OffsetCommitResponse × Int64 :=
  ((c.groups [103]).map fun w => (w.group.generationID, w.group.ids),
    c.offsetStore.fetch [103] [116] 0, (c.handleOffsetCommit castagnoli leftBehind calm).2,
    (c.handleOffsetCommit castagnoli leftBehind calm).1.offsetStore.fetch [103] [116] 0)

theorem run_takenOver :
    ∃ store c, (newOffsetStore 2).start castagnoli emptyDirectory = some (store, none) ∧
      Run (Guarded guard (next castagnoli)) (newCoordinator store) takenOver c ∧
      observed c = (some (2, [GroupLedger.bob]), 20, ⟨[⟨[116], [⟨0, .none⟩]⟩]⟩, 11) := by
  have hsome : (opened.bind fun store =>
      (execute guard (next castagnoli) (newCoordinator store) takenOver).map observed) =
      some (some (2, [GroupLedger.bob]), 20, ⟨[⟨[116], [⟨0, .none⟩]⟩]⟩, 11) := by decide +kernel
  exact run_of_opened hsome

theorem stale_of_observed {c : Coordinator} {fetched fetched' : Int64}
    {response : OffsetCommitResponse}
    (h : observed c = (some (2, [GroupLedger.bob]), fetched, response, fetched')) :
    Stale c leftBehind := by
  obtain ⟨w, hgroup, hw⟩ := Option.map_eq_some_iff.mp (congrArg Prod.fst h)
  obtain ⟨hgeneration, hids⟩ := Prod.mk.inj hw
  refine ⟨w, hgroup, ?_, .inl ?_⟩
  · intro hnone
    rw [Group.ids, hnone] at hids
    cases hids
  · rw [hgeneration]
    decide

/-- The offset that the new owner has committed is overwritten by the member
that has left, and it is told that all is well. -/
theorem stale_commit_accepted :
    ∃ store c, (newOffsetStore 2).start castagnoli emptyDirectory = some (store, none) ∧
      Run (Guarded guard (next castagnoli)) (newCoordinator store) takenOver c ∧
      Stale c leftBehind ∧ c.offsetStore.fetch [103] [116] 0 = 20 ∧
      (c.handleOffsetCommit castagnoli leftBehind calm).2 = ⟨[⟨[116], [⟨0, .none⟩]⟩]⟩ ∧
      (c.handleOffsetCommit castagnoli leftBehind calm).1.offsetStore.fetch [103] [116] 0 = 11 := by
  obtain ⟨store, c, hstart, hrun, hobserved⟩ := run_takenOver
  obtain ⟨-, hbefore, hanswer, hafter⟩ :
      _ ∧ c.offsetStore.fetch [103] [116] 0 = 20 ∧
        (c.handleOffsetCommit castagnoli leftBehind calm).2 = ⟨[⟨[116], [⟨0, .none⟩]⟩]⟩ ∧
        (c.handleOffsetCommit castagnoli leftBehind calm).1.offsetStore.fetch [103] [116] 0 = 11 := by
    simpa only [observed, Prod.mk.injEq] using hobserved
  exact ⟨store, c, hstart, hrun, stale_of_observed hobserved, hbefore, hanswer, hafter⟩

theorem commit_never_fenced_takenOver :
    ∃ store c, (newOffsetStore 2).start castagnoli emptyDirectory = some (store, none) ∧
      Run (Guarded guard (next castagnoli)) (newCoordinator store) takenOver c ∧
      Stale c leftBehind ∧ ¬ Fenced castagnoli c leftBehind calm := by
  obtain ⟨store, c, hstart, hrun, hobserved⟩ := run_takenOver
  have hstale := stale_of_observed hobserved
  exact ⟨store, c, hstart, hrun, hstale,
    (commit_never_fenced (fun _ => rfl) hstart hrun hstale (by decide)).1⟩

end MiniKafka.CommitFencing
