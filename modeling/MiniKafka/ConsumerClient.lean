import MiniKafka.PartitionAssignments
import MiniKafka.RecordSets
import MiniKafka.ResponseBodies
import MiniKafka.Runs

/-!
The group consumer of `pkg/client/group_consumer.go`: its assignment and its
positions, and the calls that read and write them under the lock of the consumer
(`joinAndSync` with the two offset requests at its end, `Poll`, `Commit`).

A call is cut at its critical sections and at its requests.  What a broker
answers is a label of the step that receives it, so that every answer is
possible; a request that fails ends its call.
-/

namespace MiniKafka.ConsumerClient

open BigEndian PartitionAssignments RecordCodec RecordSets RequestBodies ResponseBodies WireCodec

structure TopicPartition where
  topic : Bytes
  partition : Int32
  deriving DecidableEq, Repr

/-- An entry of `partitionOffsets`, the map from partitions to positions. -/
abbrev Position := TopicPartition × Int64

inductive OffsetReset where
  | earliest
  | latest
  | none
  deriving DecidableEq, Repr

structure GroupConsumerConfig where
  groupID : Bytes
  autoOffsetReset : OffsetReset
  maxWaitMs : Int32
  minBytes : Int32
  maxBytes : Int32
  deriving DecidableEq, Repr

structure GroupConsumer where
  closed : Bool
  memberID : Bytes
  generationID : Int32
  leaderID : Bytes
  assignedPartitions : List TopicPartition
  partitionOffsets : List Position
  deriving DecidableEq, Repr

def newGroupConsumer : GroupConsumer := ⟨false, [], 0, [], [], []⟩

section Maps

variable {P : Type}

def setOffset (w : Position) : List Position → List Position
  | [] => [w]
  | v :: rest => if v.1 = w.1 then w :: rest else v :: setOffset w rest

def setOffsets (writes : List Position) (positions : List Position) : List Position :=
  writes.foldl (fun positions w => setOffset w positions) positions

def addPartition (name : Bytes) (p : P) : List (TopicEntry P) → List (TopicEntry P)
  | [] => [⟨name, some [p]⟩]
  | t :: rest =>
    if t.name = name then ⟨name, some (elements t.partitions ++ [p])⟩ :: rest
    else t :: addPartition name p rest

def groupByTopic (entries : List (Bytes × P)) : List (TopicEntry P) :=
  entries.foldl (fun topics e => addPartition e.1 e.2 topics) []

end Maps

section CriticalSections

variable (cfg : GroupConsumerConfig) (crc : Checksum)

def GroupConsumer.join (gc : GroupConsumer) (resp : JoinGroupResponse) : GroupConsumer :=
  { gc with
    memberID := resp.memberID
    generationID := resp.generationID
    leaderID := resp.leaderID }

def assignedOf (assignment : MemberAssignment) : List TopicPartition :=
  assignment.topics.flatMap fun ta => ta.partitions.map fun pID => ⟨ta.topic, pID⟩

def GroupConsumer.assign (gc : GroupConsumer) (assignment : MemberAssignment) : GroupConsumer :=
  { gc with assignedPartitions := assignedOf assignment }

def GroupConsumer.store (gc : GroupConsumer) (writes : List Position) : GroupConsumer :=
  { gc with partitionOffsets := setOffsets writes gc.partitionOffsets }

/-- The request of `fetchInitialOffsets`, if a partition is assigned. -/
def GroupConsumer.offsetFetchRequest (gc : GroupConsumer) : Option OffsetFetchRequest :=
  if gc.assignedPartitions = [] then none
  else some
    { groupID := cfg.groupID
      topics := some (groupByTopic (gc.assignedPartitions.map fun tp => (tp.topic, tp.partition))) }

/-- What `fetchInitialOffsets` stores; a partition without committed offset is
marked for `resolveUnsetOffsets`. -/
def initialOffsets (resp : OffsetFetchResponse) : List Position :=
  (elements resp.topics).flatMap fun t =>
    (elements t.partitions).map fun p =>
      (⟨t.name, p.partitionID⟩, if 0 ≤ p.offset then p.offset else -1)

def GroupConsumer.needResolve (gc : GroupConsumer) : List TopicPartition :=
  (gc.partitionOffsets.filter fun w => decide (w.2 < 0)).map Prod.fst

def OffsetReset.timestamp : OffsetReset → Option Int64
  | .earliest => some (-2)
  | .latest => some (-1)
  | .none => Option.none

/-- The request of `resolveUnsetOffsets`, if a position is unset and there is a
rule to set it. -/
def GroupConsumer.listOffsetsRequest (gc : GroupConsumer) : Option ListOffsetsRequest :=
  if gc.needResolve = [] then none
  else cfg.autoOffsetReset.timestamp.map fun timestamp =>
    { topics := some (groupByTopic
        (gc.needResolve.map fun tp => (tp.topic, ⟨tp.partition, timestamp⟩))) }

def resolvedOffsets (resp : ListOffsetsResponse) : List Position :=
  (elements resp.topics).flatMap fun t =>
    ((elements t.partitions).filter fun p => decide (p.errorCode = 0)).map fun p =>
      (⟨t.name, p.partitionID⟩, p.offset)

def GroupConsumer.fetchOffset (gc : GroupConsumer) (tp : TopicPartition) : Int64 :=
  match gc.partitionOffsets.find? fun w => decide (w.1 = tp) with
  | none => 0
  | some w => if w.2 < 0 then 0 else w.2

def GroupConsumer.fetchRequest (gc : GroupConsumer) : FetchRequest where
  maxWaitMs := cfg.maxWaitMs
  minBytes := cfg.minBytes
  maxBytes := cfg.maxBytes
  topics := some (groupByTopic
    (gc.assignedPartitions.map fun tp =>
      (tp.topic, ⟨tp.partition, gc.fetchOffset tp, cfg.maxBytes⟩)))

/-- The records `Poll` decodes from a response, in the order of its loops. -/
def fetchedRecords (resp : FetchResponse) : List (TopicPartition × Record) :=
  (elements resp.topics).flatMap fun t =>
    ((elements t.partitions).filter fun p => decide (p.errorCode = 0)).flatMap fun p =>
      (decodeRecords crc (elements p.recordSet)).1.map fun rec => (⟨t.name, p.partitionID⟩, rec)

/-- The request of `Commit`, if there is a position to commit. -/
def GroupConsumer.commitRequest (gc : GroupConsumer) : Option OffsetCommitRequest :=
  let tracked := gc.partitionOffsets.filter fun w => decide (0 ≤ w.2)
  if tracked = [] then none
  else some
    { groupID := cfg.groupID
      generationID := gc.generationID
      memberID := gc.memberID
      topics := some (groupByTopic (tracked.map fun w => (w.1.topic, ⟨w.1.partition, w.2, []⟩))) }

end CriticalSections

inductive Call where
  | joining
  | syncing
  | assigned
  | fetchingOffsets (request : OffsetFetchRequest)
  | resolving
  | listingOffsets (request : ListOffsetsRequest)
  | fetching (request : FetchRequest)
  | decoding (rest messages : List (TopicPartition × Record))
  | returned
  deriving DecidableEq, Repr

/-- The consumer, its calls, the messages that completed calls of `Poll` have
returned, and the requests that `Commit` has built. -/
structure Client where
  consumer : GroupConsumer
  calls : List Call
  delivered : List (TopicPartition × Record)
  commits : List OffsetCommitRequest
  deriving DecidableEq, Repr

def newClient : Client := ⟨newGroupConsumer, [], [], []⟩

inductive ClientEvent where
  | joinAndSync
  | joined (call : Nat) (resp : JoinGroupResponse)
  | synced (call : Nat) (assignment : MemberAssignment)
  | fetchInitialOffsets (call : Nat)
  | offsetsFetched (call : Nat) (resp : OffsetFetchResponse)
  | resolveUnsetOffsets (call : Nat)
  | offsetsListed (call : Nat) (resp : ListOffsetsResponse)
  | poll
  | fetched (call : Nat) (resp : FetchResponse)
  | advance (call : Nat)
  | pollReturns (call : Nat)
  | fail (call : Nat)
  | commit
  | commitOffset (tp : TopicPartition) (offset : Int64)
  | close
  deriving DecidableEq, Repr

def Client.setCall (s : Client) (i : Nat) (call : Call) : Client :=
  { s with calls := s.calls.set i call }

def Client.stores (s : Client) : ClientEvent → List Position
  | .offsetsFetched _ resp => initialOffsets resp
  | .offsetsListed _ resp => resolvedOffsets resp
  | .advance i =>
    match s.calls[i]? with
    | some (.decoding ((tp, rec) :: _) _) => [(tp, rec.offset + 1)]
    | _ => []
  | .commitOffset tp offset => [(tp, offset)]
  | _ => []

def Client.step (cfg : GroupConsumerConfig) (crc : Checksum) (s : Client) :
    ClientEvent → Option Client
  | .joinAndSync => some { s with calls := s.calls ++ [.joining] }
  | .joined i resp =>
    if s.calls[i]? = some .joining then
      some { s.setCall i .syncing with consumer := s.consumer.join resp }
    else none
  | .synced i assignment =>
    if s.calls[i]? = some .syncing then
      some { s.setCall i .assigned with consumer := s.consumer.assign assignment }
    else none
  | .fetchInitialOffsets i =>
    if s.calls[i]? = some .assigned then
      match s.consumer.offsetFetchRequest cfg with
      | none => some (s.setCall i .returned)
      | some request => some (s.setCall i (.fetchingOffsets request))
    else none
  | .offsetsFetched i resp =>
    match s.calls[i]? with
    | some (.fetchingOffsets _) =>
      some { s.setCall i .resolving with consumer := s.consumer.store (initialOffsets resp) }
    | _ => none
  | .resolveUnsetOffsets i =>
    if s.calls[i]? = some .resolving then
      match s.consumer.listOffsetsRequest cfg with
      | none => some (s.setCall i .returned)
      | some request => some (s.setCall i (.listingOffsets request))
    else none
  | .offsetsListed i resp =>
    match s.calls[i]? with
    | some (.listingOffsets _) =>
      some { s.setCall i .returned with consumer := s.consumer.store (resolvedOffsets resp) }
    | _ => none
  | .poll =>
    if s.consumer.closed = true then some s
    else if s.consumer.assignedPartitions = [] then
      some { s with calls := s.calls ++ [.returned] }
    else some { s with calls := s.calls ++ [.fetching (s.consumer.fetchRequest cfg)] }
  | .fetched i resp =>
    match s.calls[i]? with
    | some (.fetching _) => some (s.setCall i (.decoding (fetchedRecords crc resp) []))
    | _ => none
  | .advance i =>
    match s.calls[i]? with
    | some (.decoding ((tp, rec) :: rest) messages) =>
      some { s.setCall i (.decoding rest (messages ++ [(tp, rec)])) with
        consumer := s.consumer.store [(tp, rec.offset + 1)] }
    | _ => none
  | .pollReturns i =>
    match s.calls[i]? with
    | some (.decoding [] messages) =>
      some { s.setCall i .returned with delivered := s.delivered ++ messages }
    | _ => none
  | .fail i =>
    -- A request that fails, at any of the points where one is under way.
    match s.calls[i]? with
    | some (.decoding _ _) => none
    | some .returned => none
    | none => none
    | some _ => some (s.setCall i .returned)
  | .commit =>
    if s.consumer.closed = true then some s
    else some { s with commits := s.commits ++ (s.consumer.commitRequest cfg).toList }
  | .commitOffset tp offset =>
    some { s with consumer := s.consumer.store [(tp, offset)] }
  | .close => some { s with consumer := { s.consumer with closed := true } }

def carried (request : OffsetCommitRequest) : List Position :=
  (elements request.topics).flatMap fun t =>
    (elements t.partitions).map fun p => (⟨t.name, p.partitionID⟩, p.offset)

section Maps

variable {P : Type} {v w : Position} {positions writes : List Position}

theorem mem_setOffset (h : v ∈ setOffset w positions) : v = w ∨ v ∈ positions := by
  induction positions with
  | nil => exact .inl (List.mem_singleton.mp h)
  | cons u rest ih =>
    rw [setOffset] at h
    split at h
    · rcases List.mem_cons.mp h with rfl | hrest
      · exact .inl rfl
      · exact .inr (List.mem_cons_of_mem u hrest)
    · rcases List.mem_cons.mp h with rfl | hrest
      · exact .inr List.mem_cons_self
      · exact (ih hrest).imp id (List.mem_cons_of_mem u)

theorem mem_setOffsets (h : v ∈ setOffsets writes positions) : v ∈ writes ∨ v ∈ positions := by
  induction writes generalizing positions with
  | nil => exact .inr h
  | cons w writes ih =>
    rcases ih h with hlater | hbefore
    · exact .inl (List.mem_cons_of_mem w hlater)
    · rcases mem_setOffset hbefore with rfl | hpositions
      · exact .inl List.mem_cons_self
      · exact .inr hpositions

def listed (topics : List (TopicEntry P)) : List (Bytes × P) :=
  topics.flatMap fun t => (elements t.partitions).map fun p => (t.name, p)

theorem mem_listed_addPartition {name : Bytes} {p : P} {topics : List (TopicEntry P)}
    {e : Bytes × P} :
    e ∈ listed (addPartition name p topics) ↔ e ∈ listed topics ∨ e = (name, p) := by
  induction topics with
  | nil => simp [listed, addPartition, elements]
  | cons t rest ih =>
    rw [addPartition]
    split
    · rename_i hname
      subst hname
      simp only [listed, List.flatMap_cons, List.mem_append, elements, Option.getD_some,
        List.map_append, List.map_cons, List.map_nil, List.mem_singleton]
      tauto
    · simp only [listed, List.flatMap_cons, List.mem_append] at ih ⊢
      rw [ih, or_assoc]

theorem mem_listed_groupByTopic {entries : List (Bytes × P)} {e : Bytes × P} :
    e ∈ listed (groupByTopic entries) ↔ e ∈ entries := by
  induction entries using List.reverseRecOn with
  | nil => simp [groupByTopic, listed]
  | append_singleton entries last ih =>
    rw [groupByTopic, List.foldl_append, List.foldl_cons, List.foldl_nil,
      mem_listed_addPartition, ← groupByTopic, ih, List.mem_append, List.mem_singleton]

end Maps

theorem mem_carried_iff_listed {request : OffsetCommitRequest} {w : Position} :
    w ∈ carried request ↔
      ∃ e ∈ listed (elements request.topics), w = (⟨e.1, e.2.partitionID⟩, e.2.offset) := by
  simp only [carried, listed, List.mem_flatMap, List.mem_map]
  constructor
  · rintro ⟨t, ht, p, hp, rfl⟩
    exact ⟨(t.name, p), ⟨t, ht, p, hp, rfl⟩, rfl⟩
  · rintro ⟨e, ⟨t, ht, p, hp, rfl⟩, rfl⟩
    exact ⟨t, ht, p, hp, rfl⟩

theorem mem_carried {cfg : GroupConsumerConfig} {gc : GroupConsumer} {request : OffsetCommitRequest}
    (h : gc.commitRequest cfg = some request) (w : Position) :
    w ∈ carried request ↔ w ∈ gc.partitionOffsets ∧ 0 ≤ w.2 := by
  rw [GroupConsumer.commitRequest] at h
  split at h
  · cases h
  · cases h
    rw [mem_carried_iff_listed]
    simp only [elements, Option.getD_some, mem_listed_groupByTopic, List.mem_map,
      List.mem_filter, decide_eq_true_eq]
    constructor
    · rintro ⟨e, ⟨v, hv, rfl⟩, rfl⟩
      exact hv
    · intro hw
      exact ⟨_, ⟨w, hw, rfl⟩, rfl⟩

def ofPartition (tp : TopicPartition) (messages : List (TopicPartition × Record)) : List Record :=
  (messages.filter fun m => decide (m.1 = tp)).map Prod.snd

theorem ofPartition_cons (tp : TopicPartition) (m : TopicPartition × Record)
    (ms : List (TopicPartition × Record)) :
    ofPartition tp (m :: ms) =
      if m.1 = tp then m.2 :: ofPartition tp ms else ofPartition tp ms := by
  by_cases hm : m.1 = tp
  · simp [ofPartition, hm]
  · simp [ofPartition, hm]

theorem ofPartition_append (tp : TopicPartition) (xs ys : List (TopicPartition × Record)) :
    ofPartition tp (xs ++ ys) = ofPartition tp xs ++ ofPartition tp ys := by
  rw [ofPartition, List.filter_append, List.map_append]
  rfl

theorem ofPartition_tagged (tp tp' : TopicPartition) (rs : List Record) :
    ofPartition tp (rs.map fun rec => (tp', rec)) = if tp' = tp then rs else [] := by
  by_cases htp : tp' = tp
  · simp [ofPartition, List.filter_map, Function.comp_def, htp]
  · simp [ofPartition, List.filter_map, Function.comp_def, htp]

def Call.messages : Call → List (TopicPartition × Record)
  | .decoding _ messages => messages
  | _ => []

def Call.asked : Call → List TopicPartition
  | .fetchingOffsets request => (listed (elements request.topics)).map fun e => ⟨e.1, e.2⟩
  | .listingOffsets request =>
    (listed (elements request.topics)).map fun e => ⟨e.1, e.2.partitionID⟩
  | .fetching request => (listed (elements request.topics)).map fun e => ⟨e.1, e.2.partitionID⟩
  | .decoding rest _ => rest.map Prod.fst
  | _ => []

def Client.Holds (s : Client) (m : TopicPartition × Record) : Prop :=
  ∃ (i : Nat) (c : Call), s.calls[i]? = some c ∧ m ∈ c.messages

/-- What a step does, by the call that takes it and the state it finds. -/
inductive ClientStep (cfg : GroupConsumerConfig) (crc : Checksum) (s : Client) :
    ClientEvent → Client → Prop
  | joinAndSync : ClientStep cfg crc s .joinAndSync { s with calls := s.calls ++ [.joining] }
  | joined {i : Nat} {resp : JoinGroupResponse} : s.calls[i]? = some .joining →
      ClientStep cfg crc s (.joined i resp)
        { s.setCall i .syncing with consumer := s.consumer.join resp }
  | synced {i : Nat} {assignment : MemberAssignment} : s.calls[i]? = some .syncing →
      ClientStep cfg crc s (.synced i assignment)
        { s.setCall i .assigned with consumer := s.consumer.assign assignment }
  | nothingAssigned {i : Nat} : s.calls[i]? = some .assigned →
      ClientStep cfg crc s (.fetchInitialOffsets i) (s.setCall i .returned)
  | fetchInitialOffsets {i : Nat} {request : OffsetFetchRequest} : s.calls[i]? = some .assigned →
      s.consumer.offsetFetchRequest cfg = some request →
      ClientStep cfg crc s (.fetchInitialOffsets i) (s.setCall i (.fetchingOffsets request))
  | offsetsFetched {i : Nat} {request : OffsetFetchRequest} {resp : OffsetFetchResponse} :
      s.calls[i]? = some (.fetchingOffsets request) →
      ClientStep cfg crc s (.offsetsFetched i resp)
        { s.setCall i .resolving with consumer := s.consumer.store (initialOffsets resp) }
  | nothingUnset {i : Nat} : s.calls[i]? = some .resolving →
      ClientStep cfg crc s (.resolveUnsetOffsets i) (s.setCall i .returned)
  | resolveUnsetOffsets {i : Nat} {request : ListOffsetsRequest} :
      s.calls[i]? = some .resolving → s.consumer.listOffsetsRequest cfg = some request →
      ClientStep cfg crc s (.resolveUnsetOffsets i) (s.setCall i (.listingOffsets request))
  | offsetsListed {i : Nat} {request : ListOffsetsRequest} {resp : ListOffsetsResponse} :
      s.calls[i]? = some (.listingOffsets request) →
      ClientStep cfg crc s (.offsetsListed i resp)
        { s.setCall i .returned with consumer := s.consumer.store (resolvedOffsets resp) }
  | pollClosed : ClientStep cfg crc s .poll s
  | pollNothing : ClientStep cfg crc s .poll { s with calls := s.calls ++ [.returned] }
  | poll : ClientStep cfg crc s .poll
      { s with calls := s.calls ++ [.fetching (s.consumer.fetchRequest cfg)] }
  | fetched {i : Nat} {request : FetchRequest} {resp : FetchResponse} :
      s.calls[i]? = some (.fetching request) →
      ClientStep cfg crc s (.fetched i resp)
        (s.setCall i (.decoding (fetchedRecords crc resp) []))
  | advance {i : Nat} {m : TopicPartition × Record}
      {rest messages : List (TopicPartition × Record)} :
      s.calls[i]? = some (.decoding (m :: rest) messages) →
      ClientStep cfg crc s (.advance i)
        { s.setCall i (.decoding rest (messages ++ [m])) with
          consumer := s.consumer.store [(m.1, m.2.offset + 1)] }
  | pollReturns {i : Nat} {messages : List (TopicPartition × Record)} :
      s.calls[i]? = some (.decoding [] messages) →
      ClientStep cfg crc s (.pollReturns i)
        { s.setCall i .returned with delivered := s.delivered ++ messages }
  | fail {i : Nat} {c : Call} : s.calls[i]? = some c → c ≠ .returned →
      (∀ rest messages, c ≠ .decoding rest messages) →
      ClientStep cfg crc s (.fail i) (s.setCall i .returned)
  | commitClosed : ClientStep cfg crc s .commit s
  | commit : ClientStep cfg crc s .commit
      { s with commits := s.commits ++ (s.consumer.commitRequest cfg).toList }
  | commitOffset {tp : TopicPartition} {offset : Int64} :
      ClientStep cfg crc s (.commitOffset tp offset)
        { s with consumer := s.consumer.store [(tp, offset)] }
  | close : ClientStep cfg crc s .close { s with consumer := { s.consumer with closed := true } }

section Steps

variable {cfg : GroupConsumerConfig} {crc : Checksum} {s t : Client} {e : ClientEvent}

theorem clientStep_of_step (h : s.step cfg crc e = some t) : ClientStep cfg crc s e t := by
  cases e with
  | joinAndSync =>
    obtain rfl := Option.some.inj h
    exact .joinAndSync
  | commitOffset tp offset =>
    obtain rfl := Option.some.inj h
    exact .commitOffset
  | close =>
    obtain rfl := Option.some.inj h
    exact .close
  | fetchInitialOffsets i =>
    rw [Client.step] at h
    split at h
    · split at h <;> cases h
      · exact .nothingAssigned ‹_›
      · exact .fetchInitialOffsets ‹_› ‹_›
    · cases h
  | resolveUnsetOffsets i =>
    rw [Client.step] at h
    split at h
    · split at h <;> cases h
      · exact .nothingUnset ‹_›
      · exact .resolveUnsetOffsets ‹_› ‹_›
    · cases h
  | poll =>
    rw [Client.step] at h
    split at h
    · cases h
      exact .pollClosed
    · split at h <;> cases h
      · exact .pollNothing
      · exact .poll
  | fail i =>
    rw [Client.step] at h
    split at h
    · cases h
    · cases h
    · cases h
    · rename_i c hdecoding hreturned hcall
      cases h
      exact .fail hcall hreturned hdecoding
  | joined i resp =>
    rw [Client.step] at h
    split at h <;> cases h
    exact .joined ‹_›
  | synced i assignment =>
    rw [Client.step] at h
    split at h <;> cases h
    exact .synced ‹_›
  | offsetsFetched i resp =>
    rw [Client.step] at h
    split at h <;> cases h
    exact .offsetsFetched ‹_›
  | offsetsListed i resp =>
    rw [Client.step] at h
    split at h <;> cases h
    exact .offsetsListed ‹_›
  | fetched i resp =>
    rw [Client.step] at h
    split at h <;> cases h
    exact .fetched ‹_›
  | advance i =>
    rw [Client.step] at h
    split at h <;> cases h
    exact .advance ‹_›
  | pollReturns i =>
    rw [Client.step] at h
    split at h <;> cases h
    exact .pollReturns ‹_›
  | commit =>
    rw [Client.step] at h
    split at h <;> cases h
    · exact .commitClosed
    · exact .commit

theorem partitionOffsets_step (h : s.step cfg crc e = some t) :
    t.consumer.partitionOffsets = setOffsets (s.stores e) s.consumer.partitionOffsets := by
  cases clientStep_of_step h with
  | advance hcall =>
    rw [Client.stores, hcall]
    rfl
  | _ => rfl

theorem mem_delivered_step {m : TopicPartition × Record} (h : s.step cfg crc e = some t)
    (hm : m ∈ s.delivered) : m ∈ t.delivered := by
  cases clientStep_of_step h with
  | pollReturns hcall => exact List.mem_append_left _ hm
  | _ => exact hm

theorem messages_step {i : Nat} {c : Call} {m : TopicPartition × Record}
    (h : s.step cfg crc e = some t) (hc : s.calls[i]? = some c) (hm : m ∈ c.messages) :
    (∃ c', t.calls[i]? = some c' ∧ m ∈ c'.messages) ∨ m ∈ t.delivered := by
  have hlt := (List.getElem?_eq_some_iff.mp hc).1
  -- The call at `j` moves on from `d` to `d'`.
  have hset {j : Nat} {d d' : Call} (hd : s.calls[j]? = some d)
      (hkept : m ∈ d.messages → m ∈ d'.messages) :
      ∃ c', (s.calls.set j d')[i]? = some c' ∧ m ∈ c'.messages := by
    by_cases hij : j = i
    · subst hij
      obtain rfl := Option.some.inj (hd.symm.trans hc)
      exact ⟨d', List.getElem?_set_self hlt, hkept hm⟩
    · exact ⟨c, by rwa [List.getElem?_set_ne hij], hm⟩
  have hwaiting {j : Nat} {d d' : Call} (hd : s.calls[j]? = some d) (hnone : d.messages = []) :
      ∃ c', (s.calls.set j d')[i]? = some c' ∧ m ∈ c'.messages :=
    hset hd fun hmem => by simp [hnone] at hmem
  have hadded (new : Call) : ∃ c', (s.calls ++ [new])[i]? = some c' ∧ m ∈ c'.messages :=
    ⟨c, by rwa [List.getElem?_append_left hlt], hm⟩
  cases clientStep_of_step h with
  | advance hcall => exact .inl (hset hcall fun hmem => List.mem_append_left _ hmem)
  | @pollReturns j messages hcall =>
    by_cases hij : j = i
    · subst hij
      obtain rfl := Option.some.inj (hcall.symm.trans hc)
      exact .inr (List.mem_append_right _ hm)
    · exact .inl ⟨c, (List.getElem?_set_ne hij).trans hc, hm⟩
  | @fail j d hcall hreturned hdecoding =>
    refine .inl (hwaiting hcall ?_)
    cases d with
    | decoding rest messages => exact absurd rfl (hdecoding rest messages)
    | _ => rfl
  | joinAndSync => exact .inl (hadded _)
  | pollNothing => exact .inl (hadded _)
  | poll => exact .inl (hadded _)
  | pollClosed => exact .inl ⟨c, hc, hm⟩
  | commitClosed => exact .inl ⟨c, hc, hm⟩
  | commit => exact .inl ⟨c, hc, hm⟩
  | commitOffset => exact .inl ⟨c, hc, hm⟩
  | close => exact .inl ⟨c, hc, hm⟩
  | joined hcall => exact .inl (hwaiting hcall rfl)
  | synced hcall => exact .inl (hwaiting hcall rfl)
  | nothingAssigned hcall => exact .inl (hwaiting hcall rfl)
  | fetchInitialOffsets hcall _ => exact .inl (hwaiting hcall rfl)
  | offsetsFetched hcall => exact .inl (hwaiting hcall rfl)
  | nothingUnset hcall => exact .inl (hwaiting hcall rfl)
  | resolveUnsetOffsets hcall _ => exact .inl (hwaiting hcall rfl)
  | offsetsListed hcall => exact .inl (hwaiting hcall rfl)
  | fetched hcall => exact .inl (hwaiting hcall rfl)

theorem holds_step {m : TopicPartition × Record} (h : s.step cfg crc e = some t)
    (hm : s.Holds m) : t.Holds m ∨ m ∈ t.delivered := by
  obtain ⟨i, c, hc, hmem⟩ := hm
  exact (messages_step h hc hmem).imp (fun ⟨c', hc', hmem'⟩ => ⟨i, c', hc', hmem'⟩) id

end Steps

end MiniKafka.ConsumerClient
