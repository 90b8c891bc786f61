import MiniKafka.RequestBodies
import MiniKafka.TopicCreation

/-!
Topic creation with failures (`internal/broker/broker.go`, `metadata.go`,
`topic.go`): the steps of `TopicCreation` with the metadata file, the error codes
and the places at which a creation fails.

`saveLocked` writes a temporary file, which is never read, and renames it.
-/

namespace MiniKafka.CreationFailures

open BigEndian CommittedOffsets RequestBodies Runs TopicCreation

abbrev TopicMetas := Bytes → Option TopicMeta

inductive SaveResult where
  | marshalFailed
  | writeFailed
  | renameFailed
  | saved
  deriving DecidableEq, Repr

inductive OpenResult where
  | opened
  | invalidTopicName
  | failed
  deriving DecidableEq, Repr

/-- The codes of `internal/server` that `CreateTopics` answers with. -/
inductive ErrorCode where
  | none
  | unknown
  | topicAlreadyExists
  | invalidPartitionCount
  | invalidTopicException
  deriving DecidableEq, Repr

structure MetadataManager where
  topics : TopicMetas
  file : TopicMetas

def MetadataManager.saveLocked (mm : MetadataManager) : SaveResult → MetadataManager × Bool
  | .saved => ({ mm with file := mm.topics }, true)
  | _ => (mm, false)

def MetadataManager.createTopic (mm : MetadataManager) (new : TopicMeta) (save : SaveResult) :
    MetadataManager × Option (TopicMeta × Bool) :=
  match mm.topics new.name with
  | some old => (mm, some (old, false))
  | none =>
    match ({ mm with topics := Function.update mm.topics new.name (some new) }).saveLocked save with
    | (mm, false) => ({ mm with topics := Function.update mm.topics new.name none }, none)
    | (mm, true) => (mm, some (new, true))

/-- A broker, whose `metas` are the metadata in memory, and the metadata file. -/
structure Node where
  broker : Broker
  file : TopicMetas

def Node.metadata (n : Node) : MetadataManager := ⟨n.broker.metas, n.file⟩

def Node.withMetadata (n : Node) (mm : MetadataManager) : Node :=
  ⟨{ n.broker with metas := mm.topics }, mm.file⟩

/-- `CreateTopics` for one topic up to the lock of the topic map: the answer, if
it is known by then. -/
def Node.reserve (n : Node) (t : CreateTopicsRequestTopic) (save : SaveResult) :
    Node × Option ErrorCode :=
  if validTopicName t.name = false then (n, some .invalidTopicException)
  else if t.numPartitions ≤ 0 then (n, some .invalidPartitionCount)
  else
    match n.metadata.createTopic ⟨t.name, t.numPartitions, t.replicationFactor⟩ save with
    | (mm, none) => (n.withMetadata mm, some .unknown)
    | (mm, some (_, false)) => (n.withMetadata mm, some .topicAlreadyExists)
    | (mm, some (_, true)) => (n.withMetadata mm, none)

def Node.newTopic (n : Node) (name : Bytes) (numPartitions : Int32) (result : OpenResult) :
    Node × Option Topic :=
  let opened := n.broker.openTopic name numPartitions (decide (result = .opened))
  ({ n with broker := opened.1 }, opened.2)

/-- The rest of `CreateTopics` for one topic, under the lock. -/
def Node.install (n : Node) (name : Bytes) (numPartitions : Int32) (result : OpenResult) :
    Node × ErrorCode :=
  ((n.newTopic name numPartitions result).1,
    match result with
    | .opened => .none
    | .invalidTopicName => .invalidTopicException
    | .failed => .unknown)

/-- The body of the loop of `handleCreateTopics`, when no other request comes
between its two parts. -/
def Node.handleCreateTopic (n : Node) (t : CreateTopicsRequestTopic) (save : SaveResult)
    (result : OpenResult) : Node × ErrorCode :=
  match n.reserve t save with
  | (n, some code) => (n, code)
  | (n, none) => n.install t.name t.numPartitions result

def Node.getOrCreateTopic (cfg : TopicConfig) (n : Node) (name : Bytes)
    (requestedPartitions : Int32) (save : SaveResult) (result : OpenResult) : Node × Option Topic :=
  if validTopicName name = false then (n, none)
  else
    match n.broker.topics name with
    | some t => (n, some t)
    | none =>
      if requestedPartitions ≤ 0 ∧ cfg.autoCreate = false then (n, none)
      else
        let numPartitions :=
          if 0 < requestedPartitions then requestedPartitions
          else if cfg.defaultPartitions ≤ 0 then 1
          else cfg.defaultPartitions
        let rf := if cfg.defaultReplicationFactor ≤ 0 then 1 else cfg.defaultReplicationFactor
        match n.metadata.createTopic ⟨name, numPartitions, rf⟩ save with
        | (mm, none) => (n.withMetadata mm, none)
        | (mm, some (stored, _)) => (n.withMetadata mm).newTopic name stored.numPartitions result

inductive Event where
  | createTopics (t : CreateTopicsRequestTopic) (save : SaveResult)
  | install (request : Nat) (result : OpenResult)
  | produce (name : Bytes) (save : SaveResult) (result : OpenResult)
  | append (request : Nat) (partition : Int32) (ok : Bool)
  | metadata (name : Bytes)
  | autoCreate (request : Nat) (save : SaveResult) (result : OpenResult)
  deriving DecidableEq, Repr

def Node.addRequest (n : Node) (r : Request) : Node :=
  { n with broker := { n.broker with requests := n.broker.requests ++ [r] } }

def Node.answer (n : Node) (i : Nat) : Node := { n with broker := n.broker.setRequest i .answered }

def Node.step (cfg : TopicConfig) (n : Node) : Event → Option Node
  | .createTopics t save =>
    match n.reserve t save with
    | (n, some _) => some n
    | (n, none) => some (n.addRequest (.creating t.name t.numPartitions))
  | .install i result =>
    match n.broker.requests[i]? with
    | some (.creating name numPartitions) =>
      some ((n.answer i).install name numPartitions result).1
    | _ => none
  | .produce name save result =>
    match n.getOrCreateTopic cfg name 0 save result with
    | (n, none) => some n
    | (n, some t) => some (n.addRequest (.producing t))
  | .append i partition ok =>
    (n.broker.step cfg (.append i partition ok)).map fun b => { n with broker := b }
  | .metadata name => (n.broker.step cfg (.metadata name)).map fun b => { n with broker := b }
  | .autoCreate i save result =>
    match n.broker.requests[i]? with
    | some (.describing name) => some ((n.answer i).getOrCreateTopic cfg name 0 save result).1
    | _ => none

def newNode (persisted : Persisted) : Node := ⟨newBroker persisted, (newBroker persisted).metas⟩

def Node.reserves (n : Node) (t : CreateTopicsRequestTopic) (save : SaveResult) : Bool :=
  validTopicName t.name && decide (0 < t.numPartitions) && (n.broker.metas t.name).isNone &&
    decide (save = .saved)

def Node.creates (cfg : TopicConfig) (n : Node) (name : Bytes) (requestedPartitions : Int32)
    (save : SaveResult) : Bool :=
  validTopicName name && (n.broker.topics name).isNone &&
    !(decide (requestedPartitions ≤ 0) && !cfg.autoCreate) && (n.broker.metas name).isNone &&
    decide (save = .saved)

/-- `NewTopic` does not fail for an entry of the metadata that the same call has
written, unless another request has created the topic by then. -/
def opensWhatItSaves (cfg : TopicConfig) (n : Node) : Event → Bool
  | .install i result =>
    match n.broker.requests[i]? with
    | some (.creating name _) =>
      decide (result = .opened) || (n.broker.topics name).isSome
    | _ => true
  | .produce name save result => decide (result = .opened) || !n.creates cfg name 0 save
  | .autoCreate i save result =>
    match n.broker.requests[i]? with
    | some (.describing name) => decide (result = .opened) || !n.creates cfg name 0 save
    | _ => true
  | _ => true

/-- The metadata, in memory and on disk, and the topic map are the same. -/
structure SameTopics (n n' : Node) : Prop where
  metas : n'.broker.metas = n.broker.metas
  file : n'.file = n.file
  topics : n'.broker.topics = n.broker.topics

/-- The file holds the metadata, and a name is in it if and only if it is in the
topic map or a `CreateTopics` call is about to store it there. -/
structure Consistent (n : Node) : Prop where
  file : n.file = n.broker.metas
  known : ∀ name, (n.broker.metas name).isSome ↔
    (n.broker.topics name).isSome ∨ ∃ k, .creating name k ∈ n.broker.requests

def Settled (n : Node) : Prop := ∀ name k, .creating name k ∉ n.broker.requests

/-- The event as the model without failure points sees it. -/
def Event.outcome : Event → TopicEvent
  | .createTopics t save =>
    .createTopics t.name t.numPartitions t.replicationFactor (decide (save = .saved))
  | .install i result => .install i (decide (result = .opened))
  | .produce name save result =>
    .produce name (decide (save = .saved)) (decide (result = .opened))
  | .append i partition ok => .append i partition ok
  | .metadata name => .metadata name
  | .autoCreate i save result =>
    .autoCreate i (decide (save = .saved)) (decide (result = .opened))

section

variable {n : Node}

/-- What `metaManager.CreateTopic` can do; a save that fails leaves both the map
and the file as they were. -/
theorem createTopic_cases (mm : MetadataManager) (new : TopicMeta) (save : SaveResult) :
    (∃ old, mm.topics new.name = some old ∧
        mm.createTopic new save = (mm, some (old, false))) ∨
      mm.topics new.name = none ∧ save ≠ .saved ∧ mm.createTopic new save = (mm, none) ∨
      mm.topics new.name = none ∧ save = .saved ∧
        mm.createTopic new save =
          (⟨Function.update mm.topics new.name (some new),
            Function.update mm.topics new.name (some new)⟩, some (new, true)) := by
  rw [MetadataManager.createTopic]
  cases hold : mm.topics new.name with
  | some old => exact .inl ⟨old, rfl, rfl⟩
  | none =>
    have hrollback : (⟨Function.update (Function.update mm.topics new.name (some new)) new.name
        none, mm.file⟩ : MetadataManager) = mm := by
      rw [Function.update_idem, ← hold, Function.update_eq_self]
    cases save with
    | saved => exact .inr (.inr ⟨rfl, rfl, rfl⟩)
    | marshalFailed => exact .inr (.inl ⟨rfl, by decide, Prod.ext hrollback rfl⟩)
    | writeFailed => exact .inr (.inl ⟨rfl, by decide, Prod.ext hrollback rfl⟩)
    | renameFailed => exact .inr (.inl ⟨rfl, by decide, Prod.ext hrollback rfl⟩)

def Node.stored (n : Node) (new : TopicMeta) : Node :=
  let metas := Function.update n.broker.metas new.name (some new)
  n.withMetadata ⟨metas, metas⟩

theorem reserve_cases (n : Node) (t : CreateTopicsRequestTopic) (save : SaveResult) :
    (n.reserves t save = false ∧ ∃ code, n.reserve t save = (n, some code)) ∨
      n.reserves t save = true ∧
        n.reserve t save =
          (n.stored ⟨t.name, t.numPartitions, t.replicationFactor⟩, none) := by
  rw [Node.reserve, Node.reserves]
  by_cases hname : validTopicName t.name = false
  · rw [if_pos hname]
    exact .inl ⟨by simp [hname], _, rfl⟩
  rw [if_neg hname]
  by_cases hcount : t.numPartitions ≤ 0
  · rw [if_pos hcount]
    exact .inl ⟨by simp [Int32.not_lt.mpr hcount], _, rfl⟩
  rw [if_neg hcount]
  obtain ⟨old, hold, heq⟩ | ⟨-, hsave, heq⟩ | ⟨hnone, hsave, heq⟩ := createTopic_cases n.metadata
    ⟨t.name, t.numPartitions, t.replicationFactor⟩ save
  · rw [heq]
    change n.broker.metas t.name = some old at hold
    exact .inl ⟨by simp [hold], _, rfl⟩
  · rw [heq]
    exact .inl ⟨by simp [hsave], _, rfl⟩
  · rw [heq]
    change n.broker.metas t.name = none at hnone
    refine .inr ⟨?_, rfl⟩
    simp only [Bool.not_eq_false] at hname
    simp [hname, Int32.not_le.mp hcount, hnone, hsave]

theorem getOrCreateTopic_cases (cfg : TopicConfig) (n : Node) (name : Bytes)
    (requestedPartitions : Int32) (save : SaveResult) (result : OpenResult) :
    (n.creates cfg name requestedPartitions save = false ∧
        ∃ found, n.getOrCreateTopic cfg name requestedPartitions save result = (n, found)) ∨
      (n.creates cfg name requestedPartitions save = false ∧ (n.broker.metas name).isSome ∧
        ∃ k, n.getOrCreateTopic cfg name requestedPartitions save result =
          n.newTopic name k result) ∨
      n.creates cfg name requestedPartitions save = true ∧ n.broker.metas name = none ∧
        ∃ new, new.name = name ∧
          n.getOrCreateTopic cfg name requestedPartitions save result =
            (n.stored new).newTopic name new.numPartitions result := by
  rw [Node.getOrCreateTopic, Node.creates]
  by_cases hname : validTopicName name = false
  · rw [if_pos hname]
    exact .inl ⟨by simp [hname], _, rfl⟩
  rw [if_neg hname]
  simp only [Bool.not_eq_false] at hname
  cases htopic : n.broker.topics name with
  | some t => exact .inl ⟨by simp, _, rfl⟩
  | none =>
    dsimp only
    by_cases hauto : requestedPartitions ≤ 0 ∧ cfg.autoCreate = false
    · rw [if_pos hauto]
      exact .inl ⟨by simp [hauto.1, hauto.2], _, rfl⟩
    rw [if_neg hauto]
    generalize hnew : (⟨name, if 0 < requestedPartitions then requestedPartitions
      else if cfg.defaultPartitions ≤ 0 then 1 else cfg.defaultPartitions,
      if cfg.defaultReplicationFactor ≤ 0 then 1 else cfg.defaultReplicationFactor⟩ :
        TopicMeta) = new
    obtain rfl : new.name = name := by rw [← hnew]
    obtain ⟨old, hold, heq⟩ | ⟨-, hsave, heq⟩ | ⟨hnone, hsave, heq⟩ :=
      createTopic_cases n.metadata new save
    · rw [heq]
      change n.broker.metas new.name = some old at hold
      exact .inr (.inl ⟨by simp [hold], by simp [hold], old.numPartitions, rfl⟩)
    · rw [heq]
      exact .inl ⟨by simp [hsave], _, rfl⟩
    · rw [heq]
      change n.broker.metas new.name = none at hnone
      refine .inr (.inr ⟨?_, hnone, new, rfl, rfl⟩)
      simp only [hname, hnone, hsave, Option.isNone_none, Bool.and_true, Bool.true_and,
        decide_true]
      by_cases hle : requestedPartitions ≤ 0
      · have hon : cfg.autoCreate = true := by simpa [hle] using hauto
        simp [hon]
      · simp [hle]

theorem newTopic_opened (n : Node) (name : Bytes) (k : Int32) :
    ∃ t executions opened, n.newTopic name k .opened =
      ({ n with broker := { n.broker with
          topics := Function.update n.broker.topics name (some t), opened, executions } },
        some t) :=
  ⟨_, _, _, rfl⟩

theorem newTopic_failed (n : Node) (name : Bytes) (k : Int32) {result : OpenResult}
    (h : result ≠ .opened) :
    ∃ executions, n.newTopic name k result =
      ({ n with broker := { n.broker with executions } }, none) := by
  rw [Node.newTopic, decide_eq_false h]
  exact ⟨_, rfl⟩

theorem install_fst (n : Node) (name : Bytes) (k : Int32) (result : OpenResult) :
    (n.install name k result).1 = (n.newTopic name k result).1 := rfl

theorem metas_stored (n : Node) (new : TopicMeta) :
    (n.stored new).broker.metas new.name = some new := Function.update_self _ _ _

theorem not_sameTopics_stored {new : TopicMeta} {n' : Node} (hnone : n.broker.metas new.name = none)
    (hmetas : n'.broker.metas = (n.stored new).broker.metas) : ¬ SameTopics n n' := by
  intro hsame
  have hfound := metas_stored n new
  rw [← hmetas, hsame.metas, hnone] at hfound
  cases hfound

theorem handleCreateTopic_iff (n : Node) (t : CreateTopicsRequestTopic) (save : SaveResult)
    (result : OpenResult) :
    ((n.handleCreateTopic t save result).2 ≠ .none →
        (n.handleCreateTopic t save result).2 ≠ .topicAlreadyExists →
        SameTopics n (n.handleCreateTopic t save result).1) ↔
      (n.reserves t save = true → result = .opened) := by
  rw [Node.handleCreateTopic]
  obtain ⟨hreserves, code, heq⟩ | ⟨hreserves, heq⟩ := reserve_cases n t save
  · rw [heq, hreserves]
    simp only [Bool.false_eq_true, false_implies, iff_true]
    exact fun _ _ => ⟨rfl, rfl, rfl⟩
  rw [heq, hreserves]
  simp only [true_implies]
  by_cases hresult : result = .opened
  · simp only [hresult, iff_true]
    exact fun hcode => absurd rfl hcode
  · simp only [hresult, iff_false, Classical.not_imp]
    refine ⟨?_, ?_, ?_⟩
    · cases result <;> simp_all [Node.install]
    · cases result <;> simp [Node.install]
    · obtain ⟨executions, hopen⟩ := newTopic_failed
        (n.stored ⟨t.name, t.numPartitions, t.replicationFactor⟩) t.name t.numPartitions hresult
      rw [install_fst, hopen]
      simp only [Node.reserves, Bool.and_eq_true, Option.isNone_iff_eq_none] at hreserves
      have hnone : n.broker.metas
          (⟨t.name, t.numPartitions, t.replicationFactor⟩ : TopicMeta).name = none :=
        hreserves.1.2
      exact not_sameTopics_stored hnone rfl

theorem getOrCreateTopic_iff (cfg : TopicConfig) (n : Node) (name : Bytes)
    (requestedPartitions : Int32) (save : SaveResult) (result : OpenResult) :
    ((n.getOrCreateTopic cfg name requestedPartitions save result).2 = none →
        SameTopics n (n.getOrCreateTopic cfg name requestedPartitions save result).1) ↔
      (n.creates cfg name requestedPartitions save = true → result = .opened) := by
  obtain ⟨hcreates, found, heq⟩ | ⟨hcreates, -, k, heq⟩ | ⟨hcreates, hnone, new, rfl, heq⟩ :=
    getOrCreateTopic_cases cfg n name requestedPartitions save result
  · rw [heq, hcreates]
    simp only [Bool.false_eq_true, false_implies, iff_true]
    exact fun _ => ⟨rfl, rfl, rfl⟩
  · rw [heq, hcreates]
    simp only [Bool.false_eq_true, false_implies, iff_true]
    by_cases hresult : result = .opened
    · obtain ⟨t, executions, opened, hopen⟩ := newTopic_opened n name k
      rw [hresult, hopen]
      intro hfound
      cases hfound
    · obtain ⟨executions, hopen⟩ := newTopic_failed n name k hresult
      rw [hopen]
      exact fun _ => ⟨rfl, rfl, rfl⟩
  · rw [heq, hcreates]
    simp only [true_implies]
    by_cases hresult : result = .opened
    · obtain ⟨t, executions, opened, hopen⟩ :=
        newTopic_opened (n.stored new) new.name new.numPartitions
      simp only [hresult, iff_true]
      rw [hopen]
      intro hfound
      cases hfound
    · obtain ⟨executions, hopen⟩ :=
        newTopic_failed (n.stored new) new.name new.numPartitions hresult
      rw [hopen]
      simp only [hresult, iff_false, Classical.not_imp]
      exact ⟨trivial, not_sameTopics_stored hnone rfl⟩

end

section

variable {n : Node} {name : Bytes}

theorem Consistent.of_same (h : Consistent n) {n' : Node} (hsame : SameTopics n n')
    (hcreating : ∀ name k, .creating name k ∈ n'.broker.requests ↔
      .creating name k ∈ n.broker.requests) : Consistent n' where
  file := by rw [hsame.file, hsame.metas, h.file]
  known name := by
    rw [hsame.metas, hsame.topics]
    simp only [hcreating]
    exact h.known name

theorem consistent_newTopic (hfile : n.file = n.broker.metas)
    (hmeta : (n.broker.metas name).isSome)
    (hothers : ∀ other, other ≠ name → ((n.broker.metas other).isSome ↔
      (n.broker.topics other).isSome ∨ ∃ k, .creating other k ∈ n.broker.requests))
    {result : OpenResult} (hknown : result = .opened ∨ (n.broker.topics name).isSome ∨
      ∃ k, .creating name k ∈ n.broker.requests) (k : Int32) :
    Consistent (n.newTopic name k result).1 := by
  by_cases hresult : result = .opened
  · obtain ⟨t, executions, opened, hopen⟩ := newTopic_opened n name k
    rw [hresult, hopen]
    refine ⟨hfile, fun other => ?_⟩
    by_cases hother : other = name
    · simp [hother, hmeta]
    · simp only [Function.update_of_ne hother]
      exact hothers other hother
  · obtain ⟨executions, hopen⟩ := newTopic_failed n name k hresult
    rw [hopen]
    refine ⟨hfile, fun other => ?_⟩
    by_cases hother : other = name
    · rw [hother]
      exact iff_of_true hmeta (hknown.resolve_left hresult)
    · exact hothers other hother

theorem Consistent.newTopic (h : Consistent n) (hmeta : (n.broker.metas name).isSome) (k : Int32)
    (result : OpenResult) : Consistent (n.newTopic name k result).1 :=
  consistent_newTopic h.file hmeta (fun other _ => h.known other)
    (.inr ((h.known name).mp hmeta)) k

theorem Consistent.stored_opened (h : Consistent n) (new : TopicMeta) (k : Int32) :
    Consistent ((n.stored new).newTopic new.name k .opened).1 := by
  refine consistent_newTopic rfl ?_ (fun other hother => ?_) (.inl rfl) k
  · exact Option.isSome_iff_exists.mpr ⟨new, metas_stored n new⟩
  · simp only [Node.stored, Node.withMetadata, Function.update_of_ne hother]
    exact h.known other

theorem Consistent.getOrCreateTopic (h : Consistent n) (cfg : TopicConfig) {save : SaveResult}
    {result : OpenResult}
    (hguard : (decide (result = .opened) || !n.creates cfg name 0 save) = true) :
    Consistent (n.getOrCreateTopic cfg name 0 save result).1 := by
  obtain ⟨-, found, heq⟩ | ⟨-, hmeta, k, heq⟩ | ⟨hcreates, -, new, rfl, heq⟩ :=
    getOrCreateTopic_cases cfg n name 0 save result
  · rw [heq]
    exact h
  · rw [heq]
    exact h.newTopic hmeta k result
  · rw [heq]
    simp only [hcreates, Bool.not_true, Bool.or_false, decide_eq_true_eq] at hguard
    rw [hguard]
    exact h.stored_opened new new.numPartitions

theorem Consistent.reserve (h : Consistent n) (new : TopicMeta) :
    Consistent ((n.stored new).addRequest (.creating new.name new.numPartitions)) := by
  refine ⟨rfl, fun other => ?_⟩
  by_cases hother : other = new.name
  · refine iff_of_true ?_ (.inr ⟨new.numPartitions, ?_⟩)
    · rw [hother]
      exact Option.isSome_iff_exists.mpr ⟨new, metas_stored n new⟩
    · rw [hother]
      exact List.mem_append_right _ List.mem_cons_self
  · simp only [Node.addRequest, Node.stored, Node.withMetadata, Function.update_of_ne hother,
      List.mem_append, List.mem_singleton, Request.creating.injEq, hother, false_and, or_false]
    exact h.known other

theorem creating_answer {i : Nat} {r : Request} (hrequest : n.broker.requests[i]? = some r)
    {k : Int32} (hne : ∀ k, r ≠ .creating name k) :
    .creating name k ∈ (n.answer i).broker.requests ↔ .creating name k ∈ n.broker.requests := by
  obtain ⟨hlt, hr⟩ := List.getElem?_eq_some_iff.mp hrequest
  simp only [Node.answer, Broker.setRequest]
  constructor
  · intro hmem
    exact (List.mem_or_eq_of_mem_set hmem).resolve_right (by simp)
  · intro hmem
    obtain ⟨j, hj⟩ := List.mem_iff_getElem?.mp hmem
    refine List.mem_iff_getElem?.mpr ⟨j, ?_⟩
    rw [List.getElem?_set_ne, hj]
    rintro rfl
    rw [hrequest] at hj
    exact hne k (Option.some.inj hj)

theorem Consistent.install (h : Consistent n) {i : Nat} {k : Int32} {result : OpenResult}
    (hrequest : n.broker.requests[i]? = some (.creating name k))
    (hguard : (decide (result = .opened) || (n.broker.topics name).isSome) = true) :
    Consistent ((n.answer i).install name k result).1 := by
  have hmeta : (n.broker.metas name).isSome :=
    (h.known name).mpr (.inr ⟨k, List.mem_of_getElem? hrequest⟩)
  rw [Bool.or_eq_true, decide_eq_true_eq] at hguard
  rw [install_fst]
  refine consistent_newTopic (n := n.answer i) h.file hmeta (fun other hne => ?_)
    (hguard.imp_right .inl) k
  have hrequests (k' : Int32) : .creating other k' ∈ (n.answer i).broker.requests ↔
      .creating other k' ∈ n.broker.requests :=
    creating_answer hrequest fun _ heq => hne (Request.creating.inj heq).1.symm
  simp only [hrequests]
  exact h.known other

theorem Consistent.addRequest (h : Consistent n) {r : Request}
    (hr : ∀ name k, r ≠ .creating name k) : Consistent (n.addRequest r) := by
  refine h.of_same ⟨rfl, rfl, rfl⟩ fun name k => ?_
  simp only [Node.addRequest, List.mem_append, List.mem_singleton, or_iff_left_iff_imp]
  exact fun heq => absurd heq.symm (hr name k)

theorem Consistent.step (h : Consistent n) {cfg : TopicConfig} {e : Event} {n' : Node}
    (hstep : Guarded (opensWhatItSaves cfg) (Node.step cfg) n e n') : Consistent n' := by
  obtain ⟨hguard, hnext⟩ := hstep
  cases e with
  | createTopics t save =>
    rw [Node.step] at hnext
    obtain ⟨-, code, heq⟩ | ⟨-, heq⟩ := reserve_cases n t save
    · rw [heq] at hnext
      obtain rfl := Option.some.inj hnext
      exact h
    · rw [heq] at hnext
      obtain rfl := Option.some.inj hnext
      exact h.reserve ⟨t.name, t.numPartitions, t.replicationFactor⟩
  | install i result =>
    rw [Node.step] at hnext
    split at hnext
    · rename_i name k hrequest
      obtain rfl := Option.some.inj hnext
      rw [opensWhatItSaves, hrequest] at hguard
      exact h.install hrequest hguard
    · cases hnext
  | produce name save result =>
    have hcreated := h.getOrCreateTopic cfg hguard
    rw [Node.step] at hnext
    split at hnext
    · rename_i after heq
      obtain rfl := Option.some.inj hnext
      rwa [heq] at hcreated
    · rename_i after t heq
      obtain rfl := Option.some.inj hnext
      rw [heq] at hcreated
      exact hcreated.addRequest fun _ _ => by simp
  | append i partition ok =>
    obtain ⟨b, hb, rfl⟩ := Option.map_eq_some_iff.mp hnext
    simp only [Broker.step] at hb
    repeat' split at hb
    all_goals cases hb
    all_goals exact h.of_same ⟨rfl, rfl, rfl⟩ fun _ _ => Iff.rfl
  | metadata name =>
    obtain ⟨b, hb, rfl⟩ := Option.map_eq_some_iff.mp hnext
    simp only [Broker.step] at hb
    split at hb
    · cases hb
      exact h.addRequest fun _ _ => by simp
    · cases hb
      exact h
  | autoCreate i save result =>
    rw [Node.step] at hnext
    split at hnext
    · rename_i name hrequest
      obtain rfl := Option.some.inj hnext
      rw [opensWhatItSaves, hrequest] at hguard
      have hanswered : Consistent (n.answer i) := by
        refine h.of_same ⟨rfl, rfl, rfl⟩ fun name k => ?_
        exact creating_answer hrequest fun _ heq => by cases heq
      exact hanswered.getOrCreateTopic cfg hguard
    · cases hnext

theorem topics_load (b : Broker) (metas : List TopicMeta) (name : Bytes) :
    let loaded := metas.foldl (fun b m => (b.openTopic m.name m.numPartitions true).1) b
    loaded.metas = b.metas ∧ loaded.requests = b.requests ∧
      ((loaded.topics name).isSome ↔
        (b.topics name).isSome ∨ ∃ m ∈ metas, m.name = name) := by
  induction metas generalizing b with
  | nil => exact ⟨rfl, rfl, by simp⟩
  | cons m metas ih =>
    obtain ⟨hmetas, hrequests, htopics⟩ := ih (b.openTopic m.name m.numPartitions true).1
    refine ⟨hmetas, hrequests, htopics.trans ?_⟩
    simp only [Broker.openTopic, if_true, Function.update_apply, List.exists_mem_cons_iff]
    by_cases hname : name = m.name
    · simp [hname]
    · simp [hname, Ne.symm hname]

theorem consistent_newNode (persisted : Persisted) : Consistent (newNode persisted) where
  file := rfl
  known name := by
    obtain ⟨hmetas, hrequests, htopics⟩ := topics_load { emptyBroker with
      metas := fun name => persisted.metas.find? fun m => decide (m.name = name) }
      persisted.metas name
    simp only [newNode, newBroker, hmetas, hrequests, htopics]
    simp [emptyBroker]

end

theorem createTopic_outcome (mm : MetadataManager) (new : TopicMeta) (save : SaveResult) :
    ((mm.createTopic new save).1.topics, (mm.createTopic new save).2) =
      createTopicMeta mm.topics new (decide (save = .saved)) := by
  rw [createTopicMeta]
  obtain ⟨old, hold, heq⟩ | ⟨hnone, hsave, heq⟩ | ⟨hnone, hsave, heq⟩ :=
    createTopic_cases mm new save
  · rw [heq, hold]
  · rw [heq, hnone, decide_eq_false hsave]
    rfl
  · rw [heq, hnone, decide_eq_true hsave]
    rfl

theorem getOrCreateTopic_outcome (cfg : TopicConfig) (n : Node) (name : Bytes)
    (requestedPartitions : Int32) (save : SaveResult) (result : OpenResult) :
    let created := n.getOrCreateTopic cfg name requestedPartitions save result
    (created.1.broker, created.2) =
      n.broker.getOrCreateTopic cfg name requestedPartitions (decide (save = .saved))
        (decide (result = .opened)) := by
  rw [Node.getOrCreateTopic, Broker.getOrCreateTopic]
  by_cases hname : validTopicName name = false
  · rw [if_pos hname, if_pos hname]
  rw [if_neg hname, if_neg hname]
  cases htopic : n.broker.topics name
  swap
  · rfl
  dsimp only
  by_cases hauto : requestedPartitions ≤ 0 ∧ cfg.autoCreate = false
  · rw [if_pos hauto, if_pos hauto]
  rw [if_neg hauto, if_neg hauto]
  rw [← show _ = createTopicMeta n.broker.metas _ _ from createTopic_outcome n.metadata _ save]
  cases hcreate : n.metadata.createTopic _ save with
  | mk mm stored =>
    cases stored with
    | none => rfl
    | some stored => rfl

/-- Every step is a step of `TopicCreation` for the broker. -/
theorem step_outcome (cfg : TopicConfig) (n : Node) (e : Event) :
    (n.step cfg e).map Node.broker = n.broker.step cfg e.outcome := by
  cases e with
  | createTopics t save =>
    rw [Node.step, Event.outcome, Broker.step, Node.reserve]
    by_cases hname : validTopicName t.name = false
    · rw [if_pos hname, if_pos (.inl hname)]
      rfl
    by_cases hcount : t.numPartitions ≤ 0
    · rw [if_neg hname, if_pos hcount, if_pos (.inr hcount)]
      rfl
    rw [if_neg hname, if_neg hcount, if_neg (not_or.mpr ⟨hname, hcount⟩),
      ← show _ = createTopicMeta n.broker.metas _ _ from createTopic_outcome n.metadata _ save]
    cases hcreate : n.metadata.createTopic _ save with
    | mk mm stored =>
      obtain _ | ⟨stored, _ | _⟩ := stored
      · rfl
      · rfl
      · rfl
  | install i result =>
    rw [Node.step, Event.outcome, Broker.step]
    cases hrequest : n.broker.requests[i]? with
    | none => rfl
    | some r => cases r <;> rfl
  | produce name save result =>
    rw [Node.step, Event.outcome, Broker.step,
      ← show _ = n.broker.getOrCreateTopic cfg name 0 _ _ from
        getOrCreateTopic_outcome cfg n name 0 save result]
    cases hcreate : n.getOrCreateTopic cfg name 0 save result with
    | mk after found =>
      cases found with
      | none => rfl
      | some t => rfl
  | append i partition ok =>
    rw [Node.step, Event.outcome, Option.map_map]
    exact Option.map_id'
  | metadata name =>
    rw [Node.step, Event.outcome, Option.map_map]
    exact Option.map_id'
  | autoCreate i save result =>
    rw [Node.step, Event.outcome, Broker.step]
    cases hrequest : n.broker.requests[i]? with
    | none => rfl
    | some r =>
      cases r with
      | describing name =>
        exact congrArg (fun created => some created.1)
          (getOrCreateTopic_outcome cfg (n.answer i) name 0 save result)
      | creating _ _ => rfl
      | producing _ => rfl
      | answered => rfl

/-- A creation that fails is all or nothing exactly where `NewTopic` does not
fail for an entry of the metadata that the same call has written; in a run of
such steps the metadata and the topic map have the same names whenever no
`CreateTopics` call is between its two parts. -/
theorem creation_all_or_nothing (cfg : TopicConfig) :
    (∀ n t save result,
      (((n.handleCreateTopic t save result).2 ≠ .none →
          (n.handleCreateTopic t save result).2 ≠ .topicAlreadyExists →
          SameTopics n (n.handleCreateTopic t save result).1) ↔
        (n.reserves t save = true → result = .opened))) ∧
    (∀ n name requestedPartitions save result,
      (((n.getOrCreateTopic cfg name requestedPartitions save result).2 = none →
          SameTopics n (n.getOrCreateTopic cfg name requestedPartitions save result).1) ↔
        (n.creates cfg name requestedPartitions save = true → result = .opened))) ∧
    ∀ persisted events n,
      Run (Guarded (opensWhatItSaves cfg) (Node.step cfg)) (newNode persisted) events n →
      Consistent n ∧
        (Settled n → ∀ name, (n.broker.metas name).isSome ↔ (n.broker.topics name).isSome) := by
  refine ⟨handleCreateTopic_iff, getOrCreateTopic_iff cfg, fun persisted events n hrun => ?_⟩
  have h : Consistent n :=
    hrun.invariant (consistent_newNode persisted) fun _ _ _ hn hstep => hn.step hstep
  refine ⟨h, fun hsettled name => (h.known name).trans (or_iff_left ?_)⟩
  rintro ⟨k, hk⟩
  exact hsettled name k hk

def oneTopic : CreateTopicsRequestTopic := ⟨[116], 1, 1⟩

def savedAtSecond : List Event :=
  [.createTopics oneTopic .renameFailed, .createTopics oneTopic .saved, .install 0 .opened]

theorem creation_all_or_nothing_savedAtSecond :
    ∃ n, Run (Guarded (opensWhatItSaves topicConfig) (Node.step topicConfig)) (newNode noTopics)
        savedAtSecond n ∧
      n.broker.requests = [.answered] ∧
      ∀ name, (n.broker.metas name).isSome ↔ (n.broker.topics name).isSome := by
  have hend : (execute (opensWhatItSaves topicConfig) (Node.step topicConfig) (newNode noTopics)
      savedAtSecond).map (fun n => n.broker.requests) = some [.answered] := by decide +kernel
  obtain ⟨n, hrun, hrequests⟩ := exists_run_of_execute hend
  have hsettled : Settled n := fun name k hk => by
    rw [hrequests] at hk
    simp at hk
  exact ⟨n, hrun, hrequests,
    ((creation_all_or_nothing topicConfig).2.2 noTopics savedAtSecond n hrun).2 hsettled⟩

def afterFailedOpen : Node × ErrorCode :=
  (newNode noTopics).handleCreateTopic oneTopic .saved .failed

/-- `NewTopic` fails: the request is answered with an error, the topic is in the
metadata, in memory and on disk, but not in the topic map, and the request that
tries again is told that the topic exists.  Auto-creation fails in the same way. -/
theorem failed_creation_stays :
    (newNode noTopics).broker.metas [116] = none ∧ (newNode noTopics).file [116] = none ∧
      afterFailedOpen.2 = .unknown ∧
      afterFailedOpen.1.broker.metas [116] = some ⟨[116], 1, 1⟩ ∧
      afterFailedOpen.1.file [116] = some ⟨[116], 1, 1⟩ ∧
      afterFailedOpen.1.broker.topics [116] = none ∧
      (afterFailedOpen.1.handleCreateTopic oneTopic .saved .opened).2 = .topicAlreadyExists ∧
      ((newNode noTopics).getOrCreateTopic topicConfig [116] 0 .saved .failed).2 = none ∧
      ((newNode noTopics).getOrCreateTopic topicConfig [116] 0 .saved .failed).1.broker.metas [116] =
        some ⟨[116], 1, 1⟩ ∧
      ((newNode noTopics).getOrCreateTopic topicConfig [116] 0 .saved .failed).1.broker.topics [116] =
        none := by
  decide +kernel

end MiniKafka.CreationFailures
