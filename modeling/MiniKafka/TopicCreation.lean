import MiniKafka.CommittedOffsets
import MiniKafka.Runs

/-!
The two ways in which a broker creates a topic (`internal/broker/broker.go`,
`metadata.go`, `topic.go`): `CreateTopics` writes the metadata first and takes
the lock of the topic map afterwards, auto-creation does both under that lock.

The steps are the calls of `metaManager.CreateTopic` and the critical sections
of the topic map.  A request for several topics is one call for each of them.
`NewTopic` leaves a new object behind, with a log open on the directory of every
partition, or closes what it has opened and fails.
-/

namespace MiniKafka.TopicCreation

open BigEndian CommittedOffsets Runs

structure TopicMeta where
  name : Bytes
  numPartitions : Int32
  replicationFactor : Int16
  deriving DecidableEq, Repr

/-- A topic object.  Two objects with the same data are told apart by `id`. -/
structure Topic where
  id : Nat
  name : Bytes
  numPartitions : Int32
  deriving DecidableEq, Repr

structure TopicConfig where
  autoCreate : Bool
  defaultPartitions : Int32
  defaultReplicationFactor : Int16
  offsetsTopicPartitions : Nat
  deriving DecidableEq, Repr

/-- A request for one topic: `CreateTopics` with its metadata written, `Metadata`
that has found none, and `Produce` with the topic it appends to. -/
inductive Request where
  | creating (name : Bytes) (numPartitions : Int32)
  | describing (name : Bytes)
  | producing (topic : Topic)
  | answered
  deriving DecidableEq, Repr

/-- The metadata, the topic map, the objects that `NewTopic` has made, all its
executions, the acknowledged appends and the requests. -/
structure Broker where
  metas : Bytes → Option TopicMeta
  topics : Bytes → Option Topic
  opened : List Topic
  executions : List (Bytes × Option Topic)
  acked : List (Topic × Int32)
  requests : List Request

def createTopicMeta (metas : Bytes → Option TopicMeta) (new : TopicMeta) (saved : Bool) :
    (Bytes → Option TopicMeta) × Option (TopicMeta × Bool) :=
  match metas new.name with
  | some old => (metas, some (old, false))
  | none =>
    if saved then (Function.update metas new.name (some new), some (new, true))
    else (metas, none)

/-- `NewTopic`, and the new object stored in the map. -/
def Broker.openTopic (b : Broker) (name : Bytes) (numPartitions : Int32) (ok : Bool) :
    Broker × Option Topic :=
  if ok then
    let t : Topic := ⟨b.executions.length, name, numPartitions⟩
    ({ b with
        topics := Function.update b.topics name (some t)
        opened := b.opened ++ [t]
        executions := b.executions ++ [(name, some t)] }, some t)
  else ({ b with executions := b.executions ++ [(name, none)] }, none)

def Broker.getOrCreateTopic (cfg : TopicConfig) (b : Broker) (name : Bytes)
    (requestedPartitions : Int32) (saved ok : Bool) : Broker × Option Topic :=
  if validTopicName name = false then (b, none)
  else
    match b.topics name with
    | some t => (b, some t)
    | none =>
      if requestedPartitions ≤ 0 ∧ cfg.autoCreate = false then (b, none)
      else
        let numPartitions :=
          if 0 < requestedPartitions then requestedPartitions
          else if cfg.defaultPartitions ≤ 0 then 1
          else cfg.defaultPartitions
        let rf := if cfg.defaultReplicationFactor ≤ 0 then 1 else cfg.defaultReplicationFactor
        match createTopicMeta b.metas ⟨name, numPartitions, rf⟩ saved with
        | (metas, none) => ({ b with metas }, none)
        | (metas, some (stored, _)) =>
          ({ b with metas }).openTopic name stored.numPartitions ok

inductive TopicEvent where
  | createTopics (name : Bytes) (numPartitions : Int32) (replicationFactor : Int16) (saved : Bool)
  | install (request : Nat) (ok : Bool)
  | produce (name : Bytes) (saved ok : Bool)
  | append (request : Nat) (partition : Int32) (ok : Bool)
  | metadata (name : Bytes)
  | autoCreate (request : Nat) (saved ok : Bool)
  deriving DecidableEq, Repr

def Broker.setRequest (b : Broker) (i : Nat) (r : Request) : Broker :=
  { b with requests := b.requests.set i r }

def Broker.step (cfg : TopicConfig) (b : Broker) : TopicEvent → Option Broker
  | .createTopics name numPartitions replicationFactor saved =>
    if validTopicName name = false ∨ numPartitions ≤ 0 then some b
    else
      match createTopicMeta b.metas ⟨name, numPartitions, replicationFactor⟩ saved with
      | (metas, some (_, true)) =>
        some { b with metas, requests := b.requests ++ [.creating name numPartitions] }
      | (metas, _) => some { b with metas }
  | .install i ok =>
    match b.requests[i]? with
    | some (.creating name numPartitions) =>
      some ((b.setRequest i .answered).openTopic name numPartitions ok).1
    | _ => none
  | .produce name saved ok =>
    match b.getOrCreateTopic cfg name 0 saved ok with
    | (b, none) => some b
    | (b, some t) => some { b with requests := b.requests ++ [.producing t] }
  | .append i partition ok =>
    match b.requests[i]? with
    | some (.producing t) =>
      if 0 ≤ partition ∧ partition < t.numPartitions ∧ ok then
        some { b with acked := b.acked ++ [(t, partition)] }
      else some b
    | _ => none
  | .metadata name =>
    if (b.metas name).isNone ∧ cfg.autoCreate then
      some { b with requests := b.requests ++ [.describing name] }
    else some b
  | .autoCreate i saved ok =>
    match b.requests[i]? with
    | some (.describing name) =>
      some ((b.setRequest i .answered).getOrCreateTopic cfg name 0 saved ok).1
    | _ => none

/-- The topics in the metadata file, one for each name. -/
structure Persisted where
  metas : List TopicMeta
  distinct : (metas.map TopicMeta.name).Nodup

def emptyBroker : Broker := ⟨fun _ => none, fun _ => none, [], [], [], []⟩

/-- `New`, where every topic of the metadata file could be opened. -/
def newBroker (persisted : Persisted) : Broker :=
  persisted.metas.foldl (fun b m => (b.openTopic m.name m.numPartitions true).1)
    { emptyBroker with metas := fun name => persisted.metas.find? fun m => decide (m.name = name) }

def offsetsTopic : Bytes :=
  [95, 95, 99, 111, 110, 115, 117, 109, 101, 114, 95, 111, 102, 102, 115, 101, 116, 115]

def directory (topic : Bytes) (partition : Nat) : Bytes := topic ++ 47 :: digits partition

def directories (topic : Bytes) (partitions : Nat) : List Bytes :=
  (List.range partitions).map (directory topic)

/-- The directories of the logs that are open: those of the offset store, and
those of every topic object, in the map or not. -/
def Broker.openLogs (cfg : TopicConfig) (b : Broker) : List Bytes :=
  directories offsetsTopic cfg.offsetsTopicPartitions ++
    b.opened.flatMap fun t => directories t.name t.numPartitions.toNatClampNeg

/-- `CreateTopics` finds no entry when it takes the lock, and no topic is created
below the directory of the offset store. -/
def createsOnce (b : Broker) : TopicEvent → Bool
  | .install i _ =>
    match b.requests[i]? with
    | some (.creating name _) => (b.topics name).isNone && decide (name ≠ offsetsTopic)
    | _ => true
  | .produce name _ _ => decide (name ≠ offsetsTopic)
  | .autoCreate i _ _ =>
    match b.requests[i]? with
    | some (.describing name) => decide (name ≠ offsetsTopic)
    | _ => true
  | _ => true

/-- After `NewTopic` has succeeded for a name it is not executed again for it,
and it is executed once if it never fails; no directory has two open logs; the
topic object of every acknowledged append is the one in the map. -/
structure OneLogPerPartition (cfg : TopicConfig) (b : Broker) : Prop where
  last : b.executions.Pairwise fun before after => before.2.isSome → after.1 ≠ before.1
  once : (∀ e ∈ b.executions, e.2.isSome) → (b.executions.map Prod.fst).Nodup
  logs : (b.openLogs cfg).Nodup
  acked : ∀ a ∈ b.acked, b.topics a.1.name = some a.1

structure Sound (b : Broker) : Prop where
  current : ∀ t ∈ b.opened, b.topics t.name = some t
  entries : ∀ name t, b.topics name = some t → t ∈ b.opened ∧ t.name = name
  distinct : (b.opened.map Topic.name).Nodup
  unreserved : ∀ t ∈ b.opened, t.name ≠ offsetsTopic
  results : ∀ e ∈ b.executions, ∀ t, e.2 = some t → t ∈ b.opened ∧ t.name = e.1
  last : b.executions.Pairwise fun before after => before.2.isSome → after.1 ≠ before.1
  producing : ∀ t, .producing t ∈ b.requests → t ∈ b.opened
  acked : ∀ a ∈ b.acked, a.1 ∈ b.opened

section

variable {cfg : TopicConfig} {b b' : Broker} {name : Bytes}

theorem getOrCreateTopic_cases (cfg : TopicConfig) (b : Broker) (name : Bytes)
    (requestedPartitions : Int32) (saved ok : Bool) :
    (∃ metas found, b.getOrCreateTopic cfg name requestedPartitions saved ok =
        ({ b with metas }, found) ∧ ∀ t, found = some t → b.topics name = some t) ∨
      b.topics name = none ∧ ∃ metas numPartitions,
        b.getOrCreateTopic cfg name requestedPartitions saved ok =
          ({ b with metas }).openTopic name numPartitions ok := by
  rw [Broker.getOrCreateTopic]
  split
  · exact .inl ⟨b.metas, none, rfl, fun t ht => by cases ht⟩
  · split
    · rename_i t ht
      exact .inl ⟨b.metas, some t, rfl, fun x hx => by rw [ht, hx]⟩
    · rename_i hnone
      split
      · exact .inl ⟨b.metas, none, rfl, fun t ht => by cases ht⟩
      · dsimp only
        split
        · exact .inl ⟨_, none, rfl, fun t ht => by cases ht⟩
        · exact .inr ⟨hnone, _, _, rfl⟩

theorem Sound.not_opened (h : Sound b) (hname : b.topics name = none) :
    ∀ t ∈ b.opened, t.name ≠ name := by
  rintro t ht rfl
  rw [h.current t ht] at hname
  cases hname

theorem Sound.last_concat (h : Sound b) (hname : b.topics name = none) (result : Option Topic) :
    (b.executions ++ [(name, result)]).Pairwise
      fun before after => before.2.isSome → after.1 ≠ before.1 := by
  refine List.pairwise_append.mpr ⟨h.last, List.pairwise_singleton _ _, ?_⟩
  intro before hbefore after hafter hsome heq
  obtain rfl := List.mem_singleton.mp hafter
  obtain ⟨t, ht⟩ := Option.isSome_iff_exists.mp hsome
  obtain ⟨hopened, htname⟩ := h.results before hbefore t ht
  exact h.not_opened hname t hopened (htname.trans heq.symm)

theorem Sound.openTopic (h : Sound b) (hname : b.topics name = none) (hreserved : name ≠ offsetsTopic)
    (numPartitions : Int32) (ok : Bool) : Sound (b.openTopic name numPartitions ok).1 := by
  cases ok with
  | false =>
    refine ⟨h.current, h.entries, h.distinct, h.unreserved, ?_, h.last_concat hname none,
      h.producing, h.acked⟩
    intro e he t ht
    rcases List.mem_append.mp he with hbefore | hnew
    · exact h.results e hbefore t ht
    · obtain rfl := List.mem_singleton.mp hnew
      cases ht
  | true =>
    have hnew : ∀ t ∈ b.opened, t.name ≠ name := h.not_opened hname
    refine ⟨?_, ?_, ?_, ?_, ?_, h.last_concat hname _, ?_, ?_⟩
    · intro t ht
      rcases List.mem_append.mp ht with hold | hlast
      · exact (Function.update_of_ne (hnew t hold) _ _).trans (h.current t hold)
      · obtain rfl := List.mem_singleton.mp hlast
        exact Function.update_self _ _ _
    · intro other t ht
      simp only [Broker.openTopic, if_true, Function.update_apply] at ht
      split at ht
      · rename_i hother
        obtain rfl := Option.some.inj ht
        exact ⟨List.mem_append_right _ (List.mem_singleton.mpr rfl), hother.symm⟩
      · exact (h.entries other t ht).imp (List.mem_append_left _) id
    · simp only [Broker.openTopic, if_true, List.map_append, List.nodup_append]
      refine ⟨h.distinct, List.nodup_singleton _, ?_⟩
      intro x hx y hy
      obtain ⟨t, ht, rfl⟩ := List.mem_map.mp hx
      obtain rfl := List.mem_singleton.mp hy
      exact hnew t ht
    · intro t ht
      rcases List.mem_append.mp ht with hold | hlast
      · exact h.unreserved t hold
      · obtain rfl := List.mem_singleton.mp hlast
        exact hreserved
    · intro e he t ht
      rcases List.mem_append.mp he with hbefore | hlast
      · exact (h.results e hbefore t ht).imp (List.mem_append_left _) id
      · obtain rfl := List.mem_singleton.mp hlast
        obtain rfl := Option.some.inj ht
        exact ⟨List.mem_append_right _ (List.mem_singleton.mpr rfl), rfl⟩
    · intro t ht
      exact List.mem_append_left _ (h.producing t ht)
    · intro a ha
      exact List.mem_append_left _ (h.acked a ha)

theorem Sound.with_requests (h : Sound b) (metas : Bytes → Option TopicMeta)
    {requests : List Request} (hrequests : ∀ t, .producing t ∈ requests → t ∈ b.opened) :
    Sound { b with metas, requests } :=
  ⟨h.current, h.entries, h.distinct, h.unreserved, h.results, h.last, hrequests, h.acked⟩

theorem opened_openTopic (b : Broker) (name : Bytes) (numPartitions : Int32) (ok : Bool) :
    b.opened <+: (b.openTopic name numPartitions ok).1.opened ∧
      ∀ t, (b.openTopic name numPartitions ok).2 = some t →
        t ∈ (b.openTopic name numPartitions ok).1.opened := by
  cases ok with
  | false => exact ⟨List.prefix_refl _, fun t ht => by cases ht⟩
  | true =>
    refine ⟨List.prefix_append _ _, ?_⟩
    rintro t ⟨⟩
    exact List.mem_append_right _ (List.mem_singleton.mpr rfl)

theorem Sound.getOrCreateTopic (h : Sound b) (hreserved : name ≠ offsetsTopic)
    (cfg : TopicConfig) (requestedPartitions : Int32) (saved ok : Bool) :
    Sound (b.getOrCreateTopic cfg name requestedPartitions saved ok).1 ∧
      b.opened <+: (b.getOrCreateTopic cfg name requestedPartitions saved ok).1.opened ∧
      ∀ t, (b.getOrCreateTopic cfg name requestedPartitions saved ok).2 = some t →
        t ∈ (b.getOrCreateTopic cfg name requestedPartitions saved ok).1.opened := by
  rcases getOrCreateTopic_cases cfg b name requestedPartitions saved ok with
    ⟨metas, found, heq, hfound⟩ | ⟨hnone, metas, numPartitions, heq⟩
  · rw [heq]
    exact ⟨h.with_requests metas h.producing, List.prefix_refl _,
      fun t ht => (h.entries name t (hfound t ht)).1⟩
  · rw [heq]
    have hmetas : Sound { b with metas } := h.with_requests metas h.producing
    exact ⟨hmetas.openTopic hnone hreserved numPartitions ok,
      opened_openTopic { b with metas } name numPartitions ok⟩

theorem producing_of_setRequest {i : Nat} {t : Topic}
    (ht : .producing t ∈ (b.setRequest i .answered).requests) : .producing t ∈ b.requests := by
  rcases List.mem_or_eq_of_mem_set ht with hmem | heq
  · exact hmem
  · cases heq

theorem Sound.step {e : TopicEvent} (h : Sound b)
    (hstep : Guarded createsOnce (Broker.step cfg) b e b') : Sound b' ∧ b.opened <+: b'.opened := by
  obtain ⟨hguard, hnext⟩ := hstep
  have hproducing {r : Request} (hr : ∀ t, r ≠ .producing t) :
      ∀ t, .producing t ∈ b.requests ++ [r] → t ∈ b.opened := by
    intro t ht
    rcases List.mem_append.mp ht with hold | hnew
    · exact h.producing t hold
    · exact absurd (List.mem_singleton.mp hnew).symm (hr t)
  have hanswered (i : Nat) : Sound (b.setRequest i .answered) :=
    h.with_requests b.metas fun t ht => h.producing t (producing_of_setRequest ht)
  cases e with
  | createTopics name numPartitions replicationFactor saved =>
    simp only [Broker.step] at hnext
    repeat' split at hnext
    · cases hnext
      exact ⟨h, List.prefix_refl _⟩
    · cases hnext
      exact ⟨h.with_requests _ (hproducing fun t => by simp), List.prefix_refl _⟩
    · cases hnext
      exact ⟨h.with_requests _ h.producing, List.prefix_refl _⟩
  | install i ok =>
    simp only [Broker.step] at hnext
    split at hnext
    · rename_i name numPartitions hrequest
      cases hnext
      simp only [createsOnce, hrequest, Bool.and_eq_true, Option.isNone_iff_eq_none,
        decide_eq_true_eq] at hguard
      exact ⟨(hanswered i).openTopic hguard.1 hguard.2 numPartitions ok,
        (opened_openTopic (b.setRequest i .answered) name numPartitions ok).1⟩
    · cases hnext
  | produce name saved ok =>
    obtain ⟨hsound, hopened, hfound⟩ :=
      h.getOrCreateTopic (of_decide_eq_true hguard) cfg 0 saved ok
    simp only [Broker.step] at hnext
    split at hnext
    · rename_i after hresult
      cases hnext
      rw [hresult] at hsound hopened
      exact ⟨hsound, hopened⟩
    · rename_i after t hresult
      cases hnext
      rw [hresult] at hsound hopened hfound
      refine ⟨hsound.with_requests after.metas fun x hx => ?_, hopened⟩
      rcases List.mem_append.mp hx with hold | hnew
      · exact hsound.producing x hold
      · obtain ⟨⟩ := List.mem_singleton.mp hnew
        exact hfound t rfl
  | append i partition ok =>
    simp only [Broker.step] at hnext
    repeat' split at hnext
    · rename_i t hrequest hok
      cases hnext
      refine ⟨⟨h.current, h.entries, h.distinct, h.unreserved, h.results, h.last, h.producing, ?_⟩,
        List.prefix_refl _⟩
      intro a ha
      rcases List.mem_append.mp ha with hold | hnew
      · exact h.acked a hold
      · obtain rfl := List.mem_singleton.mp hnew
        exact h.producing t (List.mem_of_getElem? hrequest)
    · cases hnext
      exact ⟨h, List.prefix_refl _⟩
    · cases hnext
  | metadata name =>
    simp only [Broker.step] at hnext
    split at hnext
    · cases hnext
      exact ⟨h.with_requests b.metas (hproducing fun t => by simp), List.prefix_refl _⟩
    · cases hnext
      exact ⟨h, List.prefix_refl _⟩
  | autoCreate i saved ok =>
    simp only [Broker.step] at hnext
    split at hnext
    · rename_i name hrequest
      cases hnext
      simp only [createsOnce, hrequest, decide_eq_true_eq] at hguard
      obtain ⟨hsound, hopened, -⟩ := (hanswered i).getOrCreateTopic hguard cfg 0 saved ok
      exact ⟨hsound, hopened⟩
    · cases hnext

theorem directory_inj {topic topic' : Bytes} {p p' : Nat}
    (h : directory topic p = directory topic' p') : topic = topic' ∧ p = p' := by
  have hslash (n : Nat) : 47 ∉ digits n := by
    intro hmem
    exact absurd (digit_range hmem).1 (by decide)
  obtain ⟨htopic, hp⟩ := append_separator_inj (hslash p) (hslash p') h
  exact ⟨htopic, digits_injective hp⟩

theorem nodup_directories (topic : Bytes) (partitions : Nat) :
    (directories topic partitions).Nodup :=
  List.nodup_range.map fun _ _ h => (directory_inj h).2

theorem disjoint_directories {topic topic' : Bytes} (h : topic ≠ topic') (partitions partitions' : Nat) :
    (directories topic partitions).Disjoint (directories topic' partitions') := by
  intro dir hdir hdir'
  obtain ⟨p, -, rfl⟩ := List.mem_map.mp hdir
  obtain ⟨p', -, hp'⟩ := List.mem_map.mp hdir'
  exact h (directory_inj hp').1.symm

theorem Sound.nodup_openLogs (h : Sound b) (cfg : TopicConfig) : (b.openLogs cfg).Nodup := by
  refine List.Nodup.append (nodup_directories _ _) ?_ ?_
  · rw [List.nodup_flatMap]
    refine ⟨fun t _ => nodup_directories _ _, ?_⟩
    have hnames : b.opened.Pairwise fun t t' => t.name ≠ t'.name := List.pairwise_map.mp h.distinct
    exact hnames.imp fun hne => disjoint_directories hne _ _
  · intro dir hoffsets hdir
    obtain ⟨t, ht, htopic⟩ := List.mem_flatMap.mp hdir
    exact disjoint_directories (h.unreserved t ht).symm _ _ hoffsets htopic

theorem Sound.load (h : Sound b) {metas : List TopicMeta}
    (hdistinct : (metas.map TopicMeta.name).Nodup)
    (hnew : ∀ m ∈ metas, b.topics m.name = none ∧ m.name ≠ offsetsTopic) :
    Sound (metas.foldl (fun b m => (b.openTopic m.name m.numPartitions true).1) b) := by
  induction metas generalizing b with
  | nil => exact h
  | cons m metas ih =>
    obtain ⟨hm, hmetas⟩ := List.nodup_cons.mp hdistinct
    obtain ⟨hnone, hreserved⟩ := hnew m List.mem_cons_self
    refine ih (h.openTopic hnone hreserved m.numPartitions true) hmetas ?_
    intro m' hm'
    have hne : m'.name ≠ m.name := fun heq => hm (heq ▸ List.mem_map_of_mem hm')
    refine (hnew m' (List.mem_cons_of_mem m hm')).imp ?_ id
    exact (Function.update_of_ne hne _ _).trans

theorem sound_newBroker (persisted : Persisted)
    (hreserved : ∀ m ∈ persisted.metas, m.name ≠ offsetsTopic) : Sound (newBroker persisted) := by
  refine Sound.load ?_ persisted.distinct fun m hm => ⟨rfl, hreserved m hm⟩
  constructor <;> simp [emptyBroker]

theorem Sound.oneLogPerPartition (h : Sound b) (cfg : TopicConfig) : OneLogPerPartition cfg b where
  last := h.last
  once hsucceeded := by
    refine List.pairwise_map.mpr (h.last.imp_of_mem ?_)
    intro before after hbefore _ hlast
    exact (hlast (hsucceeded before hbefore)).symm
  logs := h.nodup_openLogs cfg
  acked a ha := h.current a.1 (h.acked a ha)

end

/-- If `CreateTopics` never finds an entry when it takes the lock, a partition
has one log and an entry of the topic map stays. -/
theorem one_log_per_partition (cfg : TopicConfig) (persisted : Persisted)
    (hreserved : ∀ m ∈ persisted.metas, m.name ≠ offsetsTopic) (events later : List TopicEvent)
    (b b' : Broker)
    (hrun : Run (Guarded createsOnce (Broker.step cfg)) (newBroker persisted) events b)
    (hlater : Run (Guarded createsOnce (Broker.step cfg)) b later b') :
    OneLogPerPartition cfg b' ∧ ∀ name t, b.topics name = some t → b'.topics name = some t := by
  have hsound : Sound b :=
    hrun.invariant (P := Sound) (sound_newBroker persisted hreserved) fun _ _ _ hs hstep =>
      (hs.step hstep).1
  have hboth : Sound b' ∧ b.opened <+: b'.opened := by
    apply hlater.invariant (P := fun c => Sound c ∧ b.opened <+: c.opened)
    · exact ⟨hsound, List.prefix_refl _⟩
    · rintro c e d ⟨hc, hprefix⟩ hstep
      obtain ⟨hd, hmore⟩ := hc.step hstep
      exact ⟨hd, hprefix.trans hmore⟩
  refine ⟨hboth.1.oneLogPerPartition cfg, fun name t ht => ?_⟩
  obtain ⟨hopened, rfl⟩ := hsound.entries name t ht
  exact hboth.1.current t (hboth.2.subset hopened)

def topicConfig : TopicConfig := ⟨true, 1, 1, 1⟩

def noTopics : Persisted := ⟨[], List.nodup_nil⟩

/-- `CreateTopics` for the topic `t` up to its end, and then a `Produce`. -/
def createThenProduce : List TopicEvent :=
  [.createTopics [116] 1 1 true, .install 0 true, .produce [116] true true, .append 1 0 true]

theorem one_log_per_partition_createThenProduce :
    ∃ b, Run (Guarded createsOnce (Broker.step topicConfig)) (newBroker noTopics)
        createThenProduce b ∧
      b.acked = [(⟨0, [116], 1⟩, 0)] ∧ OneLogPerPartition topicConfig b := by
  have hrun : (execute createsOnce (Broker.step topicConfig) (newBroker noTopics)
      createThenProduce).map Broker.acked = some [(⟨0, [116], 1⟩, 0)] := by decide +kernel
  obtain ⟨b, hb, hacked⟩ := exists_run_of_execute hrun
  exact ⟨b, hb, hacked, (one_log_per_partition topicConfig noTopics (fun m hm => by cases hm)
    createThenProduce [] b b hb .nil).1⟩

/-- The name of the offset store's directory is a legal topic name. -/
example : ¬ (((newBroker noTopics).getOrCreateTopic topicConfig offsetsTopic 0 true true).1.openLogs
    topicConfig).Nodup := by
  decide +kernel

/-- `CreateTopics` has written the metadata, and `Produce` creates the topic and
appends to it. -/
def produceOvertakes : List TopicEvent :=
  [.createTopics [116] 1 1 true, .produce [116] true true, .append 1 0 true]

def overtaken : Broker :=
  (execute (fun _ _ => true) (Broker.step topicConfig) (newBroker noTopics) produceOvertakes).getD
    emptyBroker

def overwritten : Broker :=
  (execute (fun _ _ => true) (Broker.step topicConfig) overtaken [.install 0 true]).getD emptyBroker

/-- The acknowledged append went to a topic object that is no longer in the map,
and its log stays open next to the new one. -/
theorem topic_replaced :
    Run (Guarded (fun _ _ => true) (Broker.step topicConfig)) (newBroker noTopics)
        produceOvertakes overtaken ∧
      Run (Guarded (fun _ _ => true) (Broker.step topicConfig)) overtaken [.install 0 true]
        overwritten ∧
      overtaken.topics [116] = some ⟨0, [116], 1⟩ ∧
      overwritten.topics [116] = some ⟨1, [116], 1⟩ ∧
      overwritten.executions.map Prod.fst = [[116], [116]] ∧
      overwritten.acked = [(⟨0, [116], 1⟩, 0)] ∧
      ¬ (overwritten.openLogs topicConfig).Nodup :=
  ⟨run_getD (by decide +kernel), run_getD (by decide +kernel), by decide +kernel,
    by decide +kernel, by decide +kernel, by decide +kernel, by decide +kernel⟩

end MiniKafka.TopicCreation
