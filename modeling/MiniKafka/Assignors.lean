import Mathlib.Data.List.Sort
import MiniKafka.Dealing
import MiniKafka.LastWrite
import MiniKafka.PartitionAssignments

/-!
The assignors of `internal/coordinator/assignor.go`.

Both deal the partitions of the sorted topics to the sorted members: `range` by
topic in contiguous shares, `roundrobin` in turn over all of them.
-/

namespace MiniKafka.Assignors

open BigEndian WireCodec PartitionAssignments Dealing LastWrite

/-- A `map[string]int32` in one of its iteration orders. -/
structure TopicPartitions where
  entries : List (Bytes × Int32)
  nodup : (entries.map Prod.fst).Nodup

def TopicPartitions.topics (tps : TopicPartitions) : List Bytes := tps.entries.map Prod.fst

def TopicPartitions.count (tps : TopicPartitions) (topic : Bytes) : Int32 :=
  (tps.entries.lookup topic).getD 0

def sortStrings (xs : List Bytes) : List Bytes := xs.insertionSort (· ≤ ·)

def sortedTopics (tps : TopicPartitions) : List Bytes := sortStrings tps.topics

def entryOf (topics : List Bytes) (held : Bytes → List Int32) : MemberAssignment :=
  ⟨topics.filterMap fun topic => if held topic = [] then none else some ⟨topic, held topic⟩⟩

/-- The last loop of both assignors. -/
def collect (sortedMembers sortedTopics : List Bytes) (assigned : Bytes → Bytes → List Int32) :
    Bytes → Option MemberAssignment :=
  latest (sortedMembers.map fun m => (m, entryOf sortedTopics (assigned m)))

def assignRange (members : List Bytes) (topicPartitions : TopicPartitions) :
    Bytes → Option MemberAssignment :=
  if members = [] then fun _ => none
  else
    let sortedMembers := sortStrings members
    let numMembers := sortedMembers.length
    let assigned := (sortedTopics topicPartitions).foldl
      (fun assigned topic =>
        let numPartitions := topicPartitions.count topic
        if numPartitions ≤ 0 then assigned
        else
          let numPartitionsPerConsumer := numPartitions.toNatClampNeg / numMembers
          let consumersWithExtraPartition := numPartitions.toNatClampNeg % numMembers
          sortedMembers.zipIdx.foldl
            (fun assigned (member, i) =>
              let start := numPartitionsPerConsumer * i + min i consumersWithExtraPartition
              let length :=
                numPartitionsPerConsumer + if i < consumersWithExtraPartition then 1 else 0
              (List.range' start length).foldl
                (fun assigned p => place assigned (member, topic, Int32.ofNat p)) assigned)
            assigned)
      fun _ _ => []
    collect sortedMembers (sortedTopics topicPartitions) assigned

def allTPs (topicPartitions : TopicPartitions) : List (Bytes × Int32) :=
  (sortedTopics topicPartitions).flatMap fun topic =>
    (List.range (topicPartitions.count topic).toNatClampNeg).map fun p => (topic, Int32.ofNat p)

def assignRoundRobin (members : List Bytes) (topicPartitions : TopicPartitions) :
    Bytes → Option MemberAssignment :=
  if members = [] then fun _ => none
  else
    let sortedMembers := sortStrings members
    let numMembers := sortedMembers.length
    let assigned := (allTPs topicPartitions).zipIdx.foldl
      (fun assigned (tp, i) => place assigned (sortedMembers.getD (i % numMembers) [], tp))
      fun _ _ => []
    collect sortedMembers (sortedTopics topicPartitions) assigned

inductive Assignor where
  | range
  | roundRobin
  deriving DecidableEq, Repr

def Assignor.assign : Assignor → List Bytes → TopicPartitions → Bytes → Option MemberAssignment
  | .range => assignRange
  | .roundRobin => assignRoundRobin

theorem perm_sortStrings (xs : List Bytes) : (sortStrings xs).Perm xs :=
  List.perm_insertionSort _ xs

theorem mem_sortStrings {x : Bytes} {xs : List Bytes} : x ∈ sortStrings xs ↔ x ∈ xs :=
  (perm_sortStrings xs).mem_iff

theorem sortStrings_eq_of_perm {xs ys : List Bytes} (h : xs.Perm ys) :
    sortStrings xs = sortStrings ys := by
  have htotal : Std.Total (fun a b : Bytes => a ≤ b) := ⟨fun a b => List.le_total a b⟩
  have htrans : IsTrans Bytes (fun a b => a ≤ b) := ⟨fun _ _ _ => List.le_trans⟩
  refine List.Perm.eq_of_pairwise (fun a b _ _ hab hba => List.le_antisymm hab hba)
    (List.pairwise_insertionSort _ xs) (List.pairwise_insertionSort _ ys) ?_
  exact ((perm_sortStrings xs).trans h).trans (perm_sortStrings ys).symm

section

variable {tps : TopicPartitions}

theorem count_of_mem {topic : Bytes} {n : Int32} (h : (topic, n) ∈ tps.entries) :
    tps.count topic = n := by
  obtain ⟨before, after, hsplit⟩ := List.append_of_mem h
  have hfirst : ∀ x ∈ before, (topic != x.1) = true := by
    intro x hx
    have hnodup := tps.nodup
    rw [hsplit, List.map_append, List.map_cons] at hnodup
    have hne := (List.nodup_append.mp hnodup).2.2 x.1 (List.mem_map_of_mem hx) topic (by simp)
    exact bne_iff_ne.mpr (Ne.symm hne)
  rw [TopicPartitions.count, List.lookup_eq_some_iff.mpr ⟨before, after, hsplit, hfirst⟩]
  rfl

theorem mem_sortedTopics {topic : Bytes} : topic ∈ sortedTopics tps ↔ topic ∈ tps.topics :=
  mem_sortStrings

theorem nodup_sortedTopics : (sortedTopics tps).Nodup :=
  (perm_sortStrings _).nodup_iff.mpr tps.nodup

end

/-- The hands of `range`: every topic in as many shares as there are members. -/
def rangeHands (sortedMembers : List Bytes) (tps : TopicPartitions) :
    List (Bytes × Bytes × Int32) :=
  (sortedTopics tps).flatMap fun topic =>
    let n := (tps.count topic).toNatClampNeg
    let q := n / sortedMembers.length
    let r := n % sortedMembers.length
    sortedMembers.zipIdx.flatMap fun x =>
      (List.range' (q * x.2 + min x.2 r) (q + if x.2 < r then 1 else 0)).map fun p =>
        (x.1, topic, Int32.ofNat p)

def roundRobinHands (sortedMembers : List Bytes) (tps : TopicPartitions) :
    List (Bytes × Bytes × Int32) :=
  (allTPs tps).zipIdx.map fun x => (sortedMembers.getD (x.2 % sortedMembers.length) [], x.1)

def Assignor.hands : Assignor → List Bytes → TopicPartitions → List (Bytes × Bytes × Int32)
  | .range => rangeHands
  | .roundRobin => roundRobinHands

theorem toNatClampNeg_of_nonpos {v : Int32} (h : v ≤ 0) : v.toNatClampNeg = 0 := by
  rw [Int32.le_iff_toInt_le, Int32.toInt_zero] at h
  rw [Int32.toNatClampNeg]
  omega

theorem assign_eq {members : List Bytes} (h : members ≠ []) (a : Assignor)
    (tps : TopicPartitions) :
    a.assign members tps =
      collect (sortStrings members) (sortedTopics tps) (deal (a.hands (sortStrings members) tps)) := by
  cases a with
  | roundRobin =>
    rw [Assignor.assign, assignRoundRobin, if_neg h, Assignor.hands, deal, roundRobinHands,
      List.foldl_map]
  | range =>
    rw [Assignor.assign, assignRange, if_neg h, Assignor.hands, deal, rangeHands,
      List.foldl_flatMap]
    refine congrArg (collect _ _) (congrArg (fun step => List.foldl step _ _) ?_)
    funext assigned topic
    dsimp only
    rw [List.foldl_flatMap]
    simp only [List.foldl_map]
    split
    · rename_i hnone
      rw [toNatClampNeg_of_nonpos hnone]
      simp
    · rfl

theorem map_snd_shares (topic : Bytes) (n : Nat) {members : List Bytes} (h : members ≠ []) :
    (members.zipIdx.flatMap fun x =>
      (List.range' (n / members.length * x.2 + min x.2 (n % members.length))
        (n / members.length + if x.2 < n % members.length then 1 else 0)).map fun p =>
          (x.1, topic, Int32.ofNat p)).map Prod.snd =
      (List.range n).map fun p => (topic, Int32.ofNat p) := by
  have hlength : 0 < members.length := List.length_pos_of_ne_nil h
  have htotal : n / members.length * members.length + min members.length (n % members.length) =
      n := by
    rw [Nat.min_eq_right (Nat.mod_lt _ hlength).le, Nat.mul_comm]
    exact Nat.div_add_mod n members.length
  have htile := shares_tile (n / members.length) (n % members.length) members.length
  rw [htotal, List.range_eq_range', ← List.zipIdx_map_snd 0 members, List.flatMap_map] at htile
  rw [← htile, List.map_flatMap, List.map_flatMap]
  simp only [List.map_map]
  rfl

theorem map_snd_hands (a : Assignor) {members : List Bytes} (h : members ≠ [])
    (tps : TopicPartitions) : (a.hands members tps).map Prod.snd = allTPs tps := by
  cases a with
  | range =>
    rw [Assignor.hands, rangeHands, allTPs, List.map_flatMap]
    refine congrArg (fun f => List.flatMap f _) ?_
    funext topic
    exact map_snd_shares topic _ h
  | roundRobin =>
    rw [Assignor.hands, roundRobinHands, List.map_map]
    exact List.zipIdx_map_fst 0 (allTPs tps)

theorem owner_mem (a : Assignor) {members : List Bytes} (h : members ≠ []) {tps : TopicPartitions}
    {o : Bytes} {x : Bytes × Int32} (hmem : (o, x) ∈ a.hands members tps) : o ∈ members := by
  cases a with
  | range =>
    simp only [Assignor.hands, rangeHands, List.mem_flatMap, List.mem_map] at hmem
    obtain ⟨topic, -, y, hy, p, -, hp⟩ := hmem
    obtain rfl : y.1 = o := congrArg Prod.fst hp
    exact List.fst_mem_of_mem_zipIdx hy
  | roundRobin =>
    simp only [Assignor.hands, roundRobinHands, List.mem_map] at hmem
    obtain ⟨y, -, hy⟩ := hmem
    obtain rfl := congrArg Prod.fst hy
    have hlt := Nat.mod_lt y.2 (List.length_pos_of_ne_nil h)
    dsimp only
    rw [List.getD_eq_getElem?_getD, List.getElem?_eq_getElem hlt]
    exact List.getElem_mem hlt

def TopicPartitions.Has (tps : TopicPartitions) (x : Bytes × Int32) : Prop :=
  ∃ n, (x.1, n) ∈ tps.entries ∧ 0 ≤ x.2 ∧ x.2 < n

theorem TopicPartitions.Has.bounds {tps : TopicPartitions} {topic : Bytes} {p : Int32}
    (h : tps.Has (topic, p)) :
    ∃ n, (topic, n) ∈ tps.entries ∧ 0 ≤ p.toInt ∧ p.toInt < n.toInt := by
  obtain ⟨n, hmem, hnonneg, hlt⟩ := h
  rw [Int32.le_iff_toInt_le, Int32.toInt_zero] at hnonneg
  exact ⟨n, hmem, hnonneg, Int32.lt_iff_toInt_lt.mp hlt⟩

theorem toInt_ofNat_of_lt {n : Int32} {i : Nat} (h : i < n.toNatClampNeg) :
    (Int32.ofNat i).toInt = i := by
  have hn := n.toInt_lt
  rw [Int32.toNatClampNeg] at h
  exact Int32.toInt_ofNat_of_lt (by omega)

section

variable {tps : TopicPartitions}

theorem mem_allTPs {x : Bytes × Int32} : x ∈ allTPs tps ↔ tps.Has x := by
  obtain ⟨topic, p⟩ := x
  simp only [allTPs, List.mem_flatMap, List.mem_map, List.mem_range, Prod.mk.injEq,
    TopicPartitions.Has, mem_sortedTopics, TopicPartitions.topics]
  constructor
  · rintro ⟨_, ⟨⟨_, n⟩, hmem, rfl⟩, i, hi, rfl, rfl⟩
    rw [count_of_mem hmem] at hi
    refine ⟨n, hmem, ?_, ?_⟩
    · rw [Int32.le_iff_toInt_le, toInt_ofNat_of_lt hi, Int32.toInt_zero]
      omega
    · rw [Int32.toNatClampNeg] at hi
      rw [Int32.lt_iff_toInt_lt, toInt_ofNat_of_lt hi]
      omega
  · rintro ⟨n, hmem, hnonneg, hlt⟩
    rw [Int32.le_iff_toInt_le, Int32.toInt_zero] at hnonneg
    rw [Int32.lt_iff_toInt_lt] at hlt
    have hi : p.toInt.toNat < n.toNatClampNeg := by
      rw [Int32.toNatClampNeg]
      omega
    refine ⟨topic, ⟨(topic, n), hmem, rfl⟩, p.toInt.toNat, ?_, rfl, ?_⟩
    · rw [count_of_mem hmem]
      exact hi
    · refine Int32.toInt_inj.mp ?_
      rw [toInt_ofNat_of_lt hi]
      omega

theorem nodup_allTPs : (allTPs tps).Nodup := by
  rw [allTPs, List.nodup_flatMap]
  constructor
  · intro topic _
    refine List.nodup_range.map_on ?_
    intro i hi j hj heq
    rw [List.mem_range] at hi hj
    have hint := congrArg Int32.toInt (Prod.mk.inj heq).2
    rw [toInt_ofNat_of_lt hi, toInt_ofNat_of_lt hj] at hint
    omega
  · refine nodup_sortedTopics.imp ?_
    intro topic topic' hne x hx hx'
    obtain ⟨i, -, rfl⟩ := List.mem_map.mp hx
    obtain ⟨j, -, heq⟩ := List.mem_map.mp hx'
    exact hne (Prod.mk.inj heq).1.symm

end

theorem encodeMany_isOk {α ε : Type} {encode : α → Except ε Bytes} {as : List α}
    (h : ∀ a ∈ as, ∃ bytes, encode a = .ok bytes) : ∃ bytes, encodeMany encode as = .ok bytes := by
  induction as with
  | nil => exact ⟨[], rfl⟩
  | cons a as ih =>
    obtain ⟨word, hword⟩ := h a (by simp)
    obtain ⟨words, hwords⟩ := ih fun b hb => h b (by simp [hb])
    rw [encodeMany, hword]
    dsimp only
    rw [hwords]
    exact ⟨_, rfl⟩

theorem encodeAssignment_isOk {ma : MemberAssignment} (hlength : ma.topics.length ≤ maxInt32)
    (htopics : ∀ t ∈ ma.topics, t.topic.length ≤ maxInt16 ∧ t.partitions.length ≤ maxInt32) :
    ∃ data, encodeAssignment ma = .ok data := by
  have hmany : ∃ bytes, encodeMany encodeTopic ma.topics = .ok bytes := by
    apply encodeMany_isOk
    intro t ht
    obtain ⟨hname, hpartitions⟩ := htopics t ht
    rw [encodeTopic, putString, if_neg (by omega), putArrayHeader, if_neg (by omega)]
    exact ⟨_, rfl⟩
  obtain ⟨bytes, hbytes⟩ := hmany
  rw [encodeAssignment, putArrayHeader, if_neg (by omega)]
  dsimp only
  rw [hbytes]
  exact ⟨_, rfl⟩

theorem collect_of_mem {members : List Bytes} {m : Bytes} (h : m ∈ members)
    (topics : List Bytes) (assigned : Bytes → Bytes → List Int32) :
    collect members topics assigned m = some (entryOf topics (assigned m)) := by
  rw [collect, latest_map, if_pos h]

theorem collect_of_not_mem {members : List Bytes} {m : Bytes} (h : m ∉ members)
    (topics : List Bytes) (assigned : Bytes → Bytes → List Int32) :
    collect members topics assigned m = none := by
  rw [collect, latest_map, if_neg h]

section

variable {topics : List Bytes} {held : Bytes → List Int32}

theorem mem_entryOf {t : PartitionAssignment} :
    t ∈ (entryOf topics held).topics ↔
      t.topic ∈ topics ∧ held t.topic ≠ [] ∧ t.partitions = held t.topic := by
  simp only [entryOf, List.mem_filterMap]
  constructor
  · rintro ⟨topic, htopic, heq⟩
    split at heq
    · cases heq
    · rename_i hne
      cases heq
      exact ⟨htopic, hne, rfl⟩
  · rintro ⟨htopic, hne, hpartitions⟩
    refine ⟨t.topic, htopic, ?_⟩
    rw [if_neg hne, ← hpartitions]

theorem map_topic_entryOf :
    (entryOf topics held).topics.map PartitionAssignment.topic =
      topics.filter fun topic => held topic ≠ [] := by
  rw [entryOf, List.map_filterMap, ← List.filterMap_eq_filter]
  refine congrArg (fun f => List.filterMap f topics) ?_
  funext topic
  by_cases h : held topic = []
  · simp [h, Option.guard]
  · simp [h, Option.guard]

theorem mem_partitions_entryOf {x : Bytes × Int32} :
    x ∈ (entryOf topics held).partitions ↔ x.1 ∈ topics ∧ x.2 ∈ held x.1 := by
  simp only [MemberAssignment.partitions, List.mem_flatMap, List.mem_map, mem_entryOf]
  constructor
  · rintro ⟨t, ⟨htopic, -, hpartitions⟩, p, hp, rfl⟩
    rw [hpartitions] at hp
    exact ⟨htopic, hp⟩
  · rintro ⟨htopic, hp⟩
    exact ⟨⟨x.1, held x.1⟩, ⟨htopic, List.ne_nil_of_mem hp, rfl⟩, x.2, hp, rfl⟩

theorem nodup_partitions_entryOf (htopics : topics.Nodup) (hheld : ∀ topic, (held topic).Nodup) :
    (entryOf topics held).partitions.Nodup := by
  rw [MemberAssignment.partitions, List.nodup_flatMap]
  constructor
  · intro t ht
    rw [(mem_entryOf.mp ht).2.2]
    exact (hheld _).map fun _ _ h => (Prod.mk.inj h).2
  · have hnodup : ((entryOf topics held).topics.map PartitionAssignment.topic).Nodup := by
      rw [map_topic_entryOf]
      exact htopics.filter _
    refine (List.pairwise_map.mp hnodup).imp ?_
    intro t t' hne x hx hx'
    obtain ⟨p, -, rfl⟩ := List.mem_map.mp hx
    obtain ⟨p', -, heq⟩ := List.mem_map.mp hx'
    exact hne (Prod.mk.inj heq).1.symm

end

/-- The partitions that a member decodes from what was encoded for it. -/
def received (result : Bytes → Option MemberAssignment) (m : Bytes) : List (Bytes × Int32) :=
  match result m with
  | none => []
  | some ma => owned (encodeAssignment ma).toOption

structure CoversOnce (members : List Bytes) (tps : TopicPartitions)
    (result : Bytes → Option MemberAssignment) : Prop where
  entries : ∀ m, (result m).isSome = true ↔ m ∈ members
  decoded : ∀ m ma, result m = some ma →
    ∃ data, encodeAssignment ma = .ok data ∧ decodeAssignment data = .ok ma
  once : ∀ x, tps.Has x → ∃! m, x ∈ received result m
  others : ∀ m x, x ∈ received result m → tps.Has x
  distinct : ∀ m, (received result m).Nodup

def TopicPartitions.populated (tps : TopicPartitions) : List (Bytes × Int32) :=
  tps.entries.filter fun e => 0 < e.2

section

variable {members : List Bytes} {tps : TopicPartitions}

theorem nodup_hands (a : Assignor) (h : members ≠ []) :
    ((a.hands members tps).map Prod.snd).Nodup := by
  rw [map_snd_hands a h]
  exact nodup_allTPs

theorem has_of_mem_hands (a : Assignor) (h : members ≠ []) {o : Bytes} {x : Bytes × Int32}
    (hmem : (o, x) ∈ a.hands members tps) : tps.Has x := by
  rw [← mem_allTPs, ← map_snd_hands a h]
  exact List.mem_map_of_mem hmem

theorem exists_hand (a : Assignor) (h : members ≠ []) {x : Bytes × Int32} (hx : tps.Has x) :
    ∃ o, (o, x) ∈ a.hands members tps := by
  rw [← mem_allTPs, ← map_snd_hands a h] at hx
  obtain ⟨⟨o, y⟩, hmem, rfl⟩ := List.mem_map.mp hx
  exact ⟨o, hmem⟩

theorem topic_mem_of_has {x : Bytes × Int32} (h : tps.Has x) : x.1 ∈ sortedTopics tps := by
  obtain ⟨n, hmem, -⟩ := h
  exact mem_sortedTopics.mpr (List.mem_map.mpr ⟨_, hmem, rfl⟩)

theorem length_held_le (a : Assignor) (h : members ≠ []) (m topic : Bytes) :
    (deal (a.hands members tps) m topic).length ≤ maxInt32 := by
  have hinto : ((deal (a.hands members tps) m topic).map Int32.toNatClampNeg).Nodup := by
    refine (nodup_deal (nodup_hands a h) m topic).map_on ?_
    intro p hp p' hp' heq
    obtain ⟨-, -, hnonneg, -⟩ := (has_of_mem_hands a h (mem_deal.mp hp)).bounds
    obtain ⟨-, -, hnonneg', -⟩ := (has_of_mem_hands a h (mem_deal.mp hp')).bounds
    rw [Int32.toNatClampNeg, Int32.toNatClampNeg] at heq
    exact Int32.toInt_inj.mp (by omega)
  have hbelow : (deal (a.hands members tps) m topic).map Int32.toNatClampNeg ⊆
      List.range maxInt32 := by
    intro i hi
    obtain ⟨p, hp, rfl⟩ := List.mem_map.mp hi
    obtain ⟨n, -, hnonneg, hlt⟩ := (has_of_mem_hands a h (mem_deal.mp hp)).bounds
    have hn := n.toInt_lt
    rw [List.mem_range, maxInt32, Int32.toNatClampNeg]
    omega
  have hlength := hinto.length_le_of_subset hbelow
  rwa [List.length_map, List.length_range] at hlength

theorem length_entryOf_le (a : Assignor) (h : members ≠ []) (m : Bytes) :
    (entryOf (sortedTopics tps) (deal (a.hands members tps) m)).topics.length ≤
      tps.populated.length := by
  have hnames : (tps.populated.map Prod.fst).length = tps.populated.length := List.length_map _
  rw [← List.length_map PartitionAssignment.topic, map_topic_entryOf, ← hnames]
  refine (nodup_sortedTopics.filter _).length_le_of_subset ?_
  intro topic htopic
  obtain ⟨-, hheld⟩ := List.mem_filter.mp htopic
  obtain ⟨p, hp⟩ := List.exists_mem_of_ne_nil _ (of_decide_eq_true hheld)
  obtain ⟨n, hmem, hnonneg, hlt⟩ := (has_of_mem_hands a h (mem_deal.mp hp)).bounds
  have hpositive : 0 < n := by
    rw [Int32.lt_iff_toInt_lt, Int32.toInt_zero]
    omega
  exact List.mem_map.mpr ⟨(topic, n), List.mem_filter.mpr ⟨hmem, decide_eq_true hpositive⟩, rfl⟩

theorem entry_encoded (a : Assignor) (h : members ≠ [])
    (hnames : ∀ topic ∈ tps.topics, topic.length ≤ maxInt16)
    (hcount : tps.populated.length ≤ maxInt32) (m : Bytes) :
    ∃ data, encodeAssignment (entryOf (sortedTopics tps) (deal (a.hands members tps) m)) =
      .ok data := by
  apply encodeAssignment_isOk
  · exact (length_entryOf_le a h m).trans hcount
  · intro t ht
    obtain ⟨htopic, -, hpartitions⟩ := mem_entryOf.mp ht
    rw [hpartitions]
    exact ⟨hnames _ (mem_sortedTopics.mp htopic), length_held_le a h m t.topic⟩

end

theorem received_eq {result : Bytes → Option MemberAssignment} {m : Bytes}
    {ma : MemberAssignment} {data : Bytes} (hresult : result m = some ma)
    (hencode : encodeAssignment ma = .ok data) : received result m = ma.partitions := by
  rw [received, hresult]
  dsimp only
  rw [hencode]
  exact owned_encodeAssignment hencode

/-- What the members receive covers the partitions once. -/
theorem assign_coversOnce (a : Assignor) {members : List Bytes} {tps : TopicPartitions}
    (hmembers : members ≠ []) (hnames : ∀ topic ∈ tps.topics, topic.length ≤ maxInt16)
    (hcount : tps.populated.length ≤ maxInt32) :
    CoversOnce members tps (a.assign members tps) := by
  have hsorted : sortStrings members ≠ [] := by
    intro hnil
    have hlength := (perm_sortStrings members).length_eq
    rw [hnil] at hlength
    exact hmembers (List.length_eq_zero_iff.mp hlength.symm)
  rw [assign_eq hmembers]
  have hreceived : ∀ {m : Bytes} {x : Bytes × Int32},
      x ∈ received (collect (sortStrings members) (sortedTopics tps)
        (deal (a.hands (sortStrings members) tps))) m ↔
        (m, x) ∈ a.hands (sortStrings members) tps := by
    intro m x
    by_cases hm : m ∈ sortStrings members
    · obtain ⟨data, hdata⟩ := entry_encoded a hsorted hnames hcount m
      rw [received_eq (collect_of_mem hm _ _) hdata, mem_partitions_entryOf, mem_deal]
      exact ⟨And.right, fun hx => ⟨topic_mem_of_has (has_of_mem_hands a hsorted hx), hx⟩⟩
    · rw [received, collect_of_not_mem hm]
      simp only [List.not_mem_nil, false_iff]
      exact fun hx => hm (owner_mem a hsorted hx)
  refine ⟨?_, ?_, ?_, ?_, ?_⟩
  · intro m
    rw [← mem_sortStrings]
    by_cases hm : m ∈ sortStrings members
    · simp [collect_of_mem hm, hm]
    · simp [collect_of_not_mem hm, hm]
  · intro m ma hresult
    by_cases hm : m ∈ sortStrings members
    · rw [collect_of_mem hm] at hresult
      cases hresult
      obtain ⟨data, hdata⟩ := entry_encoded a hsorted hnames hcount m
      exact ⟨data, hdata, decodeAssignment_encodeAssignment hdata⟩
    · rw [collect_of_not_mem hm] at hresult
      cases hresult
  · intro x hx
    obtain ⟨o, ho⟩ := exists_hand a hsorted hx
    refine ⟨o, hreceived.mpr ho, ?_⟩
    intro o' ho'
    exact owner_unique (nodup_hands a hsorted) (hreceived.mp ho') ho
  · intro m x hx
    exact has_of_mem_hands a hsorted (hreceived.mp hx)
  · intro m
    by_cases hm : m ∈ sortStrings members
    · obtain ⟨data, hdata⟩ := entry_encoded a hsorted hnames hcount m
      rw [received_eq (collect_of_mem hm _ _) hdata]
      exact nodup_partitions_entryOf nodup_sortedTopics
        fun topic => nodup_deal (nodup_hands a hsorted) m topic
    · rw [received, collect_of_not_mem hm]
      exact List.nodup_nil

section

variable {tps tps' : TopicPartitions}

theorem count_eq_of_perm (h : tps'.entries.Perm tps.entries) : tps'.count = tps.count := by
  funext topic
  by_cases hmem : ∃ n, (topic, n) ∈ tps.entries
  · obtain ⟨n, hn⟩ := hmem
    rw [count_of_mem hn, count_of_mem (h.mem_iff.mpr hn)]
  · have hnone : ∀ {t : TopicPartitions}, t.entries.Perm tps.entries →
        t.entries.lookup topic = none := by
      intro t ht
      refine List.lookup_eq_none_iff.mpr fun x hx => ?_
      rw [bne_iff_ne]
      rintro rfl
      exact hmem ⟨x.2, ht.mem_iff.mp hx⟩
    rw [TopicPartitions.count, TopicPartitions.count, hnone h, hnone (.refl _)]

theorem hands_eq_of_perm (a : Assignor) (members : List Bytes)
    (h : tps'.entries.Perm tps.entries) : a.hands members tps' = a.hands members tps := by
  have htopics : sortedTopics tps' = sortedTopics tps := sortStrings_eq_of_perm (h.map Prod.fst)
  have hcount := count_eq_of_perm h
  cases a with
  | range => rw [Assignor.hands, rangeHands, rangeHands, htopics, hcount]
  | roundRobin =>
    rw [Assignor.hands, roundRobinHands, roundRobinHands, allTPs, allTPs, htopics, hcount]

theorem assign_eq_of_perm (a : Assignor) {members members' : List Bytes} (hmembers : members ≠ [])
    (hperm : members'.Perm members) (h : tps'.entries.Perm tps.entries) :
    a.assign members' tps' = a.assign members tps := by
  have hmembers' : members' ≠ [] := by
    rintro rfl
    exact hmembers hperm.nil_eq.symm
  have htopics : sortedTopics tps' = sortedTopics tps := sortStrings_eq_of_perm (h.map Prod.fst)
  rw [assign_eq hmembers', assign_eq hmembers, sortStrings_eq_of_perm hperm, htopics,
    hands_eq_of_perm a _ h]

end

/-- With no more topics than an array header counts, both assignors give every
partition to one member, whatever the order of the members and of the map. -/
theorem assignor_covers_once (a : Assignor) {members : List Bytes} {tps : TopicPartitions}
    (hmembers : members ≠ []) (hnames : ∀ topic ∈ tps.topics, topic.length ≤ maxInt16)
    (hcount : tps.populated.length ≤ maxInt32) :
    CoversOnce members tps (a.assign members tps) ∧
      ∀ members' tps', members'.Perm members → tps'.entries.Perm tps.entries →
        a.assign members' tps' = a.assign members tps := by
  constructor
  · exact assign_coversOnce a hmembers hnames hcount
  · intro members' tps' hperm h
    exact assign_eq_of_perm a hmembers hperm h

def smallTopics : TopicPartitions := ⟨[([116], 3), ([117], 0)], by decide⟩

theorem assignor_covers_once_smallTopics :
    CoversOnce [[98], [97], [98]] smallTopics
      (assignRoundRobin [[98], [97], [98]] smallTopics) := by
  have hmembers : ([[98], [97], [98]] : List Bytes) ≠ [] := by decide
  have hnames : ∀ topic ∈ smallTopics.topics, topic.length ≤ maxInt16 := by decide
  have hcount : smallTopics.populated.length ≤ maxInt32 := by decide
  exact (assignor_covers_once .roundRobin hmembers hnames hcount).1

example : assignRange [[98], [97]] smallTopics [97] = some ⟨[⟨[116], [0, 1]⟩]⟩ := by decide

def manyTopics (n : Nat) (h : n ≤ 256 ^ 4) : TopicPartitions where
  entries := (List.range n).map fun i => (putBE 4 i, 1)
  nodup := by
    rw [List.map_map]
    refine List.nodup_range.map_on ?_
    intro i hi j hj heq
    rw [List.mem_range] at hi hj
    have hvalue := congrArg getBE heq
    rwa [Function.comp_apply, Function.comp_apply, getBE_putBE_of_lt (by omega),
      getBE_putBE_of_lt (by omega)] at hvalue

section

variable {n : Nat} {h : n ≤ 256 ^ 4}

theorem mem_manyTopics {e : Bytes × Int32} :
    e ∈ (manyTopics n h).entries ↔ ∃ i < n, (putBE 4 i, 1) = e := by
  rw [manyTopics, List.mem_map]
  simp only [List.mem_range]

theorem held_manyTopics (a : Assignor) {topic : Bytes}
    (htopic : topic ∈ sortedTopics (manyTopics n h)) :
    deal (a.hands [[109]] (manyTopics n h)) [109] topic ≠ [] := by
  have hmembers : ([[109]] : List Bytes) ≠ [] := by decide
  have hfirst : (manyTopics n h).Has (topic, 0) := by
    obtain ⟨e, hmem, rfl⟩ := List.mem_map.mp (mem_sortedTopics.mp htopic)
    obtain ⟨i, -, rfl⟩ := mem_manyTopics.mp hmem
    exact ⟨1, hmem, show (0 : Int32) ≤ 0 by decide, show (0 : Int32) < 1 by decide⟩
  obtain ⟨o, ho⟩ := exists_hand a hmembers hfirst
  obtain rfl := List.mem_singleton.mp (owner_mem a hmembers ho)
  exact List.ne_nil_of_mem (mem_deal.mpr ho)

theorem length_entryOf_manyTopics (a : Assignor) :
    (entryOf (sortedTopics (manyTopics n h))
      (deal (a.hands [[109]] (manyTopics n h)) [109])).topics.length = n := by
  rw [← List.length_map PartitionAssignment.topic, map_topic_entryOf,
    List.filter_eq_self.mpr fun topic htopic => decide_eq_true (held_manyTopics a htopic),
    sortedTopics, (perm_sortStrings _).length_eq, TopicPartitions.topics, List.length_map,
    manyTopics, List.length_map, List.length_range]

theorem manyTopics_not_encoded (hn : maxInt32 < n) :
    (∀ topic ∈ (manyTopics n h).topics, topic.length ≤ maxInt16) ∧
      ∀ a : Assignor, ∃ ma, a.assign [[109]] (manyTopics n h) [109] = some ma ∧
        encodeAssignment ma = .error .lengthOutOfRange := by
  constructor
  · intro topic htopic
    obtain ⟨e, he, rfl⟩ := List.mem_map.mp htopic
    obtain ⟨i, -, rfl⟩ := mem_manyTopics.mp he
    rw [length_putBE, maxInt16]
    omega
  · intro a
    have hmembers : ([[109]] : List Bytes) ≠ [] := by decide
    have hsorted : sortStrings [[109]] = [[109]] := by decide
    refine ⟨entryOf (sortedTopics (manyTopics n h))
      (deal (a.hands [[109]] (manyTopics n h)) [109]), ?_, ?_⟩
    · rw [assign_eq hmembers, hsorted, collect_of_mem (by simp)]
    · rw [encodeAssignment, length_entryOf_manyTopics, putArrayHeader, if_pos hn]

end

theorem too_many_topics_not_encoded :
    ∃ tps : TopicPartitions, (∀ topic ∈ tps.topics, topic.length ≤ maxInt16) ∧
      ∀ a : Assignor, ∃ ma, a.assign [[109]] tps [109] = some ma ∧
        encodeAssignment ma = .error .lengthOutOfRange :=
  ⟨manyTopics (maxInt32 + 1) (by decide), manyTopics_not_encoded (Nat.lt_succ_self _)⟩

end MiniKafka.Assignors
