import Mathlib.Data.Int.CardIntervalMod
import MiniKafka.Assignors

/-!
How evenly the assignors of `internal/coordinator/assignor.go` deal.
-/

namespace MiniKafka.AssignorBalance

open BigEndian PartitionAssignments Dealing Assignors

def share (ma : MemberAssignment) (topic : Bytes) : List Int32 :=
  (ma.topics.filter fun t => t.topic = topic).flatMap PartitionAssignment.partitions

def Consecutive (ps : List Int32) : Prop := ps.IsChain fun p p' => p'.toInt = p.toInt + 1

/-- Topic by topic, every member has a range of partitions, no range is more than
one longer than another, and no range is longer than that of an earlier member. -/
structure RangeBalanced (members : List Bytes) (result : Bytes → Option MemberAssignment) :
    Prop where
  assigned : ∀ m ∈ members, ∃ ma, result m = some ma
  contiguous : ∀ m ma, result m = some ma → ∀ topic, Consecutive (share ma topic)
  even : ∀ m m' ma ma', result m = some ma → result m' = some ma' →
    ∀ topic, (share ma topic).length ≤ (share ma' topic).length + 1
  largerFirst : ∀ m m' ma ma', result m = some ma → result m' = some ma' → m < m' →
    ∀ topic, (share ma' topic).length ≤ (share ma topic).length

structure TotalBalanced (members : List Bytes) (result : Bytes → Option MemberAssignment) :
    Prop where
  assigned : ∀ m ∈ members, ∃ ma, result m = some ma
  even : ∀ m m' ma ma', result m = some ma → result m' = some ma' →
    ma.partitions.length ≤ ma'.partitions.length + 1

section

variable {members : List Bytes} {tps : TopicPartitions}

theorem result_eq {a : Assignor} (hmembers : members ≠ []) {m : Bytes} {ma : MemberAssignment}
    (h : a.assign members tps m = some ma) :
    m ∈ sortStrings members ∧
      ma = entryOf (sortedTopics tps) (deal (a.hands (sortStrings members) tps) m) := by
  rw [assign_eq hmembers] at h
  by_cases hm : m ∈ sortStrings members
  · rw [collect_of_mem hm] at h
    exact ⟨hm, (Option.some.inj h).symm⟩
  · rw [collect_of_not_mem hm] at h
    cases h

theorem assigned (a : Assignor) (hmembers : members ≠ []) {m : Bytes} (hm : m ∈ members) :
    ∃ ma, a.assign members tps m = some ma := by
  rw [assign_eq hmembers, collect_of_mem (mem_sortStrings.mpr hm)]
  exact ⟨_, rfl⟩

theorem share_entryOf {topics : List Bytes} {held : Bytes → List Int32} {topic : Bytes}
    (hnodup : topics.Nodup) (hheld : topic ∉ topics → held topic = []) :
    share (entryOf topics held) topic = held topic := by
  have hflat : share (entryOf topics held) topic =
      topics.flatMap fun t => if t = topic then held t else [] := by
    clear hnodup hheld
    induction topics with
    | nil => rfl
    | cons t topics ih =>
      rw [List.flatMap_cons, ← ih]
      by_cases hempty : held t = []
      · simp [share, entryOf, hempty]
      · by_cases htopic : t = topic
        · subst htopic
          simp [share, entryOf, hempty]
        · simp [share, entryOf, hempty, htopic]
  by_cases hmem : topic ∈ topics
  · rw [hflat, flatMap_eq_of_unique hnodup hmem fun t _ hne => if_neg hne, if_pos rfl]
  · rw [hflat, hheld hmem]
    refine List.flatMap_eq_nil_iff.mpr fun t ht => if_neg ?_
    rintro rfl
    exact hmem ht

/-- The range of the member in place `i`, of `k` members that share `n` partitions. -/
def rangeShare (n k i : Nat) : List Nat :=
  List.range' (n / k * i + min i (n % k)) (n / k + if i < n % k then 1 else 0)

theorem length_rangeShare (n k i : Nat) :
    (rangeShare n k i).length = n / k + if i < n % k then 1 else 0 := List.length_range'

theorem lt_of_mem_rangeShare {n k i p : Nat} (hi : i < k) (hp : p ∈ rangeShare n k i) : p < n := by
  obtain ⟨-, hlt⟩ := List.mem_range'_1.mp hp
  have hmul : n / k * (i + 1) ≤ n / k * k := Nat.mul_le_mul_left _ hi
  have htotal : n / k * k + n % k = n := Nat.div_add_mod' n k
  rw [Nat.mul_succ] at hmul
  split at hlt <;> omega

theorem deal_rangeHands {i : Nat} {m topic : Bytes} (hnodup : members.Nodup)
    (hi : members[i]? = some m) (htopic : topic ∈ sortedTopics tps) :
    deal (rangeHands members tps) m topic =
      (rangeShare (tps.count topic).toNatClampNeg members.length i).map Int32.ofNat := by
  have hplace : (m, i) ∈ members.zipIdx := List.mem_zipIdx_iff_getElem?.mpr hi
  have hplaces : members.zipIdx.Nodup := by
    apply List.Nodup.of_map Prod.snd
    rw [List.zipIdx_map_snd]
    exact List.nodup_range'
  rw [rangeHands, deal_flatMap, flatMap_eq_of_unique nodup_sortedTopics htopic]
  · dsimp only
    rw [deal_flatMap, flatMap_eq_of_unique hplaces hplace]
    · rw [deal_map, if_pos ⟨rfl, rfl⟩, rangeShare]
    · rintro ⟨m', j⟩ hmem hne
      have hj : members[j]? = some m' := List.mem_zipIdx_iff_getElem?.mp hmem
      rw [deal_map, if_neg]
      rintro ⟨rfl, -⟩
      have hlt := (List.getElem?_eq_some_iff.mp hi).1
      exact hne (by rw [(List.getElem?_inj hlt hnodup).mp (hi.trans hj.symm)])
  · intro t _ hne
    dsimp only
    rw [deal_flatMap]
    refine List.flatMap_eq_nil_iff.mpr fun x _ => ?_
    rw [deal_map, if_neg fun h => hne h.2]

theorem consecutive_rangeShare {n : Int32} {k i : Nat} (hi : i < k) :
    Consecutive ((rangeShare n.toNatClampNeg k i).map Int32.ofNat) := by
  rw [Consecutive, List.isChain_map]
  refine List.IsChain.imp_of_mem_imp ?_ (List.isChain_range' _ _ 1)
  rintro p p' hp hp' rfl
  rw [toInt_ofNat_of_lt (lt_of_mem_rangeShare hi hp),
    toInt_ofNat_of_lt (lt_of_mem_rangeShare hi hp')]
  rfl

theorem places_lt {m m' : Bytes} {i i' : Nat} (hi : (sortStrings members)[i]? = some m)
    (hi' : (sortStrings members)[i']? = some m') (hlt : m < m') : i < i' := by
  have htotal : Std.Total (fun a b : Bytes => a ≤ b) := ⟨fun a b => List.le_total a b⟩
  have htrans : IsTrans Bytes (fun a b => a ≤ b) := ⟨fun _ _ _ => List.le_trans⟩
  obtain ⟨hlength, rfl⟩ := List.getElem?_eq_some_iff.mp hi
  obtain ⟨hlength', rfl⟩ := List.getElem?_eq_some_iff.mp hi'
  by_contra hge
  rcases Nat.eq_or_lt_of_le (Nat.le_of_not_lt hge) with rfl | hbefore
  · exact List.lt_irrefl _ hlt
  · have hsorted := List.pairwise_insertionSort (fun a b : Bytes => a ≤ b) members
    exact List.not_lt.mpr (List.pairwise_iff_getElem.mp hsorted i' i hlength' hlength hbefore) hlt

theorem share_assignRange (hmembers : members ≠ []) (hnodup : members.Nodup) {m : Bytes}
    {ma : MemberAssignment} (h : assignRange members tps m = some ma) (topic : Bytes) :
    ∃ i, (sortStrings members)[i]? = some m ∧
      share ma topic = if topic ∈ sortedTopics tps then
        (rangeShare (tps.count topic).toNatClampNeg (sortStrings members).length i).map Int32.ofNat
      else [] := by
  obtain ⟨hm, rfl⟩ := result_eq (a := .range) hmembers h
  obtain ⟨i, hi⟩ := List.mem_iff_getElem?.mp hm
  have hsorted : (sortStrings members).Nodup := (perm_sortStrings members).nodup_iff.mpr hnodup
  have hother : topic ∉ sortedTopics tps →
      deal (rangeHands (sortStrings members) tps) m topic = [] := by
    intro htopic
    refine List.eq_nil_iff_forall_not_mem.mpr fun p hp => htopic ?_
    exact topic_mem_of_has (has_of_mem_hands .range (List.ne_nil_of_mem hm) (mem_deal.mp hp))
  refine ⟨i, hi, ?_⟩
  rw [Assignor.hands, share_entryOf nodup_sortedTopics hother]
  by_cases htopic : topic ∈ sortedTopics tps
  · rw [if_pos htopic]
    exact deal_rangeHands hsorted hi htopic
  · rw [if_neg htopic]
    exact hother htopic

theorem assignRange_balanced (hmembers : members ≠ []) (hnodup : members.Nodup) :
    RangeBalanced members (assignRange members tps) where
  assigned m hm := assigned .range hmembers hm
  contiguous m ma h topic := by
    obtain ⟨i, hi, hshare⟩ := share_assignRange hmembers hnodup h topic
    rw [hshare]
    split
    · exact consecutive_rangeShare (List.getElem?_eq_some_iff.mp hi).1
    · exact List.isChain_nil
  even m m' ma ma' h h' topic := by
    obtain ⟨i, -, hshare⟩ := share_assignRange hmembers hnodup h topic
    obtain ⟨i', -, hshare'⟩ := share_assignRange hmembers hnodup h' topic
    rw [hshare, hshare']
    split
    · rw [List.length_map, List.length_map, length_rangeShare, length_rangeShare]
      split <;> split <;> omega
    · exact Nat.zero_le _
  largerFirst m m' ma ma' h h' hlt topic := by
    obtain ⟨i, hi, hshare⟩ := share_assignRange hmembers hnodup h topic
    obtain ⟨i', hi', hshare'⟩ := share_assignRange hmembers hnodup h' topic
    have hplaces : i < i' := places_lt hi hi' hlt
    rw [hshare, hshare']
    split
    · rw [List.length_map, List.length_map, length_rangeShare, length_rangeShare]
      split <;> split <;> omega
    · exact Nat.zero_le _

theorem length_partitions (a : Assignor) (hmembers : members ≠ []) (m : Bytes) :
    (entryOf (sortedTopics tps) (deal (a.hands members tps) m)).partitions.length =
      (a.hands members tps).countP fun hand => hand.1 = m := by
  have hnodup : ((a.hands members tps).map Prod.snd).Nodup := nodup_hands a hmembers
  have hown : (((a.hands members tps).filter fun hand => hand.1 = m).map Prod.snd).Nodup :=
    hnodup.sublist (List.filter_sublist.map Prod.snd)
  have hperm : (entryOf (sortedTopics tps) (deal (a.hands members tps) m)).partitions.Perm
      (((a.hands members tps).filter fun hand => hand.1 = m).map Prod.snd) := by
    refine (List.perm_ext_iff_of_nodup ?_ hown).mpr fun x => ?_
    · exact nodup_partitions_entryOf nodup_sortedTopics fun topic => nodup_deal hnodup m topic
    · rw [mem_partitions_entryOf, mem_deal, List.mem_map]
      constructor
      · rintro ⟨-, hx⟩
        exact ⟨(m, x), List.mem_filter.mpr ⟨hx, decide_eq_true rfl⟩, rfl⟩
      · rintro ⟨⟨o, y⟩, hy, rfl⟩
        obtain ⟨hmem, howner⟩ := List.mem_filter.mp hy
        obtain rfl : o = m := of_decide_eq_true howner
        exact ⟨topic_mem_of_has (has_of_mem_hands a hmembers hmem), hmem⟩
  rw [hperm.length_eq, List.length_map, List.countP_eq_length_filter]

theorem countP_roundRobinHands (hnodup : members.Nodup) {m : Bytes} {i : Nat}
    (hi : members[i]? = some m) :
    (roundRobinHands members tps).countP (fun hand => hand.1 = m) =
      (allTPs tps).length / members.length +
        if i < (allTPs tps).length % members.length then 1 else 0 := by
  have hlt : i < members.length := (List.getElem?_eq_some_iff.mp hi).1
  have hturn : ∀ j, members.getD (j % members.length) [] = m ↔ j ≡ i [MOD members.length] := by
    intro j
    have hj : j % members.length < members.length := Nat.mod_lt _ (Nat.zero_lt_of_lt hlt)
    rw [Nat.ModEq, Nat.mod_eq_of_lt hlt, List.getD_eq_getElem?_getD,
      ← List.getElem?_inj hj hnodup, hi, List.getElem?_eq_getElem hj, Option.getD_some,
      Option.some.injEq]
  have hcount : (roundRobinHands members tps).countP (fun hand => hand.1 = m) =
      (allTPs tps).length.count (· ≡ i [MOD members.length]) := by
    rw [roundRobinHands, List.countP_map, Nat.count, List.range_eq_range',
      ← List.zipIdx_map_snd 0 (allTPs tps), List.countP_map]
    refine List.countP_congr fun x _ => ?_
    simp only [Function.comp_apply, decide_eq_true_eq]
    exact hturn x.2
  rw [hcount, Nat.count_modEq_card _ (Nat.zero_lt_of_lt hlt), Nat.mod_eq_of_lt hlt]

theorem assignRoundRobin_balanced (hmembers : members ≠ []) (hnodup : members.Nodup) :
    TotalBalanced members (assignRoundRobin members tps) where
  assigned m hm := assigned .roundRobin hmembers hm
  even m m' ma ma' h h' := by
    have hsorted : (sortStrings members).Nodup := (perm_sortStrings members).nodup_iff.mpr hnodup
    obtain ⟨hm, rfl⟩ := result_eq (a := .roundRobin) hmembers h
    obtain ⟨hm', rfl⟩ := result_eq (a := .roundRobin) hmembers h'
    obtain ⟨i, hi⟩ := List.mem_iff_getElem?.mp hm
    obtain ⟨i', hi'⟩ := List.mem_iff_getElem?.mp hm'
    rw [length_partitions .roundRobin (List.ne_nil_of_mem hm),
      length_partitions .roundRobin (List.ne_nil_of_mem hm), Assignor.hands,
      countP_roundRobinHands hsorted hi, countP_roundRobinHands hsorted hi']
    split <;> split <;> omega

end

/-- Both assignors are balanced, whatever the topics: `range` in every topic, and
`roundrobin` over all of them. -/
theorem assignors_balanced {members : List Bytes} (hmembers : members ≠ []) (hnodup : members.Nodup)
    (tps : TopicPartitions) :
    RangeBalanced members (assignRange members tps) ∧
      TotalBalanced members (assignRoundRobin members tps) :=
  ⟨assignRange_balanced hmembers hnodup, assignRoundRobin_balanced hmembers hnodup⟩

theorem assignors_balanced_smallTopics :
    ([[98], [97]] : List Bytes).Nodup ∧
      RangeBalanced [[98], [97]] (assignRange [[98], [97]] smallTopics) ∧
      TotalBalanced [[98], [97]] (assignRoundRobin [[98], [97]] smallTopics) := by
  have hnodup : ([[98], [97]] : List Bytes).Nodup := by decide
  exact ⟨hnodup, assignors_balanced (by decide) hnodup smallTopics⟩

end MiniKafka.AssignorBalance
