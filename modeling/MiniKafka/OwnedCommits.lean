import MiniKafka.ConsumerClient

/-!
Does a group consumer commit only what it owns?  `Commit` sends every position
that is set, `joinAndSync` replaces the assignment and leaves the positions of
the partitions it gave up.
-/

namespace MiniKafka.OwnedCommits

open ConsumerClient PartitionAssignments RecordCodec RequestBodies Runs WireCodec

/-- The request that `Commit` would send names assigned partitions only. -/
def CommitsOwned (cfg : GroupConsumerConfig) (s : Client) : Prop :=
  ∀ request, s.consumer.commitRequest cfg = some request →
    ∀ w ∈ carried request, w.1 ∈ s.consumer.assignedPartitions

def tracked (s : Client) : List TopicPartition :=
  s.consumer.partitionOffsets.map Prod.fst ++ s.calls.flatMap Call.asked

def answers (s : Client) (i : Nat) (tp : TopicPartition) : Bool :=
  s.calls[i]?.any fun c => c.asked.contains tp

/-- A partition that is given up has never been tracked, an answer is about partitions
that were asked for, and `CommitOffset` is called for an assigned one. -/
def ownedInputs (crc : Checksum) (s : Client) : ClientEvent → Bool
  | .synced _ assignment => s.consumer.assignedPartitions.all fun tp =>
    (assignedOf assignment).contains tp || !(tracked s).contains tp
  | .offsetsFetched i resp => (initialOffsets resp).all fun w => answers s i w.1
  | .offsetsListed i resp => (resolvedOffsets resp).all fun w => answers s i w.1
  | .fetched i resp => (fetchedRecords crc resp).all fun m => answers s i m.1
  | .commitOffset tp _ => s.consumer.assignedPartitions.contains tp
  | _ => true

def Owned (s : Client) : Prop := ∀ tp ∈ tracked s, tp ∈ s.consumer.assignedPartitions

section

variable {cfg : GroupConsumerConfig} {crc : Checksum} {s t : Client} {e : ClientEvent}
  {tp : TopicPartition}

theorem mem_tracked :
    tp ∈ tracked s ↔
      (∃ w ∈ s.consumer.partitionOffsets, w.1 = tp) ∨ ∃ c ∈ s.calls, tp ∈ c.asked := by
  simp [tracked]

theorem tracked_of_answers {i : Nat} (h : answers s i tp = true) : tp ∈ tracked s := by
  obtain ⟨c, hc, hasked⟩ := (Option.any_eq_true ..).mp h
  exact mem_tracked.mpr (.inr ⟨c, List.mem_of_getElem? hc, List.contains_iff_mem.mp hasked⟩)

theorem mem_asked_offsetFetch {request : OffsetFetchRequest}
    (h : s.consumer.offsetFetchRequest cfg = some request)
    (htp : tp ∈ (Call.fetchingOffsets request).asked) : tp ∈ s.consumer.assignedPartitions := by
  rw [GroupConsumer.offsetFetchRequest] at h
  split at h
  · cases h
  · cases h
    obtain ⟨e, he, rfl⟩ := List.mem_map.mp htp
    obtain ⟨q, hq, rfl⟩ := List.mem_map.mp (mem_listed_groupByTopic.mp he)
    exact hq

theorem mem_asked_listOffsets {request : ListOffsetsRequest}
    (h : s.consumer.listOffsetsRequest cfg = some request)
    (htp : tp ∈ (Call.listingOffsets request).asked) : tp ∈ tracked s := by
  rw [GroupConsumer.listOffsetsRequest] at h
  split at h
  · cases h
  · obtain ⟨timestamp, -, rfl⟩ := Option.map_eq_some_iff.mp h
    obtain ⟨e, he, rfl⟩ := List.mem_map.mp htp
    obtain ⟨q, hq, rfl⟩ := List.mem_map.mp (mem_listed_groupByTopic.mp he)
    obtain ⟨w, hw, rfl⟩ := List.mem_map.mp hq
    exact mem_tracked.mpr (.inl ⟨w, (List.mem_filter.mp hw).1, rfl⟩)

theorem mem_asked_fetch (htp : tp ∈ (Call.fetching (s.consumer.fetchRequest cfg)).asked) :
    tp ∈ s.consumer.assignedPartitions := by
  obtain ⟨e, he, rfl⟩ := List.mem_map.mp htp
  obtain ⟨q, hq, rfl⟩ := List.mem_map.mp (mem_listed_groupByTopic.mp he)
  exact hq

theorem stored_step (hguard : ownedInputs crc s e = true) (h : s.step cfg crc e = some t)
    {w : Position} (hw : w ∈ t.consumer.partitionOffsets) :
    w.1 ∈ tracked s ∨ w.1 ∈ s.consumer.assignedPartitions ∧
      t.consumer.assignedPartitions = s.consumer.assignedPartitions := by
  rw [partitionOffsets_step h] at hw
  rcases mem_setOffsets hw with hstored | hkept
  · cases clientStep_of_step h with
    | offsetsFetched hcall =>
      exact .inl (tracked_of_answers (List.all_eq_true.mp hguard w hstored))
    | offsetsListed hcall =>
      exact .inl (tracked_of_answers (List.all_eq_true.mp hguard w hstored))
    | advance hcall =>
      rw [Client.stores, hcall] at hstored
      obtain rfl := List.mem_singleton.mp hstored
      exact .inl (mem_tracked.mpr (.inr ⟨_, List.mem_of_getElem? hcall, List.mem_cons_self⟩))
    | commitOffset =>
      obtain rfl := List.mem_singleton.mp hstored
      exact .inr ⟨List.contains_iff_mem.mp hguard, rfl⟩
    | _ => cases hstored
  · exact .inl (mem_tracked.mpr (.inl ⟨w, hkept, rfl⟩))

theorem asked_step (hguard : ownedInputs crc s e = true) (h : s.step cfg crc e = some t)
    {c : Call} (hc : c ∈ t.calls) (hasked : tp ∈ c.asked) :
    tp ∈ tracked s ∨ tp ∈ s.consumer.assignedPartitions ∧
      t.consumer.assignedPartitions = s.consumer.assignedPartitions := by
  have hold {c : Call} (hc : c ∈ s.calls) (hasked : tp ∈ c.asked) : tp ∈ tracked s :=
    mem_tracked.mpr (.inr ⟨c, hc, hasked⟩)
  -- The call is an old one, or the one that has moved on.
  have hset {i : Nat} {c' : Call} (hmem : c ∈ s.calls.set i c')
      (hnew : tp ∈ c'.asked → tp ∈ tracked s) : tp ∈ tracked s := by
    rcases List.mem_or_eq_of_mem_set hmem with hmem | rfl
    · exact hold hmem hasked
    · exact hnew hasked
  have hadded {c' : Call} (hmem : c ∈ s.calls ++ [c']) : c ∈ s.calls ∨ c = c' :=
    (List.mem_append.mp hmem).imp id List.mem_singleton.mp
  cases clientStep_of_step h with
  | joinAndSync =>
    rcases hadded hc with hmem | rfl
    · exact .inl (hold hmem hasked)
    · cases hasked
  | pollNothing =>
    rcases hadded hc with hmem | rfl
    · exact .inl (hold hmem hasked)
    · cases hasked
  | poll =>
    rcases hadded hc with hmem | rfl
    · exact .inl (hold hmem hasked)
    · exact .inr ⟨mem_asked_fetch hasked, rfl⟩
  | fetchInitialOffsets hcall hrequest =>
    rcases List.mem_or_eq_of_mem_set hc with hmem | rfl
    · exact .inl (hold hmem hasked)
    · exact .inr ⟨mem_asked_offsetFetch hrequest hasked, rfl⟩
  | resolveUnsetOffsets hcall hrequest =>
    exact .inl (hset hc fun hnew => mem_asked_listOffsets hrequest hnew)
  | fetched hcall =>
    refine .inl (hset hc fun hnew => ?_)
    obtain ⟨m, hm, rfl⟩ := List.mem_map.mp hnew
    exact tracked_of_answers (List.all_eq_true.mp hguard m hm)
  | advance hcall =>
    exact .inl (hset hc fun hnew =>
      hold (List.mem_of_getElem? hcall) (List.mem_cons_of_mem _ hnew))
  | pollClosed => exact .inl (hold hc hasked)
  | commitClosed => exact .inl (hold hc hasked)
  | commit => exact .inl (hold hc hasked)
  | commitOffset => exact .inl (hold hc hasked)
  | close => exact .inl (hold hc hasked)
  | _ => exact .inl (hset hc fun hnew => by cases hnew)

/-- The partitions tracked after a step were tracked before it, or were assigned. -/
theorem tracked_step (hguard : ownedInputs crc s e = true) (h : s.step cfg crc e = some t)
    (htp : tp ∈ tracked t) :
    tp ∈ tracked s ∨ tp ∈ s.consumer.assignedPartitions ∧
      t.consumer.assignedPartitions = s.consumer.assignedPartitions := by
  rcases mem_tracked.mp htp with ⟨w, hw, rfl⟩ | ⟨c, hc, hasked⟩
  · exact stored_step hguard h hw
  · exact asked_step hguard h hc hasked

theorem owned_step (hs : Owned s)
    (hstep : Guarded (ownedInputs crc) (Client.step cfg crc) s e t) : Owned t := by
  obtain ⟨hguard, h⟩ := hstep
  intro tp htp
  rcases tracked_step hguard h htp with htracked | ⟨hassigned, hsame⟩
  · have hassigned := hs tp htracked
    cases clientStep_of_step h with
    | synced hcall =>
      have hkept := List.all_eq_true.mp hguard tp hassigned
      rw [List.contains_iff_mem.mpr htracked, Bool.not_true, Bool.or_false] at hkept
      exact List.contains_iff_mem.mp hkept
    | _ => exact hassigned
  · exact hsame ▸ hassigned

end

/-- As long as no partition is given up that is tracked, and answers are about what was
asked, a commit names assigned partitions only. -/
theorem commits_owned (cfg : GroupConsumerConfig) (crc : Checksum) (events : List ClientEvent)
    (s : Client) (hrun : Run (Guarded (ownedInputs crc) (Client.step cfg crc)) newClient events s) :
    CommitsOwned cfg s := by
  have howned : Owned s := by
    apply hrun.invariant (P := Owned)
    · intro tp htp
      cases htp
    · intro s e t hs hstep
      exact owned_step hs hstep
  intro request hrequest w hw
  obtain ⟨hmem, -⟩ := (mem_carried hrequest w).mp hw
  exact howned w.1 (mem_tracked.mpr (.inl ⟨w, hmem, rfl⟩))

def groupConfig : GroupConsumerConfig := ⟨[103], .earliest, 500, 1, 1048576⟩

/-- A call of `joinAndSync` for the topic `t`, with the partitions assigned to it
and the offsets committed for them. -/
def rebalance (call : Nat) (generation : Int32) (offsets : List (Int32 × Int64)) :
    List ClientEvent :=
  [.joinAndSync,
    .joined call ⟨0, generation, [], [109], [109], some []⟩,
    .synced call ⟨[⟨[116], offsets.map Prod.fst⟩]⟩,
    .fetchInitialOffsets call,
    .offsetsFetched call ⟨some [⟨[116], some (offsets.map fun p => ⟨p.1, p.2, 0⟩)⟩]⟩,
    .resolveUnsetOffsets call]

def gaining : List ClientEvent := rebalance 0 1 [(0, 3)] ++ rebalance 1 2 [(0, 3), (1, 5)]

theorem commits_owned_gaining :
    ∃ s, Run (Guarded (ownedInputs castagnoli) (Client.step groupConfig castagnoli)) newClient
        gaining s ∧
      (s.consumer.commitRequest groupConfig).map carried =
        some [(⟨[116], 0⟩, 3), (⟨[116], 1⟩, 5)] ∧
      CommitsOwned groupConfig s := by
  have hrun : (execute (ownedInputs castagnoli) (Client.step groupConfig castagnoli) newClient
      gaining).map (fun s => (s.consumer.commitRequest groupConfig).map carried) =
        some (some [(⟨[116], 0⟩, 3), (⟨[116], 1⟩, 5)]) := by decide +kernel
  obtain ⟨s, hs, hcarried⟩ := exists_run_of_execute hrun
  exact ⟨s, hs, hcarried, commits_owned _ _ _ s hs⟩

def losing : List ClientEvent := rebalance 0 1 [(0, 3), (1, 5)] ++ rebalance 1 2 [(0, 3)]

theorem commit_of_lost_partition :
    ∃ s request, Run (Guarded (fun _ _ => true) (Client.step groupConfig castagnoli)) newClient
        losing s ∧
      s.consumer.assignedPartitions = [⟨[116], 0⟩] ∧
      s.consumer.commitRequest groupConfig = some request ∧
      (⟨[116], 1⟩, 5) ∈ carried request := by
  have hrun : (execute (fun _ _ => true) (Client.step groupConfig castagnoli) newClient losing).map
      (fun s => (s.consumer.assignedPartitions,
        (s.consumer.commitRequest groupConfig).map carried)) =
        some ([⟨[116], 0⟩], some [(⟨[116], 0⟩, 3), (⟨[116], 1⟩, 5)]) := by decide +kernel
  obtain ⟨s, hs, hobserved⟩ := exists_run_of_execute hrun
  obtain ⟨hassigned, hcarried⟩ := Prod.mk.inj hobserved
  obtain ⟨request, hrequest, hentries⟩ := Option.map_eq_some_iff.mp hcarried
  exact ⟨s, request, hs, hassigned, hrequest, by rw [hentries]; decide⟩

end MiniKafka.OwnedCommits
