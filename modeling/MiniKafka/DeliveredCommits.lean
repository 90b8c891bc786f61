import MiniKafka.ConsumerClient
import MiniKafka.SegmentContents

/-!
Automatic commits while `Poll` runs.  `Poll` stores the position after each
record it decodes, and returns the records only at its end, so that a commit in
between is ahead of the application.
-/

namespace MiniKafka.DeliveredCommits

open ConsumerClient RecordCodec RequestBodies ResponseBodies Runs WireCodec
open SegmentContents (Numbered)

def resting (gc : GroupConsumer) : Client := ⟨gc, [], [], []⟩

/-- Polls and commits, without rebalances and without commits of single offsets. -/
def pollsAndCommits : ClientEvent → Bool
  | .poll => true
  | .fetched _ _ => true
  | .advance _ => true
  | .pollReturns _ => true
  | .fail _ => true
  | .commit => true
  | .close => true
  | _ => false

/-- No running call of `Poll` has decoded a message that it has not returned. -/
def noneHeld (s : Client) : Bool := s.calls.all fun c => c.messages.isEmpty

/-- What `Commit` would send is at most the position at the start, or one past a message
of its partition that a completed call of `Poll` has returned. -/
def CommitsDelivered (cfg : GroupConsumerConfig) (gc : GroupConsumer) (s : Client) : Prop :=
  ∀ request, s.consumer.commitRequest cfg = some request → ∀ w ∈ carried request,
    (∃ v ∈ gc.partitionOffsets, v.1 = w.1 ∧ w.2 ≤ v.2) ∨
      ∃ m ∈ s.delivered, m.1 = w.1 ∧ w.2.toInt ≤ m.2.offset.toInt + 1

def FromStart (gc : GroupConsumer) (tp : TopicPartition) (x : Int64) : Prop :=
  0 ≤ x ∧ ∀ v ∈ gc.partitionOffsets, v.1 = tp → v.2 ≤ x

/-- A member that starts where `Commit` has left off misses nothing: every offset from
the start up to there is that of a message returned. -/
def NoneSkipped (cfg : GroupConsumerConfig) (gc : GroupConsumer) (s : Client) : Prop :=
  ∀ request, s.consumer.commitRequest cfg = some request → ∀ w ∈ carried request,
    ∀ x, FromStart gc w.1 x → x < w.2 → ∃ m ∈ s.delivered, m.1 = w.1 ∧ m.2.offset = x

instance decidableNumbered : (base : Int64) → (rs : List Record) → Decidable (Numbered base rs)
  | _, [] => .isTrue trivial
  | base, r :: rs =>
    have := decidableNumbered (base + 1) rs
    inferInstanceAs (Decidable (r.offset = base ∧ Numbered (base + 1) rs))

/-- The records of a response, partition by partition, are those from the offset asked
for on. -/
def continues (request : FetchRequest) (records : List (TopicPartition × Record)) : Bool :=
  records.all fun m => (listed (elements request.topics)).any fun e =>
    decide (m.1 = ⟨e.1, e.2.partitionID⟩) &&
      decide (Numbered e.2.fetchOffset (ofPartition m.1 records))

def answersContinue (crc : Checksum) (s : Client) : ClientEvent → Bool
  | .fetched i resp =>
    match s.calls[i]? with
    | some (.fetching request) => continues request (fetchedRecords crc resp)
    | _ => true
  | e => pollsAndCommits e

def Taken (s : Client) (tp : TopicPartition) (x : Int64) : Prop :=
  ∃ rec, rec.offset = x ∧ (s.Holds (tp, rec) ∨ (tp, rec) ∈ s.delivered)

def TakenBelow (gc : GroupConsumer) (s : Client) (tp : TopicPartition) (o : Int64) : Prop :=
  ∀ x, FromStart gc tp x → x < o → Taken s tp x

/-- What a call asks for, or has still to decode, continues what has been taken. -/
def CallContinues (gc : GroupConsumer) (s : Client) : Call → Prop
  | .fetching request => ∀ e ∈ listed (elements request.topics),
      TakenBelow gc s ⟨e.1, e.2.partitionID⟩ e.2.fetchOffset
  | .decoding rest _ => ∀ before m after, rest = before ++ m :: after →
      ∀ x, FromStart gc m.1 x → x < m.2.offset →
        Taken s m.1 x ∨ ∃ r, (m.1, r) ∈ before ∧ r.offset = x
  | _ => True

structure Continuous (gc : GroupConsumer) (s : Client) : Prop where
  positions : ∀ w ∈ s.consumer.partitionOffsets, TakenBelow gc s w.1 w.2
  calls : ∀ c ∈ s.calls, CallContinues gc s c

def Accounted (gc : GroupConsumer) (s : Client) : Prop :=
  ∀ w ∈ s.consumer.partitionOffsets, w ∈ gc.partitionOffsets ∨
    ∃ rec, rec.offset + 1 = w.2 ∧ (s.Holds (w.1, rec) ∨ (w.1, rec) ∈ s.delivered)

section

variable {cfg : GroupConsumerConfig} {crc : Checksum} {gc : GroupConsumer} {s t : Client}
  {e : ClientEvent} {tp : TopicPartition}

theorem toInt_succ_le (o : Int64) : (o + 1).toInt ≤ o.toInt + 1 := by
  rw [Int64.toInt_add, Int64.toInt_one, Int.bmod]
  have := o.toInt_lt
  have := o.le_toInt
  split <;> omega

theorem kept_step {m : TopicPartition × Record} (h : s.step cfg crc e = some t)
    (hm : s.Holds m ∨ m ∈ s.delivered) : t.Holds m ∨ m ∈ t.delivered :=
  hm.elim (holds_step h) fun hmem => .inr (mem_delivered_step h hmem)

/-- Of the steps of polls and commits, only this one stores a position. -/
theorem stored_step {w : Position} (he : pollsAndCommits e = true)
    (h : s.step cfg crc e = some t) (hw : w ∈ t.consumer.partitionOffsets) :
    w ∈ s.consumer.partitionOffsets ∨ ∃ (i : Nat) (m : TopicPartition × Record)
        (rest messages : List (TopicPartition × Record)),
      s.calls[i]? = some (.decoding (m :: rest) messages) ∧ w = (m.1, m.2.offset + 1) ∧
        t.Holds m := by
  rw [partitionOffsets_step h] at hw
  rcases mem_setOffsets hw with hstored | hkept
  · cases clientStep_of_step h with
    | @advance i m rest messages hcall =>
      rw [Client.stores, hcall] at hstored
      refine .inr ⟨i, m, rest, messages, hcall, List.mem_singleton.mp hstored, i,
        .decoding rest (messages ++ [m]), ?_, List.mem_append_right _ List.mem_cons_self⟩
      exact List.getElem?_set_self (List.getElem?_eq_some_iff.mp hcall).1
    | offsetsFetched hcall => cases he
    | offsetsListed hcall => cases he
    | commitOffset => cases he
    | _ => cases hstored
  · exact .inl hkept

theorem accounted_step (he : pollsAndCommits e = true) (hs : Accounted gc s)
    (h : s.step cfg crc e = some t) : Accounted gc t := by
  intro w hw
  rcases stored_step he h hw with hkept | ⟨i, m, rest, messages, -, rfl, hholds⟩
  · rcases hs w hkept with hstart | ⟨rec, hoffset, hrec⟩
    · exact .inl hstart
    · exact .inr ⟨rec, hoffset, kept_step h hrec⟩
  · exact .inr ⟨m.2, rfl, .inl hholds⟩

theorem delivered_of_noneHeld {m : TopicPartition × Record} (hnone : noneHeld s = true)
    (hm : s.Holds m ∨ m ∈ s.delivered) : m ∈ s.delivered := by
  rcases hm with ⟨i, c, hc, hmem⟩ | hdelivered
  · have hempty := List.all_eq_true.mp hnone c (List.mem_of_getElem? hc)
    rw [List.isEmpty_iff.mp hempty] at hmem
    cases hmem
  · exact hdelivered

theorem taken_step {x : Int64} (h : s.step cfg crc e = some t) (hx : Taken s tp x) :
    Taken t tp x := by
  obtain ⟨rec, hoffset, hrec⟩ := hx
  exact ⟨rec, hoffset, kept_step h hrec⟩

theorem callContinues_step {c : Call} (h : s.step cfg crc e = some t)
    (hc : CallContinues gc s c) : CallContinues gc t c := by
  cases c with
  | fetching request =>
    intro e he x hstart hlt
    exact taken_step h (hc e he x hstart hlt)
  | decoding rest messages =>
    intro before m after hrest x hstart hlt
    exact (hc before m after hrest x hstart hlt).imp (taken_step h) id
  | _ => trivial

theorem callContinues_fetching (hs : Continuous gc s) :
    CallContinues gc s (.fetching (s.consumer.fetchRequest cfg)) := by
  intro e he x hstart hlt
  obtain ⟨tp, -, rfl⟩ := List.mem_map.mp (mem_listed_groupByTopic.mp he)
  change x < s.consumer.fetchOffset tp at hlt
  have hunset : ¬ x < 0 := Int64.not_lt.mpr hstart.1
  rw [GroupConsumer.fetchOffset] at hlt
  split at hlt
  · exact absurd hlt hunset
  · rename_i w hfind
    split at hlt
    · exact absurd hlt hunset
    · have hkey := List.find?_some hfind
      obtain rfl : w.1 = tp := of_decide_eq_true hkey
      exact hs.positions w (List.mem_of_find?_eq_some hfind) x hstart hlt

theorem mem_of_numbered {base x : Int64} {before after : List Record} {r : Record}
    (h : Numbered base (before ++ r :: after)) (hle : base ≤ x) (hlt : x < r.offset) :
    ∃ q ∈ before, q.offset = x := by
  induction before generalizing base with
  | nil => exact absurd (h.1 ▸ hlt) (Int64.not_lt.mpr hle)
  | cons q before ih =>
    by_cases hx : q.offset = x
    · exact ⟨q, List.mem_cons_self, hx⟩
    · have hnext : base + 1 ≤ x := by
        have hsucc := toInt_succ_le base
        have hne : base.toInt ≠ x.toInt := fun heq => hx (h.1.trans (Int64.toInt_inj.mp heq))
        rw [Int64.le_iff_toInt_le] at hle ⊢
        omega
      obtain ⟨q', hq', hoffset⟩ := ih h.2 hnext
      exact ⟨q', List.mem_cons_of_mem _ hq', hoffset⟩

theorem callContinues_fetched {request : FetchRequest}
    {records messages : List (TopicPartition × Record)}
    (hasked : CallContinues gc s (.fetching request)) (h : continues request records = true) :
    CallContinues gc s (.decoding records messages) := by
  intro before m after hrecords x hstart hlt
  have hm := List.all_eq_true.mp h m (by simp [hrecords])
  obtain ⟨e, he, hanswers⟩ := List.any_eq_true.mp hm
  rw [Bool.and_eq_true, decide_eq_true_eq, decide_eq_true_eq] at hanswers
  obtain ⟨htp, hnumbered⟩ := hanswers
  by_cases hbelow : x < e.2.fetchOffset
  · exact .inl (htp ▸ hasked e he x (htp ▸ hstart) hbelow)
  · rw [hrecords, ofPartition_append, ofPartition_cons, if_pos rfl] at hnumbered
    obtain ⟨r, hr, hoffset⟩ := mem_of_numbered hnumbered (Int64.not_lt.mp hbelow) hlt
    obtain ⟨q, hq, rfl⟩ := List.mem_map.mp hr
    obtain ⟨hmem, hsame⟩ := List.mem_filter.mp hq
    exact .inr ⟨q.2, of_decide_eq_true hsame ▸ hmem, hoffset⟩

theorem pollsAndCommits_of_answersContinue (h : answersContinue crc s e = true) :
    pollsAndCommits e = true := by
  cases e with
  | fetched i resp => rfl
  | _ => exact h

theorem takenBelow_step (hs : Continuous gc s) (he : pollsAndCommits e = true)
    (h : s.step cfg crc e = some t) {w : Position} (hw : w ∈ t.consumer.partitionOffsets) :
    TakenBelow gc t w.1 w.2 := by
  intro x hstart hlt
  rcases stored_step he h hw with hkept | ⟨i, m, rest, messages, hcall, rfl, hholds⟩
  · exact taken_step h (hs.positions w hkept x hstart hlt)
  · by_cases hx : m.2.offset = x
    · exact ⟨m.2, hx, .inl hholds⟩
    · -- The offsets below that of the record were taken before it.
      have hbelow : x < m.2.offset := by
        have hsucc := toInt_succ_le m.2.offset
        have hne : m.2.offset.toInt ≠ x.toInt := fun heq => hx (Int64.toInt_inj.mp heq)
        change x < m.2.offset + 1 at hlt
        rw [Int64.lt_iff_toInt_lt] at hlt ⊢
        omega
      rcases hs.calls _ (List.mem_of_getElem? hcall) [] m rest rfl x hstart hbelow with
        htaken | ⟨r, hr, -⟩
      · exact taken_step h htaken
      · cases hr

theorem continuous_step (hs : Continuous gc s)
    (hstep : Guarded (answersContinue crc) (Client.step cfg crc) s e t) : Continuous gc t := by
  obtain ⟨hguard, h⟩ := hstep
  have he := pollsAndCommits_of_answersContinue hguard
  have hold {c : Call} (hc : c ∈ s.calls) : CallContinues gc t c :=
    callContinues_step h (hs.calls c hc)
  have hset {i : Nat} {c c' : Call} (hc : c ∈ s.calls.set i c')
      (hnew : CallContinues gc t c') : CallContinues gc t c := by
    rcases List.mem_or_eq_of_mem_set hc with hmem | rfl
    · exact hold hmem
    · exact hnew
  refine ⟨fun w hw => takenBelow_step hs he h hw, fun c hc => ?_⟩
  cases clientStep_of_step h with
  | poll =>
    rcases List.mem_append.mp hc with hmem | hnew
    · exact hold hmem
    · obtain rfl := List.mem_singleton.mp hnew
      exact callContinues_step h (callContinues_fetching hs)
  | pollNothing =>
    rcases List.mem_append.mp hc with hmem | hnew
    · exact hold hmem
    · obtain rfl := List.mem_singleton.mp hnew
      trivial
  | @fetched i request resp hcall =>
    refine hset hc (callContinues_step h (callContinues_fetched
      (hs.calls _ (List.mem_of_getElem? hcall)) ?_))
    rwa [answersContinue, hcall] at hguard
  | @advance i m rest messages hcall =>
    refine hset hc ?_
    intro before m' after hrest x hstart hlt
    rcases hs.calls _ (List.mem_of_getElem? hcall) (m :: before) m' after (by rw [hrest]; rfl)
      x hstart hlt with htaken | ⟨r, hr, hoffset⟩
    · exact .inl (taken_step h htaken)
    · rcases List.mem_cons.mp hr with rfl | hbefore
      · obtain ⟨i, hi⟩ := List.mem_iff_getElem?.mp (List.mem_set
          (List.getElem?_eq_some_iff.mp hcall).1 (.decoding rest (messages ++ [(m'.1, r)])))
        exact .inl ⟨r, hoffset, .inl ⟨i, _, hi, List.mem_append_right _ List.mem_cons_self⟩⟩
      · exact .inr ⟨r, hbefore, hoffset⟩
  | pollReturns hcall => exact hset hc trivial
  | fail hcall hreturned hdecoding => exact hset hc trivial
  | pollClosed => exact hold hc
  | commitClosed => exact hold hc
  | commit => exact hold hc
  | close => exact hold hc
  | _ => cases he

theorem continuous_resting (gc : GroupConsumer) : Continuous gc (resting gc) where
  positions := by
    intro w hw x hstart hlt
    exact absurd hlt (Int64.not_lt.mpr (hstart.2 w hw rfl))
  calls := by
    intro c hc
    cases hc

end

/-- A commit made while no call of `Poll` holds a message it has decoded is not ahead of
the messages returned, and, if the responses have left no record out, it does not pass
one that has not been returned. -/
theorem commits_delivered (cfg : GroupConsumerConfig) (crc : Checksum) (gc : GroupConsumer)
    (events : List ClientEvent) (s : Client)
    (hrun : Run (Guarded (fun _ => pollsAndCommits) (Client.step cfg crc)) (resting gc) events s)
    (hnone : noneHeld s = true) :
    CommitsDelivered cfg gc s ∧
      (Run (Guarded (answersContinue crc) (Client.step cfg crc)) (resting gc) events s →
        NoneSkipped cfg gc s) := by
  constructor
  · have haccounted : Accounted gc s := by
      apply hrun.invariant (P := Accounted gc)
      · exact fun w hw => .inl hw
      · rintro s e t hs ⟨he, h⟩
        exact accounted_step he hs h
    intro request hrequest w hw
    obtain ⟨hmem, -⟩ := (mem_carried hrequest w).mp hw
    rcases haccounted w hmem with hstart | ⟨rec, hoffset, hrec⟩
    · exact .inl ⟨w, hstart, rfl, Int64.le_refl _⟩
    · refine .inr ⟨_, delivered_of_noneHeld hnone hrec, rfl, ?_⟩
      rw [← hoffset]
      exact toInt_succ_le rec.offset
  · intro hcontinued
    have hcontinuous : Continuous gc s := by
      apply hcontinued.invariant (P := Continuous gc)
      · exact continuous_resting gc
      · intro s e t hs hstep
        exact continuous_step hs hstep
    intro request hrequest w hw x hstart hlt
    obtain ⟨hmem, -⟩ := (mem_carried hrequest w).mp hw
    obtain ⟨rec, hoffset, hrec⟩ := hcontinuous.positions w hmem x hstart hlt
    exact ⟨_, delivered_of_noneHeld hnone hrec, rfl, hoffset⟩

def deliveryConfig : GroupConsumerConfig := ⟨[103], .earliest, 500, 1, 1048576⟩

def member : GroupConsumer := ⟨false, [109], 1, [109], [⟨[116], 0⟩], [(⟨[116], 0⟩, 0)]⟩

def fetchOf (base : Int64) (count : Nat) : FetchResponse :=
  let records := (List.range count).map fun i =>
    ((⟨base + Int64.ofNat i, 0, 0, none, some [118]⟩ : Record).encode castagnoli).toOption.getD []
  ⟨some [⟨[116], some [⟨0, 0, 3, 0, some records.flatten⟩]⟩]⟩

/-- The second call starts before the first one has returned its two messages. -/
def overlappingPolls : List ClientEvent :=
  [.poll, .fetched 0 (fetchOf 0 2), .advance 0, .advance 0, .poll, .pollReturns 0,
    .fetched 1 (fetchOf 2 1), .advance 1, .pollReturns 1]

theorem commits_delivered_overlappingPolls :
    ∃ s, Run (Guarded (fun _ => pollsAndCommits) (Client.step deliveryConfig castagnoli))
        (resting member) overlappingPolls s ∧
      (s.consumer.commitRequest deliveryConfig).map carried = some [(⟨[116], 0⟩, 3)] ∧
      s.delivered.map (fun m => m.2.offset) = [0, 1, 2] ∧
      CommitsDelivered deliveryConfig member s ∧ NoneSkipped deliveryConfig member s := by
  have hend : (execute (answersContinue castagnoli) (Client.step deliveryConfig castagnoli)
      (resting member) overlappingPolls).map (fun s =>
        (noneHeld s, (s.consumer.commitRequest deliveryConfig).map carried,
          s.delivered.map fun m => m.2.offset)) =
      some (true, some [(⟨[116], 0⟩, 3)], [0, 1, 2]) := by
    decide +kernel
  obtain ⟨s, hs, hobserved⟩ := exists_run_of_execute hend
  obtain ⟨hnone, hrest⟩ := Prod.mk.inj hobserved
  obtain ⟨hcarried, hdelivered⟩ := Prod.mk.inj hrest
  have hplain : Run (Guarded (fun _ => pollsAndCommits) (Client.step deliveryConfig castagnoli))
      (resting member) overlappingPolls s := by
    refine hs.mono ?_
    rintro s e t ⟨hguard, h⟩
    exact ⟨pollsAndCommits_of_answersContinue hguard, h⟩
  obtain ⟨hbounded, hskipped⟩ := commits_delivered _ _ _ _ s hplain hnone
  exact ⟨s, hplain, hcarried, hdelivered, hbounded, hskipped hs⟩

def commitDuringPoll : List ClientEvent := [.poll, .fetched 0 (fetchOf 0 1), .advance 0]

/-- Offset 1 would be committed while the only record is still held by `Poll`. -/
theorem commit_ahead_of_poll :
    (∀ e ∈ commitDuringPoll, pollsAndCommits e = true) ∧
      ∃ s, Run (Guarded (fun _ _ => true) (Client.step deliveryConfig castagnoli)) (resting member)
          commitDuringPoll s ∧
        (s.consumer.commitRequest deliveryConfig).map carried = some [(⟨[116], 0⟩, 1)] ∧
        s.delivered = [] ∧ ¬ CommitsDelivered deliveryConfig member s := by
  have hend : (execute (fun _ _ => true) (Client.step deliveryConfig castagnoli) (resting member)
      commitDuringPoll).map (fun s =>
        ((s.consumer.commitRequest deliveryConfig).map carried, s.delivered)) =
      some (some [(⟨[116], 0⟩, 1)], []) := by
    decide +kernel
  obtain ⟨s, hs, hobserved⟩ := exists_run_of_execute hend
  obtain ⟨hcarried, hdelivered⟩ := Prod.mk.inj hobserved
  refine ⟨by decide, s, hs, hcarried, hdelivered, fun hbounded => ?_⟩
  obtain ⟨request, hrequest, hentries⟩ := Option.map_eq_some_iff.mp hcarried
  rcases hbounded request hrequest (⟨[116], 0⟩, 1) (by rw [hentries]; decide) with
    hstart | ⟨m, hm, -⟩
  · revert hstart
    decide
  · rw [hdelivered] at hm
    cases hm

end MiniKafka.DeliveredCommits
