import MiniKafka.DeliveredCommits
import MiniKafka.PolledRecords

/-!
What `Poll` returns (`pkg/client/group_consumer.go`), over the whole run of a consumer and
of the logs it reads, which grow and lose their oldest segments while it polls.
-/

namespace MiniKafka.OrderedDelivery

open BigEndian ConsumerClient FetchTotals LogContents LogHistories LogReadFrom LogRefinement
  PartitionLog PolledRecords RecordCodec RequestBodies Runs SegmentContents WireCodec
open DeliveredCommits (resting deliveryConfig member)
open InSyncReplicas (newISRTracker)
open SegmentStore (Config smallConfig bareRecord)

/-- The consumer, and the logs that each partition has been, from the oldest on. -/
structure World where
  client : Client
  versions : TopicPartition → List Log

def newWorld (gc : GroupConsumer) : World := ⟨resting gc, fun _ => []⟩

inductive Label where
  | create (tp : TopicPartition) (modTime : Int64 → Int) (now : Int)
  | log (tp : TopicPartition) (event : Event)
  | client (event : ClientEvent)
  | fetched (call : Nat) (seen : Topics)

/-- Polls one at a time, with commits in between and without rebalances. -/
def pollsAlone (c : Client) : ClientEvent → Bool
  | .poll => c.calls.all fun call => decide (call = .returned)
  | .advance _ => true
  | .pollReturns _ => true
  | .fail _ => true
  | .commit => true
  | .close => true
  | _ => false

/-- What the handler finds at a partition is a log that the partition has been. -/
def World.Seen (w : World) (seen : Topics) : Prop :=
  ∀ name partitionID p, getPartition seen name partitionID = some p →
    p.log ∈ w.versions ⟨name, partitionID⟩

/-- No read of the handler skips a record for its budget. -/
def WithoutGap (crc : Checksum) (seen : Topics) (request : FetchRequest) : Prop :=
  ∀ e ∈ listed (elements request.topics), ∀ p,
    getPartition seen e.1 e.2.partitionID = some p →
      skipsRecord e.2.maxBytes 0 (sizesFrom crc p.log e.2.fetchOffset) = false

inductive WorldStep (crc : Checksum) (cfg : Config) (consumerCfg : GroupConsumerConfig)
    (w : World) : Label → World → Prop
  | create {tp : TopicPartition} {modTime : Int64 → Int} {now : Int} {l : Log}
      (hnone : w.versions tp = []) (hnew : newLog crc cfg [] modTime now = .ok l) :
      WorldStep crc cfg consumerCfg w (.create tp modTime now)
        { w with versions := Function.update w.versions tp [l] }
  | log {tp : TopicPartition} {event : Event} {older : List Log} {l l' : Log}
      (hlast : w.versions tp = older ++ [l]) (hkeeps : keepsRecords event = true)
      (hstep : Step crc cfg l event l') :
      WorldStep crc cfg consumerCfg w (.log tp event)
        { w with versions := Function.update w.versions tp (w.versions tp ++ [l']) }
  | client {event : ClientEvent} {c : Client} (halone : pollsAlone w.client event = true)
      (hstep : w.client.step consumerCfg crc event = some c) :
      WorldStep crc cfg consumerCfg w (.client event) { w with client := c }
  | fetched {i : Nat} {request : FetchRequest} {seen : Topics} {c : Client}
      (hcall : w.client.calls[i]? = some (.fetching request)) (hseen : w.Seen seen)
      (hgap : WithoutGap crc seen request)
      (hstep : w.client.step consumerCfg crc (.fetched i (handleFetch crc seen request)) =
        some c) :
      WorldStep crc cfg consumerCfg w (.fetched i seen) { w with client := c }

section Consumers

variable {crc : Checksum} {cfg : Config} {consumerCfg : GroupConsumerConfig} {gc : GroupConsumer}
  {tp : TopicPartition} {c c' : Client} {i : Nat} {history : TopicPartition → List Record}
  {taken pending : List (TopicPartition × Record)}

/-- The calls have returned, except for the one at `i`. -/
structure Alone (calls : List Call) (i : Nat) (call : Call) : Prop where
  at_ : calls[i]? = some call
  others : ∀ j other, calls[j]? = some other → j ≠ i → other = .returned

/-- What the polls so far have taken, returned or not, and what is left to decode. -/
inductive Stage (consumerCfg : GroupConsumerConfig) (c : Client) :
    List (TopicPartition × Record) → List (TopicPartition × Record) → Prop
  | idle (hidle : ∀ call ∈ c.calls, call = .returned) : Stage consumerCfg c c.delivered []
  | fetching (i : Nat)
      (halone : Alone c.calls i (.fetching (c.consumer.fetchRequest consumerCfg))) :
      Stage consumerCfg c c.delivered []
  | decoding (i : Nat) (rest messages : List (TopicPartition × Record))
      (halone : Alone c.calls i (.decoding rest messages)) :
      Stage consumerCfg c (c.delivered ++ messages) rest

/-- The records taken and to be taken continue each other from the start on, and the
consumer is between them. -/
structure InOrder (gc : GroupConsumer) (history : TopicPartition → List Record) (c : Client)
    (taken pending : List (TopicPartition × Record)) : Prop where
  assigned : c.consumer.assignedPartitions = gc.assignedPartitions
  order : ∀ tp ∈ gc.assignedPartitions,
    ofPartition tp (taken ++ pending) <+: (history tp).drop (gc.fetchOffset tp).toInt.toNat
  position : ∀ tp ∈ gc.assignedPartitions,
    (c.consumer.fetchOffset tp).toInt = (gc.fetchOffset tp).toInt + (ofPartition tp taken).length

theorem Alone.eq {calls : List Call} {call other : Call} {j : Nat} (h : Alone calls i call)
    (hj : calls[j]? = some other) (hrunning : other ≠ .returned) : j = i ∧ other = call := by
  have hij : j = i := by
    by_contra hne
    exact hrunning (h.others j other hj hne)
  subst hij
  exact ⟨rfl, Option.some.inj (hj.symm.trans h.at_)⟩

theorem Alone.set {calls : List Call} {call : Call} (h : Alone calls i call) (new : Call) :
    Alone (calls.set i new) i new where
  at_ := List.getElem?_set_self (List.getElem?_eq_some_iff.mp h.at_).1
  others := by
    intro j other hj hne
    rw [List.getElem?_set_ne (Ne.symm hne)] at hj
    exact h.others j other hj hne

theorem Alone.returned {calls : List Call} {call : Call} (h : Alone calls i call) :
    ∀ other ∈ calls.set i .returned, other = .returned := by
  intro other hmem
  obtain ⟨j, hj⟩ := List.mem_iff_getElem?.mp hmem
  by_cases hij : j = i
  · rw [hij, (h.set .returned).at_] at hj
    exact (Option.some.inj hj).symm
  · exact (h.set .returned).others j other hj hij

theorem alone_append {calls : List Call} (hidle : ∀ call ∈ calls, call = .returned) (call : Call) :
    Alone (calls ++ [call]) calls.length call where
  at_ := List.getElem?_concat_length
  others := by
    intro j other hj hne
    have hlt : j < calls.length := by
      have hbound := (List.getElem?_eq_some_iff.mp hj).1
      rw [List.length_append, List.length_singleton] at hbound
      omega
    rw [List.getElem?_append_left hlt] at hj
    exact hidle other (List.mem_of_getElem? hj)

theorem Stage.running {call : Call} (h : Stage consumerCfg c taken pending)
    (hcall : c.calls[i]? = some call) (hrunning : call ≠ .returned) :
    Alone c.calls i call ∧
      ((call = .fetching (c.consumer.fetchRequest consumerCfg) ∧ taken = c.delivered ∧
          pending = []) ∨
        ∃ messages, call = .decoding pending messages ∧ taken = c.delivered ++ messages) := by
  cases h with
  | idle hidle => exact absurd (hidle call (List.mem_of_getElem? hcall)) hrunning
  | fetching j halone =>
    obtain ⟨rfl, rfl⟩ := halone.eq hcall hrunning
    exact ⟨halone, .inl ⟨rfl, rfl, rfl⟩⟩
  | decoding j rest messages halone =>
    obtain ⟨rfl, rfl⟩ := halone.eq hcall hrunning
    exact ⟨halone, .inr ⟨messages, rfl, rfl⟩⟩

theorem Stage.returned (h : Stage consumerCfg c taken pending) : c.delivered <+: taken := by
  cases h with
  | idle _ => exact List.prefix_rfl
  | fetching _ _ => exact List.prefix_rfl
  | decoding _ _ messages _ => exact List.prefix_append _ messages

theorem Stage.of_same (h : Stage consumerCfg c taken pending) (hcalls : c'.calls = c.calls)
    (hdelivered : c'.delivered = c.delivered)
    (hrequest : c'.consumer.fetchRequest consumerCfg = c.consumer.fetchRequest consumerCfg) :
    Stage consumerCfg c' taken pending := by
  cases h with
  | idle hidle => exact hdelivered ▸ .idle (hcalls ▸ hidle)
  | fetching i halone => exact hdelivered ▸ .fetching i (hcalls ▸ hrequest ▸ halone)
  | decoding i _ messages halone =>
    exact hdelivered ▸ .decoding i _ messages (hcalls ▸ halone)

theorem next_offset {records xs ys : List Record} {r : Record} {start : Nat}
    (hnumbered : Numbered 0 records) (hfits : records.length < 2 ^ 63)
    (hinitial : xs ++ r :: ys <+: records.drop start) :
    r.offset.toInt = start + xs.length ∧ r.offset.toInt + 1 < 2 ^ 63 := by
  obtain ⟨later, hlater⟩ := hinitial
  have hat : records[start + xs.length]? = some r := by
    rw [← List.getElem?_drop, ← hlater, List.append_assoc, List.getElem?_append_right le_rfl,
      Nat.sub_self]
    rfl
  obtain ⟨hlt, hget⟩ := List.getElem?_eq_some_iff.mp hat
  have hoffset := numbered_toInt hnumbered (by rw [Int64.toInt_zero]; omega) _ hlt
  rw [hget, Int64.toInt_zero] at hoffset
  omega

theorem toInt_succ {o : Int64} (h : o.toInt + 1 < 2 ^ 63) : (o + 1).toInt = o.toInt + 1 :=
  @toInt_add_ofNat o 1 (by omega)

theorem InOrder.advance {w : TopicPartition × Record} {rest : List (TopicPartition × Record)}
    (h : InOrder gc history c taken (w :: rest))
    (hnumbered : ∀ tp, Numbered 0 (history tp)) (hfits : ∀ tp, (history tp).length < 2 ^ 63)
    (hstart : ∀ tp, 0 ≤ (gc.fetchOffset tp).toInt)
    (hconsumer : c'.consumer = c.consumer.store [(w.1, w.2.offset + 1)]) :
    InOrder gc history c' (taken ++ [w]) rest := by
  have hsplit : taken ++ [w] ++ rest = taken ++ w :: rest := by simp
  refine ⟨?_, ?_, ?_⟩
  · rw [hconsumer]
    exact h.assigned
  · intro tp htp
    rw [hsplit]
    exact h.order tp htp
  · intro tp htp
    rw [hconsumer, fetchOffset_store, ofPartition_append, List.length_append, ofPartition_cons]
    by_cases hw : w.1 = tp
    · have horder := h.order tp htp
      rw [ofPartition_append, ofPartition_cons, if_pos hw] at horder
      obtain ⟨hoffset, hlt⟩ := next_offset (hnumbered tp) (hfits tp) horder
      have hnext := toInt_succ hlt
      have hpos : ¬ w.2.offset + 1 < 0 := by
        rw [Int64.lt_iff_toInt_lt, hnext, Int64.toInt_zero]
        omega
      have hs := hstart tp
      rw [if_pos hw, if_pos hw, if_neg hpos, hnext, show ofPartition tp [] = [] from rfl,
        List.length_singleton]
      omega
    · rw [if_neg hw, if_neg hw, h.position tp htp]
      simp [ofPartition]

theorem InOrder.of_consumer (h : InOrder gc history c taken pending)
    (hassigned : c'.consumer.assignedPartitions = c.consumer.assignedPartitions)
    (hoffsets : c'.consumer.partitionOffsets = c.consumer.partitionOffsets) :
    InOrder gc history c' taken pending where
  assigned := hassigned.trans h.assigned
  order := h.order
  position := by
    intro tp htp
    rw [GroupConsumer.fetchOffset, hoffsets]
    exact h.position tp htp

/-- The steps of the consumer between a response and the next request. -/
theorem client_inOrder {event : ClientEvent} (hstage : Stage consumerCfg c taken pending)
    (h : InOrder gc history c taken pending) (hnumbered : ∀ tp, Numbered 0 (history tp))
    (hfits : ∀ tp, (history tp).length < 2 ^ 63) (hstart : ∀ tp, 0 ≤ (gc.fetchOffset tp).toInt)
    (halone : pollsAlone c event = true) (hstep : c.step consumerCfg crc event = some c') :
    ∃ taken pending, Stage consumerCfg c' taken pending ∧ InOrder gc history c' taken pending := by
  have hidle (hpoll : event = .poll) :
      (∀ call ∈ c.calls, call = .returned) ∧ taken = c.delivered ∧ pending = [] := by
    subst hpoll
    have hreturned : ∀ call ∈ c.calls, call = .returned := fun call hcall =>
      of_decide_eq_true (List.all_eq_true.mp halone call hcall)
    refine ⟨hreturned, ?_⟩
    cases hstage with
    | idle _ => exact ⟨rfl, rfl⟩
    | fetching j hrunning => cases hreturned _ (List.mem_of_getElem? hrunning.at_)
    | decoding j rest messages hrunning => cases hreturned _ (List.mem_of_getElem? hrunning.at_)
  cases clientStep_of_step hstep with
  | pollClosed => exact ⟨_, _, hstage, h⟩
  | pollNothing =>
    obtain ⟨hreturned, rfl, rfl⟩ := hidle rfl
    refine ⟨_, _, .idle ?_, h.of_consumer rfl rfl⟩
    intro call hcall
    rcases List.mem_append.mp hcall with hold | hnew
    · exact hreturned call hold
    · exact List.mem_singleton.mp hnew
  | poll =>
    obtain ⟨hreturned, rfl, rfl⟩ := hidle rfl
    exact ⟨_, _, .fetching _ (alone_append hreturned _), h.of_consumer rfl rfl⟩
  | @advance i m rest messages hcall =>
    obtain ⟨hone, ⟨hfetching, -⟩ | ⟨messages', hdecoding, rfl⟩⟩ :=
      hstage.running hcall (by rintro ⟨⟩)
    · cases hfetching
    · obtain ⟨rfl, rfl⟩ := Call.decoding.inj hdecoding
      have hmoved : InOrder gc history
          { c.setCall i (.decoding rest (messages ++ [m])) with
            consumer := c.consumer.store [(m.1, m.2.offset + 1)] }
          (c.delivered ++ messages ++ [m]) rest := h.advance hnumbered hfits hstart rfl
      rw [List.append_assoc] at hmoved
      exact ⟨_, _, .decoding i rest _ (hone.set _), hmoved⟩
  | pollReturns hcall =>
    obtain ⟨hone, ⟨hfetching, -⟩ | ⟨messages', hdecoding, rfl⟩⟩ :=
      hstage.running hcall (by rintro ⟨⟩)
    · cases hfetching
    · obtain ⟨rfl, rfl⟩ := Call.decoding.inj hdecoding
      exact ⟨_, _, .idle hone.returned, h.of_consumer rfl rfl⟩
  | fail hcall hnotReturned hnotDecoding =>
    obtain ⟨hone, ⟨-, rfl, rfl⟩ | ⟨messages', hdecoding, -⟩⟩ :=
      hstage.running hcall hnotReturned
    · exact ⟨_, _, .idle hone.returned, h.of_consumer rfl rfl⟩
    · exact absurd hdecoding (hnotDecoding _ _)
  | commitClosed => exact ⟨_, _, hstage, h⟩
  | commit => exact ⟨taken, pending, hstage.of_same rfl rfl rfl, h.of_consumer rfl rfl⟩
  | close => exact ⟨taken, pending, hstage.of_same rfl rfl rfl, h.of_consumer rfl rfl⟩
  | _ => cases halone

theorem prefix_continue {records xs ys : List Record} {start : Nat}
    (hxs : xs <+: records.drop start) (hys : ys <+: records.drop (start + xs.length)) :
    xs ++ ys <+: records.drop start := by
  obtain ⟨later, hlater⟩ := hxs
  obtain ⟨rest, hrest⟩ := hys
  rw [← List.drop_drop, ← hlater, List.drop_left] at hrest
  refine ⟨rest, ?_⟩
  rw [List.append_assoc, hrest, hlater]

def asked (consumerCfg : GroupConsumerConfig) (gc : GroupConsumer) (tp : TopicPartition) :
    FetchRequestPartition :=
  ⟨tp.partition, gc.fetchOffset tp, consumerCfg.maxBytes⟩

def requested (consumerCfg : GroupConsumerConfig) (gc : GroupConsumer) :
    List (Bytes × FetchRequestPartition) :=
  gc.assignedPartitions.map fun tp => (tp.topic, asked consumerCfg gc tp)

theorem listed_fetchRequest (consumerCfg : GroupConsumerConfig) (gc : GroupConsumer) :
    listed (elements (gc.fetchRequest consumerCfg).topics) =
      listed (groupByTopic (requested consumerCfg gc)) := rfl

theorem mem_listed_fetchRequest (htp : tp ∈ gc.assignedPartitions) :
    (tp.topic, asked consumerCfg gc tp) ∈
      listed (elements (gc.fetchRequest consumerCfg).topics) := by
  rw [listed_fetchRequest, mem_listed_groupByTopic]
  exact List.mem_map_of_mem htp

theorem ofPartition_fetchedRecords {seen : Topics} (hnodup : gc.assignedPartitions.Nodup)
    (htp : tp ∈ gc.assignedPartitions) :
    ofPartition tp (fetchedRecords crc (handleFetch crc seen (gc.fetchRequest consumerCfg))) =
      answered crc seen tp.topic (asked consumerCfg gc tp) := by
  rw [fetchedRecords_handleFetch, listed_fetchRequest]
  have hkeys : (requested consumerCfg gc).map
      (fun e => (⟨e.1, e.2.partitionID⟩ : TopicPartition)) = gc.assignedPartitions := by
    rw [requested, List.map_map]
    exact List.map_id _
  refine @ofPartition_fetched crc seen tp.topic (requested consumerCfg gc)
    (asked consumerCfg gc tp) ?_ ?_
  · rw [hkeys]
    exact hnodup
  · exact List.mem_map_of_mem htp

theorem fetched_inOrder {w : World} {request : FetchRequest} {seen : Topics}
    (hstage : Stage consumerCfg w.client taken pending)
    (h : InOrder gc history w.client taken pending)
    (hchronicle : ∀ tp, Chronicle crc cfg (w.versions tp) (history tp))
    (hstart : ∀ tp, 0 ≤ (gc.fetchOffset tp).toInt) (hnodup : gc.assignedPartitions.Nodup)
    (hcall : w.client.calls[i]? = some (.fetching request)) (hseen : w.Seen seen)
    (hgap : WithoutGap crc seen request)
    (hstep : w.client.step consumerCfg crc (.fetched i (handleFetch crc seen request)) =
      some c') :
    ∃ taken pending, Stage consumerCfg c' taken pending ∧ InOrder gc history c' taken pending := by
  obtain ⟨hone, ⟨hfetching, rfl, rfl⟩ | ⟨messages, hdecoding, -⟩⟩ :=
    hstage.running hcall (by rintro ⟨⟩)
  · obtain rfl := Call.fetching.inj hfetching
    rw [Client.step, hcall] at hstep
    obtain rfl := Option.some.inj hstep
    refine ⟨_, _, .decoding i _ [] (hone.set _), h.assigned, ?_, ?_⟩
    · intro tp htp
      have htp' : tp ∈ w.client.consumer.assignedPartitions := h.assigned ▸ htp
      have hanswer := answered_continues (hchronicle tp)
        (fun p hfound => hseen tp.topic tp.partition p hfound)
        (hgap _ (mem_listed_fetchRequest htp'))
      have hposition := h.position tp htp
      have hs := hstart tp
      have hat : (asked consumerCfg w.client.consumer tp).fetchOffset.toInt.toNat =
          (gc.fetchOffset tp).toInt.toNat + (ofPartition tp w.client.delivered).length := by
        show (w.client.consumer.fetchOffset tp).toInt.toNat = _
        omega
      have horder := h.order tp htp
      rw [List.append_nil] at horder ⊢
      rw [hat] at hanswer
      rw [ofPartition_append, ofPartition_fetchedRecords (h.assigned ▸ hnodup) htp']
      exact prefix_continue horder hanswer
    · intro tp htp
      rw [List.append_nil]
      exact h.position tp htp
  · cases hdecoding

theorem delivered_prefix (hstage : Stage consumerCfg c taken pending)
    (h : InOrder gc history c taken pending) (htp : tp ∈ gc.assignedPartitions) :
    ofPartition tp c.delivered <+: (history tp).drop (gc.fetchOffset tp).toInt.toNat := by
  obtain ⟨held, rfl⟩ := hstage.returned
  have hall := h.order tp htp
  rw [List.append_assoc, ofPartition_append] at hall
  exact (List.prefix_append _ _).trans hall

end Consumers

section Runs

variable {crc : Checksum} {cfg : Config} {consumerCfg : GroupConsumerConfig} {gc : GroupConsumer}
  {w w' : World} {label : Label} {labels : List Label}

def Delivering (crc : Checksum) (cfg : Config) (consumerCfg : GroupConsumerConfig)
    (gc : GroupConsumer) (w : World) : Prop :=
  ∃ history : TopicPartition → List Record,
    (∀ tp, Chronicle crc cfg (w.versions tp) (history tp)) ∧
      ∃ taken pending, Stage consumerCfg w.client taken pending ∧
        InOrder gc history w.client taken pending

theorem fetchOffset_nonneg (gc : GroupConsumer) (tp : TopicPartition) :
    0 ≤ (gc.fetchOffset tp).toInt := by
  rw [GroupConsumer.fetchOffset]
  split
  · exact le_of_eq Int64.toInt_zero.symm
  · split
    · exact le_of_eq Int64.toInt_zero.symm
    · rename_i hneg
      rw [Int64.lt_iff_toInt_lt, Int64.toInt_zero, not_lt] at hneg
      exact hneg

theorem delivering_newWorld (gc : GroupConsumer) :
    Delivering crc cfg consumerCfg gc (newWorld gc) := by
  refine ⟨fun _ => [], fun _ => chronicle_nil, [], [], .idle ?_, rfl, ?_, ?_⟩
  · intro call hcall
    cases hcall
  · intro tp _
    exact List.nil_prefix
  · intro tp _
    exact (Int.add_zero _).symm

theorem delivering_versions {tp : TopicPartition} {versions : List Log}
    (h : Delivering crc cfg consumerCfg gc w)
    (hversions : ∀ records, Chronicle crc cfg (w.versions tp) records →
      ∃ added, Chronicle crc cfg versions (records ++ added)) :
    Delivering crc cfg consumerCfg gc
      { w with versions := Function.update w.versions tp versions } := by
  obtain ⟨history, hchronicle, taken, pending, hstage, horder⟩ := h
  obtain ⟨added, hadded⟩ := hversions (history tp) (hchronicle tp)
  refine ⟨Function.update history tp (history tp ++ added), ?_, taken, pending, hstage,
    horder.assigned, ?_, horder.position⟩
  · intro tp'
    show Chronicle crc cfg (Function.update w.versions tp versions tp') _
    by_cases htp : tp' = tp
    · subst htp
      rw [Function.update_self, Function.update_self]
      exact hadded
    · rw [Function.update_of_ne htp, Function.update_of_ne htp]
      exact hchronicle tp'
  · intro tp' htp'
    by_cases htp : tp' = tp
    · subst htp
      rw [Function.update_self]
      exact (horder.order tp' htp').trans ((List.prefix_append _ added).drop _)
    · rw [Function.update_of_ne htp]
      exact horder.order tp' htp'

theorem delivering_step (hnodup : gc.assignedPartitions.Nodup)
    (h : Delivering crc cfg consumerCfg gc w) (hstep : WorldStep crc cfg consumerCfg w label w') :
    Delivering crc cfg consumerCfg gc w' := by
  cases hstep with
  | create hnone hnew =>
    apply delivering_versions h
    intro records hrecords
    have hfresh : records = [] := by
      rw [hrecords.whole, hnone]
      rfl
    rw [hfresh]
    exact ⟨[], chronicle_newLog hnew⟩
  | log hlast hkeeps hstep =>
    exact delivering_versions h fun records hrecords =>
      chronicle_step hrecords hlast hkeeps hstep
  | client halone hstep =>
    obtain ⟨history, hchronicle, taken, pending, hstage, horder⟩ := h
    exact ⟨history, hchronicle, client_inOrder hstage horder (fun tp => (hchronicle tp).numbered)
      (fun tp => (hchronicle tp).fits) (fetchOffset_nonneg gc) halone hstep⟩
  | fetched hcall hseen hgap hstep =>
    obtain ⟨history, hchronicle, taken, pending, hstage, horder⟩ := h
    exact ⟨history, hchronicle, fetched_inOrder hstage horder hchronicle
      (fetchOffset_nonneg gc) hnodup hcall hseen hgap hstep⟩

theorem run_delivering (hnodup : gc.assignedPartitions.Nodup)
    (hrun : Run (WorldStep crc cfg consumerCfg) (newWorld gc) labels w) :
    Delivering crc cfg consumerCfg gc w :=
  hrun.invariant (delivering_newWorld gc) fun _ _ _ h hstep => delivering_step hnodup h hstep

def onlyPartition : TopicPartition := ⟨[116], 0⟩

def oneRecordLog : Log := (emptyLog.append castagnoli (some (bareRecord 7)) ⟨0, none⟩).1

def twoRecordLog : Log := (oneRecordLog.append castagnoli (some (bareRecord 8)) ⟨0, none⟩).1

def threeRecordLog : Log := (twoRecordLog.append castagnoli (some (bareRecord 9)) ⟨0, none⟩).1

def serving (log : Log) (hw : Int64) : Topics := fun name =>
  if name = [116] then some fun partitionID =>
    if partitionID = 0 then some ⟨log, hw, newISRTracker 1 [1] 0 0 none⟩ else none
  else none

def clientAfter (gc : GroupConsumer) (events : List ClientEvent) : Client :=
  events.foldl (fun c e => (c.step deliveryConfig castagnoli e).getD c) (resting gc)

def worldAt (gc : GroupConsumer) (logs : List Log) (events : List ClientEvent) : World :=
  ⟨clientAfter gc events, Function.update (fun _ => []) onlyPartition logs⟩

section Fixed

variable {gc : GroupConsumer} {logs : List Log} {events : List ClientEvent}

theorem versions_worldAt : (worldAt gc logs events).versions onlyPartition = logs := by
  rw [worldAt]
  dsimp only
  rw [Function.update_self]

theorem step_create (gc : GroupConsumer) :
    WorldStep castagnoli smallConfig deliveryConfig (newWorld gc)
      (.create onlyPartition (fun _ => 0) 0) (worldAt gc [emptyLog] []) :=
  .create rfl newLog_small

theorem step_log {l l' : Log} {event : Event} (hkeeps : keepsRecords event = true)
    (hstep : Step castagnoli smallConfig l event l') :
    WorldStep castagnoli smallConfig deliveryConfig (worldAt gc (logs ++ [l]) events)
      (.log onlyPartition event) (worldAt gc (logs ++ [l] ++ [l']) events) := by
  have hlog : WorldStep castagnoli smallConfig deliveryConfig (worldAt gc (logs ++ [l]) events)
      (.log onlyPartition event) _ := .log versions_worldAt hkeeps hstep
  rw [versions_worldAt] at hlog
  have hworld : { worldAt gc (logs ++ [l]) events with
      versions := Function.update (worldAt gc (logs ++ [l]) events).versions onlyPartition
        (logs ++ [l] ++ [l']) } = worldAt gc (logs ++ [l] ++ [l']) events := by
    rw [worldAt, worldAt, Function.update_idem]
  rwa [hworld] at hlog

theorem step_client {event : ClientEvent} (halone : pollsAlone (clientAfter gc events) event = true)
    (hstep : (clientAfter gc events).step deliveryConfig castagnoli event =
      some (clientAfter gc (events ++ [event]))) :
    WorldStep castagnoli smallConfig deliveryConfig (worldAt gc logs events) (.client event)
      (worldAt gc logs (events ++ [event])) := .client halone hstep

theorem step_fetched {i : Nat} {request : FetchRequest} {log : Log} {hw : Int64} (hlog : log ∈ logs)
    (hcall : (clientAfter gc events).calls[i]? = some (.fetching request))
    (hgap : ∀ e ∈ listed (elements request.topics),
      skipsRecord e.2.maxBytes 0 (sizesFrom castagnoli log e.2.fetchOffset) = false)
    (hstep : (clientAfter gc events).step deliveryConfig castagnoli
        (.fetched i (handleFetch castagnoli (serving log hw) request)) =
      some (clientAfter gc
        (events ++ [.fetched i (handleFetch castagnoli (serving log hw) request)]))) :
    WorldStep castagnoli smallConfig deliveryConfig (worldAt gc logs events)
      (.fetched i (serving log hw)) (worldAt gc logs
        (events ++ [.fetched i (handleFetch castagnoli (serving log hw) request)])) := by
  have hfound {name : Bytes} {partitionID : Int32} {p : BrokerHandlers.Partition}
      (hp : getPartition (serving log hw) name partitionID = some p) :
      (⟨name, partitionID⟩ : TopicPartition) = onlyPartition ∧ p.log = log := by
    rw [getPartition, serving] at hp
    split at hp
    · rename_i hname
      rw [Option.bind_some] at hp
      dsimp only at hp
      split at hp
      · rename_i hpartition
        obtain rfl := Option.some.inj hp
        rw [hname, hpartition]
        exact ⟨rfl, rfl⟩
      · cases hp
    · cases hp
  refine .fetched hcall ?_ ?_ hstep
  · intro name partitionID p hp
    obtain ⟨hkey, hsame⟩ := hfound hp
    rw [hkey, hsame, versions_worldAt]
    exact hlog
  · intro e he p hp
    rw [(hfound hp).2]
    exact hgap e he

end Fixed

theorem step_append {l : Log} {timestamp offset : Int64} (hleft : OffsetsLeft l 1)
    (hcall : (l.append castagnoli (some (bareRecord timestamp)) ⟨0, none⟩).2 = (offset, none)) :
    Step castagnoli smallConfig l (.append (some (bareRecord timestamp)) ⟨0, none⟩ offset none)
      (l.append castagnoli (some (bareRecord timestamp)) ⟨0, none⟩).1 :=
  ⟨hleft, Prod.ext rfl hcall⟩

theorem step_oneRecord :
    Step castagnoli smallConfig emptyLog (.append (some (bareRecord 7)) ⟨0, none⟩ 0 none)
      oneRecordLog := step_append (by decide +kernel) (by decide +kernel)

theorem step_twoRecords :
    Step castagnoli smallConfig oneRecordLog (.append (some (bareRecord 8)) ⟨0, none⟩ 1 none)
      twoRecordLog := step_append (by decide +kernel) (by decide +kernel)

def firstPoll : List ClientEvent :=
  [.poll, .fetched 0 (handleFetch castagnoli (serving oneRecordLog 1)
    (member.fetchRequest deliveryConfig)), .advance 0, .pollReturns 0]

theorem firstPoll_reached :
    Run (WorldStep castagnoli smallConfig deliveryConfig) (newWorld member)
      [.create onlyPartition (fun _ => 0) 0,
        .log onlyPartition (.append (some (bareRecord 7)) ⟨0, none⟩ 0 none), .client .poll,
        .fetched 0 (serving oneRecordLog 1), .client (.advance 0), .client (.pollReturns 0)]
      (worldAt member [emptyLog, oneRecordLog] firstPoll) := by
  have hlog := (Run.nil.snoc (step_create member)).snoc (@step_log _ [] _ _ _ _ rfl step_oneRecord)
  exact (((hlog.snoc (step_client (by decide +kernel) (by decide +kernel))).snoc
    (step_fetched (by simp) (by decide +kernel) (by decide +kernel) (by decide +kernel))).snoc
    (step_client (by decide +kernel) (by decide +kernel))).snoc
    (step_client (by decide +kernel) (by decide +kernel))

/-- Over its whole run a consumer that makes one poll at a time gets the records of each of
its partitions in the order of the log, without a gap and without a record twice, from its
first position on: they are the beginning of what the partition has got from there on, in
its history, of which all logs it has been are pieces. -/
theorem delivered_in_order (hnodup : gc.assignedPartitions.Nodup)
    (hrun : Run (WorldStep crc cfg consumerCfg) (newWorld gc) labels w) :
    ∀ tp ∈ gc.assignedPartitions, Numbered 0 (historyOf crc (w.versions tp)) ∧
      (∀ l ∈ w.versions tp, storedRecords crc l <+:
        (historyOf crc (w.versions tp)).drop l.lowestOffset.toInt.toNat) ∧
      ofPartition tp w.client.delivered <+:
        (historyOf crc (w.versions tp)).drop (gc.fetchOffset tp).toInt.toNat := by
  obtain ⟨history, hchronicle, taken, pending, hstage, horder⟩ := run_delivering hnodup hrun
  intro tp htp
  rw [← (hchronicle tp).whole]
  refine ⟨(hchronicle tp).numbered, (hchronicle tp).pieces, ?_⟩
  exact delivered_prefix hstage horder htp

/-- The first record, and the next two with a second poll. -/
def bothPolls : List ClientEvent :=
  firstPoll ++ [.poll, .fetched 1 (handleFetch castagnoli (serving threeRecordLog 3)
    ((clientAfter member firstPoll).consumer.fetchRequest deliveryConfig)), .advance 1,
    .advance 1, .pollReturns 1]

def bothPolled : World :=
  worldAt member [emptyLog, oneRecordLog, twoRecordLog, threeRecordLog] bothPolls

theorem bothPolled_reached :
    ∃ labels, Run (WorldStep castagnoli smallConfig deliveryConfig) (newWorld member)
      (labels ++ [.client .poll] ++ [.fetched 1 (serving threeRecordLog 3)] ++
        [.client (.advance 1)] ++ [.client (.advance 1)] ++ [.client (.pollReturns 1)])
      bothPolled := by
  have hthree : Step castagnoli smallConfig twoRecordLog
      (.append (some (bareRecord 9)) ⟨0, none⟩ 2 none) threeRecordLog :=
    step_append (by decide +kernel) (by decide +kernel)
  have hlogs := (firstPoll_reached.snoc (@step_log _ [emptyLog] _ _ _ _ rfl step_twoRecords)).snoc
    (@step_log _ [emptyLog, oneRecordLog] _ _ _ _ rfl hthree)
  exact ⟨_, ((((hlogs.snoc (step_client (by decide +kernel) (by decide +kernel))).snoc
    (step_fetched (by simp) (by decide +kernel) (by decide +kernel) (by decide +kernel))).snoc
    (step_client (by decide +kernel) (by decide +kernel))).snoc
    (step_client (by decide +kernel) (by decide +kernel))).snoc
    (step_client (by decide +kernel) (by decide +kernel))⟩

theorem delivered_in_order_rotated :
    (threeRecordLog.segments.map fun s => s.baseOffset) = [0, 2] ∧
      ofPartition onlyPartition bothPolled.client.delivered =
        [bareRecord 7, { bareRecord 8 with offset := 1 }, { bareRecord 9 with offset := 2 }] ∧
      ofPartition onlyPartition bothPolled.client.delivered <+:
        (historyOf castagnoli (bothPolled.versions onlyPartition)).drop
          (member.fetchOffset onlyPartition).toInt.toNat := by
  obtain ⟨labels, hrun⟩ := bothPolled_reached
  exact ⟨by decide +kernel, by decide +kernel,
    (delivered_in_order (by decide) hrun _ (by decide)).2.2⟩

/-- A poll that brings nothing for a partition has nothing left to bring: every record from
the first position on and below the high watermark that the handler found has been returned
before. -/
theorem empty_poll_caught_up (hnodup : gc.assignedPartitions.Nodup)
    (hrun : Run (WorldStep crc cfg consumerCfg) (newWorld gc) labels w) {i : Nat} {seen : Topics}
    (hstep : WorldStep crc cfg consumerCfg w (.fetched i seen) w')
    (hmax : 0 < consumerCfg.maxBytes) {tp : TopicPartition} (htp : tp ∈ gc.assignedPartitions)
    {p : BrokerHandlers.Partition} (hfound : getPartition seen tp.topic tp.partition = some p)
    (hlow : p.log.lowestOffset.toInt ≤
      (gc.fetchOffset tp).toInt + (ofPartition tp w.client.delivered).length)
    {rest messages : List (TopicPartition × Record)}
    (hdecoding : w'.client.calls[i]? = some (.decoding rest messages))
    (hempty : ofPartition tp rest = []) :
    min p.highWatermark.toInt p.log.highestOffset.toInt ≤
      (gc.fetchOffset tp).toInt + (ofPartition tp w.client.delivered).length := by
  obtain ⟨history, hchronicle, taken, pending, hstage, horder⟩ := run_delivering hnodup hrun
  cases hstep with
  | fetched hcall hseen hgap hstep =>
    rename_i request c
    obtain ⟨hone, ⟨hfetching, rfl, rfl⟩ | ⟨_, hother, -⟩⟩ :=
      hstage.running hcall (by rintro ⟨⟩)
    · obtain rfl := Call.fetching.inj hfetching
      rw [Client.step, hcall] at hstep
      obtain rfl := Option.some.inj hstep
      obtain ⟨rfl, -⟩ := Call.decoding.inj (Option.some.inj
        (hdecoding.symm.trans (hone.set _).at_))
      have htp' : tp ∈ w.client.consumer.assignedPartitions := horder.assigned ▸ htp
      obtain ⟨hwf, hknown, -⟩ := (hchronicle tp).sound p.log
        (hseen tp.topic tp.partition p hfound)
      rw [ofPartition_fetchedRecords (horder.assigned ▸ hnodup) htp'] at hempty
      have hposition := horder.position tp htp
      have hcontiguous : Contiguous crc p.log (w.client.consumer.fetchOffset tp)
          consumerCfg.maxBytes := by
        refine (contiguous_iff hwf hknown ?_ hmax).mpr
          (hgap _ (mem_listed_fetchRequest htp') p hfound)
        rw [Int64.le_iff_toInt_le, hposition]
        exact hlow
      by_contra hmore
      rw [← hposition, not_le, lt_min_iff] at hmore
      exact @answered_nonempty crc seen tp.topic (asked consumerCfg w.client.consumer tp) p hfound
        hwf hcontiguous hmore.1 hmore.2 hempty
    · cases hother

def secondPoll : List ClientEvent := firstPoll ++ [.poll]

theorem empty_poll_caught_up_second :
    min (1 : Int64).toInt oneRecordLog.highestOffset.toInt ≤
      (member.fetchOffset onlyPartition).toInt + (ofPartition onlyPartition
        (worldAt member [emptyLog, oneRecordLog] secondPoll).client.delivered).length := by
  have hpoll : WorldStep castagnoli smallConfig deliveryConfig
      (worldAt member [emptyLog, oneRecordLog] firstPoll) (.client .poll)
      (worldAt member [emptyLog, oneRecordLog] secondPoll) :=
    step_client (by decide +kernel) (by decide +kernel)
  have hfetched := @step_fetched member [emptyLog, oneRecordLog] secondPoll 1
    ((clientAfter member firstPoll).consumer.fetchRequest deliveryConfig) oneRecordLog 1 (by simp)
    (by decide +kernel) (by decide +kernel) (by decide +kernel)
  have hdecoding : (clientAfter member (secondPoll ++ [.fetched 1 (handleFetch castagnoli
      (serving oneRecordLog 1)
      ((clientAfter member firstPoll).consumer.fetchRequest deliveryConfig))])).calls[1]? =
      some (.decoding [] []) := by decide +kernel
  exact empty_poll_caught_up (p := ⟨oneRecordLog, 1, newISRTracker 1 [1] 0 0 none⟩) (by decide)
    (firstPoll_reached.snoc hpoll) hfetched (by decide) (by decide) rfl (by decide +kernel)
    hdecoding rfl

end Runs

end MiniKafka.OrderedDelivery
