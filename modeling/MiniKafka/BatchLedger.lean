import Mathlib.Data.List.Nodup
import Mathlib.Data.List.Perm.Subperm
import Mathlib.Data.List.Range
import MiniKafka.ProducerBatches

/-!
Where the records of a batching producer are, and what their waiters were told.

The parts of the producer are kept apart here: the calls with the batches they
have enqueued in, the map with the flushes, and the flushes with the results.
-/

namespace MiniKafka.BatchLedger

open ProducerBatches RecordCodec

section Ledger

variable {sends : List Send} {call : Send} {i : Nat}

def ledger (sends : List Send) (i : Nat) : Option (TopicPartition × Record) :=
  sends[i]?.bind fun call => if call.phase.enqueued then some (call.tp, call.record) else none

theorem getElem?_set_of_some {α : Type} {l : List α} {a b : α} {j : Nat} (h : l[i]? = some a) :
    (l.set i b)[j]? = if i = j then some b else l[j]? := by
  rw [List.getElem?_set]
  split
  · rw [if_pos (List.getElem?_eq_some_iff.mp h).1]
  · rfl

theorem ledger_set {call' : Send} (hcall : sends[i]? = some call) (htp : call'.tp = call.tp)
    (hrecord : call'.record = call.record) (hphase : call'.phase.enqueued = call.phase.enqueued) :
    ledger (sends.set i call') = ledger sends := by
  funext j
  rw [ledger, ledger, getElem?_set_of_some hcall]
  split
  · rename_i hij
    subst hij
    rw [hcall, Option.bind_some, Option.bind_some, htp, hrecord, hphase]
  · rfl

theorem ledger_append (hphase : call.phase.enqueued = false) :
    ledger (sends ++ [call]) = ledger sends := by
  funext j
  rw [ledger, ledger, List.getElem?_append]
  split
  · rfl
  · rename_i hlength
    rw [List.getElem?_eq_none (Nat.le_of_not_lt hlength), List.getElem?_singleton]
    split
    · rw [Option.bind_some, hphase]
      rfl
    · rfl

theorem ledger_enqueue (hcall : sends[i]? = some call) :
    ledger (sends.set i { call with phase := .waiting }) =
      Function.update (ledger sends) i (some (call.tp, call.record)) := by
  funext j
  rw [ledger, getElem?_set_of_some hcall, Function.update_apply]
  by_cases hij : j = i
  · subst hij
    rw [if_pos rfl, if_pos rfl]
    rfl
  · rw [if_neg (Ne.symm hij), if_neg hij]
    rfl

end Ledger

section Filing

variable {batches batches' : List PendingBatch} {pb : PendingBatch} {k i : Nat}
  {entries : Nat → Option (TopicPartition × Record)}

def contents (pb : PendingBatch) : TopicPartition × List Record × List Nat :=
  (pb.tp, pb.records, pb.waiters)

/-- Every enqueued record is in one batch of its partition, and in the place of
its waiter. -/
structure Filed (batches : List PendingBatch) (entries : Nat → Option (TopicPartition × Record)) :
    Prop where
  once : (batches.flatMap PendingBatch.waiters).Nodup
  own : ∀ pb ∈ batches, (pb.records.map fun r => some (pb.tp, r)) = pb.waiters.map entries
  filed : ∀ i, (entries i).isSome = true → i ∈ batches.flatMap PendingBatch.waiters

theorem flatMap_waiters_congr (h : batches'.map contents = batches.map contents) :
    batches'.flatMap PendingBatch.waiters = batches.flatMap PendingBatch.waiters := by
  have hfiles (bs : List PendingBatch) :
      bs.flatMap PendingBatch.waiters = (bs.map contents).flatMap fun c => c.2.2 := by
    rw [List.flatMap_map]
    rfl
  rw [hfiles, hfiles, h]

theorem filed_congr (hfiled : Filed batches entries)
    (h : batches'.map contents = batches.map contents) : Filed batches' entries := by
  refine ⟨?_, ?_, ?_⟩
  · rw [flatMap_waiters_congr h]
    exact hfiled.once
  · intro pb hpb
    have hmem := List.mem_map_of_mem (f := contents) hpb
    rw [h] at hmem
    obtain ⟨old, hold, hsame⟩ := List.mem_map.mp hmem
    have hown := hfiled.own old hold
    simp only [contents, Prod.mk.injEq] at hsame
    rwa [hsame.1, hsame.2.1, hsame.2.2] at hown
  · rw [flatMap_waiters_congr h]
    exact hfiled.filed

theorem map_contents_set (timer : Timer) (hpb : batches[k]? = some pb) :
    (batches.set k { pb with timer }).map contents = batches.map contents := by
  apply List.ext_getElem?
  intro m
  rw [List.getElem?_map, List.getElem?_map, getElem?_set_of_some hpb]
  split
  · rename_i hkm
    subst hkm
    rw [hpb]
    rfl
  · rfl

theorem map_contents_stopTimers {pending : List (TopicPartition × Nat)} :
    (stopTimers pending batches).map contents = batches.map contents := by
  apply List.ext_getElem?
  intro m
  rw [List.getElem?_map, List.getElem?_map, stopTimers, List.getElem?_mapIdx, Option.map_map]
  apply congrFun
  apply congrArg
  funext pb
  simp only [Function.comp_apply]
  split <;> rfl

theorem waiters_filed (hfiled : Filed batches entries) (hpb : pb ∈ batches) {w : Nat}
    (hw : w ∈ pb.waiters) : (entries w).isSome = true := by
  have hmem := List.mem_map_of_mem (f := entries) hw
  rw [← hfiled.own pb hpb] at hmem
  obtain ⟨r, -, hr⟩ := List.mem_map.mp hmem
  rw [← hr]
  rfl

theorem flatMap_waiters_append (i : Nat) (r : Record) (hpb : batches[k]? = some pb) :
    ((batches.set k (pb.append r i)).flatMap PendingBatch.waiters).Perm
      (i :: batches.flatMap PendingBatch.waiters) := by
  induction batches generalizing k with
  | nil => cases hpb
  | cons b rest ih =>
    cases k with
    | zero =>
      obtain rfl : b = pb := Option.some.inj hpb
      rw [List.set_cons_zero, List.flatMap_cons, List.flatMap_cons]
      change ((b.waiters ++ [i]) ++ _).Perm _
      rw [List.append_assoc]
      exact List.perm_middle
    | succ k =>
      rw [List.set_cons_succ, List.flatMap_cons, List.flatMap_cons]
      exact ((ih hpb).append_left b.waiters).trans List.perm_middle

theorem filed_append {r : Record} (hfiled : Filed batches entries) (hpb : batches[k]? = some pb)
    (hnew : entries i = none) :
    Filed (batches.set k (pb.append r i)) (Function.update entries i (some (pb.tp, r))) := by
  have hperm := flatMap_waiters_append i r hpb
  have hfresh : ∀ b ∈ batches, i ∉ b.waiters := by
    intro b hb hi
    have hsome := waiters_filed hfiled hb hi
    rw [hnew] at hsome
    cases hsome
  have hkept : ∀ b ∈ batches,
      b.waiters.map (Function.update entries i (some (pb.tp, r))) = b.waiters.map entries := by
    intro b hb
    apply List.map_congr_left
    intro w hw
    apply Function.update_of_ne
    rintro rfl
    exact hfresh b hb hw
  refine ⟨?_, ?_, ?_⟩
  · rw [hperm.nodup_iff, List.nodup_cons]
    refine ⟨?_, hfiled.once⟩
    rw [List.mem_flatMap]
    rintro ⟨b, hb, hi⟩
    exact hfresh b hb hi
  · intro b hb
    rcases List.mem_or_eq_of_mem_set hb with hold | rfl
    · rw [hkept b hold]
      exact hfiled.own b hold
    · have hmem := List.mem_of_getElem? hpb
      simp only [PendingBatch.append, List.map_append, hkept pb hmem, ← hfiled.own pb hmem,
        List.map_cons, List.map_nil, Function.update_self]
  · intro w hw
    rw [hperm.mem_iff, List.mem_cons]
    by_cases hwi : w = i
    · exact .inl hwi
    · rw [Function.update_of_ne hwi] at hw
      exact .inr (hfiled.filed w hw)

theorem filed_call {sends : List Send} {call call' : Send} (hfiled : Filed batches (ledger sends))
    (hcall : sends[i]? = some call) (htp : call'.tp = call.tp)
    (hrecord : call'.record = call.record) (hphase : call'.phase.enqueued = call.phase.enqueued) :
    Filed batches (ledger (sends.set i call')) := by
  rw [ledger_set hcall htp hrecord hphase]
  exact hfiled

theorem filed_new {tp : TopicPartition} (hfiled : Filed batches entries) :
    Filed (batches ++ [newPendingBatch tp]) entries := by
  have hsame : (batches ++ [newPendingBatch tp]).flatMap PendingBatch.waiters =
      batches.flatMap PendingBatch.waiters := by
    rw [List.flatMap_append]
    exact List.append_nil _
  refine ⟨?_, ?_, ?_⟩
  · rw [hsame]
    exact hfiled.once
  · intro pb hpb
    rcases List.mem_append.mp hpb with hold | hnew
    · exact hfiled.own pb hold
    · obtain rfl := List.mem_singleton.mp hnew
      rfl
  · rw [hsame]
    exact hfiled.filed

end Filing

section Queues

variable {pending : List (TopicPartition × Nat)} {flushed : List Nat} {batches : List PendingBatch}
  {pb : PendingBatch} {tp : TopicPartition} {k : Nat}

/-- Every batch is in the map or was handed to one flush, and a batch in the map
has a timer that will come for it. -/
structure Queued (pending : List (TopicPartition × Nat)) (flushed : List Nat)
    (batches : List PendingBatch) : Prop where
  keys : (pending.map Prod.fst).Nodup
  once : (pending.map Prod.snd ++ flushed).Perm (List.range batches.length)
  named : ∀ e ∈ pending, ∃ pb : PendingBatch,
    batches[e.2]? = some pb ∧ pb.tp = e.1 ∧ pb.timer ≠ .stopped

theorem perm_filter_key {e : TopicPartition × Nat} (hkeys : (pending.map Prod.fst).Nodup)
    (he : e ∈ pending) : pending.Perm (e :: pending.filter fun x => decide (x.1 ≠ e.1)) := by
  induction pending with
  | nil => cases he
  | cons x rest ih =>
    rw [List.map_cons, List.nodup_cons] at hkeys
    rcases List.mem_cons.mp he with rfl | hrest
    · have hall : ∀ y ∈ rest, decide (y.1 ≠ e.1) = true := by
        intro y hy
        apply decide_eq_true
        intro hsame
        exact hkeys.1 (hsame ▸ List.mem_map_of_mem hy)
      rw [List.filter_cons_of_neg (by simp), List.filter_eq_self.mpr hall]
    · have hne : x.1 ≠ e.1 := by
        intro hsame
        exact hkeys.1 (hsame ▸ List.mem_map_of_mem hrest)
      rw [List.filter_cons_of_pos (by simpa using hne)]
      exact ((ih hkeys.2 hrest).cons x).trans (List.Perm.swap e x _)

theorem find?_key {e : TopicPartition × Nat} (hkeys : (pending.map Prod.fst).Nodup) (he : e ∈ pending) :
    pending.find? (fun x => decide (x.1 = e.1)) = some e := by
  induction pending with
  | nil => cases he
  | cons x rest ih =>
    rw [List.map_cons, List.nodup_cons] at hkeys
    rcases List.mem_cons.mp he with rfl | hrest
    · exact List.find?_cons_of_pos (by simp)
    · have hne : x.1 ≠ e.1 := by
        intro hsame
        exact hkeys.1 (hsame ▸ List.mem_map_of_mem hrest)
      rw [List.find?_cons_of_neg (by simpa using hne)]
      exact ih hkeys.2 hrest

theorem queued_set {pb' : PendingBatch} (h : Queued pending flushed batches)
    (hpb : batches[k]? = some pb) (htp : pb'.tp = pb.tp)
    (htimer : pb'.timer = .stopped → ∀ e ∈ pending, e.2 ≠ k) :
    Queued pending flushed (batches.set k pb') := by
  refine ⟨h.keys, ?_, ?_⟩
  · rw [List.length_set]
    exact h.once
  · intro e he
    obtain ⟨b, hb, hkey, hlive⟩ := h.named e he
    rw [getElem?_set_of_some hpb]
    split
    · rename_i hke
      subst hke
      obtain rfl : pb = b := Option.some.inj (hpb.symm.trans hb)
      exact ⟨pb', rfl, htp.trans hkey, fun hstopped => htimer hstopped e he rfl⟩
    · exact ⟨b, hb, hkey, hlive⟩

theorem queued_new (h : Queued pending flushed batches) (hnone : ∀ e ∈ pending, e.1 ≠ tp) :
    Queued (pending ++ [(tp, batches.length)]) flushed (batches ++ [newPendingBatch tp]) := by
  refine ⟨?_, ?_, ?_⟩
  · rw [List.map_append, List.map_singleton, ← List.concat_eq_append]
    apply h.keys.concat
    rw [List.mem_map]
    rintro ⟨e, he, hkey⟩
    exact hnone e he hkey
  · rw [List.length_append, List.length_singleton, List.range_succ, List.map_append,
      List.append_assoc]
    calc pending.map Prod.snd ++ (batches.length :: flushed)
        _ |>.Perm (batches.length :: (pending.map Prod.snd ++ flushed)) := List.perm_middle
        _ |>.Perm (batches.length :: List.range batches.length) := h.once.cons _
        _ |>.Perm (List.range batches.length ++ [batches.length]) :=
          (List.perm_append_singleton _ _).symm
  · intro e he
    rcases List.mem_append.mp he with hold | hnew
    · obtain ⟨pb, hpb, hkey, hlive⟩ := h.named e hold
      have hlt := (List.getElem?_eq_some_iff.mp hpb).1
      exact ⟨pb, (List.getElem?_append_left hlt).trans hpb, hkey, hlive⟩
    · obtain rfl := List.mem_singleton.mp hnew
      exact ⟨newPendingBatch tp, List.getElem?_concat_length, rfl, by simp [newPendingBatch]⟩

theorem queued_detach (pb : PendingBatch) (timer : Timer) (h : Queued pending flushed batches)
    (hmem : (tp, k) ∈ pending) :
    Queued (pending.filter fun e => decide (e.1 ≠ tp)) (flushed ++ [k])
      (batches.set k { pb with timer }) := by
  have hperm := (perm_filter_key h.keys hmem).map Prod.snd
  refine ⟨(List.filter_sublist.map Prod.fst).nodup h.keys, ?_, ?_⟩
  · rw [List.length_set, ← List.append_assoc]
    refine (List.perm_append_singleton k _).trans ?_
    exact ((hperm.append_right flushed).symm).trans h.once
  · intro e he
    obtain ⟨hold, hkey⟩ := List.mem_filter.mp he
    obtain ⟨b, hb, htp, hlive⟩ := h.named e hold
    obtain ⟨b', hb', htp', -⟩ := h.named (tp, k) hmem
    have hne : k ≠ e.2 := by
      intro hke
      rw [← hke] at hb
      obtain rfl : b = b' := Option.some.inj (hb.symm.trans hb')
      exact of_decide_eq_true hkey (htp.symm.trans htp')
    exact ⟨b, (List.getElem?_set_ne hne).trans hb, htp, hlive⟩

theorem queued_drain (h : Queued pending flushed batches) :
    Queued [] (flushed ++ pending.map Prod.snd) (stopTimers pending batches) := by
  refine ⟨List.nodup_nil, ?_, fun e he => absurd he List.not_mem_nil⟩
  rw [stopTimers, List.length_mapIdx, List.map_nil, List.nil_append]
  exact List.perm_append_comm.trans h.once

end Queues

section Telling

variable {sent : List (Nat × BatchResult)} {flushes : List Flush}
  {batches batches' : List PendingBatch} {sends : List Send} {pb : PendingBatch} {f : Flush}
  {j k w : Nat} {r : BatchResult}

def Delivered (batches : List PendingBatch) (f : Flush) (w : Nat) (r : BatchResult) : Prop :=
  ∃ pb outcome next i, batches[f.batch]? = some pb ∧ f.phase = .answering outcome next ∧
    i < next ∧ pb.waiters[i]? = some w ∧ pb.result outcome i = r

/-- The results sent are those of the waiters that the flushes have come past,
and a channel holds nothing else. -/
structure Told (sent : List (Nat × BatchResult)) (flushes : List Flush)
    (batches : List PendingBatch) (sends : List Send) : Prop where
  once : (sent.map Prod.fst).Nodup
  delivered : ∀ w r, (w, r) ∈ sent ↔ ∃ f ∈ flushes, Delivered batches f w r
  skipped : ∀ f ∈ flushes, f.phase = .skipped →
    ∀ pb : PendingBatch, batches[f.batch]? = some pb → pb.waiters = []
  waiter : ∀ i (call : Send), sends[i]? = some call → call.waiter ≠ [] → i ∈ sent.map Prod.fst

theorem same_view {b : PendingBatch}
    (h : batches'[k]?.map contents = batches[k]?.map contents) (hb : batches[k]? = some b) :
    ∃ b', batches'[k]? = some b' ∧ b'.records = b.records ∧ b'.waiters = b.waiters := by
  rw [hb, Option.map_some, Option.map_eq_some_iff] at h
  obtain ⟨b', hb', hsame⟩ := h
  simp only [contents, Prod.mk.injEq] at hsame
  exact ⟨b', hb', hsame.2.1, hsame.2.2⟩

theorem delivered_mono (h : batches'[f.batch]?.map contents = batches[f.batch]?.map contents)
    (hdelivered : Delivered batches f w r) : Delivered batches' f w r := by
  obtain ⟨b, outcome, next, i, hb, hphase, hi, hw, hr⟩ := hdelivered
  obtain ⟨b', hb', hrecords, hwaiters⟩ := same_view h hb
  refine ⟨b', outcome, next, i, hb', hphase, hi, hwaiters ▸ hw, ?_⟩
  rw [← hr]
  simp only [PendingBatch.result, hrecords]

theorem told_batches (h : Told sent flushes batches sends)
    (hview : ∀ f ∈ flushes, batches'[f.batch]?.map contents = batches[f.batch]?.map contents) :
    Told sent flushes batches' sends := by
  refine ⟨h.once, ?_, ?_, h.waiter⟩
  · intro w r
    rw [h.delivered w r]
    constructor
    · rintro ⟨f, hf, hdelivered⟩
      exact ⟨f, hf, delivered_mono (hview f hf) hdelivered⟩
    · rintro ⟨f, hf, hdelivered⟩
      exact ⟨f, hf, delivered_mono (hview f hf).symm hdelivered⟩
  · intro f hf hphase b' hb'
    obtain ⟨b, hb, -, hwaiters⟩ := same_view (hview f hf).symm hb'
    rw [← hwaiters]
    exact h.skipped f hf hphase b hb

theorem told_queue (ks : List Nat) (h : Told sent flushes batches sends) :
    Told sent (flushes ++ ks.map fun k => ⟨k, .queued⟩) batches sends := by
  have hnew : ∀ f ∈ ks.map fun k => (⟨k, .queued⟩ : Flush), f.phase = .queued := by
    intro f hf
    obtain ⟨k, -, rfl⟩ := List.mem_map.mp hf
    rfl
  refine ⟨h.once, ?_, ?_, h.waiter⟩
  · intro w r
    rw [h.delivered w r]
    constructor
    · rintro ⟨f, hf, hdelivered⟩
      exact ⟨f, List.mem_append_left _ hf, hdelivered⟩
    · rintro ⟨f, hf, hdelivered⟩
      rcases List.mem_append.mp hf with hold | hqueued
      · exact ⟨f, hold, hdelivered⟩
      · obtain ⟨_, _, _, _, _, hphase, _⟩ := hdelivered
        rw [hnew f hqueued] at hphase
        cases hphase
  · intro f hf hphase
    rcases List.mem_append.mp hf with hold | hqueued
    · exact h.skipped f hold hphase
    · rw [hnew f hqueued] at hphase
      cases hphase

theorem told_advance {phase : FlushPhase} (h : Told sent flushes batches sends)
    (hf : flushes[j]? = some f) (hbefore : ∀ outcome next, f.phase ≠ .answering outcome next)
    (hafter : ∀ outcome next, phase = .answering outcome next → next = 0)
    (hskip : phase = .skipped →
      ∀ pb : PendingBatch, batches[f.batch]? = some pb → pb.waiters = []) :
    Told sent (flushes.set j ⟨f.batch, phase⟩) batches sends := by
  refine ⟨h.once, ?_, ?_, h.waiter⟩
  · intro w r
    rw [h.delivered w r]
    constructor
    · rintro ⟨g, hg, hdelivered⟩
      refine ⟨g, ?_, hdelivered⟩
      obtain ⟨m, hm⟩ := List.mem_iff_getElem?.mp hg
      have hne : j ≠ m := by
        rintro rfl
        obtain rfl : f = g := Option.some.inj (hf.symm.trans hm)
        obtain ⟨_, outcome, next, _, _, hphase, _⟩ := hdelivered
        exact hbefore outcome next hphase
      exact List.mem_of_getElem? ((List.getElem?_set_ne hne).trans hm)
    · rintro ⟨g, hg, hdelivered⟩
      rcases List.mem_or_eq_of_mem_set hg with hold | rfl
      · exact ⟨g, hold, hdelivered⟩
      · obtain ⟨_, outcome, next, i, _, hphase, hi, _⟩ := hdelivered
        rw [hafter outcome next hphase] at hi
        cases hi
  · intro g hg hphase
    rcases List.mem_or_eq_of_mem_set hg with hold | rfl
    · exact h.skipped g hold hphase
    · exact hskip hphase

theorem told_sends {sends' : List Send} (h : Told sent flushes batches sends)
    (hwaiter : ∀ i (call : Send), sends'[i]? = some call → call.waiter ≠ [] →
      i ∈ sent.map Prod.fst) : Told sent flushes batches sends' :=
  ⟨h.once, h.delivered, h.skipped, hwaiter⟩

theorem told_call {i : Nat} {call call' : Send} (h : Told sent flushes batches sends)
    (hcall : sends[i]? = some call) (hwaiter : call'.waiter ≠ [] → call.waiter ≠ []) :
    Told sent flushes batches (sends.set i call') := by
  apply told_sends h
  intro m called hcalled hfull
  rw [getElem?_set_of_some hcall] at hcalled
  split at hcalled
  · rename_i him
    subst him
    obtain rfl := Option.some.inj hcalled
    exact h.waiter i call hcall (hwaiter hfull)
  · exact h.waiter m called hcalled hfull

theorem same_batch {b : PendingBatch} {m : Nat}
    (honce : (batches.flatMap PendingBatch.waiters).Nodup) (hk : batches[k]? = some pb)
    (hm : batches[m]? = some b) (hpb : w ∈ pb.waiters) (hb : w ∈ b.waiters) : k = m := by
  obtain ⟨hklt, rfl⟩ := List.getElem?_eq_some_iff.mp hk
  obtain ⟨hmlt, rfl⟩ := List.getElem?_eq_some_iff.mp hm
  have hdisjoint := List.pairwise_iff_getElem.mp (List.nodup_flatMap.mp honce).2
  rcases Nat.lt_trichotomy k m with hlt | rfl | hgt
  · exact absurd hb (hdisjoint k m hklt hmlt hlt hpb)
  · rfl
  · exact absurd hpb (hdisjoint m k hmlt hklt hgt hb)

theorem same_flush {g : Flush} {m : Nat} (honce : (flushes.map Flush.batch).Nodup)
    (hf : flushes[j]? = some f) (hg : flushes[m]? = some g) (hbatch : f.batch = g.batch) :
    j = m := by
  have hlt : j < (flushes.map Flush.batch).length := by
    rw [List.length_map]
    exact (List.getElem?_eq_some_iff.mp hf).1
  apply (List.getElem?_inj hlt honce).mp
  rw [List.getElem?_map, List.getElem?_map, hf, hg, Option.map_some, Option.map_some, hbatch]

theorem not_sent {entries : Nat → Option (TopicPartition × Record)}
    {outcome : Except ProducerError Int64} {next : Nat} (h : Told sent flushes batches sends)
    (hfiled : Filed batches entries) (honce : (flushes.map Flush.batch).Nodup)
    (hf : flushes[j]? = some ⟨k, .answering outcome next⟩) (hpb : batches[k]? = some pb)
    (hw : pb.waiters[next]? = some w) : w ∉ sent.map Prod.fst := by
  intro hsent
  obtain ⟨⟨w', r⟩, hmem, rfl⟩ := List.mem_map.mp hsent
  obtain ⟨g, hg, b, outcome', next', i, hb, hphase, hi, hbw, -⟩ := (h.delivered w' r).mp hmem
  -- The result came from a flush of the same batch, so from this one, at an earlier place.
  have hbatch : k = g.batch :=
    same_batch hfiled.once hpb hb (List.mem_of_getElem? hw) (List.mem_of_getElem? hbw)
  obtain ⟨m, hm⟩ := List.mem_iff_getElem?.mp hg
  obtain rfl := same_flush honce hf hm hbatch
  obtain rfl := Option.some.inj (hf.symm.trans hm)
  obtain rfl : pb = b := Option.some.inj (hpb.symm.trans hb)
  obtain ⟨-, rfl⟩ := FlushPhase.answering.inj hphase
  have hnodup := (List.nodup_flatMap.mp hfiled.once).1 pb (List.mem_of_getElem? hpb)
  have hlt := (List.getElem?_eq_some_iff.mp hbw).1
  exact absurd ((List.getElem?_inj hlt hnodup).mp (hbw.trans hw.symm)) (Nat.ne_of_lt hi)

theorem told_answer {outcome : Except ProducerError Int64} {next : Nat} {call : Send}
    (h : Told sent flushes batches sends) (hf : flushes[j]? = some ⟨k, .answering outcome next⟩)
    (hpb : batches[k]? = some pb) (hw : pb.waiters[next]? = some w) (hcall : sends[w]? = some call)
    (hnew : w ∉ sent.map Prod.fst) :
    Told (sent ++ [(w, pb.result outcome next)])
      (flushes.set j ⟨k, .answering outcome (next + 1)⟩) batches
      (sends.set w { call with waiter := [pb.result outcome next] }) := by
  have hset : ⟨k, .answering outcome (next + 1)⟩ ∈
      flushes.set j ⟨k, .answering outcome (next + 1)⟩ :=
    List.mem_of_getElem? (List.getElem?_set_self (List.getElem?_eq_some_iff.mp hf).1)
  refine ⟨?_, ?_, ?_, ?_⟩
  · rw [List.map_append, List.map_singleton, ← List.concat_eq_append]
    exact h.once.concat hnew
  · intro v r
    rw [List.mem_append, List.mem_singleton, h.delivered v r]
    constructor
    · rintro (⟨g, hg, hdelivered⟩ | hlast)
      · obtain ⟨m, hm⟩ := List.mem_iff_getElem?.mp hg
        by_cases hjm : j = m
        · subst hjm
          obtain rfl := Option.some.inj (hf.symm.trans hm)
          obtain ⟨b, outcome', next', i, hb, hphase, hi, hv, hr⟩ := hdelivered
          obtain ⟨rfl, rfl⟩ := FlushPhase.answering.inj hphase
          exact ⟨_, hset, b, _, _, i, hb, rfl, Nat.lt_succ_of_lt hi, hv, hr⟩
        · exact ⟨g, List.mem_of_getElem? ((List.getElem?_set_ne hjm).trans hm), hdelivered⟩
      · obtain ⟨rfl, rfl⟩ := Prod.mk.inj hlast
        exact ⟨_, hset, pb, _, _, next, hpb, rfl, Nat.lt_succ_self next, hw, rfl⟩
    · rintro ⟨g, hg, hdelivered⟩
      rcases List.mem_or_eq_of_mem_set hg with hold | rfl
      · exact .inl ⟨g, hold, hdelivered⟩
      · obtain ⟨b, outcome', next', i, hb, hphase, hi, hv, hr⟩ := hdelivered
        obtain ⟨rfl, rfl⟩ := FlushPhase.answering.inj hphase
        obtain rfl : pb = b := Option.some.inj (hpb.symm.trans hb)
        rcases Nat.lt_succ_iff_lt_or_eq.mp hi with hlt | rfl
        · exact .inl ⟨_, List.mem_of_getElem? hf, pb, _, _, i, hpb, rfl, hlt, hv, hr⟩
        · obtain rfl : w = v := Option.some.inj (hw.symm.trans hv)
          exact .inr (congrArg (Prod.mk w) hr.symm)
  · intro g hg hphase
    rcases List.mem_or_eq_of_mem_set hg with hold | rfl
    · exact h.skipped g hold hphase
    · cases hphase
  · intro i call' hcall' hwaiter
    rw [getElem?_set_of_some hcall] at hcall'
    rw [List.map_append, List.mem_append]
    split at hcall'
    · rename_i hwi
      subst hwi
      exact .inr List.mem_cons_self
    · exact .inl (h.waiter i call' hcall' hwaiter)

end Telling

end MiniKafka.BatchLedger
