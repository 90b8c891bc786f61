import MiniKafka.BatchSteps
import MiniKafka.Runs

/-!
Every record that `Send` enqueues is flushed with one batch, and its waiter is
sent one result.

The exception is a connection that `Close` takes away from a request that is
going to use it: the writer or the reader is nil then, and the process ends in a
panic.
-/

namespace MiniKafka.BatchFanOut

open BatchLedger BatchSteps Frames ProducerBatches RecordCodec Runs

def waitersOf (s : Producer) (k : Nat) : List Nat :=
  (s.batches[k]?.map PendingBatch.waiters).getD []

def unflushed (s : Producer) : List Nat := s.pending.flatMap fun e => waitersOf s e.2

def flushed (s : Producer) : List Nat := s.flushes.flatMap fun f => waitersOf s f.batch

def Enqueued (s : Producer) (i : Nat) : Prop :=
  ∃ call : Send, s.sends[i]? = some call ∧ call.phase.enqueued = true

def resultsOf (s : Producer) (i : Nat) : List BatchResult :=
  (s.sent.filter fun e => decide (e.1 = i)).map Prod.snd

/-- No call is enqueuing, no batch is pending and no flush is on its way. -/
def AtRest (s : Producer) : Prop :=
  s.batchMu = none ∧ s.pending = [] ∧ ∀ f ∈ s.flushes, s.finished f = true

structure FansOut (s : Producer) : Prop where
  running : s.panicked = false
  once : (unflushed s ++ flushed s).Nodup
  enqueued : ∀ i, Enqueued s i ↔ i ∈ unflushed s ++ flushed s
  ownRecord : ∀ pb ∈ s.batches, ∀ i w : Nat, pb.waiters[i]? = some w →
    ∃ call : Send, s.sends[w]? = some call ∧ call.tp = pb.tp ∧ pb.records[i]? = some call.record
  oneResult : ∀ i, (resultsOf s i).length ≤ 1
  unblocked : ∀ f ∈ s.flushes, ∀ outcome next w, f.phase = .answering outcome next →
    (waitersOf s f.batch)[next]? = some w →
      ∃ call : Send, s.sends[w]? = some call ∧ call.waiter = []
  ownOffset : ∀ f ∈ s.flushes, ∀ base next i w, f.phase = .answering (.ok base) next → i < next →
    (waitersOf s f.batch)[i]? = some w → resultsOf s w = [.ok (base + Int64.ofNat i)]
  drained : ∀ c ∈ s.closes, drained c = true → s.pending = []
  settled : AtRest s → ∀ i, Enqueued s i → (flushed s).count i = 1 ∧ (resultsOf s i).length = 1

/-- The steps that need no caller: a call that holds `batch.mu` goes on, timers
run out, and flushes proceed. -/
def fromBatcher : Producer → ProducerEvent → Bool
  | _, .send _ _ _ => false
  | _, .enter _ => false
  | _, .receive _ => false
  | _, .cancel _ => false
  | _, .close => false
  | _, .drain _ => false
  | _, .finalize _ => false
  | _, _ => true

/-- Left to itself, the batcher comes to rest, whatever the order of its steps. -/
def Settles (cfg : ProducerConfig) (crc : Checksum) (s : Producer) : Prop :=
  ∃ bound, ∀ more t, Run (Guarded fromBatcher (Producer.step cfg crc)) s more t →
    more.length ≤ bound ∧ ((∀ e, fromBatcher t e = true → t.step cfg crc e = none) → AtRest t)

section FanOut

variable {s : Producer} {f : Flush} {i w : Nat} {r : BatchResult}

theorem enqueued_iff : Enqueued s i ↔ (ledger s.sends i).isSome = true := by
  rw [Enqueued, ledger]
  cases s.sends[i]? with
  | none => simp
  | some call =>
    simp only [Option.some.injEq, exists_eq_left', Option.bind_some]
    cases call.phase.enqueued <;> simp

theorem flatMap_range {α β : Type} (l : List α) (g : α → List β) :
    ((List.range l.length).flatMap fun k => (l[k]?.map g).getD []) = l.flatMap g := by
  rw [List.flatMap_def, List.flatMap_def]
  apply congrArg
  apply List.ext_getElem?
  intro m
  rw [List.getElem?_map, List.getElem?_map]
  by_cases hlt : m < l.length
  · rw [List.getElem?_range hlt, Option.map_some, List.getElem?_eq_getElem hlt]
    rfl
  · have hge := Nat.le_of_not_lt hlt
    rw [List.getElem?_eq_none hge, List.getElem?_eq_none (by rwa [List.length_range])]
    rfl

theorem perm_waiters (h : Sound s) :
    (unflushed s ++ flushed s).Perm (s.batches.flatMap PendingBatch.waiters) := by
  have hparts : unflushed s ++ flushed s =
      (s.pending.map Prod.snd ++ s.flushes.map Flush.batch).flatMap (waitersOf s) := by
    rw [List.flatMap_append, List.flatMap_map, List.flatMap_map]
    rfl
  rw [hparts, ← flatMap_range s.batches]
  exact h.queued.once.flatMap_right (waitersOf s)

theorem filed_iff (h : Sound s) : Enqueued s i ↔ i ∈ s.batches.flatMap PendingBatch.waiters := by
  rw [enqueued_iff]
  constructor
  · exact h.filed.filed i
  · intro hmem
    obtain ⟨pb, hpb, hi⟩ := List.mem_flatMap.mp hmem
    exact waiters_filed h.filed hpb hi

theorem ownRecord {pb : PendingBatch} (h : Sound s) (hpb : pb ∈ s.batches)
    (hw : pb.waiters[i]? = some w) :
    ∃ call : Send, s.sends[w]? = some call ∧ call.tp = pb.tp ∧
      pb.records[i]? = some call.record := by
  have hown := congrArg (fun l => l[i]?) (h.filed.own pb hpb)
  simp only [List.getElem?_map, hw, Option.map_some, Option.map_eq_some_iff] at hown
  obtain ⟨r, hr, hledger⟩ := hown
  rw [ledger, eq_comm, Option.bind_eq_some_iff] at hledger
  obtain ⟨call, hcall, hentry⟩ := hledger
  split at hentry
  · simp only [Option.some.injEq, Prod.mk.injEq] at hentry
    exact ⟨call, hcall, hentry.1, hentry.2 ▸ hr⟩
  · cases hentry

theorem length_resultsOf : (resultsOf s i).length = (s.sent.map Prod.fst).count i := by
  rw [resultsOf, List.length_map, ← List.countP_eq_length_filter, List.count, List.countP_map]
  rfl

theorem length_resultsOf_le (h : Sound s) : (resultsOf s i).length ≤ 1 := by
  rw [length_resultsOf]
  exact List.nodup_iff_count_le_one.mp h.told.once i

theorem resultsOf_eq (h : Sound s) (hsent : (w, r) ∈ s.sent) : resultsOf s w = [r] := by
  have hmem : r ∈ resultsOf s w := by
    rw [resultsOf, List.mem_map]
    exact ⟨(w, r), List.mem_filter.mpr ⟨hsent, decide_eq_true rfl⟩, rfl⟩
  obtain ⟨x, hx⟩ := List.length_eq_one_iff.mp
    (Nat.le_antisymm (length_resultsOf_le h) (List.length_pos_of_mem hmem))
  rw [hx, List.mem_singleton] at hmem
  rw [hx, hmem]

theorem waitersOf_eq {pb : PendingBatch} {k : Nat} (hpb : s.batches[k]? = some pb) :
    waitersOf s k = pb.waiters := by
  rw [waitersOf, hpb]
  rfl

theorem batch_of_flush (h : Sound s) (hf : f ∈ s.flushes) :
    ∃ pb, s.batches[f.batch]? = some pb := by
  have hbatch : f.batch ∈ List.range s.batches.length :=
    h.queued.once.subset (List.mem_append_right _ (List.mem_map_of_mem hf))
  exact ⟨_, List.getElem?_eq_getElem (List.mem_range.mp hbatch)⟩

theorem unblocked {outcome : Except ProducerError Int64} {next : Nat} (h : Sound s)
    (hf : f ∈ s.flushes) (hphase : f.phase = .answering outcome next)
    (hw : (waitersOf s f.batch)[next]? = some w) :
    ∃ call : Send, s.sends[w]? = some call ∧ call.waiter = [] := by
  obtain ⟨pb, hpb⟩ := batch_of_flush h hf
  rw [waitersOf_eq hpb] at hw
  obtain ⟨call, hcall, -, -⟩ := ownRecord h (List.mem_of_getElem? hpb) hw
  refine ⟨call, hcall, ?_⟩
  by_contra hfull
  obtain ⟨j, hj⟩ := List.mem_iff_getElem?.mp hf
  have hanswering : s.flushes[j]? = some ⟨f.batch, .answering outcome next⟩ := by
    rw [hj, ← hphase]
  exact not_sent h.told h.filed (flushed_nodup h) hanswering hpb hw
    (h.told.waiter w call hcall hfull)

theorem result_ok {pb : PendingBatch} {base : Int64} (hi : i < pb.records.length) :
    pb.result (.ok base) i = .ok (base + Int64.ofNat i) := by
  simp only [PendingBatch.result, offsets, List.getElem?_map, List.getElem?_range hi,
    Option.map_some]

theorem ownOffset {base : Int64} {next : Nat} (h : Sound s) (hf : f ∈ s.flushes)
    (hphase : f.phase = .answering (.ok base) next) (hi : i < next)
    (hw : (waitersOf s f.batch)[i]? = some w) :
    resultsOf s w = [.ok (base + Int64.ofNat i)] := by
  obtain ⟨pb, hpb⟩ := batch_of_flush h hf
  rw [waitersOf_eq hpb] at hw
  obtain ⟨call, -, -, hrecord⟩ := ownRecord h (List.mem_of_getElem? hpb) hw
  apply resultsOf_eq h
  rw [h.told.delivered]
  exact ⟨f, hf, pb, _, next, i, hpb, hphase, hi, hw,
    result_ok (List.getElem?_eq_some_iff.mp hrecord).1⟩

theorem answering_of_finished {pb : PendingBatch} (h : Sound s) (hf : f ∈ s.flushes)
    (hpb : s.batches[f.batch]? = some pb) (hfinished : s.finished f = true)
    (hw : w ∈ pb.waiters) :
    ∃ outcome next, f.phase = .answering outcome next ∧ pb.waiters.length ≤ next := by
  rw [Producer.finished] at hfinished
  split at hfinished
  · rename_i outcome next hphase
    rw [hpb] at hfinished
    exact ⟨outcome, next, hphase, of_decide_eq_true hfinished⟩
  · rename_i hphase
    rw [h.told.skipped f hf hphase pb hpb] at hw
    cases hw
  · cases hfinished

theorem resultsOf_waiter {pb : PendingBatch} {outcome : Except ProducerError Int64} {next : Nat}
    (h : Sound s) (hf : f ∈ s.flushes) (hpb : s.batches[f.batch]? = some pb)
    (hphase : f.phase = .answering outcome next) (hnext : pb.waiters.length ≤ next)
    (hi : pb.waiters[i]? = some w) : resultsOf s w = [pb.result outcome i] := by
  apply resultsOf_eq h
  rw [h.told.delivered]
  exact ⟨f, hf, pb, outcome, next, i, hpb, hphase,
    Nat.lt_of_lt_of_le (List.getElem?_eq_some_iff.mp hi).1 hnext, hi, rfl⟩

theorem answered_of_finished (h : Sound s) (hf : f ∈ s.flushes) (hfinished : s.finished f = true)
    (hw : w ∈ waitersOf s f.batch) : (resultsOf s w).length = 1 := by
  obtain ⟨pb, hpb⟩ := batch_of_flush h hf
  rw [waitersOf_eq hpb] at hw
  obtain ⟨outcome, next, hphase, hnext⟩ := answering_of_finished h hf hpb hfinished hw
  obtain ⟨i, hi⟩ := List.mem_iff_getElem?.mp hw
  rw [resultsOf_waiter h hf hpb hphase hnext hi]
  rfl

theorem fansOut_of_sound (h : Sound s) : FansOut s where
  running := h.running
  once := (perm_waiters h).nodup_iff.mpr h.filed.once
  enqueued := fun i => by rw [filed_iff h, (perm_waiters h).mem_iff]
  ownRecord := fun pb hpb i w hw => ownRecord h hpb hw
  oneResult := fun i => length_resultsOf_le h
  unblocked := fun f hf outcome next w hphase hw => unblocked h hf hphase hw
  ownOffset := fun f hf base next i w hphase hi hw => ownOffset h hf hphase hi hw
  drained := fun c hc hdrained => (h.closes.drained c hc hdrained).1
  settled := by
    rintro ⟨-, hpending, hfinished⟩ i hi
    have hempty : unflushed s = [] := by
      rw [unflushed, hpending]
      rfl
    have hnodup := (perm_waiters h).nodup_iff.mpr h.filed.once
    have hmem := (perm_waiters h).mem_iff.mpr ((filed_iff h).mp hi)
    rw [hempty, List.nil_append] at hnodup hmem
    obtain ⟨f, hf, hw⟩ := List.mem_flatMap.mp hmem
    exact ⟨List.count_eq_one_of_mem hnodup hmem, answered_of_finished h hf (hfinished f hf) hw⟩

end FanOut

section Settling

variable {cfg : ProducerConfig} {crc : Checksum} {s t : Producer} {tp : TopicPartition}
  {pb : PendingBatch} {call : Send} {f : Flush} {i j k : Nat}

def timerCost : Timer → Nat
  | .armed => 2
  | .fired => 1
  | .stopped => 0

def lockCost : Option Nat → Nat
  | none => 0
  | some _ => 20

/-- The steps that the batcher has before it, weighted so that every step makes
the sum smaller. -/
def work (s : Producer) : Nat :=
  lockCost s.batchMu + 9 * s.pending.length +
    (s.batches.map fun pb => timerCost pb.timer).sum + (s.flushes.map fun f => cost f.phase).sum +
    ((s.batches.flatMap PendingBatch.waiters).length - s.sent.length)

theorem sum_map_set {α : Type} {l : List α} {a : α} (b : α) (g : α → Nat) (h : l[i]? = some a) :
    ((l.set i b).map g).sum + g a = (l.map g).sum + g b := by
  induction l generalizing i with
  | nil => cases h
  | cons x rest ih =>
    cases i with
    | zero =>
      obtain rfl : x = a := Option.some.inj h
      simp only [List.set_cons_zero, List.map_cons, List.sum_cons]
      omega
    | succ i =>
      have hrest := ih h
      simp only [List.set_cons_succ, List.map_cons, List.sum_cons]
      omega

theorem length_sent_le (h : Sound s) :
    s.sent.length ≤ (s.batches.flatMap PendingBatch.waiters).length := by
  rw [← List.length_map (f := Prod.fst)]
  apply (h.told.once.subperm ?_).length_le
  intro w hw
  obtain ⟨⟨w', r⟩, hsent, rfl⟩ := List.mem_map.mp hw
  obtain ⟨f, -, pb, -, -, i, hpb, -, -, hi, -⟩ := (h.told.delivered w' r).mp hsent
  exact List.mem_flatMap.mpr ⟨pb, List.mem_of_getElem? hpb, List.mem_of_getElem? hi⟩

theorem work_retime {timer : Timer} (hpb : s.batches[k]? = some pb)
    (hcost : timerCost timer < timerCost pb.timer) :
    work { s with batches := s.batches.set k { pb with timer } } < work s := by
  have htimers := sum_map_set { pb with timer } (fun pb => timerCost pb.timer) hpb
  have hwaiters := flatMap_waiters_congr (map_contents_set timer hpb)
  simp only [work, hwaiters] at htimers ⊢
  omega

theorem work_detach {timer : Timer} (h : Sound s) (hmem : (tp, k) ∈ s.pending)
    (hpb : s.batches[k]? = some pb) (hcost : timerCost timer ≤ timerCost pb.timer) :
    work (s.detach tp k pb timer) < work s := by
  have htimers := sum_map_set { pb with timer } (fun pb => timerCost pb.timer) hpb
  have hwaiters := flatMap_waiters_congr (map_contents_set timer hpb)
  have hlength := (perm_filter_key h.queued.keys hmem).length_eq
  have hqueued : cost .queued = 7 := rfl
  simp only [work, Producer.detach, hwaiters, List.map_append, List.map_singleton,
    List.sum_append, List.sum_singleton, hqueued, List.length_cons] at htimers hlength ⊢
  omega

theorem timerCost_stop (timer : Timer) : timerCost timer.stop ≤ timerCost timer := by
  cases timer <;> decide

theorem work_openBatch (s : Producer) (tp : TopicPartition) :
    work (s.openBatch tp).1 ≤ work s + 11 := by
  rw [Producer.openBatch]
  split
  · exact Nat.le_add_right _ _
  · have harmed : timerCost (newPendingBatch tp).timer = 2 := rfl
    have hempty : (newPendingBatch tp).waiters = [] := rfl
    simp only [work, List.length_append, List.length_singleton, List.map_append,
      List.map_singleton, List.sum_append, List.sum_singleton, List.flatMap_append,
      List.flatMap_singleton, harmed, hempty, List.length_nil]
    omega

theorem work_appended (call : Send) (h : Sound s) (hlock : s.batchMu = some i)
    (hpb : s.batches[k]? = some pb) : work (appended s i call k pb) + 19 = work s := by
  have htimers := sum_map_set (pb.append call.record i) (fun pb => timerCost pb.timer) hpb
  have hwaiters := (flatMap_waiters_append i call.record hpb).length_eq
  have htimer : (pb.append call.record i).timer = pb.timer := rfl
  have hsent := length_sent_le h
  simp only [work, appended, hlock, lockCost, hwaiters, List.length_cons, htimer] at htimers ⊢
  omega

theorem work_enqueue (h : Sound s) (hstep : s.next cfg crc (.enqueue i) = some t) :
    work t < work s := by
  obtain ⟨call, k, pb, hopen, hheld, hpb, happended, hmem, ht⟩ := enqueue_spec h hstep
  have hopened := work_openBatch s call.tp
  have hwork := work_appended call hopen hheld hpb
  rcases ht with rfl | rfl
  · omega
  · have hdetach := work_detach happended hmem (getElem?_appended hpb) (timerCost_stop pb.timer)
    omega

theorem work_lingerFire (h : Sound s) (hstep : s.next cfg crc (.lingerFire k) = some t) :
    work t < work s := by
  obtain ⟨pb, hpb, hfired, ⟨hmem, rfl⟩ | ⟨-, rfl⟩⟩ := lingerFire_spec h hstep
  · exact work_detach h hmem hpb (Nat.zero_le _)
  · apply work_retime hpb
    rw [hfired]
    exact Nat.zero_lt_one

theorem work_advances (hadvances : Advances s t) : work t < work s := by
  obtain ⟨j, f, phase, reqMu, connected, nextID, hadvance, rfl⟩ := hadvances
  have hflushes := sum_map_set (⟨f.batch, phase⟩ : Flush) (fun f => cost f.phase) hadvance.found
  have hcheaper := hadvance.cheaper
  simp only [work] at hflushes ⊢
  omega

theorem work_answer (h : Sound s) (hstep : s.answer j = some t) : work t < work s := by
  have hsent := length_sent_le (sound_answer h hstep)
  obtain ⟨k, outcome, next, pb, w, call, hf, -, -, -, rfl⟩ := answer_spec hstep
  have hflushes := sum_map_set (⟨k, .answering outcome (next + 1)⟩ : Flush)
    (fun f => cost f.phase) hf
  simp only [work, Producer.setFlush, cost, List.length_append, List.length_singleton] at *
  omega

theorem work_step {e : ProducerEvent} (h : Sound s) (he : fromBatcher s e = true)
    (hstep : s.step cfg crc e = some t) : work t < work s := by
  rw [step_eq_next h] at hstep
  cases e with
  | send | enter | receive | cancel | close | drain | finalize => cases he
  | enqueue i => exact work_enqueue h hstep
  | fire k =>
    obtain ⟨pb, hpb, harmed, rfl⟩ := next_fire hstep
    apply work_retime hpb
    rw [harmed]
    exact Nat.lt_succ_self 1
  | lingerFire k => exact work_lingerFire h hstep
  | answer j => exact work_answer h hstep
  | _ => exact work_advances (advances_of_next h rfl hstep)

theorem work_run {more : List ProducerEvent} (h : Sound s)
    (hrun : Run (Guarded fromBatcher (Producer.step cfg crc)) s more t) :
    Sound t ∧ more.length + work t ≤ work s := by
  induction hrun with
  | nil => exact ⟨h, Nat.le_of_eq (Nat.zero_add _)⟩
  | @snoc as e t u _ hlast ih =>
    obtain ⟨hsound, hwork⟩ := ih
    have hguard : closesIdle t e = true := by
      cases e <;> first | rfl | cases hlast.1
    have hless := work_step hsound hlast.1 hlast.2
    refine ⟨sound_step hsound hguard hlast.2, ?_⟩
    rw [List.length_append, List.length_singleton]
    omega

/-- The flush that holds `reqMu` is not held up by anyone. -/
theorem holder_moves (h : Sound s) (hf : s.flushes[j]? = some f)
    (hholds : holdsReqMu f.phase = true) :
    ∃ e, fromBatcher s e = true ∧ s.step cfg crc e ≠ none := by
  obtain ⟨k, phase⟩ := f
  cases phase with
  | queued | framed | answering | skipped => cases hholds
  | locked frame => exact ⟨.connect j false, rfl, by simp [step_eq_next h, Producer.next, hf]⟩
  | writing frame =>
    refine ⟨.write j false, rfl, ?_⟩
    rw [step_eq_next h]
    simp only [Producer.next, hf]
    split <;> simp
  | flushing frame => exact ⟨.flush j false, rfl, by simp [step_eq_next h, Producer.next, hf]⟩
  | reading frame => exact ⟨.read j, rfl, by simp [step_eq_next h, Producer.next, hf]⟩
  | awaiting frame => exact ⟨.respond j none, rfl, by simp [step_eq_next h, Producer.next, hf]⟩

theorem flush_moves (h : Sound s) (hf : s.flushes[j]? = some f) (hfinished : s.finished f = false) :
    ∃ e, fromBatcher s e = true ∧ s.step cfg crc e ≠ none := by
  by_cases hholds : holdsReqMu f.phase = true
  · exact holder_moves h hf hholds
  · obtain ⟨pb, hpb⟩ := batch_of_flush h (List.mem_of_getElem? hf)
    obtain ⟨k, phase⟩ := f
    cases phase with
    | locked | writing | flushing | reading | awaiting => exact absurd rfl hholds
    | skipped => cases hfinished
    | queued =>
      refine ⟨.frame j, rfl, ?_⟩
      rw [step_eq_next h]
      simp only [Producer.next, hf, hpb]
      split
      · simp
      · split <;> simp
    | framed frame =>
      cases hreq : s.reqMu with
      | none =>
        exact ⟨.lock j, rfl, by simp [step_eq_next h, Producer.next, hf, hreq]⟩
      | some m =>
        -- This flush waits for the lock, and the one that has it goes on.
        obtain ⟨g, hg, hheld⟩ := Option.map_eq_some_iff.mp ((h.requests.holder m).mp hreq)
        exact holder_moves h hg hheld
    | answering outcome next =>
      have hlt : next < pb.waiters.length := by
        simpa [Producer.finished, hpb] using hfinished
      obtain ⟨call, hcall, hempty⟩ := unblocked h (List.mem_of_getElem? hf) rfl
        (by rw [waitersOf_eq hpb]; exact List.getElem?_eq_getElem hlt)
      refine ⟨.answer j, rfl, ?_⟩
      simp [step_eq_next h, Producer.next, Producer.answer, hf, hpb,
        List.getElem?_eq_getElem hlt, hcall, hempty]

theorem enqueue_moves (h : Sound s) (hlock : s.batchMu = some i) :
    ∃ e, fromBatcher s e = true ∧ s.step cfg crc e ≠ none := by
  obtain ⟨call, hcall, hphase⟩ := Option.map_eq_some_iff.mp ((h.holder i).mp hlock)
  obtain ⟨hopen, hmem, -, -⟩ := openBatch_spec call.tp h hlock
  obtain ⟨pb, hpb, -, -⟩ := hopen.queued.named _ hmem
  refine ⟨.enqueue i, rfl, ?_⟩
  rw [step_eq_next h]
  simp only [Producer.next, hcall, hphase, Producer.enqueue, if_true, hpb]
  split <;> simp

theorem pending_moves {e : TopicPartition × Nat} (h : Sound s) (hfree : s.batchMu = none)
    (he : e ∈ s.pending) : ∃ e, fromBatcher s e = true ∧ s.step cfg crc e ≠ none := by
  obtain ⟨pb, hpb, -, hlive⟩ := h.queued.named e he
  cases htimer : pb.timer with
  | armed => exact ⟨.fire e.2, rfl, by simp [step_eq_next h, Producer.next, hpb, htimer]⟩
  | fired =>
    exact ⟨.lingerFire e.2, rfl,
      by simp [step_eq_next h, Producer.next, hpb, htimer, hfree]⟩
  | stopped => exact absurd htimer hlive

theorem atRest_of_stuck (h : Sound s)
    (hstuck : ∀ e, fromBatcher s e = true → s.step cfg crc e = none) : AtRest s := by
  have hstop : ¬ ∃ e, fromBatcher s e = true ∧ s.step cfg crc e ≠ none := by
    rintro ⟨e, he, hstep⟩
    exact hstep (hstuck e he)
  have hfree : s.batchMu = none := by
    cases hlock : s.batchMu with
    | none => rfl
    | some i => exact absurd (enqueue_moves h hlock) hstop
  refine ⟨hfree, ?_, ?_⟩
  · apply List.eq_nil_iff_forall_not_mem.mpr
    intro e he
    exact hstop (pending_moves h hfree he)
  · intro f hf
    obtain ⟨j, hj⟩ := List.mem_iff_getElem?.mp hf
    by_contra hfinished
    exact hstop (flush_moves h hj (Bool.eq_false_iff.mpr hfinished))

theorem settles_of_sound (h : Sound s) : Settles cfg crc s := by
  refine ⟨work s, fun more t hrun => ?_⟩
  obtain ⟨hsound, hwork⟩ := work_run h hrun
  exact ⟨Nat.le_trans (Nat.le_add_right _ _) hwork, atRest_of_stuck hsound⟩

end Settling

/-- In every run in which `Close` takes the connection down only while no request
is using it, each enqueued record is in one batch, each waiter is sent one
result and the offset of its own record, and the drained map stays empty. -/
theorem batches_fan_out {cfg : ProducerConfig} {crc : Checksum} {events : List ProducerEvent}
    {s : Producer} (hrun : Run (Guarded closesIdle (Producer.step cfg crc)) newProducer events s) :
    FansOut s ∧ Settles cfg crc s := by
  have hsound : Sound s := by
    apply hrun.invariant sound_newProducer
    intro s e t h hstep
    exact sound_step h hstep.1 hstep.2
  exact ⟨fansOut_of_sound hsound, settles_of_sound hsound⟩

def oneTopic : TopicPartition := ⟨[116], 0⟩

def stamped (value : UInt8) : Record := ⟨0, 1000, 0, none, some [value]⟩

def smallConfig : ProducerConfig := ⟨[99], 1, 30000, 16384⟩

def produced : ResponseFrame where
  size := 0
  correlationID := 1
  errorCode := 0
  payload := some [0, 0, 0, 1, 0, 1, 116, 0, 0, 0, 1, 0, 0, 0, 0, 0, 0, 0, 0, 0, 0, 0, 0, 0, 7, 0, 0, 0,
    0, 0, 0, 0, 0]

/-- Two records in one batch, which the timer flushes, and then `Close`. -/
def twoSends : List ProducerEvent :=
  [.send oneTopic (stamped 1) false, .send oneTopic (stamped 2) false, .enter 0, .enqueue 0,
    .enter 1, .enqueue 1, .fire 0, .lingerFire 0, .frame 0, .lock 0, .connect 0 true, .write 0 true,
    .flush 0 true, .read 0, .respond 0 (some produced), .answer 0, .answer 0, .receive 0,
    .receive 1, .close, .drain 0, .finalize 0]

theorem batches_fan_out_twoSends :
    ∃ s, Run (Guarded closesIdle (Producer.step smallConfig fun _ => 0)) newProducer twoSends s ∧
      s.sent = [(0, .ok 7), (1, .ok 8)] ∧ FansOut s ∧ Settles smallConfig (fun _ => 0) s := by
  have hsent : (execute closesIdle (Producer.step smallConfig fun _ => 0) newProducer twoSends).map
      Producer.sent = some [(0, .ok 7), (1, .ok 8)] := by
    decide +kernel
  obtain ⟨s, hrun, hs⟩ := exists_run_of_execute hsent
  exact ⟨s, hrun, hs, batches_fan_out hrun⟩

/-- The timer flushes the batch, and `Close` finds an empty map and takes the
connection down before the frame is written. -/
def closedUnderFlush : List ProducerEvent :=
  [.send oneTopic (stamped 1) false, .enter 0, .enqueue 0, .fire 0, .lingerFire 0, .frame 0,
    .lock 0, .connect 0 true, .close, .drain 0, .finalize 0, .write 0 true]

theorem waiter_without_result :
    ∃ s, Run (Guarded (fun _ _ => true) (Producer.step smallConfig fun _ => 0)) newProducer
        closedUnderFlush s ∧
      Enqueued s 0 ∧ resultsOf s 0 = [] ∧ ∀ e, s.step smallConfig (fun _ => 0) e = none := by
  have hend : (execute (fun _ _ => true) (Producer.step smallConfig fun _ => 0) newProducer
      closedUnderFlush).map (fun s => (s.panicked, s.sends.map Send.phase, s.sent)) =
        some (true, [.waiting], []) := by
    decide +kernel
  obtain ⟨s, hrun, hs⟩ := exists_run_of_execute hend
  simp only [Prod.mk.injEq] at hs
  obtain ⟨hpanicked, hphases, hsent⟩ := hs
  obtain ⟨call, hcall, hphase⟩ := List.map_eq_singleton_iff.mp hphases
  refine ⟨s, hrun, ⟨call, ?_, ?_⟩, ?_, ?_⟩
  · rw [hcall]
    rfl
  · rw [hphase]
    rfl
  · rw [resultsOf, hsent]
    rfl
  · intro e
    rw [Producer.step, hpanicked, if_pos rfl]

end MiniKafka.BatchFanOut
