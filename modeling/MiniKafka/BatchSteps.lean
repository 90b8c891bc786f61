import MiniKafka.BatchLedger

/-!
What every step of a batching producer preserves, as long as `Close` takes the
connection down only while no request is using it.
-/

namespace MiniKafka.BatchSteps

open BatchLedger Frames ProducerBatches RecordCodec

def holdsReqMu : FlushPhase → Bool
  | .locked _ => true
  | .writing _ => true
  | .flushing _ => true
  | .reading _ => true
  | .awaiting _ => true
  | _ => false

def usesConn : FlushPhase → Bool
  | .writing _ => true
  | .flushing _ => true
  | .reading _ => true
  | _ => false

def drained : ClosePhase → Bool
  | .closing _ => false
  | .draining _ => true
  | .returned drained => drained

/-- No request is between `getConn` and its last use of `p.bw` or `p.br` when
`Close` takes the connection down. -/
def closesIdle (s : Producer) : ProducerEvent → Bool
  | .finalize _ => s.finalized || s.flushes.all fun f => !usesConn f.phase
  | _ => true

section Invariant

def HoldsBatchMu (batchMu : Option Nat) (sends : List Send) : Prop :=
  ∀ i : Nat, batchMu = some i ↔ sends[i]?.map Send.phase = some .locked

structure Requests (reqMu : Option Nat) (connected : Bool) (flushes : List Flush) : Prop where
  holder : ∀ j : Nat, reqMu = some j ↔ (flushes[j]?.map fun f => holdsReqMu f.phase) = some true
  connected : ∀ f ∈ flushes, usesConn f.phase = true → connected = true

structure Closes (closes : List ClosePhase) (closed : Bool)
    (pending : List (TopicPartition × Nat)) (batchMu : Option Nat) : Prop where
  closed : ∀ c ∈ closes, c = .closing true ∨ drained c = true → closed = true
  drained : ∀ c ∈ closes, drained c = true → pending = [] ∧ batchMu = none

structure Sound (s : Producer) : Prop where
  running : s.panicked = false
  filed : Filed s.batches (ledger s.sends)
  queued : Queued s.pending (s.flushes.map Flush.batch) s.batches
  told : Told s.sent s.flushes s.batches s.sends
  holder : HoldsBatchMu s.batchMu s.sends
  requests : Requests s.reqMu s.connected s.flushes
  closes : Closes s.closes s.closed s.pending s.batchMu

theorem sound_newProducer : Sound newProducer where
  running := rfl
  filed := ⟨List.nodup_nil, fun _ h => absurd h List.not_mem_nil, fun i h => by cases h⟩
  queued := ⟨List.nodup_nil, List.Perm.refl _, fun _ h => absurd h List.not_mem_nil⟩
  told := {
    once := List.nodup_nil
    delivered := fun w r => by simp [newProducer]
    skipped := fun _ h => absurd h List.not_mem_nil
    waiter := fun i call h => by cases h }
  holder := fun i => by simp [newProducer]
  requests := ⟨fun j => by simp [newProducer], fun _ h => absurd h List.not_mem_nil⟩
  closes := ⟨fun _ h => absurd h List.not_mem_nil, fun _ h => absurd h List.not_mem_nil⟩

end Invariant

section Steps

variable {cfg : ProducerConfig} {crc : Checksum} {s t : Producer} {tp : TopicPartition}
  {pb : PendingBatch} {call : Send} {f : Flush} {i j k : Nat}

theorem requests_queue {reqMu : Option Nat} {connected : Bool} {flushes : List Flush}
    (ks : List Nat) (h : Requests reqMu connected flushes) :
    Requests reqMu connected (flushes ++ ks.map fun k => ⟨k, .queued⟩) := by
  constructor
  · intro j
    rw [h.holder j, List.getElem?_append]
    split
    · rfl
    · rename_i hlength
      rw [List.getElem?_eq_none (Nat.le_of_not_lt hlength), List.getElem?_map, Option.map_map]
      cases ks[j - flushes.length]? with
      | none => rfl
      | some k => simp [holdsReqMu]
  · intro f hf huses
    rcases List.mem_append.mp hf with hold | hnew
    · exact h.connected f hold huses
    · obtain ⟨k, -, rfl⟩ := List.mem_map.mp hnew
      cases huses

theorem holder_set {call' : Send} (h : HoldsBatchMu s.batchMu s.sends)
    (hcall : s.sends[i]? = some call) (hphase : call'.phase = .locked ↔ call.phase = .locked) :
    HoldsBatchMu s.batchMu (s.sends.set i call') := by
  intro m
  rw [h m, getElem?_set_of_some hcall]
  split
  · rename_i him
    subst him
    rw [hcall, Option.map_some, Option.map_some, Option.some.injEq, Option.some.injEq, hphase]
  · rfl

theorem flushed_nodup (h : Sound s) : (s.flushes.map Flush.batch).Nodup := by
  have hnodup := h.queued.once.nodup_iff.mpr List.nodup_range
  exact (List.nodup_append.mp hnodup).2.1

theorem not_flushed (h : Sound s) (hmem : (tp, k) ∈ s.pending) (hf : f ∈ s.flushes) :
    f.batch ≠ k := by
  have hnodup := h.queued.once.nodup_iff.mpr List.nodup_range
  intro hk
  exact (List.nodup_append.mp hnodup).2.2 k (List.mem_map_of_mem (f := Prod.snd) hmem) f.batch
    (List.mem_map_of_mem hf) hk.symm

theorem not_drained (h : Sound s) (hlock : s.batchMu = some i) {c : ClosePhase}
    (hc : c ∈ s.closes) : drained c ≠ true := by
  intro hdrained
  have hfree := (h.closes.drained c hc hdrained).2
  rw [hlock] at hfree
  cases hfree

theorem told_retime (h : Sound s) {batches : List PendingBatch}
    (hsame : batches.map contents = s.batches.map contents) :
    Told s.sent s.flushes batches s.sends := by
  apply told_batches h.told
  intro f _
  rw [← List.getElem?_map, ← List.getElem?_map, hsame]

theorem sound_retime {timer : Timer} (h : Sound s) (hpb : s.batches[k]? = some pb)
    (hlive : timer = .stopped → ∀ e ∈ s.pending, e.2 ≠ k) :
    Sound { s with batches := s.batches.set k { pb with timer } } :=
  { h with
    filed := filed_congr h.filed (map_contents_set _ hpb)
    queued := queued_set h.queued hpb rfl hlive
    told := told_retime h (map_contents_set _ hpb) }

theorem sound_detach {timer : Timer} (h : Sound s) (hmem : (tp, k) ∈ s.pending)
    (hpb : s.batches[k]? = some pb) : Sound (s.detach tp k pb timer) where
  running := h.running
  filed := filed_congr h.filed (map_contents_set _ hpb)
  queued := by
    have hqueued := queued_detach pb timer h.queued hmem
    change Queued _ ((s.flushes ++ [(⟨k, .queued⟩ : Flush)]).map Flush.batch) _
    rwa [List.map_append, List.map_singleton]
  told := told_queue [k] (told_retime h (map_contents_set _ hpb))
  holder := h.holder
  requests := requests_queue [k] h.requests
  closes := by
    refine ⟨h.closes.closed, fun c hc hdrained => ?_⟩
    rw [(h.closes.drained c hc hdrained).1] at hmem
    cases hmem

theorem openBatch_spec (tp : TopicPartition) (h : Sound s) (hlock : s.batchMu = some i) :
    Sound (s.openBatch tp).1 ∧ (tp, (s.openBatch tp).2) ∈ (s.openBatch tp).1.pending ∧
      (s.openBatch tp).1.batchMu = some i ∧ (s.openBatch tp).1.sends = s.sends := by
  rw [Producer.openBatch]
  split
  · rename_i e hfind
    have hkey : e.1 = tp := by simpa using List.find?_some hfind
    refine ⟨h, ?_, hlock, rfl⟩
    rw [← hkey]
    exact List.mem_of_find?_eq_some hfind
  · rename_i hfind
    have hnone : ∀ e ∈ s.pending, e.1 ≠ tp := by
      intro e he hkey
      exact List.find?_eq_none.mp hfind e he (decide_eq_true hkey)
    refine ⟨?_, List.mem_append_right _ (List.mem_singleton.mpr rfl), hlock, rfl⟩
    -- The new batch is behind all the others, so no flush refers to it.
    refine { h with
      filed := filed_new h.filed
      queued := queued_new h.queued hnone
      told := ?_
      closes := ⟨h.closes.closed, fun c hc hdrained => absurd hdrained (not_drained h hlock hc)⟩ }
    apply told_batches h.told
    intro f hf
    have hbatch : f.batch ∈ List.range s.batches.length :=
      h.queued.once.subset (List.mem_append_right _ (List.mem_map_of_mem hf))
    rw [List.getElem?_append_left (List.mem_range.mp hbatch)]

def appended (s : Producer) (i : Nat) (call : Send) (k : Nat) (pb : PendingBatch) : Producer :=
  { s with
    batchMu := none
    batches := s.batches.set k (pb.append call.record i)
    sends := s.sends.set i { call with phase := .waiting } }

theorem sound_appended (h : Sound s) (hlock : s.batchMu = some i)
    (hcall : s.sends[i]? = some call) (hphase : call.phase = .locked)
    (hmem : (call.tp, k) ∈ s.pending) (hpb : s.batches[k]? = some pb) :
    Sound (appended s i call k pb) where
  running := h.running
  filed := by
    obtain ⟨b, hb, htp, -⟩ := h.queued.named _ hmem
    obtain rfl : pb = b := Option.some.inj (hpb.symm.trans hb)
    rw [appended, ledger_enqueue hcall, show call.tp = pb.tp from htp.symm]
    apply filed_append h.filed hpb
    rw [ledger, hcall, Option.bind_some, hphase]
    rfl
  queued := by
    obtain ⟨b, hb, htp, hlive⟩ := h.queued.named _ hmem
    obtain rfl : pb = b := Option.some.inj (hpb.symm.trans hb)
    exact queued_set h.queued hpb rfl fun hstopped => absurd hstopped hlive
  told := by
    refine told_call (told_batches h.told ?_) hcall fun hfull => hfull
    intro f hf
    rw [appended, List.getElem?_set_ne (Ne.symm (not_flushed h hmem hf))]
  holder := by
    intro m
    rw [appended, getElem?_set_of_some hcall]
    split
    · simp
    · rename_i him
      rw [← h.holder m, hlock]
      simpa using him
  requests := h.requests
  closes :=
    ⟨h.closes.closed, fun _ hc hdrained => absurd hdrained (not_drained h hlock hc)⟩

theorem next_enqueue (hstep : s.next cfg crc (.enqueue i) = some t) :
    ∃ call, s.sends[i]? = some call ∧ call.phase = .locked ∧ s.enqueue cfg i call = some t := by
  simp only [Producer.next] at hstep
  split at hstep
  · rename_i call hcall
    split at hstep
    · rename_i hphase
      exact ⟨call, hcall, hphase, hstep⟩
    · cases hstep
  · cases hstep

/-- The call opens a batch if it has to, appends to it, and takes it out of the
map if it has become large enough. -/
theorem enqueue_spec (h : Sound s) (hstep : s.next cfg crc (.enqueue i) = some t) :
    ∃ call k pb, Sound (s.openBatch call.tp).1 ∧ (s.openBatch call.tp).1.batchMu = some i ∧
      (s.openBatch call.tp).1.batches[k]? = some pb ∧
      Sound (appended (s.openBatch call.tp).1 i call k pb) ∧
      (call.tp, k) ∈ (s.openBatch call.tp).1.pending ∧
      (t = appended (s.openBatch call.tp).1 i call k pb ∨
        t = (appended (s.openBatch call.tp).1 i call k pb).detach call.tp k
          (pb.append call.record i) pb.timer.stop) := by
  obtain ⟨call, hcall, hphase, henqueue⟩ := next_enqueue hstep
  have hlock : s.batchMu = some i := by
    rw [h.holder i, hcall, Option.map_some, hphase]
  obtain ⟨hopen, hmem, hheld, hsends⟩ := openBatch_spec call.tp h hlock
  rw [← hsends] at hcall
  simp only [Producer.enqueue] at henqueue
  split at henqueue
  · cases henqueue
  · rename_i pb hpb
    refine ⟨call, _, pb, hopen, hheld, hpb,
      sound_appended hopen hheld hcall hphase hmem hpb, hmem, ?_⟩
    split at henqueue
    · exact .inr (Option.some.inj henqueue).symm
    · exact .inl (Option.some.inj henqueue).symm

theorem getElem?_appended (hpb : s.batches[k]? = some pb) :
    (appended s i call k pb).batches[k]? = some (pb.append call.record i) :=
  List.getElem?_set_self (List.getElem?_eq_some_iff.mp hpb).1

theorem sound_enqueue (h : Sound s) (hstep : s.next cfg crc (.enqueue i) = some t) : Sound t := by
  obtain ⟨call, k, pb, -, -, hpb, happended, hmem, rfl | rfl⟩ := enqueue_spec h hstep
  · exact happended
  · exact sound_detach happended hmem (getElem?_appended hpb)

theorem next_fire (hstep : s.next cfg crc (.fire k) = some t) :
    ∃ pb, s.batches[k]? = some pb ∧ pb.timer = .armed ∧
      t = { s with batches := s.batches.set k { pb with timer := .fired } } := by
  simp only [Producer.next] at hstep
  split at hstep
  · rename_i pb hpb
    split at hstep
    · rename_i harmed
      exact ⟨pb, hpb, harmed, (Option.some.inj hstep).symm⟩
    · cases hstep
  · cases hstep

/-- A timer whose batch is in the map takes it out; otherwise its batch is in no
entry of the map at all. -/
theorem lingerFire_spec (h : Sound s) (hstep : s.next cfg crc (.lingerFire k) = some t) :
    ∃ pb, s.batches[k]? = some pb ∧ pb.timer = .fired ∧
      ((pb.tp, k) ∈ s.pending ∧ t = s.detach pb.tp k pb .stopped ∨
        (∀ e ∈ s.pending, e.2 ≠ k) ∧
          t = { s with batches := s.batches.set k { pb with timer := .stopped } }) := by
  simp only [Producer.next] at hstep
  split at hstep
  · rename_i pb hpb
    split at hstep
    · rename_i hready
      cases hstep
      refine ⟨pb, hpb, hready.1, ?_⟩
      rw [Producer.lingerFire]
      split
      · rename_i hfind
        obtain ⟨e, he, rfl⟩ := Option.map_eq_some_iff.mp hfind
        have hkey : e.1 = pb.tp := by simpa using List.find?_some he
        refine .inl ⟨?_, rfl⟩
        rw [← hkey]
        exact List.mem_of_find?_eq_some he
      · -- An entry for this batch would be under the batch's own key.
        rename_i hfind
        refine .inr ⟨?_, rfl⟩
        rintro e he rfl
        obtain ⟨b, hb, htp, -⟩ := h.queued.named e he
        obtain rfl : pb = b := Option.some.inj (hpb.symm.trans hb)
        rw [htp, find?_key h.queued.keys he] at hfind
        exact hfind rfl
    · cases hstep
  · cases hstep

theorem sound_lingerFire (h : Sound s) (hstep : s.next cfg crc (.lingerFire k) = some t) :
    Sound t := by
  obtain ⟨pb, hpb, -, ⟨hmem, rfl⟩ | ⟨hgone, rfl⟩⟩ := lingerFire_spec h hstep
  · exact sound_detach h hmem hpb
  · exact sound_retime h hpb fun _ => hgone

theorem answer_spec (hstep : s.answer j = some t) :
    ∃ k outcome next pb w call, s.flushes[j]? = some ⟨k, .answering outcome next⟩ ∧
      s.batches[k]? = some pb ∧ pb.waiters[next]? = some w ∧ s.sends[w]? = some call ∧
      t = { s.setFlush j k (.answering outcome (next + 1)) with
        sends := s.sends.set w { call with waiter := [pb.result outcome next] }
        sent := s.sent ++ [(w, pb.result outcome next)] } := by
  rw [Producer.answer] at hstep
  split at hstep
  · rename_i k outcome next hf
    split at hstep
    · cases hstep
    · rename_i pb hpb
      split at hstep
      · cases hstep
      · rename_i w hw
        split at hstep
        · cases hstep
        · rename_i call hcall
          split at hstep
          · exact ⟨k, outcome, next, pb, w, call, hf, hpb, hw, hcall, (Option.some.inj hstep).symm⟩
          · cases hstep
  · cases hstep

theorem map_batch_set {phase : FlushPhase} (hf : s.flushes[j]? = some f) :
    (s.flushes.set j ⟨f.batch, phase⟩).map Flush.batch = s.flushes.map Flush.batch := by
  apply List.ext_getElem?
  intro m
  rw [List.getElem?_map, List.getElem?_map, getElem?_set_of_some hf]
  split
  · rename_i hjm
    subst hjm
    rw [hf]
    rfl
  · rfl

def cost : FlushPhase → Nat
  | .queued => 7
  | .framed _ => 6
  | .locked _ => 5
  | .writing _ => 4
  | .flushing _ => 3
  | .reading _ => 2
  | .awaiting _ => 1
  | .answering _ _ => 0
  | .skipped => 0

theorem holdsReqMu_of_usesConn {phase : FlushPhase} (h : usesConn phase = true) :
    holdsReqMu phase = true := by
  cases phase <;> first | rfl | cases h

theorem cost_pos {phase : FlushPhase} (h : holdsReqMu phase = true) : 0 < cost phase := by
  cases phase <;> first | exact Nat.succ_pos _ | cases h

/-- A flush goes on in `produceRecords`, and what that does to `reqMu` and the
connection. -/
structure Advance (s : Producer) (j : Nat) (f : Flush) (phase : FlushPhase) (reqMu : Option Nat)
    (connected : Bool) : Prop where
  found : s.flushes[j]? = some f
  before : ∀ outcome next, f.phase ≠ .answering outcome next
  after : ∀ outcome next, phase = .answering outcome next → next = 0
  skip : phase = .skipped → ∃ pb, s.batches[f.batch]? = some pb ∧ pb.records = []
  lock : (reqMu = s.reqMu ∧ holdsReqMu phase = holdsReqMu f.phase) ∨
    (s.reqMu = none ∧ reqMu = some j ∧ holdsReqMu phase = true) ∨
    (holdsReqMu f.phase = true ∧ reqMu = none ∧ holdsReqMu phase = false)
  uses : usesConn phase = true → connected = true
  keeps : connected = s.connected ∨ holdsReqMu f.phase = true
  cheaper : cost phase < cost f.phase

theorem advance_release {connected : Bool} {outcome : Except ProducerError Int64}
    (hf : s.flushes[j]? = some f) (hholds : holdsReqMu f.phase = true) :
    Advance s j f (.answering outcome 0) none connected where
  found := hf
  before := by
    intro outcome next hphase
    rw [hphase] at hholds
    cases hholds
  after := by
    intro outcome next hphase
    exact (FlushPhase.answering.inj hphase).2.symm
  skip := by
    intro hphase
    cases hphase
  lock := .inr (.inr ⟨hholds, rfl, rfl⟩)
  uses := by
    intro huses
    cases huses
  keeps := .inr hholds
  cheaper := cost_pos hholds

theorem advance_hold {phase : FlushPhase} {connected : Bool} (hf : s.flushes[j]? = some f)
    (hholds : holdsReqMu f.phase = true) (hafter : holdsReqMu phase = true)
    (huses : usesConn phase = true → connected = true) (hcost : cost phase < cost f.phase) :
    Advance s j f phase s.reqMu connected where
  found := hf
  before := by
    intro outcome next hphase
    rw [hphase] at hholds
    cases hholds
  after := by
    rintro outcome next rfl
    cases hafter
  skip := by
    rintro rfl
    cases hafter
  lock := .inl ⟨rfl, hafter.trans hholds.symm⟩
  uses := huses
  keeps := .inr hholds
  cheaper := hcost

theorem advance_frame {phase : FlushPhase} (hf : s.flushes[j]? = some ⟨k, .queued⟩)
    (hafter : ∀ outcome next, phase = .answering outcome next → next = 0)
    (hskip : phase = .skipped → ∃ pb, s.batches[k]? = some pb ∧ pb.records = [])
    (hfree : holdsReqMu phase = false) (hcost : cost phase < 7) :
    Advance s j ⟨k, .queued⟩ phase s.reqMu s.connected where
  found := hf
  before := by
    intro outcome next hphase
    cases hphase
  after := hafter
  skip := hskip
  lock := .inl ⟨rfl, hfree⟩
  uses := by
    intro huses
    rw [holdsReqMu_of_usesConn huses] at hfree
    cases hfree
  keeps := .inl rfl
  cheaper := hcost

theorem advance_lock {frame : RequestFrame} (hf : s.flushes[j]? = some ⟨k, .framed frame⟩)
    (hfree : s.reqMu = none) :
    Advance s j ⟨k, .framed frame⟩ (.locked frame) (some j) s.connected where
  found := hf
  before := by
    intro outcome next hphase
    cases hphase
  after := by
    intro outcome next hphase
    cases hphase
  skip := by
    intro hphase
    cases hphase
  lock := .inr (.inl ⟨hfree, rfl, rfl⟩)
  uses := by
    intro huses
    cases huses
  keeps := .inl rfl
  cheaper := Nat.lt_succ_self _

def onRequest : ProducerEvent → Bool
  | .frame _ => true
  | .lock _ => true
  | .connect _ _ => true
  | .write _ _ => true
  | .flush _ _ => true
  | .read _ => true
  | .respond _ _ => true
  | _ => false

def Advances (s t : Producer) : Prop :=
  ∃ j f phase reqMu connected nextID, Advance s j f phase reqMu connected ∧
    t = { s with flushes := s.flushes.set j ⟨f.batch, phase⟩, reqMu, connected, nextID }

theorem deref_eq {next : Producer} (h : Sound s) (hf : s.flushes[j]? = some f)
    (huses : usesConn f.phase = true) : s.deref next = next := by
  rw [Producer.deref, h.requests.connected f (List.mem_of_getElem? hf) huses, if_pos rfl]

theorem advances_of_next {e : ProducerEvent} (h : Sound s) (he : onRequest e = true)
    (hstep : s.next cfg crc e = some t) : Advances s t := by
  cases e with
  | frame j =>
    simp only [Producer.next] at hstep
    split at hstep
    · rename_i k hf
      split at hstep
      · cases hstep
      · rename_i pb hpb
        split at hstep
        · rename_i hempty
          cases hstep
          refine ⟨j, _, .skipped, _, _, s.nextID, advance_frame hf ?_ ?_ rfl (Nat.succ_pos _), rfl⟩
          · intro outcome next hphase
            cases hphase
          · intro _
            exact ⟨pb, hpb, hempty⟩
        · split at hstep
          · rename_i error _
            cases hstep
            refine ⟨j, _, .answering (.error error) 0, _, _, s.nextID,
              advance_frame hf ?_ ?_ rfl (Nat.succ_pos _), rfl⟩
            · intro outcome next hphase
              exact (FlushPhase.answering.inj hphase).2.symm
            · intro hphase
              cases hphase
          · cases hstep
            refine ⟨j, _, .framed _, _, _, s.nextID + 1,
              advance_frame hf ?_ ?_ rfl (Nat.lt_succ_self _), rfl⟩
            · intro outcome next hphase
              cases hphase
            · intro hphase
              cases hphase
    · cases hstep
  | lock j =>
    simp only [Producer.next] at hstep
    split at hstep
    · rename_i k frame hf
      split at hstep
      · rename_i hfree
        cases hstep
        exact ⟨j, _, .locked frame, _, _, s.nextID, advance_lock hf hfree, rfl⟩
      · cases hstep
    · cases hstep
  | connect j dialed =>
    simp only [Producer.next] at hstep
    split at hstep
    · rename_i k frame hf
      cases hstep
      rw [Producer.getConn]
      split
      · rename_i hconnected
        exact ⟨j, _, .writing frame, s.reqMu, s.connected, s.nextID,
          advance_hold hf rfl rfl (fun _ => hconnected) (Nat.lt_succ_self _), rfl⟩
      · split
        · exact ⟨j, _, _, none, s.connected, s.nextID, advance_release hf rfl, rfl⟩
        · split
          · exact ⟨j, _, .writing frame, s.reqMu, true, s.nextID,
              advance_hold hf rfl rfl (fun _ => rfl) (Nat.lt_succ_self _), rfl⟩
          · exact ⟨j, _, _, none, s.connected, s.nextID, advance_release hf rfl, rfl⟩
    · cases hstep
  | write j ok =>
    simp only [Producer.next] at hstep
    split at hstep
    · rename_i k frame hf
      have hconnected := h.requests.connected _ (List.mem_of_getElem? hf) rfl
      split at hstep
      · cases hstep
        exact ⟨j, _, _, none, false, s.nextID, advance_release hf rfl, rfl⟩
      · rw [deref_eq h hf rfl] at hstep
        cases hstep
        split
        · exact ⟨j, _, .flushing frame, s.reqMu, s.connected, s.nextID,
            advance_hold hf rfl rfl (fun _ => hconnected) (Nat.lt_succ_self _), rfl⟩
        · exact ⟨j, _, _, none, false, s.nextID, advance_release hf rfl, rfl⟩
    · cases hstep
  | flush j ok =>
    simp only [Producer.next] at hstep
    split at hstep
    · rename_i k frame hf
      have hconnected := h.requests.connected _ (List.mem_of_getElem? hf) rfl
      rw [deref_eq h hf rfl] at hstep
      cases hstep
      split
      · exact ⟨j, _, .reading frame, s.reqMu, s.connected, s.nextID,
          advance_hold hf rfl rfl (fun _ => hconnected) (Nat.lt_succ_self _), rfl⟩
      · exact ⟨j, _, _, none, false, s.nextID, advance_release hf rfl, rfl⟩
    · cases hstep
  | read j =>
    simp only [Producer.next] at hstep
    split at hstep
    · rename_i k frame hf
      rw [deref_eq h hf rfl] at hstep
      cases hstep
      exact ⟨j, _, .awaiting frame, s.reqMu, s.connected, s.nextID,
        advance_hold hf rfl rfl (fun huses => by cases huses) (Nat.lt_succ_self _), rfl⟩
    · cases hstep
  | respond j resp =>
    simp only [Producer.next] at hstep
    split at hstep
    · rename_i k frame hf
      split at hstep
      · cases hstep
        exact ⟨j, _, _, none, false, s.nextID, advance_release hf rfl, rfl⟩
      · split at hstep
        · cases hstep
          exact ⟨j, _, _, none, false, s.nextID, advance_release hf rfl, rfl⟩
        · cases hstep
          exact ⟨j, _, _, none, s.connected, s.nextID, advance_release hf rfl, rfl⟩
    · cases hstep
  | _ => cases he

theorem requests_set {phase : FlushPhase} {reqMu : Option Nat} {connected : Bool}
    (h : Requests s.reqMu s.connected s.flushes) (hf : s.flushes[j]? = some f)
    (hlock : (reqMu = s.reqMu ∧ holdsReqMu phase = holdsReqMu f.phase) ∨
      (s.reqMu = none ∧ reqMu = some j ∧ holdsReqMu phase = true) ∨
      (holdsReqMu f.phase = true ∧ reqMu = none ∧ holdsReqMu phase = false))
    (hconn : usesConn phase = true → connected = true)
    (hkeeps : connected = s.connected ∨ holdsReqMu f.phase = true) :
    Requests reqMu connected (s.flushes.set j ⟨f.batch, phase⟩) := by
  have hself : s.reqMu = some j ↔ holdsReqMu f.phase = true := by
    rw [h.holder j, hf, Option.map_some, Option.some.injEq]
  constructor
  · intro m
    rw [getElem?_set_of_some hf]
    split
    · rename_i hjm
      subst hjm
      rw [Option.map_some, Option.some.injEq]
      rcases hlock with ⟨rfl, hsame⟩ | ⟨-, rfl, hholds⟩ | ⟨-, rfl, hfree⟩
      · rw [hself, hsame]
      · simp [hholds]
      · simp [hfree]
    · rename_i hjm
      rw [← h.holder m]
      rcases hlock with ⟨rfl, -⟩ | ⟨hnone, rfl, -⟩ | ⟨hholds, rfl, -⟩
      · rfl
      · simp [hnone, hjm]
      · simp [hself.mpr hholds, hjm]
  · intro g hg huses
    obtain ⟨m, hm⟩ := List.mem_iff_getElem?.mp hg
    rw [getElem?_set_of_some hf] at hm
    split at hm
    · obtain rfl := Option.some.inj hm
      exact hconn huses
    · rename_i hjm
      have hold := h.connected g (List.mem_of_getElem? hm) huses
      rcases hkeeps with rfl | hholds
      · exact hold
      · -- Only the holder of `reqMu` is using the connection.
        have hheld : s.reqMu = some m := by
          rw [h.holder m, hm, Option.map_some, holdsReqMu_of_usesConn huses]
        rw [hself.mpr hholds] at hheld
        exact absurd (Option.some.inj hheld) hjm

theorem sound_advances (h : Sound s) (hadvances : Advances s t) : Sound t := by
  obtain ⟨j, f, phase, reqMu, connected, nextID, hadvance, rfl⟩ := hadvances
  refine { h with queued := ?_, told := ?_, requests := ?_ }
  · change Queued _ ((s.flushes.set j ⟨f.batch, phase⟩).map Flush.batch) _
    rw [map_batch_set hadvance.found]
    exact h.queued
  · apply told_advance h.told hadvance.found hadvance.before hadvance.after
    intro hskip pb hpb
    obtain ⟨b, hb, hempty⟩ := hadvance.skip hskip
    obtain rfl : pb = b := Option.some.inj (hpb.symm.trans hb)
    have hown := h.filed.own pb (List.mem_of_getElem? hpb)
    rw [hempty] at hown
    exact List.map_eq_nil_iff.mp hown.symm
  · exact requests_set h.requests hadvance.found hadvance.lock hadvance.uses hadvance.keeps

theorem sound_answer (h : Sound s) (hstep : s.answer j = some t) : Sound t := by
  obtain ⟨k, outcome, next, pb, w, call, hf, hpb, hw, hcall, rfl⟩ := answer_spec hstep
  have hnew := not_sent h.told h.filed (flushed_nodup h) hf hpb hw
  refine { h with
    filed := filed_call h.filed hcall rfl rfl rfl
    queued := ?_
    told := told_answer h.told hf hpb hw hcall hnew
    holder := holder_set h.holder hcall Iff.rfl
    requests := ?_ }
  · change Queued _ ((s.flushes.set j ⟨k, _⟩).map Flush.batch) _
    rw [map_batch_set hf]
    exact h.queued
  · refine requests_set h.requests hf (.inl ⟨rfl, rfl⟩) ?_ (.inl rfl)
    intro huses
    cases huses

theorem sound_call {call' : Send} (h : Sound s) (hcall : s.sends[i]? = some call)
    (htp : call'.tp = call.tp) (hrecord : call'.record = call.record)
    (henqueued : call'.phase.enqueued = call.phase.enqueued)
    (hlocked : call'.phase = .locked ↔ call.phase = .locked)
    (hwaiter : call'.waiter ≠ [] → call.waiter ≠ []) :
    Sound { s with sends := s.sends.set i call' } :=
  { h with
    filed := filed_call h.filed hcall htp hrecord henqueued
    told := told_call h.told hcall hwaiter
    holder := holder_set h.holder hcall hlocked }

theorem sound_send {canceled : Bool} {rec : Record}
    (h : Sound s) (hstep : s.next cfg crc (.send tp rec canceled) = some t) : Sound t := by
  simp only [Producer.next, Option.some.injEq] at hstep
  subst hstep
  have hphase : ∀ b : Bool, (if b then SendPhase.refused else .entering).enqueued = false ∧
      (if b then SendPhase.refused else .entering) ≠ .locked := by
    intro b
    cases b <;> exact ⟨rfl, by decide⟩
  obtain ⟨hnot, hfree⟩ := hphase (canceled || s.closed)
  refine { h with filed := ?_, told := told_sends h.told ?_, holder := ?_ }
  · change Filed s.batches (ledger (s.sends ++ [_]))
    rw [ledger_append hnot]
    exact h.filed
  · intro m call hcall hwaiter
    change (s.sends ++ [_])[m]? = some call at hcall
    rw [List.getElem?_append] at hcall
    split at hcall
    · exact h.told.waiter m call hcall hwaiter
    · rw [List.mem_singleton.mp (List.mem_of_getElem? hcall)] at hwaiter
      exact absurd rfl hwaiter
  · intro m
    rw [h.holder m, List.getElem?_append]
    split
    · rfl
    · rename_i hlength
      rw [List.getElem?_eq_none (Nat.le_of_not_lt hlength), List.getElem?_singleton]
      split
      · simpa using hfree
      · rfl

theorem sound_enter (h : Sound s) (hstep : s.next cfg crc (.enter i) = some t) : Sound t := by
  simp only [Producer.next] at hstep
  split at hstep
  · rename_i tp rec waiter hcall hfree
    split at hstep
    · cases hstep
      exact sound_call h hcall rfl rfl rfl (by simp) id
    · rename_i hopen
      cases hstep
      refine { h with
        filed := filed_call h.filed hcall rfl rfl rfl
        told := told_call h.told hcall id
        holder := ?_
        closes := ⟨h.closes.closed, fun c hc hdrained => ?_⟩ }
      · intro m
        rw [getElem?_set_of_some hcall]
        split
        · rename_i him
          subst him
          simp
        · rename_i him
          rw [← h.holder m, hfree]
          simpa using him
      · exact absurd (h.closes.closed c hc (.inr hdrained)) hopen
  · cases hstep

theorem closes_concat {closes : List ClosePhase} {closed closed' : Bool}
    {pending : List (TopicPartition × Nat)} {batchMu : Option Nat} {c : ClosePhase}
    (h : Closes closes closed pending batchMu) (hclosed : closed = true → closed' = true)
    (hfirst : c = .closing true → closed' = true) (hdrained : drained c = false) :
    Closes (closes ++ [c]) closed' pending batchMu := by
  constructor
  · intro c' hc' hcase
    rcases List.mem_append.mp hc' with hold | hnew
    · exact hclosed (h.closed c' hold hcase)
    · obtain rfl := List.mem_singleton.mp hnew
      rw [hdrained] at hcase
      exact hfirst (hcase.resolve_right Bool.false_ne_true)
  · intro c' hc' hcase
    rcases List.mem_append.mp hc' with hold | hnew
    · exact h.drained c' hold hcase
    · obtain rfl := List.mem_singleton.mp hnew
      rw [hdrained] at hcase
      cases hcase

theorem sound_close (h : Sound s) (hstep : s.next cfg crc .close = some t) : Sound t := by
  simp only [Producer.next] at hstep
  split at hstep
  · cases hstep
    exact { h with closes := closes_concat h.closes id (fun hfirst => by cases hfirst) rfl }
  · cases hstep
    exact { h with closes := closes_concat h.closes (fun _ => rfl) (fun _ => rfl) rfl }

theorem sound_drain {c : Nat} (h : Sound s) (hstep : s.next cfg crc (.drain c) = some t) :
    Sound t := by
  simp only [Producer.next] at hstep
  split at hstep
  · rename_i hclose hfree
    cases hstep
    have hclosed := h.closes.closed _ (List.mem_of_getElem? hclose) (.inl rfl)
    have hflushes : (s.pending.map fun e => (⟨e.2, .queued⟩ : Flush)) =
        (s.pending.map Prod.snd).map fun k => ⟨k, .queued⟩ := by
      rw [List.map_map]
      rfl
    refine {
      running := h.running
      filed := filed_congr h.filed map_contents_stopTimers
      queued := ?_
      told := ?_
      holder := h.holder
      requests := ?_
      closes := ⟨fun _ _ _ => hclosed, fun _ _ _ => ⟨rfl, hfree⟩⟩ }
    · change Queued [] ((s.flushes ++ s.pending.map _).map Flush.batch) _
      rw [List.map_append, List.map_map]
      exact queued_drain h.queued
    · change Told s.sent (s.flushes ++ s.pending.map fun e => ⟨e.2, .queued⟩) _ s.sends
      rw [hflushes]
      exact told_queue _ (told_retime h map_contents_stopTimers)
    · change Requests s.reqMu s.connected (s.flushes ++ s.pending.map fun e => ⟨e.2, .queued⟩)
      rw [hflushes]
      exact requests_queue _ h.requests
  · cases hstep

theorem sound_finalize {c : Nat} {phase : ClosePhase} {drains : Bool} (h : Sound s)
    (hguard : closesIdle s (.finalize c) = true) (hclose : s.closes[c]? = some phase)
    (hdrains : drained phase = drains) : Sound (s.finalize c drains) := by
  have hcloses : Closes (s.closes.set c (.returned drains)) s.closed s.pending s.batchMu := by
    have hold := List.mem_of_getElem? hclose
    constructor
    · intro c' hc' hcase
      rcases List.mem_or_eq_of_mem_set hc' with hmem | rfl
      · exact h.closes.closed c' hmem hcase
      · rcases hcase with hcase | hcase
        · cases hcase
        · exact h.closes.closed phase hold (.inr (hdrains.trans hcase))
    · intro c' hc' hdrained
      rcases List.mem_or_eq_of_mem_set hc' with hmem | rfl
      · exact h.closes.drained c' hmem hdrained
      · exact h.closes.drained phase hold (hdrains.trans hdrained)
  rw [Producer.finalize]
  split
  · exact { h with closes := hcloses }
  · rename_i hfinal
    refine { h with requests := ⟨h.requests.holder, ?_⟩, closes := hcloses }
    intro f hf huses
    have hidle : s.finalized = true ∨ ∀ f ∈ s.flushes, usesConn f.phase = false := by
      simpa [closesIdle] using hguard
    rcases hidle with hfinalized | hnone
    · exact absurd hfinalized hfinal
    · rw [hnone f hf] at huses
      cases huses

theorem step_eq_next {e : ProducerEvent} (h : Sound s) :
    s.step cfg crc e = s.next cfg crc e := by
  rw [Producer.step, h.running, if_neg Bool.false_ne_true]

theorem sound_step {e : ProducerEvent} (h : Sound s) (hguard : closesIdle s e = true)
    (hstep : s.step cfg crc e = some t) : Sound t := by
  rw [step_eq_next h] at hstep
  cases e with
  | send tp rec canceled => exact sound_send h hstep
  | enter i => exact sound_enter h hstep
  | enqueue i => exact sound_enqueue h hstep
  | receive i =>
    simp only [Producer.next] at hstep
    split at hstep
    · rename_i hcall
      cases hstep
      exact sound_call h hcall rfl rfl rfl (by simp) (fun hne => absurd rfl hne)
    · cases hstep
  | cancel i =>
    simp only [Producer.next] at hstep
    split at hstep
    · rename_i hcall
      cases hstep
      exact sound_call h hcall rfl rfl rfl (by simp) id
    · cases hstep
  | fire k =>
    obtain ⟨pb, hpb, -, rfl⟩ := next_fire hstep
    exact sound_retime h hpb fun hstopped => by cases hstopped
  | lingerFire k => exact sound_lingerFire h hstep
  | answer j => exact sound_answer h hstep
  | close => exact sound_close h hstep
  | drain c => exact sound_drain h hstep
  | finalize c =>
    simp only [Producer.next] at hstep
    split at hstep
    · rename_i hclose
      cases hstep
      exact sound_finalize h hguard hclose rfl
    · rename_i hclose
      split at hstep
      · cases hstep
        exact sound_finalize h hguard hclose rfl
      · cases hstep
    · cases hstep
  | _ => exact sound_advances h (advances_of_next h rfl hstep)

end Steps

end MiniKafka.BatchSteps
