import MiniKafka.PartitionWriter

/-!
Closing a partition while producers append to it: `AppendBatch`, `writerLoop`
and `Close` of `internal/broker/partition.go`, seen as the operations they
perform on the channels.

What the log answers is left open here, so that every answer is possible.  The
partition with its log, in `PartitionWriter`, takes these steps and no others on
the channels.
-/

namespace MiniKafka.PartitionClose

open PartitionLog PartitionWriter Runs

inductive ServerPhase where
  | selecting
  | serving (call : Nat)
  | exited
  deriving DecidableEq, Repr

/-- The buffered channel, the flag for the closed `closeCh`, the writer and the
callers.  A call that is `returned` has the answer in its `respCh`. -/
structure AppendChannel where
  appendCh : List Nat
  closed : Bool
  draining : Bool
  writer : ServerPhase
  calls : List CallPhase
  deriving DecidableEq, Repr

def newAppendChannel : AppendChannel := ⟨[], false, false, .selecting, []⟩

inductive ChannelEvent where
  | call
  | send (call : Nat)
  | refuse (call : Nat)
  | receive
  | respond (base : Int64) (error : Option LogError)
  | close
  | drain
  | exit
  deriving DecidableEq, Repr

def AppendChannel.step (s : AppendChannel) : ChannelEvent → Option AppendChannel
  | .call => some { s with calls := s.calls ++ [.sending] }
  | .send i =>
    -- The `select` of the caller: with a free slot in the buffer this case is
    -- ready, whether `closeCh` is closed or not.
    if s.calls[i]? = some .sending ∧ s.appendCh.length < appendChCapacity then
      some { s with appendCh := s.appendCh ++ [i], calls := s.calls.set i .waiting }
    else none
  | .refuse i =>
    if s.calls[i]? = some .sending ∧ s.closed = true then
      some { s with calls := s.calls.set i (.returned (-1) (some .partitionClosed)) }
    else none
  | .receive =>
    match s.writer, s.appendCh with
    | .selecting, i :: rest => some { s with writer := .serving i, appendCh := rest }
    | _, _ => none
  | .respond base error =>
    match s.writer with
    | .serving i =>
      some { s with
        writer := .selecting
        calls := s.calls.set i (.returned base (error.map .log)) }
    | _ => none
  | .close => some { s with closed := true }
  | .drain =>
    if s.writer = .selecting ∧ s.closed = true then some { s with draining := true } else none
  | .exit =>
    if s.writer = .selecting ∧ s.draining = true ∧ s.appendCh = [] then
      some { s with writer := .exited }
    else none

def AppendChannel.Stranded (s : AppendChannel) (i : Nat) : Prop :=
  s.writer = .exited ∧ i ∈ s.appendCh ∧ s.calls[i]? = some .waiting

instance (s : AppendChannel) (i : Nat) : Decidable (s.Stranded i) :=
  inferInstanceAs (Decidable (_ ∧ _ ∧ _))

def fromWriter : AppendChannel → ChannelEvent → Bool
  | _, .receive => true
  | _, .respond _ _ => true
  | _, _ => false

def AppendChannel.Answered (s : AppendChannel) (i : Nat) : Prop :=
  ∃ base error, s.calls[i]? = some (.returned base (Option.map .log error))

/-- The writer alone can bring the answer. -/
def AppendChannel.CanBeAnswered (s : AppendChannel) (i : Nat) : Prop :=
  ∃ more t, Run (Guarded fromWriter AppendChannel.step) s more t ∧ t.Answered i

/-- A request enters the channel only before the writer has exited. -/
def sendsToLiveWriter (s : AppendChannel) : ChannelEvent → Bool
  | .send _ => decide (s.writer ≠ .exited)
  | _ => true

def AppendChannel.pending (s : AppendChannel) : List Nat :=
  match s.writer with
  | .serving i => i :: s.appendCh
  | _ => s.appendCh

/-- The calls that wait are those whose request is in the channel or with the
writer. -/
structure AppendChannel.Held (s : AppendChannel) : Prop where
  once : s.pending.Nodup
  waiting : ∀ i, s.calls[i]? = some .waiting ↔ i ∈ s.pending

section

variable {s t : AppendChannel} {i : Nat}

theorem getElem?_set_eq_some {calls : List CallPhase} {p q : CallPhase} {j : Nat} (hq : q ≠ p) :
    (calls.set i p)[j]? = some q ↔ calls[j]? = some q ∧ j ≠ i := by
  rw [List.getElem?_set]
  split
  · rename_i hij
    subst hij
    split <;> simp [hq.symm]
  · rename_i hij
    simp [Ne.symm hij]

theorem step_send (h : s.step (.send i) = some t) :
    s.calls[i]? = some .sending ∧
      t = { s with appendCh := s.appendCh ++ [i], calls := s.calls.set i .waiting } := by
  simp only [AppendChannel.step] at h
  split at h <;> cases h
  rename_i hready
  exact ⟨hready.1, rfl⟩

theorem step_refuse (h : s.step (.refuse i) = some t) :
    s.calls[i]? = some .sending ∧
      t = { s with calls := s.calls.set i (.returned (-1) (some .partitionClosed)) } := by
  simp only [AppendChannel.step] at h
  split at h <;> cases h
  rename_i hready
  exact ⟨hready.1, rfl⟩

theorem step_receive (h : s.step .receive = some t) :
    ∃ j rest, s.writer = .selecting ∧ s.appendCh = j :: rest ∧
      t = { s with writer := .serving j, appendCh := rest } := by
  simp only [AppendChannel.step] at h
  split at h <;> cases h
  rename_i j rest hwriter hch
  exact ⟨j, rest, hwriter, hch, rfl⟩

theorem step_respond {base : Int64} {error : Option LogError}
    (h : s.step (.respond base error) = some t) :
    ∃ j, s.writer = .serving j ∧ t = { s with
      writer := .selecting
      calls := s.calls.set j (.returned base (error.map .log)) } := by
  simp only [AppendChannel.step] at h
  split at h <;> cases h
  rename_i j hwriter
  exact ⟨j, hwriter, rfl⟩

theorem step_drain (h : s.step .drain = some t) :
    s.writer = .selecting ∧ t = { s with draining := true } := by
  simp only [AppendChannel.step] at h
  split at h <;> cases h
  rename_i hready
  exact ⟨hready.1, rfl⟩

theorem step_exit (h : s.step .exit = some t) :
    s.writer = .selecting ∧ s.appendCh = [] ∧ t = { s with writer := .exited } := by
  simp only [AppendChannel.step] at h
  split at h <;> cases h
  rename_i hready
  exact ⟨hready.1, hready.2.2, rfl⟩

theorem held_send (h : s.Held) (hi : s.calls[i]? = some .sending) :
    AppendChannel.Held { s with
      appendCh := s.appendCh ++ [i]
      calls := s.calls.set i .waiting } := by
  have hpending : AppendChannel.pending { s with
      appendCh := s.appendCh ++ [i]
      calls := s.calls.set i .waiting } = s.pending ++ [i] := by
    simp only [AppendChannel.pending]
    cases s.writer <;> rfl
  have hnew : i ∉ s.pending := by
    intro hmem
    have hwaiting := (h.waiting i).mpr hmem
    rw [hi] at hwaiting
    cases hwaiting
  constructor
  · rw [hpending, ← List.concat_eq_append]
    exact h.once.concat hnew
  · intro j
    rw [hpending, List.mem_append, List.mem_singleton, ← h.waiting j, List.getElem?_set]
    split
    · rename_i hij
      subst hij
      simp [(List.getElem?_eq_some_iff.mp hi).1]
    · rename_i hij
      simp [Ne.symm hij]

theorem held_return (h : s.Held) {base : Int64} {error : Option AppendError} {writer : ServerPhase}
    (hpending : ∀ j, j ∈ s.pending ∧ j ≠ i ↔
      j ∈ AppendChannel.pending { s with writer := writer })
    (honce : (AppendChannel.pending { s with writer := writer }).Nodup) :
    AppendChannel.Held { s with
      writer := writer
      calls := s.calls.set i (.returned base error) } := by
  refine ⟨honce, fun j => ?_⟩
  change (s.calls.set i (.returned base error))[j]? = some .waiting ↔
    j ∈ AppendChannel.pending { s with writer := writer }
  rw [getElem?_set_eq_some (by simp), h.waiting j]
  exact hpending j

theorem held_step {e : ChannelEvent} (h : s.Held) (hstep : s.step e = some t) : t.Held := by
  cases e with
  | call =>
    cases hstep
    refine ⟨h.once, fun j => ?_⟩
    change (s.calls ++ [.sending])[j]? = some .waiting ↔ j ∈ s.pending
    rw [← h.waiting j, List.getElem?_append]
    split
    · rfl
    · rename_i hlength
      rw [List.getElem?_eq_none (Nat.le_of_not_lt hlength), List.getElem?_singleton]
      split <;> simp
  | send i =>
    obtain ⟨hi, rfl⟩ := step_send hstep
    exact held_send h hi
  | refuse i =>
    obtain ⟨hi, rfl⟩ := step_refuse hstep
    refine held_return h (fun j => ⟨And.left, fun hj => ⟨hj, ?_⟩⟩) h.once
    rintro rfl
    have hwaiting := (h.waiting j).mpr hj
    rw [hi] at hwaiting
    cases hwaiting
  | receive =>
    obtain ⟨j, rest, hwriter, hch, rfl⟩ := step_receive hstep
    have hpending : AppendChannel.pending { s with writer := .serving j, appendCh := rest } =
        s.pending := by
      simp only [AppendChannel.pending, hwriter, hch]
    exact ⟨hpending ▸ h.once, fun k => hpending ▸ h.waiting k⟩
  | respond base error =>
    obtain ⟨j, hwriter, rfl⟩ := step_respond hstep
    have hpending : s.pending = j :: s.appendCh := by
      simp only [AppendChannel.pending, hwriter]
    have honce := h.once
    rw [hpending, List.nodup_cons] at honce
    refine held_return h (fun k => ?_) honce.2
    rw [hpending]
    change _ ↔ k ∈ s.appendCh
    constructor
    · rintro ⟨hmem, hne⟩
      exact (List.mem_cons.mp hmem).resolve_left hne
    · intro hmem
      refine ⟨List.mem_cons_of_mem j hmem, ?_⟩
      rintro rfl
      exact honce.1 hmem
  | close =>
    cases hstep
    exact ⟨h.once, h.waiting⟩
  | drain =>
    obtain ⟨-, rfl⟩ := step_drain hstep
    exact ⟨h.once, h.waiting⟩
  | exit =>
    obtain ⟨hwriter, -, rfl⟩ := step_exit hstep
    have hpending : AppendChannel.pending { s with writer := .exited } = s.pending := by
      simp only [AppendChannel.pending, hwriter]
    exact ⟨hpending ▸ h.once, fun k => hpending ▸ h.waiting k⟩

theorem held_newAppendChannel : newAppendChannel.Held :=
  ⟨List.nodup_nil, fun i => by simp [newAppendChannel, AppendChannel.pending]⟩

theorem canBeAnswered_of_step {e : ChannelEvent} (he : fromWriter s e = true)
    (hstep : s.step e = some t) (h : t.CanBeAnswered i) : s.CanBeAnswered i := by
  obtain ⟨more, u, hrun, hanswered⟩ := h
  exact ⟨e :: more, u, Run.cons ⟨he, hstep⟩ hrun, hanswered⟩

theorem step_respond_serving {j : Nat} (hwriter : s.writer = .serving j) :
    s.step (.respond 0 none) = some { s with
      writer := .selecting
      calls := s.calls.set j (.returned 0 none) } := by
  simp only [AppendChannel.step, hwriter, Option.map_none]

theorem step_receive_selecting {j : Nat} {rest : List Nat} (hwriter : s.writer = .selecting)
    (hqueue : s.appendCh = j :: rest) :
    s.step .receive = some { s with writer := .serving j, appendCh := rest } := by
  simp only [AppendChannel.step, hwriter, hqueue]

theorem canBeAnswered_served (h : s.Held) (hwriter : s.writer = .serving i) :
    s.CanBeAnswered i := by
  have hwaiting : s.calls[i]? = some .waiting := by
    rw [h.waiting i]
    simp only [AppendChannel.pending, hwriter]
    exact List.mem_cons_self
  refine ⟨[.respond 0 none], _, Run.cons ⟨rfl, step_respond_serving hwriter⟩ .nil, 0, none, ?_⟩
  exact List.getElem?_set_self (List.getElem?_eq_some_iff.mp hwaiting).1

theorem canBeAnswered_serving {j : Nat} {queue : List Nat} (h : s.Held) (hqueue : s.appendCh = queue)
    (hwriter : s.writer = .serving j) (hi : i ∈ j :: queue) : s.CanBeAnswered i := by
  -- The writer answers the request it holds; if that is not the one asked for, it
  -- receives the next one, and the channel is shorter.
  induction queue generalizing s j with
  | nil =>
    obtain rfl := List.mem_singleton.mp hi
    exact canBeAnswered_served h hwriter
  | cons k rest ih =>
    rcases List.mem_cons.mp hi with rfl | hlater
    · exact canBeAnswered_served h hwriter
    · have hrespond := step_respond_serving hwriter
      have hreceive := step_receive_selecting
        (s := { s with writer := .selecting, calls := s.calls.set j (.returned 0 none) }) rfl hqueue
      apply canBeAnswered_of_step rfl hrespond
      apply canBeAnswered_of_step rfl hreceive
      exact ih (held_step (held_step h hrespond) hreceive) rfl rfl hlater

theorem canBeAnswered_of_live (h : s.Held) (hlive : s.writer ≠ .exited)
    (hi : s.calls[i]? = some .waiting) : s.CanBeAnswered i := by
  have hpending := (h.waiting i).mp hi
  cases hwriter : s.writer with
  | selecting =>
    simp only [AppendChannel.pending, hwriter] at hpending
    cases hqueue : s.appendCh with
    | nil =>
      rw [hqueue] at hpending
      cases hpending
    | cons j rest =>
      have hstep := step_receive_selecting hwriter hqueue
      rw [hqueue] at hpending
      apply canBeAnswered_of_step rfl hstep
      exact canBeAnswered_serving (held_step h hstep) rfl rfl hpending
  | serving j =>
    simp only [AppendChannel.pending, hwriter] at hpending
    exact canBeAnswered_serving h rfl hwriter hpending
  | exited => exact absurd hwriter hlive

theorem sent_step {e : ChannelEvent} (h : s.calls[i]? = some .waiting ∨ s.Answered i)
    (hstep : s.step e = some t) : t.calls[i]? = some .waiting ∨ t.Answered i := by
  have hkept {j : Nat} {p : CallPhase} (hj : s.calls[j]? = some .sending) :
      (s.calls.set j p)[i]? = s.calls[i]? := by
    apply List.getElem?_set_ne
    rintro rfl
    rcases h with hwaiting | ⟨base, error, hreturned⟩
    · rw [hj] at hwaiting
      cases hwaiting
    · rw [hj] at hreturned
      cases hreturned
  cases e with
  | call =>
    cases hstep
    rcases h with hwaiting | ⟨base, error, hreturned⟩
    · have hlt := (List.getElem?_eq_some_iff.mp hwaiting).1
      exact .inl ((List.getElem?_append_left hlt).trans hwaiting)
    · have hlt := (List.getElem?_eq_some_iff.mp hreturned).1
      exact .inr ⟨base, error, (List.getElem?_append_left hlt).trans hreturned⟩
  | send j =>
    obtain ⟨hj, rfl⟩ := step_send hstep
    simpa only [AppendChannel.Answered, hkept hj] using h
  | refuse j =>
    obtain ⟨hj, rfl⟩ := step_refuse hstep
    simpa only [AppendChannel.Answered, hkept hj] using h
  | receive =>
    obtain ⟨j, rest, -, -, rfl⟩ := step_receive hstep
    exact h
  | respond base error =>
    obtain ⟨j, -, rfl⟩ := step_respond hstep
    by_cases hji : j = i
    · subst hji
      have hlt : j < s.calls.length := by
        rcases h with hwaiting | ⟨_, _, hreturned⟩
        · exact (List.getElem?_eq_some_iff.mp hwaiting).1
        · exact (List.getElem?_eq_some_iff.mp hreturned).1
      exact .inr ⟨base, error, List.getElem?_set_self hlt⟩
    · simpa only [AppendChannel.Answered, List.getElem?_set_ne hji] using h
  | close =>
    cases hstep
    exact h
  | drain =>
    obtain ⟨-, rfl⟩ := step_drain hstep
    exact h
  | exit =>
    obtain ⟨-, -, rfl⟩ := step_exit hstep
    exact h

theorem stranded_step {e : ChannelEvent} (h : s.Stranded i) (hstep : s.step e = some t) :
    t.Stranded i := by
  obtain ⟨hexited, hmem, hwaiting⟩ := h
  cases e with
  | call =>
    cases hstep
    have hlt := (List.getElem?_eq_some_iff.mp hwaiting).1
    exact ⟨hexited, hmem, (List.getElem?_append_left hlt).trans hwaiting⟩
  | send j =>
    obtain ⟨hj, rfl⟩ := step_send hstep
    have hne : j ≠ i := by
      rintro rfl
      rw [hj] at hwaiting
      cases hwaiting
    exact ⟨hexited, List.mem_append_left _ hmem, (List.getElem?_set_ne hne).trans hwaiting⟩
  | refuse j =>
    obtain ⟨hj, rfl⟩ := step_refuse hstep
    have hne : j ≠ i := by
      rintro rfl
      rw [hj] at hwaiting
      cases hwaiting
    exact ⟨hexited, hmem, (List.getElem?_set_ne hne).trans hwaiting⟩
  | receive =>
    obtain ⟨j, rest, hwriter, -⟩ := step_receive hstep
    rw [hexited] at hwriter
    cases hwriter
  | respond base error =>
    obtain ⟨j, hwriter, -⟩ := step_respond hstep
    rw [hexited] at hwriter
    cases hwriter
  | close =>
    cases hstep
    exact ⟨hexited, hmem, hwaiting⟩
  | drain =>
    obtain ⟨-, rfl⟩ := step_drain hstep
    exact ⟨hexited, hmem, hwaiting⟩
  | exit =>
    obtain ⟨hwriter, -⟩ := step_exit hstep
    rw [hexited] at hwriter
    cases hwriter

theorem stranded_of_send (hexited : s.writer = .exited) (hstep : s.step (.send i) = some t) :
    t.Stranded i := by
  obtain ⟨hi, rfl⟩ := step_send hstep
  refine ⟨hexited, List.mem_append_right _ (List.mem_singleton_self i), ?_⟩
  exact List.getElem?_set_self (List.getElem?_eq_some_iff.mp hi).1

theorem drained_step {e : ChannelEvent} (h : s.writer = .exited → s.appendCh = [])
    (hstep : Guarded sendsToLiveWriter AppendChannel.step s e t) :
    t.writer = .exited → t.appendCh = [] := by
  obtain ⟨hguard, hnext⟩ := hstep
  cases e with
  | call =>
    cases hnext
    exact h
  | send i =>
    obtain ⟨-, rfl⟩ := step_send hnext
    intro hexited
    exact absurd hexited (of_decide_eq_true hguard)
  | refuse i =>
    obtain ⟨-, rfl⟩ := step_refuse hnext
    exact h
  | receive =>
    obtain ⟨j, rest, -, -, rfl⟩ := step_receive hnext
    intro hexited
    cases hexited
  | respond base error =>
    obtain ⟨j, -, rfl⟩ := step_respond hnext
    intro hexited
    cases hexited
  | close =>
    cases hnext
    exact h
  | drain =>
    obtain ⟨-, rfl⟩ := step_drain hnext
    exact h
  | exit =>
    obtain ⟨-, hempty, rfl⟩ := step_exit hnext
    exact fun _ => hempty

end

section

variable {s : AppendChannel} {events : List ChannelEvent}

theorem guarded_of_not_stranded
    (hrun : Run (Guarded (fun _ _ => true) AppendChannel.step) newAppendChannel events s)
    (h : ∀ i, ¬ s.Stranded i) :
    Run (Guarded sendsToLiveWriter AppendChannel.step) newAppendChannel events s := by
  induction hrun with
  | nil => exact .nil
  | @snoc events e t u hinit hlast ih =>
    have hbefore := ih fun i hi => h i (stranded_step hi hlast.2)
    refine hbefore.snoc ⟨?_, hlast.2⟩
    cases e with
    | send i =>
      apply decide_eq_true
      intro hexited
      exact h i (stranded_of_send hexited hlast.2)
    | _ => rfl

theorem not_stranded_of_guarded
    (hrun : Run (Guarded sendsToLiveWriter AppendChannel.step) newAppendChannel events s) (i : Nat) :
    ¬ s.Stranded i := by
  rintro ⟨hexited, hmem, -⟩
  have hdrained : s.writer = .exited → s.appendCh = [] :=
    hrun.invariant (fun _ => rfl) fun _ _ _ => drained_step
  rw [hdrained hexited] at hmem
  cases hmem

theorem sent_of_mem {i : Nat}
    (hrun : Run (Guarded (fun _ _ => true) AppendChannel.step) newAppendChannel events s)
    (hi : .send i ∈ events) : s.calls[i]? = some .waiting ∨ s.Answered i := by
  induction hrun with
  | nil => cases hi
  | snoc _ hlast ih =>
    rcases List.mem_append.mp hi with hearlier | hnow
    · exact sent_step (ih hearlier) hlast.2
    · obtain rfl := List.mem_singleton.mp hnow
      obtain ⟨hsending, rfl⟩ := step_send hlast.2
      exact .inl (List.getElem?_set_self (List.getElem?_eq_some_iff.mp hsending).1)

/-- A request is stranded exactly if some request of the run was sent after the
writer had exited; otherwise every request that was sent is answered or can still
be. -/
theorem not_stranded_iff_sendsToLiveWriter
    (hrun : Run (Guarded (fun _ _ => true) AppendChannel.step) newAppendChannel events s) :
    ((∀ i, ¬ s.Stranded i) ∧ ∀ i, .send i ∈ events → s.Answered i ∨ s.CanBeAnswered i) ↔
      Run (Guarded sendsToLiveWriter AppendChannel.step) newAppendChannel events s := by
  constructor
  · rintro ⟨hnone, -⟩
    exact guarded_of_not_stranded hrun hnone
  · intro hlive
    have hnone := not_stranded_of_guarded hlive
    have hheld : s.Held :=
      hrun.invariant held_newAppendChannel fun _ _ _ hs hstep => held_step hs hstep.2
    refine ⟨hnone, fun i hi => ?_⟩
    rcases sent_of_mem hrun hi with hwaiting | hanswered
    · refine .inr (canBeAnswered_of_live hheld (fun hexited => hnone i ?_) hwaiting)
      have hpending := (hheld.waiting i).mp hwaiting
      simp only [AppendChannel.pending, hexited] at hpending
      exact ⟨hexited, hpending, hwaiting⟩
    · exact .inl hanswered

end

/-- The partition is closed while a request waits in the channel; the writer
drains it before it exits, and a later caller is refused. -/
def drainedClose : List ChannelEvent :=
  [.call, .send 0, .call, .send 1, .receive, .close, .respond 7 none, .drain, .call, .refuse 2]

theorem not_stranded_iff_sendsToLiveWriter_drainedClose :
    ∃ s, Run (Guarded (fun _ _ => true) AppendChannel.step) newAppendChannel drainedClose s ∧
      s.calls = [.returned 7 none, .waiting, .returned (-1) (some .partitionClosed)] ∧
      (∀ i, ¬ s.Stranded i) ∧ (s.Answered 1 ∨ s.CanBeAnswered 1) := by
  have hend : (execute sendsToLiveWriter AppendChannel.step newAppendChannel drainedClose).map
      AppendChannel.calls =
      some [.returned 7 none, .waiting, .returned (-1) (some .partitionClosed)] := by
    decide +kernel
  obtain ⟨s, hlive, hcalls⟩ := exists_run_of_execute hend
  obtain ⟨hnone, hsent⟩ := (not_stranded_iff_sendsToLiveWriter hlive.unguarded).mpr hlive
  exact ⟨s, hlive.unguarded, hcalls, hnone, hsent 1 (by decide)⟩

/-- The caller comes to its `select` after `Close`, and the writer exits before
the caller sends. -/
def lateSend : List ChannelEvent := [.call, .close, .drain, .exit, .send 0]

theorem stranded_lateSend :
    ∃ s, Run (Guarded (fun _ _ => true) AppendChannel.step) newAppendChannel lateSend s ∧
      s.Stranded 0 := by
  have hend : (execute (fun _ _ => true) AppendChannel.step newAppendChannel lateSend).map
      (fun s => decide (s.Stranded 0)) = some true := by
    decide +kernel
  obtain ⟨s, hrun, hstranded⟩ := exists_run_of_execute hend
  exact ⟨s, hrun, of_decide_eq_true hstranded⟩

/-! The partition with its log takes the same steps on its channels. -/

def serverPhase : WriterPhase → ServerPhase
  | .selecting => .selecting
  | .holding i => .serving i
  | .replying i _ _ => .serving i
  | .exited => .exited

def channelOf (s : WriterState) : AppendChannel where
  appendCh := s.appendCh
  closed := s.closed
  draining := s.draining
  writer := serverPhase s.writer
  calls := s.calls.map Call.phase

section

variable {crc : RecordCodec.Checksum} {s s' : WriterState}

theorem channelOf_step {e : WriterEvent} (hstep : s.step crc e = some s') :
    channelOf s' = channelOf s ∨ ∃ event, (channelOf s).step event = some (channelOf s') := by
  cases writerStep_of_step hstep with
  | call => exact .inr ⟨.call, by simp [AppendChannel.step, channelOf]⟩
  | @send i records hi hroom =>
    refine .inr ⟨.send i, ?_⟩
    simp [AppendChannel.step, channelOf, hi, hroom, List.map_set]
  | @refuse i records hi hclosed =>
    refine .inr ⟨.refuse i, ?_⟩
    simp [AppendChannel.step, channelOf, hi, hclosed, List.map_set]
  | receive hwriter hch =>
    refine .inr ⟨.receive, ?_⟩
    simp [AppendChannel.step, channelOf, hwriter, hch, serverPhase]
  | append hwriter hi happend =>
    rw [WriterState.append] at happend
    split at happend <;> cases happend
    exact .inl (by simp [channelOf, hwriter, serverPhase])
  | @reply i base error c hwriter hi =>
    refine .inr ⟨.respond base error, ?_⟩
    simp [AppendChannel.step, channelOf, hwriter, serverPhase, List.map_set]
  | close => exact .inr ⟨.close, rfl⟩
  | drain hready =>
    refine .inr ⟨.drain, ?_⟩
    simp [AppendChannel.step, channelOf, hready, serverPhase]
  | exit hready =>
    refine .inr ⟨.exit, ?_⟩
    simp [AppendChannel.step, channelOf, hready, serverPhase]
  | flush => exact .inl rfl

/-- What holds of every run on the channels holds of the partition. -/
theorem channelOf_run {l₀ : Log} {steps : List WriterEvent}
    (hrun : Run (Guarded (fun _ _ => true) (WriterState.step crc)) (newWriter l₀) steps s) :
    ∃ events, Run (Guarded (fun _ _ => true) AppendChannel.step) newAppendChannel events
      (channelOf s) := by
  induction hrun with
  | nil => exact ⟨[], .nil⟩
  | snoc _ hlast ih =>
    obtain ⟨events, hevents⟩ := ih
    rcases channelOf_step hlast.2 with hsame | ⟨event, hevent⟩
    · exact ⟨events, hsame ▸ hevents⟩
    · exact ⟨events ++ [event], hevents.snoc ⟨rfl, hevent⟩⟩

end

end MiniKafka.PartitionClose
