import MiniKafka.AcksAllQuorum

/-!
No wake-up of a waiting `acks=all` produce is lost.

A handler enters the purgatory and then looks at the high watermark again.  A
handler that raises the high watermark completes what waits for it only later,
with the value it read.  In between, an item of the purgatory may be overdue;
then some handler is on its way that is going to complete it.
-/

namespace MiniKafka.AcksAllWakeups

open Durations RecordCodec PartitionLog InSyncReplicas BrokerHandlers
open AcksAllQuorum (Task.Watches Watched Kept ran handlers_ran kept_run watched_run
  watches_watch)
open Runs

def Purgatory.completedBy (q : Purgatory) (key : TopicPartition) :
    PurgatoryCall → List ProduceRequestItem
  | .complete hw =>
    q.items.filter fun item => decide (item.key = key) && decide (item.requiredHW ≤ hw)
  | _ => []

def Purgatory.cancelledBy (q : Purgatory) : PurgatoryCall → List ProduceRequestItem
  | .cancel id => q.items.filter fun item => decide (item.id = id)
  | _ => []

def Purgatory.enteredBy (q : Purgatory) (key : TopicPartition) (channel : Nat) :
    PurgatoryCall → List ProduceRequestItem
  | .watch requiredHW => [⟨q.nextID + 1, key, requiredHW, channel⟩]
  | _ => []

/-- A broker with the items that have left its purgatory. -/
structure History where
  broker : Broker
  completed : List ProduceRequestItem
  cancelled : List ProduceRequestItem

def History.step (crc : Checksum) (cfg : BrokerConfig) (s : History) (e : Event) :
    Option History :=
  (s.broker.step crc cfg e).map fun b =>
    match e with
    | .run thread choice =>
      match s.broker.handlers[thread]? with
      | none => { s with broker := b }
      | some h =>
        let call := h.task.purgatoryCall s.broker.now choice
        { broker := b
          completed := s.completed ++ Purgatory.completedBy s.broker.purgatory h.key call
          cancelled := s.cancelled ++ Purgatory.cancelledBy s.broker.purgatory call }
    | _ => { s with broker := b }

def ProducePhase.required : ProducePhase → Option Int64
  | .waiting _ requiredHW => some requiredHW
  | .notYet _ requiredHW => some requiredHW
  | .watching _ requiredHW _ => some requiredHW
  | .reached _ requiredHW _ => some requiredHW
  | .releasing _ requiredHW _ _ => some requiredHW
  | .timing _ requiredHW _ => some requiredHW
  | .selecting _ requiredHW _ => some requiredHW
  | _ => none

def Task.carried : Task → Option Int64
  | .produce _ _ (.updated _ _ hw) => some hw
  | .produce _ _ (.published _ _ hw) => some hw
  | .produce _ _ (.releasing _ _ _ hw) => some hw
  | .replicaFetch _ (.replicaUpdated _ hw) => some hw
  | .replicaFetch _ (.published _ hw) => some hw
  | _ => none

/-- An updater has updated the tracker and not called `CheckAndComplete` yet,
or a waiter has entered the purgatory and not finished its second look at the
high watermark. -/
def Task.betweenSteps : Task → Bool
  | .produce _ _ (.updated _ _ _) => true
  | .produce _ _ (.published _ _ _) => true
  | .produce _ _ (.watching _ _ _) => true
  | .produce _ _ (.reached _ _ _) => true
  | .produce _ _ (.releasing _ _ _ _) => true
  | .replicaFetch _ (.leaderUpdated _ _) => true
  | .replicaFetch _ (.replicaUpdated _ _) => true
  | .replicaFetch _ (.published _ _) => true
  | _ => false

/-- The handler is going to complete the items that wait for `requiredHW`. -/
def Task.Releases (requiredHW : Int64) : Task → Prop
  | .produce _ _ (.watching _ required _) => required = requiredHW
  | .produce _ _ (.reached _ required _) => required = requiredHW
  | .produce _ _ (.updated _ _ hw) => requiredHW.toInt ≤ hw.toInt
  | .produce _ _ (.published _ _ hw) => requiredHW.toInt ≤ hw.toInt
  | .produce _ _ (.releasing _ _ _ hw) => requiredHW.toInt ≤ hw.toInt
  | .replicaFetch _ (.leaderUpdated _ _) => True
  | .replicaFetch _ (.replicaUpdated _ hw) => requiredHW.toInt ≤ hw.toInt
  | .replicaFetch _ (.published _ hw) => requiredHW.toInt ≤ hw.toInt
  | _ => False

/-- A broker in which nobody waits yet: handlers may be about to update a
tracker or to wait, with any values. -/
structure Fresh (b : Broker) : Prop where
  items : b.purgatory.items = []
  answers : b.purgatory.answers = []
  trackers : ∀ key, 0 ≤ (b.partitions key).tracker.highWatermark.toInt
  handlers : ∀ h ∈ b.handlers, Task.carried h.task = none

def Fits (p : Partition) (task : Task) : Prop :=
  ∀ hw ∈ Task.carried task, hw.toInt ≤ p.tracker.highWatermark.toInt

/-- Every overdue item has a handler that is going to complete it. -/
def Covered (b : Broker) : Prop :=
  ∀ item ∈ b.purgatory.items,
    item.requiredHW.toInt ≤ (b.partitions item.key).tracker.highWatermark.toInt →
    ∃ (thread : Nat) (h : Handler), b.handlers[thread]? = some h ∧ h.key = item.key ∧
      Task.Releases item.requiredHW h.task

def History.items (s : History) : List ProduceRequestItem :=
  s.broker.purgatory.items ++ (s.completed ++ s.cancelled)

/-- Every handler enters the purgatory once, and its item leaves once. -/
structure Distinct (s : History) : Prop where
  channels : (s.items.map ProduceRequestItem.respCh).Nodup
  entered : ∀ item ∈ s.items, ∃ h requiredHW, s.broker.handlers[item.respCh]? = some h ∧
    Task.Watches requiredHW h.task

structure Sound (s : History) : Prop where
  threads : Threads (fun _ _ p => 0 ≤ p.tracker.highWatermark.toInt) (fun _ p task => Fits p task)
    s.broker
  watched : Watched s.broker
  covered : Covered s.broker
  distinct : Distinct s

section

variable {crc : Checksum} {cfg : BrokerConfig} {p p' : Partition} {q q' : Purgatory}
  {key : TopicPartition} {channel : Nat} {now : Int} {choice : Choice} {task task' : Task}

theorem highWatermark_step (hstep : PartitionStep crc cfg now task p p') :
    p.tracker.highWatermark.toInt ≤ p'.tracker.highWatermark.toInt := by
  cases hstep with
  | same => exact le_rfl
  | append env hleft => exact le_rfl
  | update hpending => exact highWatermark_updateLEO p.tracker _ _ _ _
  | publish hpending => exact le_rfl

theorem carried_next (hnext : task.next crc cfg key channel now choice p q = some (task', p', q'))
    {hw : Int64} (hhw : hw ∈ Task.carried task') :
    hw ∈ Task.carried task ∨ hw = p'.tracker.highWatermark := by
  cases task with
  | produce request deadline phase =>
    obtain ⟨⟨phase', p'', q''⟩, hphase, heq⟩ := Option.map_eq_some_iff.mp hnext
    cases heq
    cases produceStep_of_next hphase with
    | update => exact .inr (Option.some.inj hhw).symm
    | publish => exact .inl hhw
    | reread => exact .inr (Option.some.inj hhw).symm
    | _ => cases hhw
  | replicaFetch request phase =>
    obtain ⟨⟨phase', p'', q''⟩, hphase, heq⟩ := Option.map_eq_some_iff.mp hnext
    cases heq
    cases phase with
    | received =>
      rw [ReplicaFetchPhase.next] at hphase
      split at hphase
      · cases hphase
        cases hhw
      · cases hphase
        revert hhw
        split <;> intro hhw <;> cases hhw
    | leaderUpdated records leaderLEO =>
      cases hphase
      exact .inr (Option.some.inj hhw).symm
    | replicaUpdated records hw =>
      cases hphase
      exact .inl hhw
    | answered payload => cases hphase
    | _ =>
      cases hphase
      cases hhw
  | fetch request phase =>
    obtain ⟨phase', -, heq⟩ := Option.map_eq_some_iff.mp hnext
    cases heq
    cases hhw

theorem releases_of_raised {requiredHW : Int64}
    (hnext : task.next crc cfg key channel now choice p q = some (task', p', q'))
    (hraised : p.tracker.highWatermark.toInt < p'.tracker.highWatermark.toInt)
    (hreached : requiredHW.toInt ≤ p'.tracker.highWatermark.toInt) :
    Task.Releases requiredHW task' := by
  cases partitionStep_next hnext with
  | same => exact absurd hraised (lt_irrefl _)
  | append env hleft => exact absurd hraised (lt_irrefl _)
  | publish hpending => exact absurd hraised (lt_irrefl _)
  | update hpending =>
    rcases update_call hpending with ⟨_, _, _, rfl, rfl, rfl⟩ | ⟨_, _, rfl, rfl, rfl⟩ |
      ⟨_, _, rfl, rfl, rfl⟩
    · cases hnext
      exact hreached
    · cases hnext
      trivial
    · cases hnext
      exact hreached

/-- A handler that is going to complete an overdue item stays on its way, or
completes it. -/
theorem releases_next {requiredHW : Int64} (hreleases : Task.Releases requiredHW task)
    (hnext : task.next crc cfg key channel now choice p q = some (task', p', q'))
    (hreached : requiredHW.toInt ≤ p'.tracker.highWatermark.toInt) :
    Task.Releases requiredHW task' ∨
      ∃ hw, task.purgatoryCall now choice = .complete hw ∧ requiredHW.toInt ≤ hw.toInt := by
  cases task with
  | produce request deadline phase =>
    obtain ⟨⟨phase', p'', q''⟩, hphase, heq⟩ := Option.map_eq_some_iff.mp hnext
    cases heq
    cases phase with
    | updated block leaderLEO hw =>
      cases hphase
      exact .inl hreleases
    | published block leaderLEO hw => exact .inr ⟨hw, rfl, hreleases⟩
    | watching block required id =>
      cases hphase
      obtain rfl : required = requiredHW := hreleases
      rw [← Int64.le_iff_toInt_le] at hreached
      rw [if_pos hreached]
      exact .inl rfl
    | reached block required id =>
      cases hphase
      exact .inl hreached
    | releasing block required id hw => exact .inr ⟨hw, rfl, hreleases⟩
    | _ => exact hreleases.elim
  | replicaFetch request phase =>
    obtain ⟨⟨phase', p'', q''⟩, hphase, heq⟩ := Option.map_eq_some_iff.mp hnext
    cases heq
    cases phase with
    | leaderUpdated records leaderLEO =>
      cases hphase
      exact .inl hreached
    | replicaUpdated records hw =>
      cases hphase
      exact .inl hreleases
    | published records hw => exact .inr ⟨hw, rfl, hreleases⟩
    | _ => exact hreleases.elim
  | fetch request phase => exact hreleases.elim

theorem reached_of_answered {request : ProduceRequest} {deadline : Int} {phase : ProducePhase}
    {requiredHW : Int64} {block : Block} (hnonneg : 0 ≤ p.tracker.highWatermark.toInt)
    (hanswer : channel ∈ q.answers →
      ∃ required, Task.Watches required (.produce request deadline phase) ∧
        required.toInt ≤ p.tracker.highWatermark.toInt)
    (hrequired : ProducePhase.required phase = some requiredHW)
    (hnext : phase.next crc cfg request deadline key channel now choice p q =
      some (.answered .none block, p', q')) :
    requiredHW.toInt ≤ p.tracker.highWatermark.toInt := by
  cases produceStep_of_next hnext with
  | met hcheck =>
    cases hrequired
    rw [Int64.le_iff_toInt_le, Int64.le_iff_toInt_le, Int64.toInt_zero] at hcheck
    rcases hcheck with hzero | hreached
    · exact hzero.trans hnonneg
    · exact hreached
  | receive hquiet hmem =>
    cases hrequired
    obtain ⟨_, rfl, hreached⟩ := hanswer hmem
    exact hreached
  | _ => cases hrequired

theorem carried_of_complete {hw : Int64} (hcall : task.purgatoryCall now choice = .complete hw) :
    hw ∈ Task.carried task := by
  rcases complete_call hcall with ⟨_, _, _, _, rfl⟩ | ⟨_, _, _, _, _, rfl⟩ | ⟨_, _, rfl⟩ <;> rfl

theorem not_watches_of_watch {requiredHW required : Int64}
    (hcall : task.purgatoryCall now choice = .watch requiredHW) :
    ¬ Task.Watches required task := by
  obtain ⟨request, deadline, block, rfl⟩ := watch_call hcall
  exact id

theorem releases_watch {requiredHW : Int64}
    (hcall : task.purgatoryCall now choice = .watch requiredHW)
    (hnext : task.next crc cfg key channel now choice p q = some (task', p', q')) :
    Task.Releases requiredHW task' := by
  obtain ⟨request, deadline, block, rfl⟩ := watch_call hcall
  cases hnext
  rfl

end

section

variable {crc : Checksum} {cfg : BrokerConfig} {s s' : History} {thread : Nat} {choice : Choice}
  {g : Handler} {task : Task} {p : Partition} {q : Purgatory}

theorem history_run (hstep : s.step crc cfg (.run thread choice) = some s') :
    ∃ g task p q, s.broker.handlers[thread]? = some g ∧
      g.task.next crc cfg g.key thread s.broker.now choice (s.broker.partitions g.key)
        s.broker.purgatory = some (task, p, q) ∧
      s' = ⟨ran s.broker thread g task p q,
        s.completed ++ Purgatory.completedBy s.broker.purgatory g.key
          (g.task.purgatoryCall s.broker.now choice),
        s.cancelled ++ Purgatory.cancelledBy s.broker.purgatory
          (g.task.purgatoryCall s.broker.now choice)⟩ := by
  obtain ⟨b, hb, rfl⟩ := Option.map_eq_some_iff.mp hstep
  obtain ⟨g, task, p, q, hg, hnext, rfl⟩ := step_run hb
  refine ⟨g, task, p, q, hg, hnext, ?_⟩
  simp only [hg]
  rfl

theorem fits_next (hfits : Fits (s.broker.partitions g.key) g.task)
    (hnext : g.task.next crc cfg g.key thread s.broker.now choice (s.broker.partitions g.key)
      s.broker.purgatory = some (task, p, q)) : Fits p task := by
  intro hw hhw
  rcases carried_next hnext hhw with hold | rfl
  · exact (hfits hw hold).trans (highWatermark_step (partitionStep_next hnext))
  · exact le_rfl

theorem mem_serve {key : TopicPartition} {channel : Nat} {call : PurgatoryCall}
    {item : ProduceRequestItem} (hitem : item ∈ (q.serve key channel call).items) :
    (item.key = key ∧ item.respCh = channel ∧ call = .watch item.requiredHW) ∨
      (item ∈ q.items ∧ ∀ hw, call = .complete hw → item.key = key →
        hw.toInt < item.requiredHW.toInt) := by
  cases call with
  | none => exact .inr ⟨hitem, nofun⟩
  | receive => exact .inr ⟨hitem, nofun⟩
  | cancel id => exact .inr ⟨List.mem_of_mem_filter hitem, nofun⟩
  | watch requiredHW =>
    rcases List.mem_append.mp hitem with hold | hnew
    · exact .inr ⟨List.mem_of_mem_filter hold, nofun⟩
    · obtain rfl := List.mem_singleton.mp hnew
      exact .inl ⟨rfl, rfl, rfl⟩
  | complete hw =>
    obtain ⟨hold, hnot⟩ := List.mem_filter.mp hitem
    refine .inr ⟨hold, fun _ heq hkey => ?_⟩
    cases heq
    simpa [hkey, Int64.le_iff_toInt_le] using hnot

theorem covered_run {b : Broker} (hcovered : Covered b) (hg : b.handlers[thread]? = some g)
    (hnext : g.task.next crc cfg g.key thread b.now choice (b.partitions g.key) b.purgatory =
      some (task, p, q)) : Covered (ran b thread g task p q) := by
  intro item hitem hreached
  have hown : item.key = g.key → item.requiredHW.toInt ≤ p.tracker.highWatermark.toInt := by
    intro hkey
    simpa [ran, hkey] using hreached
  obtain rfl := purgatory_next hnext
  rcases mem_serve hitem with ⟨hkey, -, hcall⟩ | ⟨hold, hleft⟩
  · exact ⟨thread, _, handlers_ran hg, hkey.symm, releases_watch hcall hnext⟩
  by_cases hoverdue : item.requiredHW.toInt ≤ (b.partitions item.key).tracker.highWatermark.toInt
  · obtain ⟨other, h, hh, hkey, hreleases⟩ := hcovered item hold hoverdue
    by_cases heq : thread = other
    · subst heq
      obtain rfl := Option.some.inj (hg.symm.trans hh)
      rcases releases_next hreleases hnext (hown hkey.symm) with hstill | ⟨hw, hcall, hle⟩
      · exact ⟨thread, _, handlers_ran hg, hkey, hstill⟩
      · have hgone := hleft hw hcall hkey.symm
        omega
    · exact ⟨other, h, (List.getElem?_set_ne heq).trans hh, hkey, hreleases⟩
  · -- the step has raised the high watermark of the item's partition
    have hkey : item.key = g.key := by
      by_contra hne
      exact hoverdue (by simpa [ran, hne] using hreached)
    have hafter := hown hkey
    rw [hkey] at hoverdue
    exact ⟨thread, _, handlers_ran hg, hkey.symm,
      releases_of_raised hnext (lt_of_lt_of_le (not_le.mp hoverdue) hafter) hafter⟩

theorem count_leave (leaves : ProduceRequestItem → Bool) (items : List ProduceRequestItem)
    (item : ProduceRequestItem) :
    (items.filter leaves).count item + (items.filter fun other => !leaves other).count item =
      items.count item := by
  rw [← List.count_append]
  exact (List.filter_append_perm leaves items).count_eq item

/-- A call moves items from the purgatory to those that have left it, and lets
at most one enter. -/
theorem serve_subperm (q : Purgatory) (key : TopicPartition) (channel : Nat) (call : PurgatoryCall)
    (completed cancelled : List ProduceRequestItem) :
    ((q.serve key channel call).items ++ (completed ++ Purgatory.completedBy q key call ++
      (cancelled ++ Purgatory.cancelledBy q call))).Subperm
      (q.items ++ (completed ++ cancelled) ++ Purgatory.enteredBy q key channel call) := by
  rw [List.subperm_ext_iff]
  intro item _
  cases call with
  | none => simp [Purgatory.serve, Purgatory.completedBy, Purgatory.cancelledBy,
      Purgatory.enteredBy]
  | receive => simp [Purgatory.serve, Purgatory.completedBy, Purgatory.cancelledBy,
      Purgatory.enteredBy]
  | complete hw =>
    have hleave := count_leave
      (fun item => decide (item.key = key) && decide (item.requiredHW ≤ hw)) q.items item
    simp only [Purgatory.serve, Purgatory.checkAndComplete, Purgatory.completedBy,
      Purgatory.cancelledBy, Purgatory.enteredBy, List.count_append, List.count_nil]
    omega
  | cancel id =>
    have hleave := count_leave (fun item => decide (item.id = id)) q.items item
    simp only [Purgatory.serve, Purgatory.cancel, Purgatory.completedBy, Purgatory.cancelledBy,
      Purgatory.enteredBy, List.count_append, List.count_nil, decide_not] at hleave ⊢
    omega
  | watch requiredHW =>
    have hle := (List.filter_sublist (p := fun item : ProduceRequestItem =>
      decide (item.id ≠ q.nextID + 1)) (l := q.items)).count_le item
    simp only [Purgatory.serve, Purgatory.watch, Purgatory.completedBy, Purgatory.cancelledBy,
      Purgatory.enteredBy, List.count_append, List.count_nil] at hle ⊢
    omega

theorem mem_enteredBy {key : TopicPartition} {channel : Nat} {call : PurgatoryCall}
    {item : ProduceRequestItem} (hitem : item ∈ Purgatory.enteredBy q key channel call) :
    item.respCh = channel ∧ call = .watch item.requiredHW := by
  cases call with
  | watch requiredHW =>
    obtain rfl := List.mem_singleton.mp hitem
    exact ⟨rfl, rfl⟩
  | _ => cases hitem

theorem nodup_enteredBy (q : Purgatory) (key : TopicPartition) (channel : Nat)
    (call : PurgatoryCall) :
    ((Purgatory.enteredBy q key channel call).map ProduceRequestItem.respCh).Nodup := by
  cases call with
  | watch requiredHW => exact List.nodup_singleton _
  | _ => exact List.nodup_nil

theorem distinct_run (h : Distinct s) (hg : s.broker.handlers[thread]? = some g)
    (hnext : g.task.next crc cfg g.key thread s.broker.now choice (s.broker.partitions g.key)
      s.broker.purgatory = some (task, p, q)) :
    Distinct ⟨ran s.broker thread g task p q,
      s.completed ++ Purgatory.completedBy s.broker.purgatory g.key
        (g.task.purgatoryCall s.broker.now choice),
      s.cancelled ++ Purgatory.cancelledBy s.broker.purgatory
        (g.task.purgatoryCall s.broker.now choice)⟩ := by
  have hkept := kept_run hg hnext (highWatermark_step (partitionStep_next hnext))
  obtain rfl := purgatory_next hnext
  have hserve := serve_subperm s.broker.purgatory g.key thread
    (g.task.purgatoryCall s.broker.now choice) s.completed s.cancelled
  constructor
  · obtain ⟨l, hperm, hsub⟩ := hserve
    refine (hperm.map _).nodup_iff.mp (List.Nodup.sublist (hsub.map _) ?_)
    rw [List.map_append, List.nodup_append']
    refine ⟨h.channels, nodup_enteredBy _ _ _ _, ?_⟩
    intro channel hold hnew
    obtain ⟨item, hitem, rfl⟩ := List.mem_map.mp hold
    obtain ⟨entered, hentered, heq⟩ := List.mem_map.mp hnew
    obtain ⟨hchannel, hcall⟩ := mem_enteredBy hentered
    obtain ⟨g', requiredHW, hg', hwatches⟩ := h.entered item hitem
    rw [← heq, hchannel] at hg'
    obtain rfl := Option.some.inj (hg.symm.trans hg')
    exact not_watches_of_watch hcall hwatches
  · intro item hitem
    rcases List.mem_append.mp (hserve.subset hitem) with hold | hnew
    · obtain ⟨g', requiredHW, hg', hwatches⟩ := h.entered item hold
      obtain ⟨g'', hg'', -, hstill⟩ := hkept.handlers _ g' hg'
      exact ⟨g'', requiredHW, hg'', hstill _ hwatches⟩
    · obtain ⟨hchannel, hcall⟩ := mem_enteredBy hnew
      refine ⟨⟨g.key, task⟩, item.requiredHW, ?_, watches_watch hcall hnext⟩
      rw [hchannel]
      exact handlers_ran hg

theorem threads_history {e : Event} (h : Sound s) (hstep : s.step crc cfg e = some s') :
    Threads (fun _ _ p => 0 ≤ p.tracker.highWatermark.toInt) (fun _ p task => Fits p task)
      s'.broker := by
  obtain ⟨b, hb, hs'⟩ := Option.map_eq_some_iff.mp hstep
  have hbroker : s'.broker = b := by
    rw [← hs']
    split
    · split <;> rfl
    · rfl
  rw [hbroker]
  refine threads_step h.threads hb (fun _ _ _ _ _ => id) ?_ ?_
  · rintro key request rfl hw hhw
    cases request <;> cases hhw
  · rintro thread choice g task p q rfl hg hnext
    have hrises := highWatermark_step (partitionStep_next hnext)
    refine ⟨(h.threads.partitions g.key).trans hrises,
      fits_next (h.threads.handlers g (List.mem_of_getElem? hg)) hnext, ?_⟩
    exact fun other hother hw hhw => (hother hw hhw).trans hrises

theorem sound_step {e : Event} (h : Sound s) (hstep : s.step crc cfg e = some s') : Sound s' := by
  have hthreads := threads_history h hstep
  cases e with
  | tick elapsed =>
    obtain rfl := Option.some.inj hstep
    exact ⟨hthreads, ⟨h.watched.items, h.watched.answers⟩, h.covered,
      ⟨h.distinct.channels, h.distinct.entered⟩⟩
  | arrive key request =>
    obtain rfl := Option.some.inj hstep
    have hkept : ∀ {channel : Nat} {g : Handler}, s.broker.handlers[channel]? = some g →
        (s.broker.handlers ++ [⟨key, request.begin s.broker.now⟩])[channel]? = some g := by
      intro channel g hg
      rw [List.getElem?_append_left (List.getElem?_eq_some_iff.mp hg).1]
      exact hg
    refine ⟨hthreads, ?_, ?_, ⟨h.distinct.channels, ?_⟩⟩
    · exact h.watched.step ⟨fun channel g hg => ⟨g, hkept hg, rfl, fun _ => id⟩, fun _ => le_rfl⟩
        (fun _ => .inl) (fun _ => .inl)
    · intro item hitem hreached
      obtain ⟨thread, g, hg, hkey, hreleases⟩ := h.covered item hitem hreached
      exact ⟨thread, g, hkept hg, hkey, hreleases⟩
    · intro item hitem
      obtain ⟨g, requiredHW, hg, hwatches⟩ := h.distinct.entered item hitem
      exact ⟨g, requiredHW, hkept hg, hwatches⟩
  | run thread choice =>
    obtain ⟨g, task, p, q, hg, hnext, rfl⟩ := history_run hstep
    have hfits := h.threads.handlers g (List.mem_of_getElem? hg)
    refine ⟨hthreads, ?_, covered_run h.covered hg hnext, distinct_run h.distinct hg hnext⟩
    exact watched_run h.watched (fun hw hcall => hfits hw (carried_of_complete hcall)) hg hnext
      (highWatermark_step (partitionStep_next hnext))

theorem sound_fresh {b : Broker} (h : Fresh b) : Sound ⟨b, [], []⟩ := by
  refine ⟨⟨h.trackers, ?_⟩, ⟨?_, ?_⟩, ?_, ⟨?_, ?_⟩⟩
  · intro g hg hw hhw
    rw [h.handlers g hg] at hhw
    cases hhw
  · intro item hitem
    rw [h.items] at hitem
    cases hitem
  · intro channel hchannel
    rw [h.answers] at hchannel
    cases hchannel
  · intro item hitem
    rw [h.items] at hitem
    cases hitem
  · rw [History.items, h.items]
    exact List.nodup_nil
  · intro item hitem
    rw [History.items, h.items] at hitem
    cases hitem

theorem betweenSteps_of_releases {requiredHW : Int64} (h : Task.Releases requiredHW task) :
    Task.betweenSteps task = true := by
  cases task with
  | produce request deadline phase => cases phase <;> first | rfl | exact h.elim
  | replicaFetch request phase => cases phase <;> first | rfl | exact h.elim
  | fetch request phase => exact h.elim

/-- In every run of handlers over the trackers of their partitions: a waiter
that returns without an error has been reached by the high watermark of its
partition; while no handler is between its steps, the purgatory holds nothing
that is overdue; and an item is completed or cancelled at most once, and is then
no longer in the purgatory. -/
theorem acksAll_wakeups {b : Broker} {events : List Event} (hfresh : Fresh b)
    (hrun : Run (Guarded (fun _ _ => true) (History.step crc cfg)) ⟨b, [], []⟩ events s) :
    (∀ thread choice b', s.broker.step crc cfg (.run thread choice) = some b' →
      ∀ key request deadline phase requiredHW block,
        s.broker.handlers[thread]? = some ⟨key, .produce request deadline phase⟩ →
        ProducePhase.required phase = some requiredHW →
        b'.handlers[thread]? = some ⟨key, .produce request deadline (.answered .none block)⟩ →
        requiredHW.toInt ≤ (s.broker.partitions key).tracker.highWatermark.toInt) ∧
      ((∀ h ∈ s.broker.handlers, Task.betweenSteps h.task = false) →
        ∀ item ∈ s.broker.purgatory.items,
          (s.broker.partitions item.key).tracker.highWatermark.toInt < item.requiredHW.toInt) ∧
      ((s.broker.purgatory.items ++ (s.completed ++ s.cancelled)).map
        ProduceRequestItem.respCh).Nodup := by
  have hsound : Sound s := by
    refine hrun.invariant (sound_fresh hfresh) ?_
    rintro s e t hs ⟨-, hstep⟩
    exact sound_step hs hstep
  refine ⟨?_, ?_, hsound.distinct.channels⟩
  · intro thread choice b' hstep key request deadline phase requiredHW block hthread hrequired
      hanswered
    obtain ⟨g, task, p, q, hg, hnext, rfl⟩ := step_run hstep
    obtain rfl := Option.some.inj (hthread.symm.trans hg)
    obtain ⟨⟨phase', p', q'⟩, hphase, heq⟩ := Option.map_eq_some_iff.mp hnext
    cases heq
    rw [List.getElem?_set_self (List.getElem?_eq_some_iff.mp hg).1] at hanswered
    cases hanswered
    refine reached_of_answered (hsound.threads.partitions key) (fun hmem => ?_) hrequired hphase
    obtain ⟨g', required, hg', hwatches, hreached⟩ := hsound.watched.answers thread hmem
    obtain rfl := Option.some.inj (hg.symm.trans hg')
    exact ⟨required, hwatches, hreached⟩
  · intro hquiet item hitem
    by_contra hoverdue
    obtain ⟨thread, h, hh, -, hreleases⟩ := hsound.covered item hitem (not_lt.mp hoverdue)
    have hbetween := betweenSteps_of_releases hreleases
    rw [hquiet h (List.mem_of_getElem? hh)] at hbetween
    cases hbetween

end

def releaseRun : List Event :=
  .arrive events (.produce (produceOne (-1))) :: List.replicate 10 (.run 0 calm) ++
    .arrive events (.replicaFetch ⟨2, 1⟩) :: List.replicate 6 (.run 1 calm)

theorem fresh_newBroker (cfg : BrokerConfig) (logs : TopicPartition → Log) (now : Int) :
    Fresh (newBroker cfg logs now) :=
  ⟨rfl, rfl, fun _ => le_rfl, fun h hh => by cases hh⟩

theorem acksAll_wakeups_released :
    ∃ s, Run (Guarded (fun _ _ => true) (History.step castagnoli pairConfig))
        ⟨newBroker pairConfig (fun _ => emptyLog) 0, [], []⟩ releaseRun s ∧
      s.completed.map ProduceRequestItem.respCh = [0] ∧
      (1 : Int64).toInt ≤ (s.broker.partitions events).tracker.highWatermark.toInt ∧
      ((s.broker.purgatory.items ++ (s.completed ++ s.cancelled)).map
        ProduceRequestItem.respCh).Nodup := by
  have hend : (execute (fun _ _ => true) (History.step castagnoli pairConfig)
      ⟨newBroker pairConfig (fun _ => emptyLog) 0, [], []⟩ releaseRun).map
        (fun s => (s.completed.map ProduceRequestItem.respCh, s.broker.handlers[0]?,
          (s.broker.step castagnoli pairConfig (.run 0 calm)).map fun b => b.handlers[0]?)) =
      some ([0],
        some ⟨events, .produce (produceOne (-1)) 1000000000 (.selecting ⟨0, 1⟩ 1 1)⟩,
        some (some ⟨events, .produce (produceOne (-1)) 1000000000 (.answered .none ⟨0, 1⟩)⟩)) := by
    decide +kernel
  obtain ⟨s, hrun, hs⟩ := exists_run_of_execute hend
  obtain ⟨hcompleted, hrest⟩ := Prod.mk.inj hs
  obtain ⟨hwaits, hanswer⟩ := Prod.mk.inj hrest
  obtain ⟨b, hstep, hanswered⟩ := Option.map_eq_some_iff.mp hanswer
  obtain ⟨hreached, -, hdistinct⟩ := acksAll_wakeups (fresh_newBroker _ _ _) hrun
  exact ⟨s, hrun, hcompleted, hreached 0 calm b hstep events _ _ _ 1 _ hwaits rfl hanswered,
    hdistinct⟩

end MiniKafka.AcksAllWakeups
