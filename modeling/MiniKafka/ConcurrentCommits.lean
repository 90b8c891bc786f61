import MiniKafka.OffsetRecovery

/-!
Concurrent calls of `Commit`.

A call changes the map in one critical section, appends to a log without a
lock, and restores the map in another critical section if the append failed.
The map and the logs agree as long as the commits of a key reach the log in
the order in which they changed the map, and are undone in the reverse order.
-/

namespace MiniKafka.ConcurrentCommits

open BigEndian LastWrite RecordCodec PartitionLog LogContents CommittedOffsets OffsetRecovery Runs

inductive Phase where
  | pending
  | failed
  | finished
  deriving DecidableEq, Repr

structure Call where
  staged : Staged
  phase : Phase
  deriving DecidableEq, Repr

/-- A store with the calls of `Commit` so far, in the order in which they
changed the map.  `appended` records the changes that reached a log. -/
structure Commits where
  store : OffsetStore
  calls : List Call
  appended : List (Bytes × Int64)

inductive Event where
  | begin (groupID topic : Bytes) (partition : Int32) (offset : Int64)
  | append (call : Nat) (timestamp : Int64) (env : Surroundings) (error : Option LogError)
  | rollback (call : Nat)
  | restart (dir : Directory)

def begun (store : OffsetStore) : Commits := ⟨store, [], []⟩

/-- One step of a call, or a restart between calls.  A call without a log
returns at once. -/
def next (crc : Checksum) (numPartitions : Int32) (w : Commits) : Event → Option Commits
  | .begin groupID topic partition offset =>
    match w.store.stage groupID topic partition offset with
    | (store, c) =>
      let phase := if c.log = none then .finished else .pending
      some { w with store := store, calls := w.calls ++ [⟨c, phase⟩] }
  | .append i timestamp env error =>
    match w.calls[i]? with
    | some ⟨c, .pending⟩ =>
      match c.log with
      | none => none
      | some j =>
        match w.store.persist crc j (c.record timestamp) env with
        | (store, error') =>
          if error' = error then
            some
              { store := store
                calls := w.calls.set i ⟨c, if error = none then .finished else .failed⟩
                appended :=
                  if error = none then w.appended ++ [(c.key, c.offset)] else w.appended }
          else none
    | _ => none
  | .rollback i =>
    match w.calls[i]? with
    | some ⟨c, .failed⟩ =>
      some
        { w with
          store := w.store.rollback c
          calls := w.calls.set i ⟨c, .finished⟩ }
    | _ => none
  | .restart dir =>
    if w.calls.all fun call => decide (call.phase = .finished) then
      match restart crc numPartitions w.store dir with
      | some (store, none) => some { w with store := store }
      | _ => none
    else none

def guard (w : Commits) : Event → Bool
  | .append i _ _ _ =>
    (w.calls[i]?.bind fun call => call.staged.log.bind fun j => w.store.logs[j]?).all
      fun l => decide (OffsetsLeft l 1)
  | _ => true

def Call.idleFor (key : Bytes) (call : Call) : Bool :=
  decide (call.phase = .finished) || decide (call.staged.key ≠ key)

/-- Topics are legal.  An append goes through only for the oldest call under way
for its key, and a rollback happens only for the youngest one. -/
def inOrder (w : Commits) : Event → Bool
  | .begin _ topic _ _ => validTopicName topic
  | .append i _ _ error =>
    error.isSome ||
      (w.calls[i]?).all fun call => (w.calls.take i).all (Call.idleFor call.staged.key)
  | .rollback i =>
    (w.calls[i]?).all fun call => (w.calls.drop (i + 1)).all (Call.idleFor call.staged.key)
  | .restart _ => true

/-- The map agrees with what has reached the logs, up to calls still under
way, and a restart does not change what is fetched once there are none. -/
structure Agrees (crc : Checksum) (numPartitions : Int32) (w : Commits) : Prop where
  settled : ∀ key, (∀ call ∈ w.calls, call.idleFor key = true) →
    w.store.cache key = latest w.appended key
  underWay : ∀ key, w.store.cache key = latest w.appended key ∨
    ∃ call ∈ w.calls, call.idleFor key = false ∧ w.store.cache key = some call.staged.offset
  restarts : (∀ call ∈ w.calls, call.phase = .finished) →
    ∀ dir, ∃ s, restart crc numPartitions w.store dir = some (s, none) ∧
      ∀ g t p, s.fetch g t p = w.store.fetch g t p

/-- Each change has replaced the value of the one before. -/
def Chained : Option Int64 → List Staged → Option Int64 → Prop
  | v, [], v' => v = v'
  | v, c :: cs, v' => c.old = v ∧ Chained (some c.offset) cs v'

theorem chained_concat {v v' : Option Int64} {cs : List Staged} {c : Staged} :
    Chained v (cs ++ [c]) v' ↔ Chained v cs c.old ∧ some c.offset = v' := by
  induction cs generalizing v with
  | nil => exact and_congr_left fun _ => eq_comm
  | cons d ds ih =>
    rw [List.cons_append, Chained, Chained, ih, and_assoc]

def underWayFor (calls : List Call) (key : Bytes) : List Staged :=
  (calls.filter fun call => !call.idleFor key).map Call.staged

theorem underWayFor_append (xs ys : List Call) (key : Bytes) :
    underWayFor (xs ++ ys) key = underWayFor xs key ++ underWayFor ys key := by
  simp [underWayFor]

theorem underWayFor_eq_nil {calls : List Call} {key : Bytes}
    (h : ∀ call ∈ calls, call.idleFor key = true) : underWayFor calls key = [] := by
  rw [underWayFor, List.filter_eq_nil_iff.mpr (by simpa using h), List.map_nil]

theorem underWayFor_cons_idle {call : Call} {key : Bytes} (h : call.idleFor key = true)
    (calls : List Call) : underWayFor (call :: calls) key = underWayFor calls key := by
  simp [underWayFor, h]

theorem underWayFor_cons_busy {call : Call} {key : Bytes} (h : call.idleFor key = false)
    (calls : List Call) :
    underWayFor (call :: calls) key = call.staged :: underWayFor calls key := by
  simp [underWayFor, h]

structure Sound (crc : Checksum) (numPartitions : Int32) (w : Commits) : Prop where
  backed : Backed crc numPartitions w.store
  chained : ∀ key, Chained (latest w.appended key) (underWayFor w.calls key) (w.store.cache key)
  restored : latest (journal crc w.store).flatten = latest w.appended
  placed : Placed crc w.store
  called : ∀ call ∈ w.calls, ∃ g t p, validTopicName t = true ∧
    call.staged.key = commitKey g t p ∧ call.staged.log = some (w.store.partitionFor g)

theorem split_calls {calls : List Call} {i : Nat} {call : Call} (h : calls[i]? = some call) :
    calls = calls.take i ++ call :: calls.drop (i + 1) ∧
      ∀ call', calls.set i call' = calls.take i ++ call' :: calls.drop (i + 1) := by
  obtain ⟨hi, rfl⟩ := List.getElem?_eq_some_iff.mp h
  refine ⟨?_, fun call' => ?_⟩
  · rw [← List.drop_eq_getElem_cons hi, List.take_append_drop]
  · exact List.set_eq_take_append_cons_drop.trans (if_pos hi)

theorem underWayFor_set_same {calls : List Call} {i : Nat} {c : Staged}
    (h : calls[i]? = some ⟨c, .pending⟩) (key : Bytes) :
    underWayFor (calls.set i ⟨c, .failed⟩) key = underWayFor calls key := by
  obtain ⟨hcalls, hset⟩ := split_calls h
  rw [hset, underWayFor_append]
  conv_rhs => rw [hcalls, underWayFor_append]
  by_cases hkey : c.key = key
  · rw [underWayFor_cons_busy (by simp [Call.idleFor, hkey]),
      underWayFor_cons_busy (by simp [Call.idleFor, hkey])]
  · rw [underWayFor_cons_idle (by simp [Call.idleFor, hkey]),
      underWayFor_cons_idle (by simp [Call.idleFor, hkey])]

theorem underWayFor_finish {calls : List Call} {i : Nat} {c : Staged} {phase : Phase}
    (h : calls[i]? = some ⟨c, phase⟩) (hphase : phase ≠ .finished) :
    underWayFor calls c.key = underWayFor (calls.take i) c.key ++
        c :: underWayFor (calls.drop (i + 1)) c.key ∧
      underWayFor (calls.set i ⟨c, .finished⟩) c.key =
        underWayFor (calls.take i) c.key ++ underWayFor (calls.drop (i + 1)) c.key ∧
      ∀ key, key ≠ c.key →
        underWayFor (calls.set i ⟨c, .finished⟩) key = underWayFor calls key := by
  obtain ⟨hcalls, hset⟩ := split_calls h
  refine ⟨?_, ?_, ?_⟩
  · conv_lhs => rw [hcalls, underWayFor_append]
    rw [underWayFor_cons_busy (by simp [Call.idleFor, hphase])]
  · rw [hset, underWayFor_append, underWayFor_cons_idle (by simp [Call.idleFor])]
  · intro key hkey
    rw [hset, underWayFor_append, underWayFor_cons_idle (by simp [Call.idleFor])]
    conv_rhs => rw [hcalls, underWayFor_append]
    rw [underWayFor_cons_idle (by simp [Call.idleFor, hkey.symm])]

section

variable {appended : List (Bytes × Int64)} {calls : List Call} {cache : Bytes → Option Int64}
  {i : Nat} {c : Staged}

theorem chained_oldest
    (h : ∀ key, Chained (latest appended key) (underWayFor calls key) (cache key))
    (hi : calls[i]? = some ⟨c, .pending⟩) (holder : underWayFor (calls.take i) c.key = [])
    (key : Bytes) :
    Chained (latest (appended ++ [(c.key, c.offset)]) key)
      (underWayFor (calls.set i ⟨c, .finished⟩) key) (cache key) := by
  obtain ⟨hbefore, hafter, hother⟩ := underWayFor_finish hi (by decide)
  rw [latest_concat]
  by_cases hsame : key = c.key
  · subst hsame
    have hchained := h c.key
    rw [hbefore, holder, List.nil_append] at hchained
    rw [hafter, holder, List.nil_append, Function.update_self]
    exact hchained.2
  · rw [hother key hsame, Function.update_of_ne hsame]
    exact h key

theorem chained_youngest
    (h : ∀ key, Chained (latest appended key) (underWayFor calls key) (cache key))
    (hi : calls[i]? = some ⟨c, .failed⟩) (hyounger : underWayFor (calls.drop (i + 1)) c.key = [])
    (key : Bytes) :
    Chained (latest appended key) (underWayFor (calls.set i ⟨c, .finished⟩) key)
      (Function.update cache c.key c.old key) := by
  obtain ⟨hbefore, hafter, hother⟩ := underWayFor_finish hi (by decide)
  by_cases hsame : key = c.key
  · subst hsame
    have hchained := h c.key
    rw [hbefore, hyounger] at hchained
    rw [hafter, hyounger, List.append_nil, Function.update_self]
    exact (chained_concat.mp hchained).1
  · rw [hother key hsame, Function.update_of_ne hsame]
    exact h key

end

section

variable {crc : Checksum} {numPartitions : Int32} {w w' : Commits}

theorem called_set (h : Sound crc numPartitions w) {i : Nat} {c : Staged} {phase : Phase}
    (hi : w.calls[i]? = some ⟨c, phase⟩) (phase' : Phase) {store : OffsetStore}
    (hpartition : ∀ g, store.partitionFor g = w.store.partitionFor g) :
    ∀ call ∈ w.calls.set i ⟨c, phase'⟩, ∃ g t p, validTopicName t = true ∧
      call.staged.key = commitKey g t p ∧ call.staged.log = some (store.partitionFor g) := by
  intro call hcall
  have hold : ∃ old ∈ w.calls, old.staged = call.staged := by
    rcases List.mem_or_eq_of_mem_set hcall with hmem | rfl
    · exact ⟨call, hmem, rfl⟩
    · exact ⟨_, List.mem_of_getElem? hi, rfl⟩
  obtain ⟨old, hmem, hstaged⟩ := hold
  obtain ⟨g, t, p, ht, hkey, hlog⟩ := h.called old hmem
  exact ⟨g, t, p, ht, hstaged ▸ hkey, by rw [hpartition, ← hstaged, hlog]⟩

theorem sound_begin (h : Sound crc numPartitions w) {g t : Bytes} {p : Int32} {offset : Int64}
    (ht : validTopicName t = true) (hnext : next crc numPartitions w (.begin g t p offset) = some w') :
    Sound crc numPartitions w' := by
  rw [next, stage_spec h.backed] at hnext
  obtain rfl := Option.some.inj hnext
  refine ⟨h.backed.withCache _, ?_, h.restored, h.placed, ?_⟩
  · intro key
    dsimp only
    rw [underWayFor_append]
    by_cases hkey : key = commitKey g t p
    · subst hkey
      rw [underWayFor_cons_busy (by simp [Call.idleFor]), Function.update_self]
      exact chained_concat.mpr ⟨h.chained _, rfl⟩
    · rw [underWayFor_cons_idle (by simp [Call.idleFor, Ne.symm hkey]),
        Function.update_of_ne hkey]
      change Chained _ (_ ++ []) _
      rw [List.append_nil]
      exact h.chained key
  · intro call hcall
    rcases List.mem_append.mp hcall with hold | hnew
    · exact h.called call hold
    · rw [List.mem_singleton.mp hnew]
      exact ⟨g, t, p, ht, rfl, rfl⟩

theorem sound_append (h : Sound crc numPartitions w) {i : Nat} {timestamp : Int64}
    {env : Surroundings} {error : Option LogError}
    (hguard : guard w (.append i timestamp env error) = true)
    (horder : inOrder w (.append i timestamp env error) = true)
    (hnext : next crc numPartitions w (.append i timestamp env error) = some w') :
    Sound crc numPartitions w' := by
  rw [next] at hnext
  split at hnext
  · rename_i c hi
    obtain ⟨g, t, p, ht, hkey, hlog⟩ := h.called _ (List.mem_of_getElem? hi)
    dsimp only at hkey hlog
    obtain ⟨l, hl, -⟩ := log_of_group h.backed g
    have hleft : OffsetsLeft l 1 := by
      simp only [guard, hi, Option.bind_some, hlog, hl, Option.all_some, decide_eq_true_eq]
        at hguard
      exact hguard
    obtain ⟨store, error', hpersist, hbacked, hcache, -, hcases⟩ :=
      persist_spec (c := c) h.backed hl hleft (by rw [hkey]; exact commitKey_ne_nil g t p)
        timestamp env
    rw [hlog] at hnext
    dsimp only at hnext
    rw [hpersist] at hnext
    dsimp only at hnext
    split at hnext
    · rename_i herror
      subst herror
      obtain rfl := Option.some.inj hnext
      have hpartition := partitionFor_eq h.backed hbacked
      rcases hcases with ⟨hfailed, hjournal⟩ | ⟨rfl, happended⟩
      · rw [if_neg hfailed, if_neg hfailed]
        refine ⟨hbacked, ?_, ?_, placed_unchanged h.backed hbacked h.placed hjournal,
          called_set h hi _ hpartition⟩
        · intro key
          dsimp only
          rw [underWayFor_set_same hi, hcache]
          exact h.chained key
        · rw [hjournal]
          exact h.restored
      · rw [if_pos rfl, if_pos rfl]
        rw [hkey] at happended
        refine ⟨hbacked, ?_, ?_, placed_appended h.backed hbacked h.placed ht happended,
          called_set h hi _ hpartition⟩
        · have holder : underWayFor (w.calls.take i) c.key = [] := by
            apply underWayFor_eq_nil
            simp only [inOrder, hi, Option.all_some, Option.isSome_none, Bool.false_or,
              List.all_eq_true] at horder
            exact horder
          intro key
          dsimp only
          rw [hcache]
          exact chained_oldest h.chained hi holder key
        · dsimp only
          rw [latest_journal_appended h.placed ht happended, h.restored, latest_concat, hkey]
    · cases hnext
  · cases hnext

theorem sound_rollback (h : Sound crc numPartitions w) {i : Nat}
    (horder : inOrder w (.rollback i) = true) (hnext : next crc numPartitions w (.rollback i) = some w') :
    Sound crc numPartitions w' := by
  rw [next] at hnext
  split at hnext
  · rename_i c hi
    obtain rfl := Option.some.inj hnext
    have hyounger : underWayFor (w.calls.drop (i + 1)) c.key = [] := by
      apply underWayFor_eq_nil
      simp only [inOrder, hi, Option.all_some, List.all_eq_true] at horder
      exact horder
    exact ⟨h.backed.withCache _, chained_youngest h.chained hi hyounger, h.restored, h.placed,
      called_set h hi _ fun _ => rfl⟩
  · cases hnext

theorem sound_restart (h : Sound crc numPartitions w) {dir : Directory}
    (hnext : next crc numPartitions w (.restart dir) = some w') : Sound crc numPartitions w' := by
  obtain ⟨store, hrestart, hbacked, hjournal, hcache⟩ := restart_spec h.backed dir
  rw [next, hrestart] at hnext
  split at hnext
  · rename_i hfinished
    obtain rfl := Option.some.inj hnext
    refine ⟨hbacked, ?_, ?_, placed_unchanged h.backed hbacked h.placed hjournal, ?_⟩
    · intro key
      rw [List.all_eq_true] at hfinished
      have hnone : underWayFor w.calls key = [] := underWayFor_eq_nil fun call hcall => by
        simpa [Call.idleFor] using Or.inl (hfinished call hcall)
      change Chained _ (underWayFor w.calls key) (store.cache key)
      rw [hnone, hcache, h.restored]
      rfl
    · rw [hjournal]
      exact h.restored
    · intro call hcall
      obtain ⟨g, t, p, ht, hkey, hlog⟩ := h.called call hcall
      exact ⟨g, t, p, ht, hkey, by rw [partitionFor_eq h.backed hbacked, hlog]⟩
  · cases hnext

theorem agrees_of_sound (h : Sound crc numPartitions w) : Agrees crc numPartitions w where
  settled := by
    intro key hidle
    have hchained := h.chained key
    rw [underWayFor_eq_nil hidle] at hchained
    exact hchained.symm
  underWay := by
    intro key
    have hchained := h.chained key
    rcases List.eq_nil_or_concat' (underWayFor w.calls key) with hnil | ⟨init, last, hlast⟩
    · rw [hnil] at hchained
      exact .inl hchained.symm
    · rw [hlast] at hchained
      have hmem : last ∈ underWayFor w.calls key := by rw [hlast]; simp
      obtain ⟨call, hcall, rfl⟩ := List.mem_map.mp hmem
      obtain ⟨hcalls, hbusy⟩ := List.mem_filter.mp hcall
      exact .inr ⟨call, hcalls, by simpa using hbusy, (chained_concat.mp hchained).2.symm⟩
  restarts := by
    intro hfinished dir
    obtain ⟨s, hrestart, -, -, hcache⟩ := restart_spec h.backed dir
    refine ⟨s, hrestart, fun g t p => ?_⟩
    have hchained := h.chained (commitKey g t p)
    rw [underWayFor_eq_nil fun call hcall => by simp [Call.idleFor, hfinished call hcall]]
      at hchained
    rw [OffsetStore.fetch, OffsetStore.fetch, hcache, h.restored, hchained]

theorem sound_begun {dir : Directory} {store : OffsetStore} (hdir : ∀ i, dir.files i = [])
    (hstart : (newOffsetStore numPartitions).start crc dir = some (store, none)) :
    Sound crc numPartitions (begun store) := by
  have hinit := represents_started hdir hstart
  obtain ⟨-, -, hcache⟩ := started_empty hdir hstart
  refine ⟨hinit.backed, ?_, ?_, hinit.placed, ?_⟩
  · intro key
    exact congrFun hcache.symm key
  · exact hinit.restored.trans hcache
  · intro call hcall
    cases hcall

/-- In every run whose steps are in order, the map agrees with the logs. -/
theorem commits_agree {dir : Directory} {store : OffsetStore} {events : List Event}
    (hdir : ∀ i, dir.files i = [])
    (hstart : (newOffsetStore numPartitions).start crc dir = some (store, none))
    (hrun : Run (Guarded (fun w e => guard w e && inOrder w e) (next crc numPartitions))
      (begun store) events w) :
    Agrees crc numPartitions w := by
  apply agrees_of_sound
  refine hrun.invariant (sound_begun hdir hstart) ?_
  rintro w event w' hw ⟨hguard, hnext⟩
  obtain ⟨hroom, horder⟩ := Bool.and_eq_true_iff.mp hguard
  cases event with
  | begin g t p offset => exact sound_begin hw horder hnext
  | append i timestamp env error => exact sound_append hw hroom horder hnext
  | rollback i => exact sound_rollback hw horder hnext
  | restart dir => exact sound_restart hw hnext

end

def beginFor (offset : Int64) : Event := .begin [103] [116] 0 offset

def appendCall (call : Nat) : Event := .append call 0 ⟨0, none⟩ none

/-- Eight days on, the segment is due for rotation, and the disk does not sync. -/
def failingAppend (call : Nat) : Event :=
  .append call 0 ⟨8 * 24 * 3600 * 1000000000, some .sync⟩ (some .rotateSync)

def overtaken : List Event := [beginFor 5, beginFor 7, appendCall 1, appendCall 0]

def undone : List Event := [beginFor 5, beginFor 7, appendCall 1, failingAppend 0, .rollback 0]

def inTurn : List Event := [beginFor 5, beginFor 7, appendCall 0, failingAppend 1, .rollback 1]

/-- Whether all calls have returned, what is fetched, what was appended last, and
what is fetched after a restart. -/
def observed (w : Commits) : Bool × Int64 × Option Int64 × Option Int64 :=
  (w.calls.all fun call => decide (call.phase = .finished), w.store.fetch [103] [116] 0,
    latest w.appended (commitKey [103] [116] 0),
    match restart castagnoli 2 w.store emptyDirectory with
    | some (s, none) => some (s.fetch [103] [116] 0)
    | _ => none)

/-- Two commits overtake each other: `Fetch` answers 7, the log ends with 5, and
so does a restart.  Or the first fails late: the commit of 7, which succeeded,
is undone until a restart. -/
theorem commits_disagree :
    (∃ store w, (newOffsetStore 2).start castagnoli emptyDirectory = some (store, none) ∧
      Run (Guarded guard (next castagnoli 2)) (begun store) overtaken w ∧
      observed w = (true, 7, some 5, some 5)) ∧
    ∃ store w, (newOffsetStore 2).start castagnoli emptyDirectory = some (store, none) ∧
      Run (Guarded guard (next castagnoli 2)) (begun store) undone w ∧
      observed w = (true, -1, some 7, some 7) :=
  ⟨run_of_opened (by decide +kernel), run_of_opened (by decide +kernel)⟩

theorem commits_agree_inTurn :
    ∃ store w, (newOffsetStore 2).start castagnoli emptyDirectory = some (store, none) ∧
      Run (Guarded (fun w e => guard w e && inOrder w e) (next castagnoli 2)) (begun store) inTurn
        w ∧
      observed w = (true, 5, some 5, some 5) ∧ Agrees castagnoli 2 w := by
  have hsome : (opened.bind fun store =>
      (execute (fun w e => guard w e && inOrder w e) (next castagnoli 2) (begun store) inTurn).map
        observed) = some (true, 5, some 5, some 5) := by decide +kernel
  obtain ⟨store, w, hstart, hrun, hobserved⟩ := run_of_opened hsome
  exact ⟨store, w, hstart, hrun, hobserved, commits_agree (fun _ => rfl) hstart hrun⟩

end MiniKafka.ConcurrentCommits
