import MiniKafka.ServerConnections

/-!
The goroutines of the server (`internal/server/server.go`): the accept loop of
`Start`, a handler for each connection, and `Shutdown`.

Each operation on shared data is one step: the atomic counter of the active
connections, the wait group, the `done` channel, and the listener with its lock.  The
calls of `Shutdown` come one after another.
-/

namespace MiniKafka.ServerLifecycle

open Runs
open ServerConnections (ServerConfig)

inductive StartPhase where
  | notStarted
  | listening
  | accepting
  | accepted
  | admitted
  | counted
  | added
  | returned (clean : Bool)
  deriving DecidableEq, Repr

/-- The deferred calls of a handler run in the order connection, counter, wait
group. -/
inductive HandlerPhase where
  | serving
  | connClosed
  | uncounted
  | done
  deriving DecidableEq, Repr

inductive ShutdownPhase where
  | idle
  | announced
  | listenerClosed
  | waiting
  | drained
  | returned (drained : Bool)
  deriving DecidableEq, Repr

/-- The `listener` is nil, open or closed. -/
structure Server where
  start : StartPhase
  listener : Option Bool
  done : Bool
  activeConns : Int
  wg : Int
  handlers : List HandlerPhase
  shutdown : ShutdownPhase
  deriving DecidableEq, Repr

def newServer : Server := ⟨.notStarted, none, false, 0, 0, [], .idle⟩

inductive Event where
  | listen
  | assign
  | accept
  | acceptError
  | checkLimit
  | count
  | add
  | spawn
  | closeConn (i : Nat)
  | uncount (i : Nat)
  | finish (i : Nat)
  | shutdown
  | closeListener
  | await
  | drain
  | succeed
  | cancel
  deriving DecidableEq, Repr

def Server.handler (s : Server) (i : Nat) (before after : HandlerPhase) : Option Server :=
  if s.handlers[i]? = some before then some { s with handlers := s.handlers.set i after } else none

def Server.step (cfg : ServerConfig) (s : Server) : Event → Option Server
  | .listen => if s.start = .notStarted then some { s with start := .listening } else none
  | .assign =>
    if s.start = .listening then some { s with start := .accepting, listener := some true }
    else none
  | .accept =>
    if s.start = .accepting ∧ s.listener = some true then some { s with start := .accepted }
    else none
  | .acceptError =>
    if s.start = .accepting then some { s with start := .returned s.done } else none
  | .checkLimit =>
    if s.start = .accepted then
      some { s with
        start := if 0 < cfg.maxConnections ∧ cfg.maxConnections ≤ s.activeConns then .accepting
          else .admitted }
    else none
  | .count =>
    if s.start = .admitted then
      some { s with start := .counted, activeConns := s.activeConns + 1 }
    else none
  | .add => if s.start = .counted then some { s with start := .added, wg := s.wg + 1 } else none
  | .spawn =>
    if s.start = .added then
      some { s with start := .accepting, handlers := s.handlers ++ [.serving] }
    else none
  | .closeConn i => s.handler i .serving .connClosed
  | .uncount i =>
    (s.handler i .connClosed .uncounted).map fun t =>
      { t with activeConns := t.activeConns - 1 }
  | .finish i => (s.handler i .uncounted .done).map fun t => { t with wg := t.wg - 1 }
  | .shutdown =>
    match s.shutdown with
    | .idle => some { s with shutdown := .announced, done := true }
    | .returned _ => some { s with shutdown := .announced, done := true }
    | _ => none
  | .closeListener =>
    if s.shutdown = .announced then
      some { s with shutdown := .listenerClosed, listener := s.listener.map fun _ => false }
    else none
  | .await =>
    if s.shutdown = .listenerClosed then some { s with shutdown := .waiting } else none
  | .drain =>
    -- The counter of the wait group is looked at while the accept loop may be
    -- between a connection and its `Add`.
    if s.shutdown = .waiting ∧ s.wg = 0 then some { s with shutdown := .drained } else none
  | .succeed => if s.shutdown = .drained then some { s with shutdown := .returned true } else none
  | .cancel =>
    if s.shutdown = .waiting ∨ s.shutdown = .drained then
      some { s with shutdown := .returned false }
    else none

def HandlerPhase.isCounted : HandlerPhase → Bool
  | .serving => true
  | .connClosed => true
  | .uncounted => false
  | .done => false

def HandlerPhase.isLive : HandlerPhase → Bool
  | .serving => true
  | .connClosed => true
  | .uncounted => true
  | .done => false

/-- A connection that the accept loop has counted and not yet handed over. -/
def StartPhase.counting : StartPhase → Nat
  | .counted => 1
  | .added => 1
  | _ => 0

def StartPhase.adding : StartPhase → Nat
  | .added => 1
  | _ => 0

/-- A connection that the accept loop has and that may still get a handler. -/
def StartPhase.holding : StartPhase → Nat
  | .accepted => 1
  | .admitted => 1
  | .counted => 1
  | .added => 1
  | _ => 0

theorem StartPhase.holding_le (p : StartPhase) : p.holding ≤ 1 := by
  cases p <;> simp [StartPhase.holding]

def Server.live (s : Server) : Nat := s.handlers.countP HandlerPhase.isLive

def ShutdownPhase.sawZero : ShutdownPhase → Bool
  | .drained => true
  | .returned true => true
  | _ => false

def Server.load (s : Server) : Nat := s.live + s.start.holding

/-- What the counters count, and the listener is nil until `Start` has set it. -/
structure Accounted (cfg : ServerConfig) (s : Server) : Prop where
  active : s.activeConns = s.handlers.countP HandlerPhase.isCounted + s.start.counting
  waited : s.wg = s.live + s.start.adding
  limit : 0 < cfg.maxConnections → s.activeConns ≤ cfg.maxConnections
  admitted : s.start = .admitted → 0 < cfg.maxConnections → s.activeConns < cfg.maxConnections
  assigned : s.start = .notStarted ∨ s.start = .listening → s.listener = none

theorem accounted_newServer (cfg : ServerConfig) : Accounted cfg newServer where
  active := rfl
  waited := rfl
  limit h := h.le
  admitted := by rintro ⟨⟩
  assigned _ := rfl

theorem countP_set_add {α : Type} {as : List α} {i : Nat} {a : α} (h : as[i]? = some a) (b : α)
    (p : α → Bool) :
    (as.set i b).countP p + (if p a then 1 else 0) = as.countP p + (if p b then 1 else 0) := by
  obtain ⟨hi, rfl⟩ := List.getElem?_eq_some_iff.mp h
  have hpos : p as[i] = true → 0 < as.countP p := fun hp =>
    List.countP_pos_iff.mpr ⟨as[i], List.getElem_mem hi, hp⟩
  rw [List.countP_set hi]
  split <;> split <;> grind

section

variable {cfg : ServerConfig} {s t : Server} {i : Nat} {before after : HandlerPhase}

theorem handler_counts (h : s.handlers[i]? = some before) (after : HandlerPhase) :
    ((s.handlers.set i after).countP HandlerPhase.isCounted + before.isCounted.toNat =
        s.handlers.countP HandlerPhase.isCounted + after.isCounted.toNat) ∧
      (s.handlers.set i after).countP HandlerPhase.isLive + before.isLive.toNat =
        s.live + after.isLive.toNat := by
  have hcounted := countP_set_add h after HandlerPhase.isCounted
  have hlive := countP_set_add h after HandlerPhase.isLive
  cases before <;> cases after <;> exact ⟨hcounted, hlive⟩

theorem countP_spawned (handlers : List HandlerPhase) {p : HandlerPhase → Bool}
    (hp : p .serving = true) :
    (handlers ++ [HandlerPhase.serving]).countP p = handlers.countP p + 1 := by
  rw [List.countP_append, List.countP_singleton, if_pos hp]

theorem of_guard {α : Type} {c : Prop} [Decidable c] {a b : α}
    (h : (if c then some a else none) = some b) : c ∧ b = a := by
  split at h
  · rename_i hc
    exact ⟨hc, (Option.some.inj h).symm⟩
  · cases h

end

/-- The steps of the server by what they do to the shared data. -/
inductive ServerStep (cfg : ServerConfig) (s : Server) : Server → Prop
  | listen (hphase : s.start = .notStarted) : ServerStep cfg s { s with start := .listening }
  | assign (hphase : s.start = .listening) :
      ServerStep cfg s { s with start := .accepting, listener := some true }
  | accept (hphase : s.start = .accepting) (hopen : s.listener = some true) :
      ServerStep cfg s { s with start := .accepted }
  | acceptError (hphase : s.start = .accepting) :
      ServerStep cfg s { s with start := .returned s.done }
  | refuse (hphase : s.start = .accepted) : ServerStep cfg s { s with start := .accepting }
  | letIn (hphase : s.start = .accepted)
      (hroom : 0 < cfg.maxConnections → s.activeConns < cfg.maxConnections) :
      ServerStep cfg s { s with start := .admitted }
  | count (hphase : s.start = .admitted) :
      ServerStep cfg s { s with start := .counted, activeConns := s.activeConns + 1 }
  | add (hphase : s.start = .counted) :
      ServerStep cfg s { s with start := .added, wg := s.wg + 1 }
  | spawn (hphase : s.start = .added) :
      ServerStep cfg s { s with start := .accepting, handlers := s.handlers ++ [.serving] }
  | deferred {i : Nat} {before after : HandlerPhase} {activeConns wg : Int}
      (hget : s.handlers[i]? = some before)
      (hactive : activeConns + before.isCounted.toNat = s.activeConns + after.isCounted.toNat)
      (hwg : wg + before.isLive.toNat = s.wg + after.isLive.toNat)
      (hcounted : after.isCounted.toNat ≤ before.isCounted.toNat)
      (hlive : after.isLive.toNat ≤ before.isLive.toNat) :
      ServerStep cfg s { s with handlers := s.handlers.set i after, activeConns, wg }
  | drain (hzero : s.wg = 0) : ServerStep cfg s { s with shutdown := .drained }
  | shutdown {listener : Option Bool} {done : Bool} {shutdown : ShutdownPhase}
      (hlistener : listener = s.listener ∨ listener = s.listener.map fun _ => false)
      (hsaw : shutdown.sawZero = true → s.shutdown.sawZero = true ∧ listener = s.listener) :
      ServerStep cfg s { s with listener, done, shutdown }

section

variable {cfg : ServerConfig} {s t : Server}

theorem sub_one_add (n : Int) : n - 1 + (true.toNat : Int) = n + (false.toNat : Int) := by
  simp

theorem serverStep_of_step {e : Event} (hstep : s.step cfg e = some t) : ServerStep cfg s t := by
  cases e with
  | listen =>
    obtain ⟨hphase, rfl⟩ := of_guard hstep
    exact .listen hphase
  | assign =>
    obtain ⟨hphase, rfl⟩ := of_guard hstep
    exact .assign hphase
  | accept =>
    obtain ⟨⟨hphase, hopen⟩, rfl⟩ := of_guard hstep
    exact .accept hphase hopen
  | acceptError =>
    obtain ⟨hphase, rfl⟩ := of_guard hstep
    exact .acceptError hphase
  | checkLimit =>
    obtain ⟨hphase, rfl⟩ := of_guard hstep
    split
    · exact .refuse hphase
    · rename_i hfull
      refine .letIn hphase fun hpos => ?_
      by_contra hless
      exact hfull ⟨hpos, by omega⟩
  | count =>
    obtain ⟨hphase, rfl⟩ := of_guard hstep
    exact .count hphase
  | add =>
    obtain ⟨hphase, rfl⟩ := of_guard hstep
    exact .add hphase
  | spawn =>
    obtain ⟨hphase, rfl⟩ := of_guard hstep
    exact .spawn hphase
  | closeConn i =>
    obtain ⟨hget, rfl⟩ := of_guard hstep
    exact .deferred hget rfl rfl le_rfl le_rfl
  | uncount i =>
    obtain ⟨u, hu, rfl⟩ := Option.map_eq_some_iff.mp hstep
    obtain ⟨hget, rfl⟩ := of_guard hu
    exact .deferred hget (sub_one_add s.activeConns) rfl (Nat.zero_le _) le_rfl
  | finish i =>
    obtain ⟨u, hu, rfl⟩ := Option.map_eq_some_iff.mp hstep
    obtain ⟨hget, rfl⟩ := of_guard hu
    exact .deferred hget rfl (sub_one_add s.wg) le_rfl (Nat.zero_le _)
  | shutdown =>
    simp only [Server.step] at hstep
    split at hstep <;> cases hstep <;> exact .shutdown (.inl rfl) (by rintro ⟨⟩)
  | closeListener =>
    obtain ⟨-, rfl⟩ := of_guard hstep
    exact .shutdown (.inr rfl) (by rintro ⟨⟩)
  | await =>
    obtain ⟨-, rfl⟩ := of_guard hstep
    exact .shutdown (.inl rfl) (by rintro ⟨⟩)
  | drain =>
    obtain ⟨⟨-, hzero⟩, rfl⟩ := of_guard hstep
    exact .drain hzero
  | succeed =>
    obtain ⟨hdrained, rfl⟩ := of_guard hstep
    exact .shutdown (.inl rfl) fun _ => ⟨by rw [hdrained]; rfl, rfl⟩
  | cancel =>
    obtain ⟨-, rfl⟩ := of_guard hstep
    exact .shutdown (.inl rfl) (by rintro ⟨⟩)

theorem accounted_start {start : StartPhase} {listener : Option Bool} {activeConns wg : Int}
    (h : Accounted cfg s)
    (hactive : activeConns + s.start.counting = s.activeConns + start.counting)
    (hwg : wg + s.start.adding = s.wg + start.adding)
    (hlimit : 0 < cfg.maxConnections → activeConns ≤ cfg.maxConnections)
    (hadmitted : start = .admitted → 0 < cfg.maxConnections → activeConns < cfg.maxConnections)
    (hassigned : start = .notStarted ∨ start = .listening → listener = none) :
    Accounted cfg { s with start, listener, activeConns, wg } where
  active := by
    have := h.active
    show activeConns = s.handlers.countP HandlerPhase.isCounted + start.counting
    omega
  waited := by
    have := h.waited
    show wg = s.live + start.adding
    omega
  limit := hlimit
  admitted := hadmitted
  assigned := hassigned

theorem step_accounted (h : Accounted cfg s) (hstep : ServerStep cfg s t) : Accounted cfg t := by
  cases hstep with
  | listen hphase =>
    exact accounted_start h (by rw [hphase]; rfl) (by rw [hphase]; rfl) h.limit (by rintro ⟨⟩)
      fun _ => h.assigned (.inl hphase)
  | assign hphase =>
    exact accounted_start h (by rw [hphase]; rfl) (by rw [hphase]; rfl) h.limit (by rintro ⟨⟩)
      (by rintro (⟨⟨⟩⟩ | ⟨⟨⟩⟩))
  | accept hphase _ =>
    exact accounted_start h (by rw [hphase]; rfl) (by rw [hphase]; rfl) h.limit (by rintro ⟨⟩)
      (by rintro (⟨⟨⟩⟩ | ⟨⟨⟩⟩))
  | acceptError hphase =>
    exact accounted_start h (by rw [hphase]; rfl) (by rw [hphase]; rfl) h.limit (by rintro ⟨⟩)
      (by rintro (⟨⟨⟩⟩ | ⟨⟨⟩⟩))
  | refuse hphase =>
    exact accounted_start h (by rw [hphase]; rfl) (by rw [hphase]; rfl) h.limit (by rintro ⟨⟩)
      (by rintro (⟨⟨⟩⟩ | ⟨⟨⟩⟩))
  | letIn hphase hroom =>
    exact accounted_start h (by rw [hphase]; rfl) (by rw [hphase]; rfl) h.limit
      (fun _ => hroom) (by rintro (⟨⟨⟩⟩ | ⟨⟨⟩⟩))
  | count hphase =>
    -- There is still room: the other goroutines only count down.
    exact accounted_start h (by rw [hphase]; exact Int.add_zero _) (by rw [hphase]; rfl)
      (h.admitted hphase) (by rintro ⟨⟩) (by rintro (⟨⟨⟩⟩ | ⟨⟨⟩⟩))
  | add hphase =>
    exact accounted_start h (by rw [hphase]; rfl) (by rw [hphase]; exact Int.add_zero _) h.limit
      (by rintro ⟨⟩) (by rintro (⟨⟨⟩⟩ | ⟨⟨⟩⟩))
  | spawn hphase =>
    have hactive := h.active
    have hwaited := h.waited
    rw [hphase] at hactive hwaited
    refine ⟨?_, ?_, h.limit, by rintro ⟨⟩, by rintro (⟨⟨⟩⟩ | ⟨⟨⟩⟩)⟩
    · rw [hactive]
      exact congrArg Nat.cast
        (countP_spawned (p := HandlerPhase.isCounted) s.handlers rfl).symm
    · rw [hwaited]
      exact congrArg Nat.cast (countP_spawned (p := HandlerPhase.isLive) s.handlers rfl).symm
  | @deferred i before after activeConns wg hget hactive hwg hcounted _ =>
    obtain ⟨hcount, hcountLive⟩ := handler_counts hget after
    have hless : activeConns ≤ s.activeConns := by omega
    refine ⟨?_, ?_, fun hpos => hless.trans (h.limit hpos),
      fun hphase hpos => hless.trans_lt (h.admitted hphase hpos), h.assigned⟩
    · have := h.active
      show activeConns = (s.handlers.set i after).countP HandlerPhase.isCounted +
        s.start.counting
      omega
    · have := h.waited
      show wg = (s.handlers.set i after).countP HandlerPhase.isLive + s.start.adding
      omega
  | drain _ => exact ⟨h.active, h.waited, h.limit, h.admitted, h.assigned⟩
  | shutdown hlistener _ =>
    refine ⟨h.active, h.waited, h.limit, h.admitted, fun hphase => ?_⟩
    have hnil := h.assigned hphase
    rcases hlistener with rfl | rfl
    · exact hnil
    · exact congrArg (Option.map fun _ => false) hnil

theorem closed_load_le (h : Accounted cfg s) (hclosed : s.listener = some false)
    (hstep : ServerStep cfg s t) : t.listener = some false ∧ t.load ≤ s.load := by
  cases hstep with
  | listen hphase =>
    rw [h.assigned (.inl hphase)] at hclosed
    cases hclosed
  | assign hphase =>
    rw [h.assigned (.inr hphase)] at hclosed
    cases hclosed
  | accept _ hopen =>
    rw [hopen] at hclosed
    cases hclosed
  | acceptError _ => exact ⟨hclosed, Nat.add_le_add_left (Nat.zero_le _) s.live⟩
  | refuse _ => exact ⟨hclosed, Nat.add_le_add_left (Nat.zero_le _) s.live⟩
  | letIn hphase _ => exact ⟨hclosed, by rw [Server.load, Server.load, hphase]; exact le_rfl⟩
  | count hphase => exact ⟨hclosed, by rw [Server.load, Server.load, hphase]; exact le_rfl⟩
  | add hphase => exact ⟨hclosed, by rw [Server.load, Server.load, hphase]; exact le_rfl⟩
  | spawn hphase =>
    refine ⟨hclosed, ?_⟩
    rw [Server.load, Server.load, hphase, Server.live, countP_spawned s.handlers rfl]
    exact le_rfl
  | @deferred i before after _ _ hget _ _ _ hlive =>
    have hcount := (handler_counts hget after).2
    refine ⟨hclosed, ?_⟩
    show (s.handlers.set i after).countP HandlerPhase.isLive + s.start.holding ≤
      s.live + s.start.holding
    omega
  | drain _ => exact ⟨hclosed, le_rfl⟩
  | shutdown hlistener _ =>
    refine ⟨?_, le_rfl⟩
    rcases hlistener with rfl | rfl
    · exact hclosed
    · exact congrArg (Option.map fun _ => false) hclosed

/-- `Shutdown` sees the wait group at zero in one step only, and the listener does not
close behind its back. -/
theorem sawZero_of_step (hstep : ServerStep cfg s t) (hsaw : t.shutdown.sawZero = true)
    (hclosed : t.listener = some false) :
    (s.wg = 0 ∧ t.load = s.load) ∨ (s.shutdown.sawZero = true ∧ s.listener = some false) := by
  cases hstep with
  | assign _ => cases hclosed
  | drain hzero => exact .inl ⟨hzero, rfl⟩
  | shutdown _ hbefore =>
    obtain ⟨hs, hsame⟩ := hbefore hsaw
    exact .inr ⟨hs, hsame.symm.trans hclosed⟩
  | listen _ => exact .inr ⟨hsaw, hclosed⟩
  | accept _ _ => exact .inr ⟨hsaw, hclosed⟩
  | acceptError _ => exact .inr ⟨hsaw, hclosed⟩
  | refuse _ => exact .inr ⟨hsaw, hclosed⟩
  | letIn _ _ => exact .inr ⟨hsaw, hclosed⟩
  | count _ => exact .inr ⟨hsaw, hclosed⟩
  | add _ => exact .inr ⟨hsaw, hclosed⟩
  | spawn _ => exact .inr ⟨hsaw, hclosed⟩
  | deferred _ _ _ _ _ => exact .inr ⟨hsaw, hclosed⟩

/-- When `Shutdown` has seen the wait group at zero, one connection is left at
most. -/
def Outlived (s : Server) : Prop :=
  s.shutdown.sawZero = true → s.listener = some false → s.load ≤ 1

theorem step_outlived (h : Accounted cfg s) (hout : Outlived s) (hstep : ServerStep cfg s t) :
    Outlived t := by
  intro hsaw hclosed
  rcases sawZero_of_step hstep hsaw hclosed with ⟨hzero, hload⟩ | ⟨hbefore, hlistener⟩
  · have hwaited := h.waited
    rw [hzero] at hwaited
    have hlive : s.live = 0 := by omega
    rw [hload, Server.load, hlive, Nat.zero_add]
    exact s.start.holding_le
  · exact (closed_load_le h hlistener hstep).2.trans (hout hbefore hlistener)

theorem run_accounted {events : List Event}
    (hrun : Run (Guarded (fun _ _ => true) (Server.step cfg)) newServer events s) :
    Accounted cfg s ∧ Outlived s := by
  apply hrun.invariant (P := fun s => Accounted cfg s ∧ Outlived s)
  · exact ⟨accounted_newServer cfg, by rintro ⟨⟩⟩
  · rintro s e t ⟨hs, hout⟩ ⟨-, hstep⟩
    have hkind := serverStep_of_step hstep
    exact ⟨step_accounted hs hkind, step_outlived hs hout hkind⟩

theorem closed_run {later : List Event} (h : Accounted cfg s) (hclosed : s.listener = some false)
    (hrun : Run (Guarded (fun _ _ => true) (Server.step cfg)) s later t) :
    t.listener = some false ∧ t.load ≤ s.load := by
  have hall : Accounted cfg t ∧ t.listener = some false ∧ t.load ≤ s.load := by
    apply hrun.invariant
      (P := fun t => Accounted cfg t ∧ t.listener = some false ∧ t.load ≤ s.load)
    · exact ⟨h, hclosed, le_rfl⟩
    · rintro u e v ⟨hu, hlistener, hless⟩ ⟨-, hstep⟩
      have hkind := serverStep_of_step hstep
      obtain ⟨hv, hle⟩ := closed_load_le hu hlistener hkind
      exact ⟨step_accounted hu hkind, hv, hle.trans hless⟩
  exact hall.2

end

/-- At every moment the counter is the number of connections that have been admitted
and whose handler has not counted down, and with a limit it stays within it. -/
theorem connections_within_limit {cfg : ServerConfig} {events : List Event} {s : Server}
    (hrun : Run (Guarded (fun _ _ => true) (Server.step cfg)) newServer events s)
    (hlimit : 0 < cfg.maxConnections) :
    s.activeConns = s.handlers.countP HandlerPhase.isCounted + s.start.counting ∧
      (s.handlers.countP (fun p => decide (p = .serving)) : Int) ≤ cfg.maxConnections := by
  obtain ⟨h, -⟩ := run_accounted hrun
  refine ⟨h.active, ?_⟩
  have hserving : s.handlers.countP (fun p => decide (p = .serving)) ≤
      s.handlers.countP HandlerPhase.isCounted := by
    apply List.countP_mono_left
    intro p _ hp
    rw [of_decide_eq_true hp]
    rfl
  have hactive := h.active
  have hle := h.limit hlimit
  omega

def secondConnection : List Event :=
  [.listen, .assign, .accept, .checkLimit, .count, .add, .spawn, .accept, .checkLimit]

theorem connections_within_limit_full :
    ∃ s, Run (Guarded (fun _ _ => true) (Server.step ⟨1, 0⟩)) newServer secondConnection s ∧
      (s.start, s.handlers) = (.accepting, [.serving]) ∧
      (s.handlers.countP (fun p => decide (p = .serving)) : Int) ≤ 1 := by
  have hend : (execute (fun _ _ => true) (Server.step ⟨1, 0⟩) newServer secondConnection).map
      (fun s => (s.start, s.handlers)) = some (.accepting, [.serving]) := by decide +kernel
  obtain ⟨s, hrun, hs⟩ := exists_run_of_execute hend
  exact ⟨s, hrun, hs, (connections_within_limit hrun (by decide)).2⟩

/-- When `Shutdown` returns nil with the listener closed, one connection is left at
most, which the accept loop had already got, and there are never more handlers than
that later on. -/
theorem shutdown_outlived_by_one {cfg : ServerConfig} {events : List Event} {s : Server}
    (hrun : Run (Guarded (fun _ _ => true) (Server.step cfg)) newServer events s)
    (hreturned : s.shutdown = .returned true) (hclosed : s.listener = some false) :
    s.load ≤ 1 ∧ ∀ later t, Run (Guarded (fun _ _ => true) (Server.step cfg)) s later t →
      t.live ≤ s.load := by
  obtain ⟨h, hout⟩ := run_accounted hrun
  refine ⟨hout (by rw [hreturned]; rfl) hclosed, ?_⟩
  intro later t hlater
  exact (Nat.le_add_right t.live t.start.holding).trans (closed_run h hclosed hlater).2

/-- `Accept` has returned, and the wait group is looked at before the connection is
added to it. -/
def overtaken : List Event :=
  [.listen, .assign, .accept, .shutdown, .closeListener, .await, .drain, .succeed]

def handOver : List Event := [.checkLimit, .count, .add, .spawn]

theorem shutdown_outlived_by_one_overtaken :
    ∃ s t, Run (Guarded (fun _ _ => true) (Server.step ⟨0, 0⟩)) newServer overtaken s ∧
      s.shutdown = .returned true ∧ s.load ≤ 1 ∧
      Run (Guarded (fun _ _ => true) (Server.step ⟨0, 0⟩)) s handOver t ∧
      t.shutdown = .returned true ∧ t.live = 1 ∧ t.live ≤ s.load := by
  have hend : (execute (fun _ _ => true) (Server.step ⟨0, 0⟩) newServer overtaken).map id =
      some ⟨.accepted, some false, true, 0, 0, [], .returned true⟩ := by decide +kernel
  obtain ⟨s, hrun, rfl⟩ := exists_run_of_execute hend
  have hlater : (execute (fun _ _ => true) (Server.step ⟨0, 0⟩)
      ⟨.accepted, some false, true, 0, 0, [], .returned true⟩ handOver).map id =
        some ⟨.accepting, some false, true, 1, 1, [.serving], .returned true⟩ := by decide +kernel
  obtain ⟨t, hmore, rfl⟩ := exists_run_of_execute hlater
  obtain ⟨hone, hfew⟩ := shutdown_outlived_by_one hrun rfl rfl
  exact ⟨_, _, hrun, rfl, hone, hmore, rfl, rfl, hfew _ _ hmore⟩

end MiniKafka.ServerLifecycle
