import Mathlib.Data.List.Perm.Subperm
import MiniKafka.ServerConnections

/-!
Round trips of a client (`pkg/client`).

`Consumer.Fetch` and `Producer.produceRecords` share one connection among their callers:
each call numbers its request, takes `reqMu`, writes the request and reads one response.
Whatever goes wrong on the way, the connection is dropped and the next call dials.
-/

namespace MiniKafka.ClientRoundTrips

open BigEndian ExactReaders WireCodec Frames FrameSizes ServerConnections Runs

/-- The call that has `reqMu`. -/
inductive Stage where
  | free
  | holding (f : RequestFrame)
  | awaiting (f : RequestFrame)

/-- A connection with its server, and the number of bytes that were read from it. -/
structure Conn where
  link : Link
  read : Nat

/-- `asked` are the requests of all calls and `returned` the responses they have got. -/
structure Client where
  nextID : Int32
  waiting : List RequestFrame
  stage : Stage
  conn : Option Conn
  closed : Bool
  asked : List RequestFrame
  returned : List (RequestFrame × ResponseFrame)
  mismatches : Nat

def newClient : Client := ⟨0, [], .free, none, false, [], [], 0⟩

/-- A call that has ended without a response, and `closeConn`. -/
def Client.abandon (c : Client) : Client := { c with stage := .free, conn := none }

inductive Event (σ : Type) where
  | call (apiKey : Int16) (clientID payload : Bytes)
  | lock (i : Nat)
  | dial
  | refuse
  | write
  | fail
  | remote (a : Action σ)
  | receive
  | close

section

variable {σ : Type} (cfg : ServerConfig) (m : Mux σ)

def Client.step (c : Client) : Event σ → Option Client
  | .call apiKey clientID payload =>
    let corrID := c.nextID + 1
    let frame : RequestFrame := ⟨0, apiKey, 1, corrID, clientID, some payload⟩
    some { c with
      nextID := corrID
      waiting := c.waiting ++ [frame]
      asked := c.asked ++ [frame] }
  | .lock i =>
    match c.stage, c.waiting[i]? with
    | .free, some f => some { c with stage := .holding f, waiting := c.waiting.eraseIdx i }
    | _, _ => none
  | .dial =>
    match c.stage, c.conn with
    | .holding _, none => if c.closed then none else some { c with conn := some ⟨.opened, 0⟩ }
    | _, _ => none
  | .refuse =>
    -- `getConn` on a closed client, or no broker takes the connection.
    match c.stage, c.conn with
    | .holding _, none => some { c with stage := .free }
    | _, _ => none
  | .write =>
    match c.stage, c.conn with
    | .holding f, some conn =>
      match conn.link.next cfg m (.send f) with
      | none => some c.abandon
      | some link =>
        some { c with stage := .awaiting f, conn := some { conn with link := link } }
    | _, _ => none
  | .fail =>
    -- The write, the flush or the read of the response ends in an error.
    match c.stage with
    | .free => none
    | .holding _ => some c.abandon
    | .awaiting _ => some c.abandon
  | .remote a =>
    match c.conn with
    | none => none
    | some conn =>
      if a.isSend then none
      else (conn.link.next cfg m a).map fun link =>
        { c with conn := some { conn with link := link } }
  | .receive =>
    match c.stage, c.conn with
    | .awaiting f, some conn =>
      match readResponseFrame (conn.link.output.drop conn.read) with
      | .error _ => none
      | .ok (resp, rest) =>
        if resp.correlationID = f.correlationID then
          some { c with
            stage := .free
            conn := some { conn with read := conn.link.output.length - rest.length }
            returned := c.returned ++ [(f, resp)] }
        else some { c.abandon with mismatches := c.mismatches + 1 }
    | _, _ => none
  | .close => some { c with closed := true, conn := none }

end

def Stage.frames : Stage → List RequestFrame
  | .free => []
  | .holding f => [f]
  | .awaiting f => [f]

/-- The responses that the server has written on a connection or was about to write when
it was closed, with their requests. -/
structure Answering {σ : Type} (m : Mux σ) (l : Link)
    (pairs : List (RequestFrame × ResponseFrame)) : Prop where
  dispatched : ∀ e ∈ pairs, ∃ state, e.2 = m.dispatch state e.1
  requested : pairs.map Prod.fst <+: l.requests.map receivedRequest
  written : ∃ whole, inOrder (pairs.map fun e => writtenResponse e.2) = .ok whole ∧
    l.output <+: whole
  open_eq : l.phase ≠ .closed → pairs = l.exchanges

section Links

variable {σ : Type} {cfg : ServerConfig} {m : Mux σ} {l l' : Link}
  {pairs : List (RequestFrame × ResponseFrame)}

theorem answering_of_open (h : Sound m l) (hopen : l.phase ≠ .closed) :
    Answering m l l.exchanges := by
  obtain ⟨whole, rest, hwhole, houtput, hrest⟩ := h.flushed
  refine ⟨h.dispatched, h.answered, ⟨whole, hwhole, ?_⟩, fun _ => rfl⟩
  rw [houtput, hrest hopen, List.append_nil]

theorem taken_prefix (h : Sound m l) : l.taken <+: l.requests.map receivedRequest := by
  obtain ⟨done, pending, hrequests, htaken, -⟩ := h.aligned
  rw [hrequests, List.map_append, ← htaken]
  exact List.prefix_append _ _

theorem answering_next {a : Action σ} (hs : Sound m l) (h : Answering m l pairs)
    (hnext : l.next cfg m a = some l') : ∃ pairs', Answering m l' pairs' ∧ pairs <+: pairs' := by
  have hs' := next_sound hs hnext
  cases linkStep_of_next hnext with
  | sent hword =>
    refine ⟨pairs, ⟨h.dispatched, ?_, h.written, h.open_eq⟩, List.prefix_refl _⟩
    exact h.requested.trans ((List.prefix_append _ _).map _)
  | delivered n =>
    exact ⟨pairs, ⟨h.dispatched, h.requested, h.written, h.open_eq⟩, List.prefix_refl _⟩
  | took hphase hread =>
    have hopen := ne_closed_of_reading hphase
    exact ⟨pairs, ⟨h.dispatched, h.requested, h.written, fun _ => h.open_eq hopen⟩,
      List.prefix_refl _⟩
  | ended hopen _ =>
    exact ⟨pairs, ⟨h.dispatched, h.requested, h.written, fun hne => absurd rfl hne⟩,
      List.prefix_refl _⟩
  | responded hphase hword =>
    have hopen := ne_closed_of_dispatching hphase
    refine ⟨_, answering_of_open hs' (by rintro ⟨⟩), ?_⟩
    rw [h.open_eq hopen]
    exact List.prefix_append _ _
  | @broke req state word n hphase hword =>
    -- The connection breaks in the middle of one more response.
    have hopen := ne_closed_of_dispatching hphase
    obtain ⟨whole, rest, hwhole, houtput, hrest⟩ := hs.flushed
    rw [hrest hopen, List.append_nil] at houtput
    refine ⟨pairs ++ [(req, m.dispatch state req)],
      ⟨?_, ?_, ⟨whole ++ word, ?_, ?_⟩, fun hne => absurd rfl hne⟩, List.prefix_append _ _⟩
    · intro e he
      rcases List.mem_append.mp he with hold | hnew
      · exact h.dispatched e hold
      · obtain rfl := List.mem_singleton.mp hnew
        exact ⟨state, rfl⟩
    · have htaken := taken_prefix hs
      rw [Link.taken, hphase, Phase.current] at htaken
      rw [h.open_eq hopen, List.map_append]
      exact htaken
    · rw [h.open_eq hopen, List.map_append]
      exact inOrder_concat hwhole hword
    · rw [houtput]
      exact (List.prefix_append_right_inj whole).mpr (List.take_prefix n word)

theorem read_first_response {f resp : ResponseFrame} {word later bs rest : Bytes}
    (hword : writtenResponse f = .ok word) (hbs : bs <+: word ++ later)
    (hread : readResponseFrame bs = .ok (resp, rest)) :
    resp = receivedResponse f ∧ bs = word ++ rest := by
  obtain ⟨body, hbody, rfl⟩ := FrameKind.written_eq_ok hword
  obtain ⟨hfour, hlarge, -⟩ := (readsLimited_response bs resp rest).mp hread
  rw [declaredSize_of_begins (by rwa [List.append_assoc] at hbs) hfour] at hlarge
  have hfits : FrameKind.response.bodyLength f ≤ maxFrameSize := by
    have hlength : FrameKind.response.bodyLength f = body.length := by
      show (f.body.toOption.getD []).length = _
      rw [show f.body = .ok body from hbody]
      rfl
    rw [hlength]
    by_contra hlt
    rw [tooLarge_of_lt (by omega) (FrameKind.length_body_lt (k := .response) hbody)] at hlarge
    cases hlarge
  exact (FrameKind.carries_written (k := .response) hfits _ hword).of_begins hbs hread

theorem requests_next {a : Action σ} (ha : a.isSend = false) (hnext : l.next cfg m a = some l') :
    l'.requests = l.requests := by
  cases linkStep_of_next hnext with
  | sent _ => cases ha
  | delivered _ => rfl
  | took _ _ => rfl
  | ended _ _ => rfl
  | responded _ _ => rfl
  | broke _ _ _ => rfl

theorem output_next {a : Action σ} (hnext : l.next cfg m a = some l') : l.output <+: l'.output := by
  cases linkStep_of_next hnext with
  | sent _ => exact List.prefix_refl _
  | delivered _ => exact List.prefix_refl _
  | took _ _ => exact List.prefix_refl _
  | ended _ _ => exact List.prefix_refl _
  | responded _ _ => exact List.prefix_append _ _
  | broke _ _ _ => exact List.prefix_append _ _

end Links

/-- The client has read the first `k` responses of the connection. -/
structure Reading {σ : Type} (m : Mux σ) (conn : Conn) (k : Nat) : Prop where
  sound : Sound m conn.link
  answers : ∃ pairs consumed, Answering m conn.link pairs ∧ k ≤ pairs.length ∧
    inOrder ((pairs.take k).map fun e => writtenResponse e.2) = .ok consumed ∧
    consumed <+: conn.link.output ∧ conn.read = consumed.length

def Stage.sent : Stage → List RequestFrame
  | .free => []
  | .holding _ => []
  | .awaiting f => [f]

structure Genuine {σ : Type} (m : Mux σ) (c : Client) : Prop where
  conn : ∀ conn, c.conn = some conn →
    ∃ old, conn.link.requests = old ++ c.stage.sent ∧ Reading m conn old.length
  returned : ∀ e ∈ c.returned,
    ∃ state, e.2 = receivedResponse (m.dispatch state (receivedRequest e.1))
  mismatches : c.mismatches = 0
  asked : List.Subperm (c.returned.map Prod.fst ++ (c.stage.frames ++ c.waiting)) c.asked

section Clients

variable {σ : Type} {cfg : ServerConfig} {m : Mux σ} {c c' : Client}

theorem reading_opened : Reading m ⟨.opened, 0⟩ 0 where
  sound := sound_opened
  answers := ⟨[], [], ⟨by rintro e ⟨⟩, List.nil_prefix, ⟨[], rfl, List.nil_prefix⟩, fun _ => rfl⟩,
    Nat.le_refl _, rfl, List.nil_prefix, rfl⟩

theorem reading_next {conn : Conn} {k : Nat} {a : Action σ} {link : Link} (h : Reading m conn k)
    (hnext : conn.link.next cfg m a = some link) : Reading m { conn with link := link } k := by
  obtain ⟨pairs, consumed, hanswering, hk, hconsumed, hread, hlength⟩ := h.answers
  obtain ⟨pairs', hanswering', hgrown⟩ := answering_next h.sound hanswering hnext
  refine ⟨next_sound h.sound hnext, pairs', consumed, hanswering', hk.trans hgrown.length_le, ?_,
    hread.trans (output_next hnext), hlength⟩
  obtain ⟨more, rfl⟩ := hgrown
  rw [List.take_append_of_le_length hk]
  exact hconsumed

theorem genuine_newClient : Genuine m newClient where
  conn := by rintro conn ⟨⟩
  returned := by rintro e ⟨⟩
  mismatches := rfl
  asked := List.Subperm.refl _

theorem abandon_genuine (h : Genuine m c) : Genuine m c.abandon where
  conn := by rintro conn ⟨⟩
  returned := h.returned
  mismatches := h.mismatches
  asked := by
    refine List.Subperm.trans ?_ h.asked
    exact ((List.sublist_append_right _ _).append_left _).subperm

theorem call_genuine {apiKey : Int16} {clientID payload : Bytes} (h : Genuine m c)
    (hstep : c.step cfg m (.call apiKey clientID payload) = some c') : Genuine m c' := by
  obtain rfl := Option.some.inj hstep
  refine ⟨h.conn, h.returned, h.mismatches, ?_⟩
  dsimp only
  rw [← List.append_assoc, ← List.append_assoc, List.append_assoc (c.returned.map _)]
  exact (List.subperm_append_right _).mpr h.asked

theorem lock_genuine {i : Nat} (h : Genuine m c) (hstep : c.step cfg m (.lock i) = some c') :
    Genuine m c' := by
  simp only [Client.step] at hstep
  split at hstep
  · rename_i f hstage hwaiting
    obtain rfl := Option.some.inj hstep
    obtain ⟨hi, rfl⟩ := List.getElem?_eq_some_iff.mp hwaiting
    refine ⟨?_, h.returned, h.mismatches, ?_⟩
    · have hconn := h.conn
      rw [hstage] at hconn
      exact hconn
    · have hasked := h.asked
      rw [hstage] at hasked
      refine List.Subperm.trans (List.Perm.subperm ?_) hasked
      exact (List.getElem_cons_eraseIdx_perm hi).append_left _
  · cases hstep

theorem dial_genuine (h : Genuine m c) (hstep : c.step cfg m .dial = some c') : Genuine m c' := by
  simp only [Client.step] at hstep
  split at hstep
  · rename_i f hstage hconn
    split at hstep
    · cases hstep
    · obtain rfl := Option.some.inj hstep
      refine ⟨?_, h.returned, h.mismatches, h.asked⟩
      rintro conn ⟨⟩
      refine ⟨[], ?_, reading_opened⟩
      dsimp only
      rw [hstage]
      rfl
  · cases hstep

theorem refuse_genuine (h : Genuine m c) (hstep : c.step cfg m .refuse = some c') :
    Genuine m c' := by
  simp only [Client.step] at hstep
  split at hstep
  · rename_i f hstage hconn
    obtain rfl := Option.some.inj hstep
    have habandoned := abandon_genuine h
    rwa [Client.abandon, ← hconn] at habandoned
  · cases hstep

theorem write_genuine (h : Genuine m c) (hstep : c.step cfg m .write = some c') :
    Genuine m c' := by
  simp only [Client.step] at hstep
  split at hstep
  · rename_i f conn hstage hconn
    split at hstep
    · obtain rfl := Option.some.inj hstep
      exact abandon_genuine h
    · rename_i link hnext
      obtain rfl := Option.some.inj hstep
      obtain ⟨old, hrequests, hreading⟩ := h.conn conn hconn
      refine ⟨?_, h.returned, h.mismatches, ?_⟩
      · rintro conn' ⟨⟩
        refine ⟨old, ?_, reading_next hreading hnext⟩
        rw [hstage, Stage.sent, List.append_nil] at hrequests
        cases linkStep_of_next hnext with
        | sent _ => rw [← hrequests]; rfl
        | ended _ ha => cases ha
      · have hasked := h.asked
        rwa [hstage] at hasked
  · cases hstep

theorem remote_genuine {a : Action σ} (h : Genuine m c)
    (hstep : c.step cfg m (.remote a) = some c') : Genuine m c' := by
  simp only [Client.step] at hstep
  split at hstep
  · cases hstep
  · rename_i conn hconn
    split at hstep
    · cases hstep
    · rename_i hsend
      obtain ⟨link, hnext, rfl⟩ := Option.map_eq_some_iff.mp hstep
      obtain ⟨old, hrequests, hreading⟩ := h.conn conn hconn
      refine ⟨?_, h.returned, h.mismatches, h.asked⟩
      rintro conn' ⟨⟩
      refine ⟨old, ?_, reading_next hreading hnext⟩
      rw [← hrequests]
      exact requests_next (Bool.not_eq_true _ ▸ hsend) hnext

/-- The response to the one request under way is the only thing there is to read. -/
theorem reading_response {conn : Conn} {old : List RequestFrame} {f : RequestFrame}
    {resp : ResponseFrame} {rest : Bytes} (h : Reading m conn old.length)
    (hrequests : conn.link.requests = old ++ [f])
    (hread : readResponseFrame (conn.link.output.drop conn.read) = .ok (resp, rest)) :
    (∃ state, resp = receivedResponse (m.dispatch state (receivedRequest f))) ∧
      Reading m { conn with read := conn.link.output.length - rest.length }
        conn.link.requests.length := by
  obtain ⟨pairs, consumed, hanswering, hk, hconsumed, houtput, hlength⟩ := h.answers
  obtain ⟨whole, hwhole, hbegins⟩ := hanswering.written
  have hcount : pairs.length ≤ old.length + 1 := by
    have hle := hanswering.requested.length_le
    rwa [List.length_map, List.length_map, hrequests, List.length_append] at hle
  obtain ⟨first, e, hpairs, hfirst⟩ :
      ∃ first e, pairs = first ++ [e] ∧ first.length = old.length := by
    rcases List.eq_nil_or_concat' (pairs.drop old.length) with hnone | ⟨init, e, hsome⟩
    · -- Everything that was written has been read.
      rw [List.take_of_length_le (List.drop_eq_nil_iff.mp hnone), hwhole] at hconsumed
      obtain rfl := Except.ok.inj hconsumed
      rw [hbegins.eq_of_length_le houtput.length_le, hlength, List.drop_length] at hread
      obtain ⟨hfour, -⟩ := (readsLimited_response [] resp rest).mp hread
      cases hfour
    · have hlast := congrArg List.length hsome
      rw [List.length_drop, List.length_append, List.length_singleton] at hlast
      have hinit : init = [] := List.length_eq_zero_iff.mp (by omega)
      refine ⟨pairs.take old.length, e, ?_, List.length_take_of_le hk⟩
      rw [hinit, List.nil_append] at hsome
      rw [← hsome, List.take_append_drop]
  subst hpairs
  rw [← hfirst, List.take_left] at hconsumed
  obtain ⟨word, hword⟩ : ∃ word, writtenResponse e.2 = .ok word :=
    exists_ok_of_mem hwhole (List.mem_map_of_mem (by simp))
  rw [List.map_append, List.map_singleton, inOrder_concat hconsumed hword] at hwhole
  obtain rfl := Except.ok.inj hwhole
  obtain ⟨arrived, harrived⟩ := houtput
  rw [← harrived, hlength, List.drop_left] at hread
  have harrived' : arrived <+: word ++ [] := by
    rw [← harrived] at hbegins
    rw [List.append_nil]
    exact (List.prefix_append_right_inj consumed).mp hbegins
  obtain ⟨rfl, hsplit⟩ := read_first_response hword harrived' hread
  have hrest : rest = [] := by
    have hle := harrived'.length_le
    rw [hsplit, List.length_append, List.append_nil] at hle
    exact List.length_eq_zero_iff.mp (by omega)
  rw [hrest, List.append_nil] at hsplit
  obtain ⟨state, hstate⟩ := hanswering.dispatched e (by simp)
  have hreceived : e.1 = receivedRequest f := by
    have hrequested := hanswering.requested
    rw [hrequests, List.map_append, List.map_append] at hrequested
    have heq := hrequested.eq_of_length (by simp [hfirst])
    exact List.singleton_inj.mp (List.append_inj_right heq (by simp [hfirst]))
  refine ⟨⟨state, by rw [hstate, hreceived]⟩, h.sound, first ++ [e], consumed ++ word, hanswering,
    ?_, ?_, ?_, ?_⟩
  · rw [hrequests, List.length_append, List.length_append, hfirst]
    exact Nat.le_refl _
  · rw [hrequests, List.take_of_length_le (by simp [hfirst]), List.map_append, List.map_singleton]
    exact inOrder_concat hconsumed hword
  · rw [← harrived, hsplit]
  · rw [hrest, ← harrived, hsplit]
    rfl

theorem receive_genuine (h : Genuine m c) (hstep : c.step cfg m .receive = some c') :
    Genuine m c' := by
  simp only [Client.step] at hstep
  split at hstep
  · rename_i f conn hstage hconn
    split at hstep
    · cases hstep
    · rename_i resp rest hread
      obtain ⟨old, hrequests, hreading⟩ := h.conn conn hconn
      rw [hstage, Stage.sent] at hrequests
      obtain ⟨⟨state, hresp⟩, hreading'⟩ := reading_response hreading hrequests hread
      have hid : resp.correlationID = f.correlationID := by
        rw [hresp]
        exact m.dispatch_correlationID state (receivedRequest f)
      rw [if_pos hid] at hstep
      obtain rfl := Option.some.inj hstep
      refine ⟨?_, ?_, h.mismatches, ?_⟩
      · rintro conn' ⟨⟩
        exact ⟨conn.link.requests, (List.append_nil _).symm, hreading'⟩
      · intro e he
        rcases List.mem_append.mp he with hold | hnew
        · exact h.returned e hold
        · obtain rfl := List.mem_singleton.mp hnew
          exact ⟨state, hresp⟩
      · have hasked := h.asked
        rw [hstage] at hasked
        dsimp only
        rw [List.map_append, List.append_assoc]
        exact hasked
  · cases hstep

theorem step_genuine {event : Event σ} (h : Genuine m c) (hstep : c.step cfg m event = some c') :
    Genuine m c' := by
  cases event with
  | call apiKey clientID payload => exact call_genuine h hstep
  | lock i => exact lock_genuine h hstep
  | dial => exact dial_genuine h hstep
  | refuse => exact refuse_genuine h hstep
  | write => exact write_genuine h hstep
  | remote a => exact remote_genuine h hstep
  | receive => exact receive_genuine h hstep
  | fail =>
    simp only [Client.step] at hstep
    split at hstep
    · cases hstep
    · obtain rfl := Option.some.inj hstep
      exact abandon_genuine h
    · obtain rfl := Option.some.inj hstep
      exact abandon_genuine h
  | close =>
    obtain rfl := Option.some.inj hstep
    exact ⟨by rintro conn ⟨⟩, h.returned, h.mismatches, h.asked⟩

end Clients

/-- Callers that share a client get the answers to their own requests.  Whatever calls
are made at once, and however connections break and are dialled again: a response that a
call returns is what the server has dispatched its request to, no call gets two of them,
and the ids never fail to match. -/
theorem own_responses {σ : Type} {cfg : ServerConfig} {m : Mux σ} {events : List (Event σ)}
    {c : Client} (hrun : Run (Guarded (fun _ _ => true) (Client.step cfg m)) newClient events c) :
    (∀ e ∈ c.returned, ∃ state, e.2 = receivedResponse (m.dispatch state (receivedRequest e.1))) ∧
      List.Subperm (c.returned.map Prod.fst) c.asked ∧ c.mismatches = 0 := by
  have h : Genuine m c := by
    apply hrun.invariant (P := Genuine m) genuine_newClient
    rintro s event t hs ⟨-, hstep⟩
    exact step_genuine hs hstep
  refine ⟨h.returned, ?_, h.mismatches⟩
  exact (List.sublist_append_left _ _).subperm.trans h.asked

/-- Two calls.  The connection of the second one breaks off in the middle of the
response, and the first one dials again. -/
def redialled : List (Event Bool) :=
  [.call 1 [] [7], .call 1 [] [8], .lock 1, .dial, .write, .remote (.deliver 100), .remote .read,
    .remote (.breakOff false 3), .fail, .lock 0, .dial, .write, .remote (.deliver 100),
    .remote .read, .remote (.respond false), .receive]

theorem own_responses_redialled :
    ∃ c, Run (Guarded (fun _ _ => true) (Client.step ⟨0, 0⟩ echo)) newClient redialled c ∧
      c.returned.map (fun e => (e.1.correlationID, e.2.payload)) = [(1, some [7])] ∧
      c.mismatches = 0 := by
  have hend : (execute (fun _ _ => true) (Client.step ⟨0, 0⟩ echo) newClient redialled).map
      (fun c => c.returned.map fun e => (e.1.correlationID, e.2.payload)) =
        some [(1, some [7])] := by
    decide +kernel
  obtain ⟨c, hrun, hreturned⟩ := exists_run_of_execute hend
  exact ⟨c, hrun, hreturned, (own_responses hrun).2.2⟩

end MiniKafka.ClientRoundTrips
