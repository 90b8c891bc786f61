import MiniKafka.FrameSizes
import MiniKafka.Runs

/-!
Connections of the server (`internal/server`): the dispatch of a request to its
handler, and the loop of `handleConn` on each connection.

A client writes frames, and the network brings their bytes in pieces of any size.
Connections interleave freely, and what a handler does is left open: the broker may
have changed between any two requests.
-/

namespace MiniKafka.ServerConnections

open BigEndian ExactReaders WireCodec Frames FrameSizes Runs

def errNone : Int16 := 0

def errUnknown : Int16 := 1

def errUnsupportedVersion : Int16 := 13

/-- How a call of a handler ends: with a frame or nil, with an error that may carry
a code, or in a panic. -/
inductive HandlerOutcome where
  | returned (out : Option ResponseFrame)
  | failed (code : Option Int16)
  | panicked

/-- A handler depends on the state of the broker when the request comes to it. -/
abbrev HandlerFunc (σ : Type) := σ → RequestFrame → HandlerOutcome

structure Mux (σ : Type) where
  handlers : Int16 → Option (HandlerFunc σ)

section

variable {σ : Type}

def newMux : Mux σ := ⟨fun _ => none⟩

def Mux.handle (m : Mux σ) (apiKey : Int16) (h : HandlerFunc σ) : Mux σ :=
  ⟨fun key => if key = apiKey then some h else m.handlers key⟩

def Mux.dispatch (m : Mux σ) (state : σ) (req : RequestFrame) : ResponseFrame :=
  let resp : ResponseFrame := ⟨0, req.correlationID, errNone, none⟩
  match m.handlers req.apiKey with
  | none => { resp with errorCode := errUnsupportedVersion }
  | some h =>
    match h state req with
    | .panicked => { resp with errorCode := errUnknown }
    | .failed code => { resp with errorCode := code.getD errUnknown }
    | .returned none => resp
    | .returned (some out) => { out with correlationID := req.correlationID }

theorem Mux.dispatch_correlationID (m : Mux σ) (state : σ) (req : RequestFrame) :
    (m.dispatch state req).correlationID = req.correlationID := by
  rw [Mux.dispatch]
  split
  · rfl
  · split <;> rfl

end

def defaultMaxRequestBytes : Int32 := 16777216

structure ServerConfig where
  maxConnections : Int
  maxRequestBytes : Int32
  deriving DecidableEq, Repr

def ServerConfig.maxReqBytes (cfg : ServerConfig) : Int32 :=
  if cfg.maxRequestBytes = 0 then defaultMaxRequestBytes else cfg.maxRequestBytes

def writtenRequest (f : RequestFrame) : Except WireError Bytes := FrameKind.request.written f

def writtenResponse (f : ResponseFrame) : Except WireError Bytes := FrameKind.response.written f

def receivedRequest (f : RequestFrame) : RequestFrame := FrameKind.request.received f

def receivedResponse (f : ResponseFrame) : ResponseFrame := FrameKind.response.received f

inductive Phase where
  | reading
  | dispatching (req : RequestFrame)
  | closed

/-- A connection with both of its ends.  The client has written `requests`, and of
their bytes some are still `inFlight` and some `unread`; `output` has been flushed to
the client.  The `exchanges` are the requests that were answered as a whole. -/
structure Link where
  requests : List RequestFrame
  inFlight : Bytes
  unread : Bytes
  phase : Phase
  output : Bytes
  exchanges : List (RequestFrame × ResponseFrame)

def Link.opened : Link := ⟨[], [], [], .reading, [], []⟩

theorem ne_closed_of_reading {l : Link} (h : l.phase = .reading) : l.phase ≠ .closed := by
  rw [h]
  rintro ⟨⟩

theorem ne_closed_of_dispatching {l : Link} {req : RequestFrame} (h : l.phase = .dispatching req) :
    l.phase ≠ .closed := by
  rw [h]
  rintro ⟨⟩

inductive Action (σ : Type) where
  | send (f : RequestFrame)
  | deliver (n : Nat)
  | read
  | giveUp
  | respond (state : σ)
  | breakOff (state : σ) (n : Nat)

def Action.isSend {σ : Type} : Action σ → Bool
  | .send _ => true
  | .deliver _ => false
  | .read => false
  | .giveUp => false
  | .respond _ => false
  | .breakOff _ _ => false

section

variable {σ : Type} (cfg : ServerConfig) (m : Mux σ)

def Link.next (l : Link) : Action σ → Option Link
  | .send f =>
    match writtenRequest f with
    | .error _ => none
    | .ok word => some { l with requests := l.requests ++ [f], inFlight := l.inFlight ++ word }
  | .deliver n =>
    some { l with unread := l.unread ++ l.inFlight.take n, inFlight := l.inFlight.drop n }
  | .read =>
    match l.phase, readRequestFrameWithLimit cfg.maxReqBytes l.unread with
    | .reading, .ok (req, rest) => some { l with phase := .dispatching req, unread := rest }
    | _, _ => none
  | .giveUp =>
    -- Bytes that are no frame end the connection at once or when the deadline for
    -- the rest of them passes.
    match l.phase, readRequestFrameWithLimit cfg.maxReqBytes l.unread with
    | .reading, .error _ => some { l with phase := .closed }
    | _, _ => none
  | .respond state =>
    match l.phase with
    | .dispatching req =>
      match writtenResponse (m.dispatch state req) with
      | .error _ => some { l with phase := .closed }
      | .ok word =>
        some { l with
          phase := .reading
          output := l.output ++ word
          exchanges := l.exchanges ++ [(req, m.dispatch state req)] }
    | _ => none
  | .breakOff state n =>
    -- The write or the flush fails, when `n` bytes of the response have gone out.
    match l.phase with
    | .dispatching req =>
      match writtenResponse (m.dispatch state req) with
      | .error _ => none
      | .ok word => some { l with phase := .closed, output := l.output ++ word.take n }
    | _ => none

inductive Event (σ : Type) where
  | connect
  | on (i : Nat) (a : Action σ)

def step (links : List Link) : Event σ → Option (List Link)
  | .connect => some (links ++ [.opened])
  | .on i a => links[i]?.bind fun l => (l.next cfg m a).map (links.set i)

end

/-- What can happen to a connection. -/
inductive LinkStep {σ : Type} (cfg : ServerConfig) (m : Mux σ) (l : Link) :
    Action σ → Link → Prop where
  | sent {f : RequestFrame} {word : Bytes} (hword : writtenRequest f = .ok word) :
      LinkStep cfg m l (.send f)
        { l with requests := l.requests ++ [f], inFlight := l.inFlight ++ word }
  | delivered (n : Nat) :
      LinkStep cfg m l (.deliver n)
        { l with unread := l.unread ++ l.inFlight.take n, inFlight := l.inFlight.drop n }
  | took {req : RequestFrame} {rest : Bytes} (hphase : l.phase = .reading)
      (hread : readRequestFrameWithLimit cfg.maxReqBytes l.unread = .ok (req, rest)) :
      LinkStep cfg m l .read { l with phase := .dispatching req, unread := rest }
  | ended {a : Action σ} (hopen : l.phase ≠ .closed) (ha : a.isSend = false) :
      LinkStep cfg m l a { l with phase := .closed }
  | responded {req : RequestFrame} {state : σ} {word : Bytes} (hphase : l.phase = .dispatching req)
      (hword : writtenResponse (m.dispatch state req) = .ok word) :
      LinkStep cfg m l (.respond state) { l with
        phase := .reading
        output := l.output ++ word
        exchanges := l.exchanges ++ [(req, m.dispatch state req)] }
  | broke {req : RequestFrame} {state : σ} {word : Bytes} (n : Nat)
      (hphase : l.phase = .dispatching req)
      (hword : writtenResponse (m.dispatch state req) = .ok word) :
      LinkStep cfg m l (.breakOff state n)
        { l with phase := .closed, output := l.output ++ word.take n }

theorem linkStep_of_next {σ : Type} {cfg : ServerConfig} {m : Mux σ} {l l' : Link} {a : Action σ}
    (hnext : l.next cfg m a = some l') : LinkStep cfg m l a l' := by
  cases a with
  | send f =>
    simp only [Link.next] at hnext
    split at hnext
    · cases hnext
    · rename_i word hword
      obtain rfl := Option.some.inj hnext
      exact .sent hword
  | deliver n =>
    obtain rfl := Option.some.inj hnext
    exact .delivered n
  | read =>
    simp only [Link.next] at hnext
    split at hnext
    · rename_i req rest hphase hread
      obtain rfl := Option.some.inj hnext
      exact .took hphase hread
    · cases hnext
  | giveUp =>
    simp only [Link.next] at hnext
    split at hnext
    · rename_i hphase _
      obtain rfl := Option.some.inj hnext
      exact .ended (ne_closed_of_reading hphase) rfl
    · cases hnext
  | respond state =>
    simp only [Link.next] at hnext
    split at hnext
    · rename_i req hphase
      split at hnext
      · obtain rfl := Option.some.inj hnext
        exact .ended (ne_closed_of_dispatching hphase) rfl
      · rename_i word hword
        obtain rfl := Option.some.inj hnext
        exact .responded hphase hword
    · cases hnext
  | breakOff state n =>
    simp only [Link.next] at hnext
    split at hnext
    · rename_i req hphase
      split at hnext
      · cases hnext
      · rename_i word hword
        obtain rfl := Option.some.inj hnext
        exact .broke n hphase hword
    · cases hnext

section Reading

variable {limit : Int32} {f req : RequestFrame} {body word later bs rest : Bytes}

theorem readsAs_admitted (hbody : f.body = .ok body) (hlength : body.length ≤ maxFrameSize)
    (hadmitted : 0 < limit → Int32.ofNat body.length ≤ limit) :
    ReadsAs (readRequestFrameWithLimit limit) (putInt32 (Int32.ofNat body.length) ++ body)
      (FrameKind.request.sent f (Int32.ofNat body.length)) := by
  have hwithin : ¬ (0 < limit ∧ limit < Int32.ofNat body.length) := by
    rintro ⟨hpos, hlt⟩
    exact Int32.not_lt.mpr (hadmitted hpos) hlt
  apply ((readsAs_int32 _).mapError FrameError.wire).bind
  rw [not_tooLarge hlength, if_neg Bool.false_ne_true, if_neg hwithin, toNat_size hlength]
  exact readsAs_limited (FrameKind.readsAs_fields (k := .request) hbody hlength _)

theorem declaredSize_of_begins {size : Int32} (hbs : bs <+: putInt32 size ++ later)
    (hfour : 4 ≤ bs.length) : declaredSize bs = size := by
  obtain ⟨tail, htail⟩ := hbs
  have htake : bs.take 4 = putInt32 size := by
    have h := congrArg (List.take 4) htail
    rwa [List.take_append_of_le_length hfour,
      List.take_append_of_le_length (length_putInt32 size).ge,
      List.take_of_length_le (length_putInt32 size).le] at h
  have hread := (readsAs_int32 size).reads []
  rw [List.append_nil, int32_of_le (length_putInt32 size).ge] at hread
  have hsize := (Prod.mk.inj (Except.ok.inj hread)).1
  rw [declaredSize, htake]
  rwa [declaredSize, List.take_of_length_le (length_putInt32 size).le] at hsize

/-- Of a stream of written frames, however much has arrived, the server reads the
first frame or nothing. -/
theorem read_first (hword : writtenRequest f = .ok word) (hbs : bs <+: word ++ later)
    (hread : readRequestFrameWithLimit limit bs = .ok (req, rest)) :
    req = receivedRequest f ∧ bs = word ++ rest := by
  obtain ⟨body, hbody, rfl⟩ := FrameKind.written_eq_ok hword
  obtain ⟨hfour, hlarge, hadmitted, -⟩ := (readsLimited_request limit bs req rest).mp hread
  rw [declaredSize_of_begins (by rwa [List.append_assoc] at hbs) hfour] at hlarge hadmitted
  have hfits : body.length ≤ maxFrameSize := by
    by_contra hlt
    rw [tooLarge_of_lt (by omega) (FrameKind.length_body_lt (k := .request) hbody)] at hlarge
    cases hlarge
  have hbody : f.body = .ok body := hbody
  have hreads := readsAs_admitted hbody hfits hadmitted
  have hreceived : receivedRequest f =
      FrameKind.request.sent f (Int32.ofNat body.length) := by
    show FrameKind.request.sent f (Int32.ofNat (f.body.toOption.getD []).length) = _
    rw [hbody]
    rfl
  rw [hreceived]
  exact hreads.of_begins hbs hread

end Reading

def Phase.current : Phase → List RequestFrame
  | .reading => []
  | .dispatching req => [req]
  | .closed => []

def Link.taken (l : Link) : List RequestFrame := l.exchanges.map Prod.fst ++ l.phase.current

/-- What the server has taken are the first requests of the client, and while the
connection is open the bytes of the others are all there. -/
def Aligned (l : Link) : Prop :=
  ∃ done pending, l.requests = done ++ pending ∧
    l.taken = done.map receivedRequest ∧
    (l.phase ≠ .closed →
      inOrder (pending.map writtenRequest) = .ok (l.unread ++ l.inFlight))

def Flushed (l : Link) : Prop :=
  ∃ whole rest, inOrder (l.exchanges.map fun e => writtenResponse e.2) = .ok whole ∧
    l.output = whole ++ rest ∧ (l.phase ≠ .closed → rest = [])

structure Sound {σ : Type} (m : Mux σ) (l : Link) : Prop where
  aligned : Aligned l
  flushed : Flushed l
  dispatched : ∀ e ∈ l.exchanges, ∃ state, e.2 = m.dispatch state e.1

section Steps

variable {σ : Type} {cfg : ServerConfig} {m : Mux σ} {l l' : Link} {req : RequestFrame}

theorem sound_opened : Sound m .opened where
  aligned := ⟨[], [], rfl, rfl, fun _ => rfl⟩
  flushed := ⟨[], [], rfl, rfl, fun _ => rfl⟩
  dispatched := by rintro e ⟨⟩

theorem send_sound {f : RequestFrame} {word : Bytes} (h : Sound m l)
    (hword : writtenRequest f = .ok word) :
    Sound m { l with requests := l.requests ++ [f], inFlight := l.inFlight ++ word } := by
  obtain ⟨done, pending, hrequests, htaken, hbytes⟩ := h.aligned
  refine ⟨⟨done, pending ++ [f], ?_, htaken, ?_⟩, h.flushed, h.dispatched⟩
  · rw [← List.append_assoc, ← hrequests]
  · intro hopen
    rw [List.map_append, ← List.append_assoc]
    exact inOrder_concat (hbytes hopen) hword

theorem deliver_sound (n : Nat) (h : Sound m l) :
    Sound m { l with unread := l.unread ++ l.inFlight.take n, inFlight := l.inFlight.drop n } := by
  obtain ⟨done, pending, hrequests, htaken, hbytes⟩ := h.aligned
  refine ⟨⟨done, pending, hrequests, htaken, ?_⟩, h.flushed, h.dispatched⟩
  intro hopen
  rw [List.append_assoc, List.take_append_drop]
  exact hbytes hopen

theorem read_sound {rest : Bytes} (h : Sound m l) (hphase : l.phase = .reading)
    (hread : readRequestFrameWithLimit cfg.maxReqBytes l.unread = .ok (req, rest)) :
    Sound m { l with phase := .dispatching req, unread := rest } := by
  obtain ⟨done, pending, hrequests, htaken, hbytes⟩ := h.aligned
  have hopen := ne_closed_of_reading hphase
  have hstream := hbytes hopen
  cases pending with
  | nil =>
    obtain ⟨hnil, -⟩ := List.append_eq_nil_iff.mp (Except.ok.inj hstream).symm
    rw [hnil] at hread
    obtain ⟨hfour, -⟩ := (readsLimited_request _ [] req rest).mp hread
    cases hfour
  | cons f pending =>
    obtain ⟨word, words, hword, hwords, hsplit⟩ := inOrder_cons_eq_ok hstream
    obtain ⟨rfl, hunread⟩ := read_first hword (hsplit ▸ List.prefix_append _ _) hread
    refine ⟨⟨done ++ [f], pending, ?_, ?_, fun _ => ?_⟩, ?_, h.dispatched⟩
    · rw [List.append_assoc]
      exact hrequests
    · rw [Link.taken, hphase, Phase.current, List.append_nil] at htaken
      rw [List.map_append, ← htaken]
      rfl
    · rw [hunread, List.append_assoc] at hsplit
      rw [hwords, List.append_cancel_left hsplit]
    · obtain ⟨whole, out, hwhole, houtput, hrest⟩ := h.flushed
      exact ⟨whole, out, hwhole, houtput, fun _ => hrest hopen⟩

theorem close_sound (out : Bytes) (h : Sound m l) (hopen : l.phase ≠ .closed) :
    Sound m { l with phase := .closed, output := l.output ++ out } := by
  obtain ⟨done, pending, hrequests, htaken, -⟩ := h.aligned
  obtain ⟨whole, rest, hwhole, houtput, hrest⟩ := h.flushed
  obtain ⟨answered, current, rfl, hanswered, -⟩ := List.append_eq_map_iff.mp htaken
  refine ⟨⟨answered, current ++ pending, ?_, ?_, fun hclosed => absurd rfl hclosed⟩,
    ⟨whole, out, hwhole, ?_, fun hclosed => absurd rfl hclosed⟩, h.dispatched⟩
  · rw [← List.append_assoc]
    exact hrequests
  · rw [hanswered]
    exact List.append_nil _
  · rw [houtput, hrest hopen, List.append_nil]

theorem respond_sound {state : σ} {word : Bytes} (h : Sound m l)
    (hphase : l.phase = .dispatching req)
    (hword : writtenResponse (m.dispatch state req) = .ok word) :
    Sound m { l with
      phase := .reading
      output := l.output ++ word
      exchanges := l.exchanges ++ [(req, m.dispatch state req)] } := by
  have hopen := ne_closed_of_dispatching hphase
  obtain ⟨done, pending, hrequests, htaken, hbytes⟩ := h.aligned
  obtain ⟨whole, rest, hwhole, houtput, hrest⟩ := h.flushed
  refine ⟨⟨done, pending, hrequests, ?_, fun _ => hbytes hopen⟩,
    ⟨whole ++ word, [], ?_, ?_, fun _ => rfl⟩, ?_⟩
  · rw [← htaken, Link.taken, Link.taken, hphase, List.map_append]
    exact List.append_nil _
  · rw [List.map_append]
    exact inOrder_concat hwhole hword
  · rw [houtput, hrest hopen, List.append_nil, List.append_nil]
  · intro e he
    rcases List.mem_append.mp he with hold | hnew
    · exact h.dispatched e hold
    · obtain rfl := List.mem_singleton.mp hnew
      exact ⟨state, rfl⟩

theorem next_sound {a : Action σ} (h : Sound m l) (hnext : l.next cfg m a = some l') :
    Sound m l' := by
  cases linkStep_of_next hnext with
  | sent hword => exact send_sound h hword
  | delivered n => exact deliver_sound n h
  | took hphase hread => exact read_sound h hphase hread
  | ended hopen _ =>
    have hclosed := close_sound [] h hopen
    rwa [List.append_nil] at hclosed
  | responded hphase hword => exact respond_sound h hphase hword
  | broke n hphase _ => exact close_sound _ h (ne_closed_of_dispatching hphase)

theorem step_sound {links links' : List Link} {event : Event σ} (h : ∀ l ∈ links, Sound m l)
    (hstep : step cfg m links event = some links') : ∀ l ∈ links', Sound m l := by
  intro l hl
  cases event with
  | connect =>
    obtain rfl := Option.some.inj hstep
    rcases List.mem_append.mp hl with hold | hnew
    · exact h l hold
    · obtain rfl := List.mem_singleton.mp hnew
      exact sound_opened
  | on i a =>
    obtain ⟨l₀, hget, hmap⟩ := Option.bind_eq_some_iff.mp hstep
    obtain ⟨l₁, hnext, rfl⟩ := Option.map_eq_some_iff.mp hmap
    rcases List.mem_or_eq_of_mem_set hl with hold | rfl
    · exact h l hold
    · exact next_sound (h l₀ (List.mem_of_getElem? hget)) hnext

end Steps

section Answers

variable {σ : Type} {m : Mux σ} {l : Link}

theorem Sound.answered (h : Sound m l) :
    l.exchanges.map Prod.fst <+: l.requests.map receivedRequest := by
  obtain ⟨done, pending, hrequests, htaken, -⟩ := h.aligned
  rw [hrequests, List.map_append, ← htaken, Link.taken, List.append_assoc]
  exact List.prefix_append _ _

theorem Sound.correlated (h : Sound m l) :
    (l.exchanges.map fun e => e.2.correlationID) =
      (l.requests.take l.exchanges.length).map RequestFrame.correlationID := by
  have hids : (l.exchanges.map fun e => e.2.correlationID) =
      (l.exchanges.map Prod.fst).map RequestFrame.correlationID := by
    rw [List.map_map]
    apply List.map_congr_left
    intro e he
    obtain ⟨state, hstate⟩ := h.dispatched e he
    rw [hstate]
    exact m.dispatch_correlationID state e.1
  obtain hanswered := List.prefix_iff_eq_take.mp h.answered
  rw [List.length_map, ← List.map_take] at hanswered
  rw [hids, hanswered, List.map_map]
  rfl

theorem bodyLength_le (f : ResponseFrame) :
    FrameKind.response.bodyLength f ≤ 10 + (elements f.payload).length := by
  show (f.body.toOption.getD []).length ≤ _
  cases hbody : f.body with
  | error e => exact Nat.zero_le _
  | ok body => exact (ResponseFrame.length_body hbody).1.le

theorem Sound.received (h : Sound m l)
    (hfits : ∀ e ∈ l.exchanges, 10 + (elements e.2.payload).length ≤ maxFrameSize) :
    ∃ rest, readMany readResponseFrame l.exchanges.length l.output =
      .ok (l.exchanges.map fun e => receivedResponse e.2, rest) := by
  obtain ⟨whole, rest, hwhole, houtput, -⟩ := h.flushed
  have hmany : Carries (inOrder (l.exchanges.map fun e => writtenResponse e.2))
      (readMany readResponseFrame l.exchanges.length)
      (l.exchanges.map fun e => receivedResponse e.2) :=
    carries_many fun e he =>
      FrameKind.carries_written (k := .response) ((bodyLength_le e.2).trans (hfits e he))
  exact ⟨rest, by rw [houtput, (hmany whole hwhole).reads rest]⟩

theorem Sound.complete (h : Sound m l) (hphase : l.phase = .reading)
    (harrived : l.unread ++ l.inFlight = []) : l.exchanges.length = l.requests.length := by
  obtain ⟨done, pending, hrequests, htaken, hbytes⟩ := h.aligned
  have hstream := hbytes (ne_closed_of_reading hphase)
  have hpending : pending = [] := by
    cases pending with
    | nil => rfl
    | cons f pending =>
      obtain ⟨word, words, hword, -, hsplit⟩ := inOrder_cons_eq_ok hstream
      obtain ⟨body, -, rfl⟩ := FrameKind.written_eq_ok (k := .request) hword
      have hlength := congrArg List.length (hsplit.symm.trans harrived)
      simp only [List.length_append, length_putInt32, List.length_nil] at hlength
      omega
  rw [Link.taken, hphase, Phase.current, List.append_nil] at htaken
  have hcount := congrArg List.length htaken
  rw [List.length_map, List.length_map] at hcount
  rw [hcount, hrequests, hpending, List.append_nil]

end Answers

/-- Requests that clients write one after another on their connections are answered
one by one and in order: the responses a client reads carry the correlation ids of its
first requests, each is what the dispatch made of its request, and a connection that
is open and has nothing left to read has answered all of them. -/
theorem responses_in_order {σ : Type} {cfg : ServerConfig} {m : Mux σ} {events : List (Event σ)}
    {links : List Link} (hrun : Run (Guarded (fun _ _ => true) (step cfg m)) [] events links)
    {l : Link} (hl : l ∈ links) :
    (∀ e ∈ l.exchanges, ∃ state, e.2 = m.dispatch state e.1) ∧
      l.exchanges.map Prod.fst <+: l.requests.map receivedRequest ∧
      ((∀ e ∈ l.exchanges, 10 + (elements e.2.payload).length ≤ maxFrameSize) →
        ∃ responses rest,
          readMany readResponseFrame l.exchanges.length l.output = .ok (responses, rest) ∧
          responses.map ResponseFrame.correlationID =
            (l.requests.take l.exchanges.length).map RequestFrame.correlationID) ∧
      (l.phase = .reading → l.unread ++ l.inFlight = [] →
        l.exchanges.length = l.requests.length) := by
  have h : ∀ l ∈ links, Sound m l := by
    apply hrun.invariant (P := fun links => ∀ l ∈ links, Sound m l)
    · rintro l ⟨⟩
    · rintro s event t hs ⟨-, hstep⟩
      exact step_sound hs hstep
  refine ⟨(h l hl).dispatched, (h l hl).answered, ?_, (h l hl).complete⟩
  intro hfits
  obtain ⟨rest, hrest⟩ := (h l hl).received hfits
  refine ⟨_, rest, hrest, ?_⟩
  rw [← (h l hl).correlated, List.map_map]
  rfl

def echo : Mux Bool :=
  newMux.handle 1 fun broken req =>
    if broken then .panicked else .returned (some ⟨0, 0, errNone, req.payload⟩)

/-- Two pipelined requests on the first connection, the second of them with a key
that nobody handles, and one on the second connection while the broker is broken. -/
def twoClients : List (Event Bool) :=
  [.connect, .connect, .on 0 (.send ⟨0, 1, 1, 7, [], some [1]⟩),
    .on 0 (.send ⟨0, 9, 1, 8, [], none⟩), .on 1 (.send ⟨0, 1, 1, 7, [], none⟩),
    .on 0 (.deliver 30), .on 1 (.deliver 100), .on 0 .read, .on 1 .read, .on 1 (.respond true),
    .on 0 (.respond false), .on 0 (.deliver 100), .on 0 .read, .on 0 (.respond true)]

theorem responses_in_order_pipelined :
    ∃ links l, Run (Guarded (fun _ _ => true) (step ⟨0, 0⟩ echo)) [] twoClients
        links ∧ l ∈ links ∧
      (l.exchanges.map fun e => (e.2.correlationID, e.2.errorCode)) =
        [(7, errNone), (8, errUnsupportedVersion)] ∧
      ∃ responses rest, readMany readResponseFrame 2 l.output = .ok (responses, rest) ∧
        responses.map ResponseFrame.correlationID = [7, 8] := by
  have hend : (execute (fun _ _ => true) (step ⟨0, 0⟩ echo) [] twoClients).map
      (fun links => links[0]?.map fun l => (l.exchanges.map Prod.snd, l.requests)) =
        some (some ([⟨0, 7, errNone, some [1]⟩, ⟨0, 8, errUnsupportedVersion, none⟩],
          [⟨0, 1, 1, 7, [], some [1]⟩, ⟨0, 9, 1, 8, [], none⟩])) := by decide +kernel
  obtain ⟨links, hrun, hlinks⟩ := exists_run_of_execute hend
  obtain ⟨l, hget, hl⟩ := Option.map_eq_some_iff.mp hlinks
  obtain ⟨hexchanges, hrequests⟩ := Prod.mk.inj hl
  have hmem := List.mem_of_getElem? hget
  have hcount : l.exchanges.length = 2 := by
    rw [← List.length_map Prod.snd, hexchanges]
    rfl
  obtain ⟨-, -, hreceived, -⟩ := responses_in_order hrun hmem
  have hfits : ∀ e ∈ l.exchanges, 10 + (elements e.2.payload).length ≤ maxFrameSize := by
    intro e he
    have hall : ∀ f ∈ l.exchanges.map Prod.snd,
        10 + (elements f.payload).length ≤ maxFrameSize := by
      rw [hexchanges]
      decide +kernel
    exact hall e.2 (List.mem_map_of_mem he)
  obtain ⟨responses, rest, hread, hids⟩ := hreceived hfits
  rw [hcount] at hread hids
  refine ⟨links, l, hrun, hmem, ?_, responses, rest, hread, ?_⟩
  · rw [show (fun e : RequestFrame × ResponseFrame => (e.2.correlationID, e.2.errorCode)) =
      (fun f : ResponseFrame => (f.correlationID, f.errorCode)) ∘ Prod.snd from rfl,
      ← List.map_map, hexchanges]
    rfl
  · rw [hids, hrequests]
    rfl

end MiniKafka.ServerConnections
