import MiniKafka.WireCodec

/-!
Request and response frames (`internal/protocol/frame.go`): a size, and a body
of that size whose fields are read through a reader limited to it.
-/

namespace MiniKafka.Frames

open BigEndian ExactReaders WireCodec

def maxFrameSize : Nat := 104857600

inductive FrameError where
  | wire (e : WireError)
  | frameTooLarge
  | frameSizeMismatch
  deriving DecidableEq, Repr

abbrev FrameReader (α : Type) := Reader FrameError UInt8 α

structure RequestFrame where
  size : Int32
  apiKey : Int16
  apiVersion : Int16
  correlationID : Int32
  clientID : Bytes
  payload : Slice UInt8
  deriving DecidableEq, Repr

structure ResponseFrame where
  size : Int32
  correlationID : Int32
  errorCode : Int16
  payload : Slice UInt8
  deriving DecidableEq, Repr

section

variable {α : Type}

/-- The bytes that `Write` puts on the wire, and the size it stores in the frame. -/
def writeFrame (body : Except WireError Bytes) : Except WireError (Int32 × Bytes) :=
  body.map fun bytes =>
    let size := Int32.ofNat bytes.length
    (size, putInt32 size ++ bytes)

/-- Reading through a `LimitedReader` of `n` bytes, with the probe for a byte
that the fields have left over. -/
def limited (n : Nat) (fields : Decoder α) : FrameReader α := fun bs =>
  match fields (bs.take n) with
  | .error e => .error (.wire e)
  | .ok (f, left) => if left = [] then .ok (f, bs.drop n) else .error .frameSizeMismatch

def drain (n : Nat) : FrameReader Unit := fun bs =>
  if n ≤ bs.length then .ok ((), bs.drop n) else .error (.wire .eof)

def tooLarge (size : Int32) : Bool := size < 0 || maxFrameSize < size.toNatClampNeg

def readFrame (fields : Int32 → Decoder α) : FrameReader α := do
  let size ← mapError .wire int32
  if tooLarge size then throw .frameTooLarge
  else limited size.toNatClampNeg (fields size)

end

def RequestFrame.body (f : RequestFrame) : Except WireError Bytes :=
  inOrder [.ok (putInt16 f.apiKey), .ok (putInt16 f.apiVersion), .ok (putInt32 f.correlationID),
    putString f.clientID, putBytes f.payload]

def RequestFrame.write (f : RequestFrame) : Except WireError (RequestFrame × Bytes) :=
  (writeFrame f.body).map fun (size, bytes) => ({ f with size }, bytes)

def RequestFrame.fields (size : Int32) : Decoder RequestFrame := do
  let apiKey ← int16
  let apiVersion ← int16
  let correlationID ← int32
  let clientID ← string
  let payload ← bytes
  return { size, apiKey, apiVersion, correlationID, clientID, payload }

def readRequestFrameWithLimit (maxRequestBytes : Int32) : FrameReader RequestFrame := do
  let size ← mapError .wire int32
  if tooLarge size then throw .frameTooLarge
  else if 0 < maxRequestBytes ∧ maxRequestBytes < size then
    drain size.toNatClampNeg
    throw .frameTooLarge
  else limited size.toNatClampNeg (RequestFrame.fields size)

def readRequestFrame : FrameReader RequestFrame := readRequestFrameWithLimit 0

def ResponseFrame.body (f : ResponseFrame) : Except WireError Bytes :=
  inOrder [.ok (putInt32 f.correlationID), .ok (putInt16 f.errorCode), putBytes f.payload]

def ResponseFrame.write (f : ResponseFrame) : Except WireError (ResponseFrame × Bytes) :=
  (writeFrame f.body).map fun (size, bytes) => ({ f with size }, bytes)

def ResponseFrame.fields (size : Int32) : Decoder ResponseFrame := do
  let correlationID ← int32
  let errorCode ← int16
  let payload ← bytes
  return { size, correlationID, errorCode, payload }

def readResponseFrame : FrameReader ResponseFrame := readFrame ResponseFrame.fields

inductive FrameKind where
  | request
  | response
  deriving DecidableEq, Repr

namespace FrameKind

def Frame : FrameKind → Type
  | .request => RequestFrame
  | .response => ResponseFrame

def body : (k : FrameKind) → k.Frame → Except WireError Bytes
  | .request => RequestFrame.body
  | .response => ResponseFrame.body

def write : (k : FrameKind) → k.Frame → Except WireError (k.Frame × Bytes)
  | .request => RequestFrame.write
  | .response => ResponseFrame.write

def read : (k : FrameKind) → FrameReader k.Frame
  | .request => readRequestFrame
  | .response => readResponseFrame

def fields : (k : FrameKind) → Int32 → Decoder k.Frame
  | .request => RequestFrame.fields
  | .response => ResponseFrame.fields

def sent : (k : FrameKind) → k.Frame → Int32 → k.Frame
  | .request, f, size => ({ f with size, payload := some (elements f.payload) } : RequestFrame)
  | .response, f, size => ({ f with size, payload := some (elements f.payload) } : ResponseFrame)

def size : (k : FrameKind) → k.Frame → Int32
  | .request => RequestFrame.size
  | .response => ResponseFrame.size

def written (k : FrameKind) (f : k.Frame) : Except WireError Bytes := (k.write f).map Prod.snd

def bodyLength (k : FrameKind) (f : k.Frame) : Nat := ((k.body f).toOption.getD []).length

def received (k : FrameKind) (f : k.Frame) : k.Frame := k.sent f (Int32.ofNat (k.bodyLength f))

end FrameKind

theorem RequestFrame.length_body {f : RequestFrame} {body : Bytes} (h : f.body = .ok body) :
    body.length = 14 + f.clientID.length + (elements f.payload).length ∧
      f.clientID.length ≤ maxInt16 ∧ (elements f.payload).length ≤ maxInt32 := by
  obtain ⟨_, _, ⟨⟩, hversion, rfl⟩ := inOrder_cons_eq_ok h
  obtain ⟨_, _, ⟨⟩, hcorrelation, rfl⟩ := inOrder_cons_eq_ok hversion
  obtain ⟨_, _, ⟨⟩, hstring, rfl⟩ := inOrder_cons_eq_ok hcorrelation
  obtain ⟨_, _, hclient, hbytes, rfl⟩ := inOrder_cons_eq_ok hstring
  obtain ⟨_, _, hpayload, ⟨⟩, rfl⟩ := inOrder_cons_eq_ok hbytes
  obtain ⟨hclientLength, rfl⟩ := putString_eq_ok hclient
  obtain ⟨hpayloadLength, rfl⟩ := putBytes_eq_ok hpayload
  refine ⟨?_, hclientLength, hpayloadLength⟩
  simp only [List.length_append, length_putInt16, length_putInt32, List.length_nil]
  omega

theorem ResponseFrame.length_body {f : ResponseFrame} {body : Bytes} (h : f.body = .ok body) :
    body.length = 10 + (elements f.payload).length ∧ (elements f.payload).length ≤ maxInt32 := by
  obtain ⟨_, _, ⟨⟩, herror, rfl⟩ := inOrder_cons_eq_ok h
  obtain ⟨_, _, ⟨⟩, hbytes, rfl⟩ := inOrder_cons_eq_ok herror
  obtain ⟨_, _, hpayload, ⟨⟩, rfl⟩ := inOrder_cons_eq_ok hbytes
  obtain ⟨hpayloadLength, rfl⟩ := putBytes_eq_ok hpayload
  refine ⟨?_, hpayloadLength⟩
  simp only [List.length_append, length_putInt16, length_putInt32, List.length_nil]
  omega

theorem RequestFrame.encodes_body {f : RequestFrame} (hclient : f.clientID.length ≤ maxInt16)
    (hpayload : (elements f.payload).length ≤ maxInt32) :
    Encodes f.body (14 + f.clientID.length + (elements f.payload).length) := by
  obtain ⟨body, hbody, -⟩ := encodes_cons (encodes_int16 f.apiKey)
    (encodes_cons (encodes_int16 f.apiVersion) (encodes_cons (encodes_int32 f.correlationID)
      (encodes_cons (encodes_string hclient) (encodes_cons (encodes_bytes hpayload) encodes_nil))))
  exact ⟨body, hbody, (RequestFrame.length_body hbody).1⟩

theorem ResponseFrame.encodes_body {f : ResponseFrame}
    (hpayload : (elements f.payload).length ≤ maxInt32) :
    Encodes f.body (10 + (elements f.payload).length) := by
  obtain ⟨body, hbody, -⟩ := encodes_cons (encodes_int32 f.correlationID)
    (encodes_cons (encodes_int16 f.errorCode) (encodes_cons (encodes_bytes hpayload) encodes_nil))
  exact ⟨body, hbody, (ResponseFrame.length_body hbody).1⟩

theorem RequestFrame.carries_fields {f : RequestFrame} (size : Int32)
    (h : (elements f.payload).length ≤ maxBytesLength) :
    Carries f.body (fields size) { f with size, payload := some (elements f.payload) } := by
  apply carries_cons (carries_int16 _)
  apply carries_cons (carries_int16 _)
  apply carries_cons (carries_int32 _)
  apply carries_cons (carries_string _)
  apply carries_cons (carries_bytes h)
  exact carries_nil _

theorem ResponseFrame.carries_fields {f : ResponseFrame} (size : Int32)
    (h : (elements f.payload).length ≤ maxBytesLength) :
    Carries f.body (fields size) { f with size, payload := some (elements f.payload) } := by
  apply carries_cons (carries_int32 _)
  apply carries_cons (carries_int16 _)
  apply carries_cons (carries_bytes h)
  exact carries_nil _

theorem readsAs_limited {α : Type} {fields : Decoder α} {body : Bytes} {a : α}
    (h : ReadsAs fields body a) : ReadsAs (limited body.length fields) body a where
  reads rest := by
    have hfields : fields body = .ok (a, []) := by
      have hnil := h.reads []
      rwa [List.append_nil] at hnil
    rw [limited, List.take_left, hfields, List.drop_left]
    exact if_pos rfl
  fails p hp hne := by
    obtain ⟨e, he⟩ := h.fails p hp hne
    refine ⟨.wire e, ?_⟩
    rw [limited, List.take_of_length_le hp.length_le, he]

theorem toNat_size {n : Nat} (h : n ≤ maxFrameSize) : (Int32.ofNat n).toNatClampNeg = n :=
  toNat_ofNat32 (by rw [maxFrameSize] at h; rw [maxInt32]; omega)

theorem not_tooLarge {n : Nat} (h : n ≤ maxFrameSize) : tooLarge (Int32.ofNat n) = false := by
  have hpos : ¬ Int32.ofNat n < 0 :=
    ofNat32_nonneg (by rw [maxFrameSize] at h; rw [maxInt32]; omega)
  simp [tooLarge, hpos, toNat_size h, h]

theorem tooLarge_of_lt {n : Nat} (h : maxFrameSize < n) (hn : n < 4294967296) :
    tooLarge (Int32.ofNat n) = true := by
  rw [tooLarge, Bool.or_eq_true, decide_eq_true_eq, decide_eq_true_eq]
  by_cases hsmall : maxInt32 < n
  · left
    rw [Int32.lt_iff_toInt_lt, Int32.toInt_zero, Int32.toInt_ofNat', Int.bmod]
    rw [maxInt32] at hsmall
    rw [show (Int32.size : Int) = 4294967296 from rfl]
    omega
  · right
    rw [toNat_ofNat32 hsmall]
    exact h

theorem readsAs_readFrame {α : Type} {fields : Int32 → Decoder α} {body : Bytes} {a : Int32 → α}
    (hlength : body.length ≤ maxFrameSize) (h : ∀ size, ReadsAs (fields size) body (a size)) :
    ReadsAs (readFrame fields) (putInt32 (Int32.ofNat body.length) ++ body)
      (a (Int32.ofNat body.length)) := by
  apply ((readsAs_int32 _).mapError FrameError.wire).bind
  rw [not_tooLarge hlength, if_neg Bool.false_ne_true, toNat_size hlength]
  exact readsAs_limited (h _)

theorem readFrame_tooLarge {α : Type} {fields : Int32 → Decoder α} {body : Bytes}
    (hlength : maxFrameSize < body.length) (hbody : body.length < 4294967296) (rest : Bytes) :
    readFrame fields (putInt32 (Int32.ofNat body.length) ++ body ++ rest) =
      .error .frameTooLarge := by
  rw [readFrame, List.append_assoc,
    bind_ok (((readsAs_int32 _).mapError FrameError.wire).reads _),
    if_pos (tooLarge_of_lt hlength hbody)]
  rfl

theorem snd_writeFrame {α : Type} {g : Int32 × Bytes → α × Bytes} (body : Except WireError Bytes)
    (hg : ∀ x, (g x).2 = x.2) : ((writeFrame body).map g).map Prod.snd =
      body.map fun bytes => putInt32 (Int32.ofNat bytes.length) ++ bytes := by
  cases body with
  | error e => rfl
  | ok bytes => exact congrArg Except.ok (hg _)

theorem readRequestFrame_eq : readRequestFrame = readFrame RequestFrame.fields := by
  rw [readRequestFrame, readRequestFrameWithLimit, readFrame]
  simp

namespace FrameKind

variable {k : FrameKind}

theorem read_eq_readFrame (k : FrameKind) : k.read = readFrame k.fields := by
  cases k with
  | request => exact readRequestFrame_eq
  | response => rfl

theorem written_eq_map (f : k.Frame) : k.written f =
    (k.body f).map fun body => putInt32 (Int32.ofNat body.length) ++ body := by
  cases k with
  | request => exact snd_writeFrame (RequestFrame.body f) fun _ => rfl
  | response => exact snd_writeFrame (ResponseFrame.body f) fun _ => rfl

theorem written_eq_ok {f : k.Frame} {word : Bytes} (h : k.written f = .ok word) :
    ∃ body, k.body f = .ok body ∧ word = putInt32 (Int32.ofNat body.length) ++ body := by
  rw [written_eq_map] at h
  cases hbody : k.body f with
  | error e => rw [hbody] at h; cases h
  | ok body => rw [hbody] at h; cases h; exact ⟨body, rfl, rfl⟩

theorem readsAs_fields {f : k.Frame} {body : Bytes} (hbody : k.body f = .ok body)
    (hlength : body.length ≤ maxFrameSize) (size : Int32) :
    ReadsAs (k.fields size) body (k.sent f size) := by
  cases k with
  | request =>
    have hlen := (RequestFrame.length_body hbody).1
    rw [maxFrameSize] at hlength
    exact RequestFrame.carries_fields size (by rw [maxBytesLength]; omega) body hbody
  | response =>
    have hlen := (ResponseFrame.length_body hbody).1
    rw [maxFrameSize] at hlength
    exact ResponseFrame.carries_fields size (by rw [maxBytesLength]; omega) body hbody

theorem length_body_lt {f : k.Frame} {body : Bytes} (hbody : k.body f = .ok body) :
    body.length < 4294967296 := by
  cases k with
  | request =>
    obtain ⟨hlength, hclient, hpayload⟩ := RequestFrame.length_body hbody
    rw [maxInt16] at hclient
    rw [maxInt32] at hpayload
    omega
  | response =>
    obtain ⟨hlength, hpayload⟩ := ResponseFrame.length_body hbody
    rw [maxInt32] at hpayload
    omega

theorem size_sent (f : k.Frame) (size : Int32) : k.size (k.sent f size) = size := by
  cases k <;> rfl

theorem carries_written {f : k.Frame} (hfits : k.bodyLength f ≤ maxFrameSize) :
    Carries (k.written f) k.read (k.received f) := by
  intro word hword
  obtain ⟨body, hbody, rfl⟩ := written_eq_ok hword
  have hlength : k.bodyLength f = body.length := by
    rw [bodyLength, hbody]
    rfl
  rw [hlength] at hfits
  rw [received, hlength, read_eq_readFrame]
  exact readsAs_readFrame hfits (readsAs_fields hbody hfits)

theorem readsAs_written {f : k.Frame} {n : Nat} (hbody : Encodes (k.body f) n)
    (hn : n ≤ maxFrameSize) :
    ∃ word, k.written f = .ok word ∧ ReadsAs k.read word (k.received f) := by
  obtain ⟨body, hbody, rfl⟩ := hbody
  have hwritten : k.written f = .ok (putInt32 (Int32.ofNat body.length) ++ body) := by
    rw [written_eq_map, hbody]
    rfl
  refine ⟨_, hwritten, carries_written ?_ _ hwritten⟩
  rw [bodyLength, hbody]
  exact hn

theorem read_tooLarge {f : k.Frame} {word : Bytes} (hword : k.written f = .ok word)
    (hlarge : maxFrameSize < k.bodyLength f) (rest : Bytes) :
    k.read (word ++ rest) = .error .frameTooLarge := by
  obtain ⟨body, hbody, rfl⟩ := written_eq_ok hword
  rw [bodyLength, hbody] at hlarge
  rw [read_eq_readFrame]
  exact readFrame_tooLarge hlarge (length_body_lt hbody) rest

theorem read_nil (k : FrameKind) : k.read [] = .error (.wire .eof) := by
  cases k <;> rfl

end FrameKind

section Limit

variable {f : RequestFrame} {body : Bytes} {limit : Nat}

theorem readsAs_withLimit (hbody : f.body = .ok body) (hlimit : limit ≤ maxFrameSize)
    (hle : body.length ≤ limit) :
    ReadsAs (readRequestFrameWithLimit (Int32.ofNat limit))
      (putInt32 (Int32.ofNat body.length) ++ body)
      (FrameKind.request.sent f (Int32.ofNat body.length)) := by
  have hlength := hle.trans hlimit
  have hwithin : ¬ Int32.ofNat limit < Int32.ofNat body.length := by
    rw [maxFrameSize] at hlimit
    rw [Int32.lt_iff_toInt_lt, toInt_ofNat32 (by rw [maxInt32]; omega),
      toInt_ofNat32 (by rw [maxInt32]; omega)]
    omega
  apply ((readsAs_int32 _).mapError FrameError.wire).bind
  rw [not_tooLarge hlength, if_neg Bool.false_ne_true, if_neg fun h => hwithin h.2,
    toNat_size hlength]
  exact readsAs_limited (FrameKind.readsAs_fields (k := .request) hbody hlength _)

theorem withLimit_tooLarge (hbody : f.body = .ok body) (hpos : 0 < limit)
    (hlimit : limit ≤ maxFrameSize) (hlt : limit < body.length) (rest : Bytes) :
    ∃ e, readRequestFrameWithLimit (Int32.ofNat limit)
      (putInt32 (Int32.ofNat body.length) ++ body ++ rest) = .error e := by
  rw [readRequestFrameWithLimit, List.append_assoc,
    bind_ok (((readsAs_int32 _).mapError FrameError.wire).reads _)]
  by_cases hlarge : maxFrameSize < body.length
  · rw [if_pos (tooLarge_of_lt hlarge (FrameKind.length_body_lt (k := .request) hbody))]
    exact ⟨_, rfl⟩
  · rw [not_lt] at hlarge
    have hover : 0 < Int32.ofNat limit ∧ Int32.ofNat limit < Int32.ofNat body.length := by
      rw [maxFrameSize] at hlimit hlarge
      rw [Int32.lt_iff_toInt_lt, Int32.lt_iff_toInt_lt, toInt_ofNat32 (by rw [maxInt32]; omega),
        toInt_ofNat32 (by rw [maxInt32]; omega), Int32.toInt_zero]
      omega
    rw [not_tooLarge hlarge, if_neg Bool.false_ne_true, if_pos hover]
    cases hdrain : drain (Int32.ofNat body.length).toNatClampNeg (body ++ rest) with
    | error e => exact ⟨e, bind_error hdrain⟩
    | ok drained => exact ⟨.frameTooLarge, bind_ok hdrain⟩

end Limit

/-- Frames written one after the other are read one after the other, with the
lengths of their bodies as sizes, and nothing of what follows is taken; a frame
whose body is too large is refused, also where its size has wrapped. -/
theorem frames_streamed (k : FrameKind) (frames : List k.Frame) (stream : Bytes)
    (hfits : ∀ f ∈ frames, k.bodyLength f ≤ maxFrameSize)
    (hstream : inOrder (frames.map k.written) = .ok stream) :
    (∀ rest, readMany k.read frames.length (stream ++ rest) =
        .ok (frames.map k.received, rest)) ∧
      k.read [] = .error (.wire .eof) ∧
      (∀ f ∈ frames, (k.size (k.received f)).toInt = k.bodyLength f) ∧
      ∀ f word, k.written f = .ok word → maxFrameSize < k.bodyLength f →
        ∀ rest, k.read (word ++ rest) = .error .frameTooLarge := by
  have hmany := carries_many fun f hf => FrameKind.carries_written (hfits f hf)
  refine ⟨(hmany stream hstream).reads, k.read_nil, ?_,
    fun f word hword hlarge => FrameKind.read_tooLarge hword hlarge⟩
  intro f hf
  have hle := hfits f hf
  rw [maxFrameSize] at hle
  rw [FrameKind.received, FrameKind.size_sent]
  exact toInt_ofNat32 (by rw [maxInt32]; omega)

def pipelined : List RequestFrame :=
  [⟨0, 12, 1, 7, [99], none⟩, ⟨0, 6, 1, 8, [99], some [1, 2]⟩]

theorem frames_streamed_pipelined :
    ∃ stream, inOrder (pipelined.map FrameKind.request.written) = .ok stream ∧
      ∀ rest, readMany readRequestFrame 2 (stream ++ rest) =
        .ok ([⟨15, 12, 1, 7, [99], some []⟩, ⟨17, 6, 1, 8, [99], some [1, 2]⟩], rest) := by
  have hfits : ∀ f ∈ pipelined, (f.body.toOption.getD []).length ≤ maxFrameSize := by decide
  exact ⟨_, rfl, (frames_streamed .request pipelined _ hfits rfl).1⟩

end MiniKafka.Frames
