import MiniKafka.ReadLoop

/-!
The record format of `internal/storage/record.go`.

A record is written as one length-prefixed image and read back field by field.
The checksum is a parameter throughout; `castagnoli` is the function the
source fixes it to.
-/

namespace MiniKafka.RecordCodec

open BigEndian ReadLoop

abbrev Checksum := Bytes → UInt32

def castagnoliByte (c : UInt32) (b : UInt8) : UInt32 :=
  (List.range 8).foldl
    (fun c _ => if c &&& 1 = 1 then (c >>> 1) ^^^ 0x82F63B78 else c >>> 1)
    (c ^^^ b.toUInt32)

def castagnoli : Checksum := fun bs =>
  (bs.foldl castagnoliByte 0xFFFFFFFF) ^^^ 0xFFFFFFFF

def maxRecordSize : Nat := 1048576

def nullLength : Int32 := -1

/-- A record of a partition log.  A key or value that is `none` is absent,
which the format keeps apart from an empty one. -/
structure Record where
  offset : Int64
  timestamp : Int64
  attributes : Int8
  key : Option Bytes
  value : Option Bytes
  deriving DecidableEq, Repr

inductive EncodeError where
  | recordTooLarge
  deriving DecidableEq, Repr

inductive DecodeError where
  | eof
  | unexpectedEOF
  | corruptRecord
  | recordTooLarge
  deriving DecidableEq, Repr

/-- The errors a reader treats as the end of the written data. -/
def DecodeError.isEnd : DecodeError → Bool
  | .eof => true
  | .unexpectedEOF => true
  | .corruptRecord => false
  | .recordTooLarge => false

def payloadLength (p : Option Bytes) : Nat := (p.map List.length).getD 0

def Record.encodedSize (r : Record) : Nat :=
  4 + 8 + 8 + 4 + 1 + 4 + payloadLength r.key + 4 + payloadLength r.value

/-- A length word followed by the payload; the length of an absent payload is
the two's complement image of `nullLength`. -/
def encodeField : Option Bytes → Bytes
  | none => putUint32 0xFFFFFFFF
  | some p => putUint32 (UInt32.ofNat p.length) ++ p

/-- The bytes the checksum covers: attributes through value. -/
def Record.body (r : Record) : Bytes :=
  r.attributes.toUInt8 :: (encodeField r.key ++ encodeField r.value)

def Record.payload (crc : Checksum) (r : Record) : Bytes :=
  putUint64 r.offset.toUInt64 ++ (putUint64 r.timestamp.toUInt64 ++
    (putUint32 (crc r.body) ++ r.body))

def Record.wireImage (crc : Checksum) (r : Record) : Bytes :=
  putUint32 (UInt32.ofNat (r.encodedSize - 4)) ++ r.payload crc

def Record.encode (crc : Checksum) (r : Record) : Except EncodeError Bytes :=
  if maxRecordSize < r.encodedSize then .error .recordTooLarge
  else .ok (r.wireImage crc)

/-- `io.ReadFull`: end of stream counts as unexpected once a byte was read. -/
def readFull (n : Nat) (bs : Bytes) : Except DecodeError Bytes :=
  if n ≤ bs.length then .ok (bs.take n)
  else if bs = [] then .error .eof
  else .error .unexpectedEOF

def decodeField (bs : Bytes) : Except DecodeError (Option Bytes × Bytes) :=
  if bs.length < 4 then .error .unexpectedEOF
  else
    let length := (getUint32 (bs.take 4)).toInt32
    let rest := bs.drop 4
    if length = nullLength then .ok (none, rest)
    else if length < 0 then .error .corruptRecord
    else if rest.length < length.toNatClampNeg then .error .unexpectedEOF
    else .ok (some (rest.take length.toNatClampNeg), rest.drop length.toNatClampNeg)

def minPayload : Nat := 8 + 8 + 4 + 1 + 4 + 4

def decodePayload (crc : Checksum) (payload : Bytes) : Except DecodeError Record :=
  if payload.length < minPayload then .error .unexpectedEOF
  else
    let offset := (getUint64 (payload.take 8)).toInt64
    let timestamp := (getUint64 ((payload.drop 8).take 8)).toInt64
    let checksum := getUint32 ((payload.drop 16).take 4)
    let covered := payload.drop 20
    if crc covered ≠ checksum then .error .corruptRecord
    else
      let attributes := (covered.headD 0).toInt8
      match decodeField (covered.drop 1) with
      | .error e => .error e
      | .ok (key, rest) =>
        match decodeField rest with
        | .error e => .error e
        | .ok (value, _) => .ok ⟨offset, timestamp, attributes, key, value⟩

/-- `DecodeRecord`: the record at the front of the stream and the number of
bytes it occupies. -/
def decodeRecord (crc : Checksum) (bs : Bytes) : Except DecodeError (Record × Nat) :=
  match readFull 4 bs with
  | .error e => .error e
  | .ok lenBuf =>
    let length := (getUint32 lenBuf).toInt32
    if length < 0 then .error .corruptRecord
    else if (maxRecordSize : Int) < length.toInt then .error .recordTooLarge
    else
      match readFull length.toNatClampNeg (bs.drop 4) with
      | .error e => .error e
      | .ok payload =>
        match decodePayload crc payload with
        | .error e => .error e
        | .ok r => .ok (r, 4 + payload.length)

@[simp] theorem length_encodeField (p : Option Bytes) :
    (encodeField p).length = 4 + payloadLength p := by
  cases p with
  | none => simp [encodeField, payloadLength]
  | some p => simp [encodeField, payloadLength]

theorem length_body (r : Record) :
    r.body.length = 1 + 4 + payloadLength r.key + 4 + payloadLength r.value := by
  simp only [Record.body, List.length_cons, List.length_append, length_encodeField]
  omega

theorem length_payload (crc : Checksum) (r : Record) :
    (r.payload crc).length = r.encodedSize - 4 := by
  simp only [Record.payload, List.length_append, length_putUint64, length_putUint32,
    length_body, Record.encodedSize]
  omega

@[simp] theorem length_wireImage (crc : Checksum) (r : Record) :
    (r.wireImage crc).length = r.encodedSize := by
  rw [Record.wireImage, List.length_append, length_putUint32, length_payload]
  simp only [Record.encodedSize]
  omega

theorem encodedSize_ge (r : Record) : 33 ≤ r.encodedSize := by
  simp only [Record.encodedSize]
  omega

theorem encode_eq_ok_iff (crc : Checksum) (r : Record) (bs : Bytes) :
    r.encode crc = .ok bs ↔ r.encodedSize ≤ maxRecordSize ∧ bs = r.wireImage crc := by
  rw [Record.encode]
  by_cases h : maxRecordSize < r.encodedSize
  · rw [if_pos h]
    simp [Nat.not_le.mpr h]
  · rw [if_neg h]
    simp [Nat.not_lt.mp h, eq_comm]

theorem toInt32_toInt_of_lt {n : Nat} (h : n < 2 ^ 31) :
    (UInt32.ofNat n).toInt32.toInt = n := by
  rw [UInt32.toInt32_ofNat', Int32.toInt_ofNat_of_lt h]

theorem toInt32_toNatClampNeg_of_lt {n : Nat} (h : n < 2 ^ 31) :
    (UInt32.ofNat n).toInt32.toNatClampNeg = n := by
  rw [Int32.toNatClampNeg, toInt32_toInt_of_lt h, Int.toNat_natCast]

theorem toInt32_nonneg_of_lt {n : Nat} (h : n < 2 ^ 31) :
    ¬ (UInt32.ofNat n).toInt32 < 0 := by
  rw [Int32.lt_iff_toInt_lt, toInt32_toInt_of_lt h, Int32.toInt_zero]
  omega

theorem toInt32_ne_nullLength_of_lt {n : Nat} (h : n < 2 ^ 31) :
    (UInt32.ofNat n).toInt32 ≠ nullLength := by
  intro heq
  have hint := congrArg Int32.toInt heq
  rw [toInt32_toInt_of_lt h] at hint
  have hnull : nullLength.toInt = -1 := rfl
  omega

theorem decodeField_encodeField (p : Option Bytes) (rest : Bytes)
    (h : payloadLength p < 2 ^ 31) :
    decodeField (encodeField p ++ rest) = .ok (p, rest) := by
  have hlong : ¬ (encodeField p ++ rest).length < 4 := by
    rw [List.length_append, length_encodeField]
    omega
  rw [decodeField, if_neg hlong]
  cases p with
  | none =>
    have htake : ((encodeField none) ++ rest).take 4 = putUint32 0xFFFFFFFF :=
      List.take_left' (by simp [payloadLength])
    have hdrop : ((encodeField none) ++ rest).drop 4 = rest :=
      List.drop_left' (by simp [payloadLength])
    have hnull : (0xFFFFFFFF : UInt32).toInt32 = nullLength := by decide
    simp only [htake, hdrop, getUint32_putUint32, hnull, if_true]
  | some p =>
    have hp : p.length < 2 ^ 31 := h
    have htake : ((encodeField (some p)) ++ rest).take 4 =
        putUint32 (UInt32.ofNat p.length) := by
      rw [encodeField, List.append_assoc]
      exact List.take_left' (by simp)
    have hdrop : ((encodeField (some p)) ++ rest).drop 4 = p ++ rest := by
      rw [encodeField, List.append_assoc]
      exact List.drop_left' (by simp)
    have hroom : ¬ (p ++ rest).length < p.length := by
      rw [List.length_append]
      omega
    simp only [htake, hdrop, getUint32_putUint32]
    rw [if_neg (toInt32_ne_nullLength_of_lt hp), if_neg (toInt32_nonneg_of_lt hp),
      toInt32_toNatClampNeg_of_lt hp, if_neg hroom, List.take_left, List.drop_left]

theorem decodePayload_payload (crc : Checksum) (r : Record)
    (h : r.encodedSize ≤ 4 + maxRecordSize) :
    decodePayload crc (r.payload crc) = .ok r := by
  have hlong : ¬ (r.payload crc).length < minPayload := by
    rw [length_payload]
    simp only [Record.encodedSize, minPayload]
    omega
  have hkey : payloadLength r.key < 2 ^ 31 := by
    simp only [Record.encodedSize, maxRecordSize] at h
    omega
  have hvalue : payloadLength r.value < 2 ^ 31 := by
    simp only [Record.encodedSize, maxRecordSize] at h
    omega
  have hoffset : (r.payload crc).take 8 = putUint64 r.offset.toUInt64 :=
    List.take_left' (by simp)
  have hdrop8 : (r.payload crc).drop 8 =
      putUint64 r.timestamp.toUInt64 ++ (putUint32 (crc r.body) ++ r.body) :=
    List.drop_left' (by simp)
  have htime : ((r.payload crc).drop 8).take 8 = putUint64 r.timestamp.toUInt64 := by
    rw [hdrop8]
    exact List.take_left' (by simp)
  have hdrop16 : (r.payload crc).drop 16 = putUint32 (crc r.body) ++ r.body := by
    rw [show 16 = 8 + 8 from rfl, ← List.drop_drop, hdrop8]
    exact List.drop_left' (by simp)
  have hsum : ((r.payload crc).drop 16).take 4 = putUint32 (crc r.body) := by
    rw [hdrop16]
    exact List.take_left' (by simp)
  have hdrop20 : (r.payload crc).drop 20 = r.body := by
    rw [show 20 = 16 + 4 from rfl, ← List.drop_drop, hdrop16]
    exact List.drop_left' (by simp)
  rw [decodePayload, if_neg hlong]
  simp only [hoffset, htime, hsum, hdrop20, getUint64_putUint64, getUint32_putUint32,
    ne_eq, not_true_eq_false, if_false]
  simp only [Record.body, List.headD_cons, List.drop_succ_cons, List.drop_zero]
  rw [decodeField_encodeField r.key _ hkey]
  dsimp only
  rw [show encodeField r.value = encodeField r.value ++ [] from (List.append_nil _).symm,
    decodeField_encodeField r.value [] hvalue]
  simp

theorem decodeRecord_wireImage_of_le (crc : Checksum) (r : Record) (rest : Bytes)
    (h : r.encodedSize ≤ 4 + maxRecordSize) :
    decodeRecord crc (r.wireImage crc ++ rest) = .ok (r, r.encodedSize) := by
  have hsmall : r.encodedSize - 4 < 2 ^ 31 := by
    simp only [maxRecordSize] at h
    omega
  have hge := encodedSize_ge r
  have htake : (r.wireImage crc ++ rest).take 4 =
      putUint32 (UInt32.ofNat (r.encodedSize - 4)) := by
    rw [Record.wireImage, List.append_assoc]
    exact List.take_left' (by simp)
  have hdrop : (r.wireImage crc ++ rest).drop 4 = r.payload crc ++ rest := by
    rw [Record.wireImage, List.append_assoc]
    exact List.drop_left' (by simp)
  have hlen : readFull 4 (r.wireImage crc ++ rest) =
      .ok (putUint32 (UInt32.ofNat (r.encodedSize - 4))) := by
    rw [readFull, if_pos (by rw [List.length_append, length_wireImage]; omega), htake]
  have hpay : readFull (r.encodedSize - 4) (r.payload crc ++ rest) = .ok (r.payload crc) := by
    rw [readFull, if_pos (by rw [List.length_append, length_payload]; omega),
      List.take_left' (length_payload crc r)]
  rw [decodeRecord, hlen]
  simp only [getUint32_putUint32]
  rw [if_neg (toInt32_nonneg_of_lt hsmall), toInt32_toInt_of_lt hsmall,
    if_neg (by omega), toInt32_toNatClampNeg_of_lt hsmall, hdrop, hpay]
  simp only [decodePayload_payload crc r h, length_payload]
  congr 2
  omega

theorem decodeRecord_wireImage_append (crc : Checksum) (r : Record) (rest : Bytes)
    (h : r.encodedSize ≤ maxRecordSize) :
    decodeRecord crc (r.wireImage crc ++ rest) = .ok (r, r.encodedSize) :=
  decodeRecord_wireImage_of_le crc r rest (by omega)

theorem readFull_eq_ok_iff (n : Nat) (bs p : Bytes) :
    readFull n bs = .ok p ↔ n ≤ bs.length ∧ p = bs.take n := by
  rw [readFull]
  split
  · rename_i hle
    simp only [Except.ok.injEq, hle, true_and]
    exact eq_comm
  · rename_i hlt
    split <;> simp [hlt]

/-- What an accepted record looks like: a length word within the limit and a
payload of that length which decodes. -/
theorem decodeRecord_eq_ok_iff (crc : Checksum) (bs : Bytes) (r : Record) (n : Nat) :
    decodeRecord crc bs = .ok (r, n) ↔
      4 ≤ n ∧ n ≤ bs.length ∧ n ≤ 4 + maxRecordSize ∧
        (getUint32 (bs.take 4)).toInt32.toInt = ((n - 4 : Nat) : Int) ∧
        decodePayload crc ((bs.drop 4).take (n - 4)) = .ok r := by
  constructor
  · intro h
    rw [decodeRecord] at h
    split at h
    · simp at h
    · rename_i lenBuf hread
      obtain ⟨hfour, rfl⟩ := (readFull_eq_ok_iff 4 bs lenBuf).mp hread
      dsimp only at h
      split at h
      · simp at h
      · rename_i hneg
        split at h
        · simp at h
        · rename_i hsmall
          split at h
          · simp at h
          · rename_i payload hpayload
            obtain ⟨hroom, rfl⟩ := (readFull_eq_ok_iff _ _ _).mp hpayload
            rw [List.length_drop] at hroom
            split at h
            · simp at h
            · rename_i r' hdec
              simp only [Except.ok.injEq, Prod.mk.injEq] at h
              obtain ⟨rfl, rfl⟩ := h
              rw [Int32.lt_iff_toInt_lt, Int32.toInt_zero] at hneg
              have hlen : ((bs.drop 4).take
                  (getUint32 (bs.take 4)).toInt32.toNatClampNeg).length =
                  (getUint32 (bs.take 4)).toInt32.toNatClampNeg := by
                rw [List.length_take, List.length_drop]
                omega
              rw [hlen, Nat.add_sub_cancel_left]
              refine ⟨by omega, by omega, ?_, ?_, hdec⟩
              · rw [Int32.toNatClampNeg]
                omega
              · rw [Int32.toNatClampNeg]
                omega
  · rintro ⟨hfour, hle, hmax, hlen, hdec⟩
    have hclamp : (getUint32 (bs.take 4)).toInt32.toNatClampNeg = n - 4 := by
      rw [Int32.toNatClampNeg, hlen, Int.toNat_natCast]
    have hneg : ¬ (getUint32 (bs.take 4)).toInt32 < 0 := by
      rw [Int32.lt_iff_toInt_lt, Int32.toInt_zero]
      omega
    rw [decodeRecord, (readFull_eq_ok_iff 4 bs _).mpr ⟨by omega, rfl⟩]
    dsimp only
    rw [if_neg hneg, if_neg (by omega), hclamp,
      (readFull_eq_ok_iff (n - 4) (bs.drop 4) _).mpr ⟨by rw [List.length_drop]; omega, rfl⟩]
    dsimp only
    rw [hdec]
    dsimp only
    rw [List.length_take, List.length_drop, Nat.min_eq_left (by omega),
      Nat.add_sub_cancel' hfour]

theorem decodeRecord_progressive (crc : Checksum) : Progressive (decodeRecord crc) := by
  intro bs r n h
  obtain ⟨hfour, hle, -⟩ := (decodeRecord_eq_ok_iff crc bs r n).mp h
  exact ⟨by omega, hle⟩

theorem decodeRecord_selfContained (crc : Checksum) : SelfContained (decodeRecord crc) := by
  intro bs r n h rest
  rw [decodeRecord_eq_ok_iff] at h ⊢
  obtain ⟨hfour, hle, hmax, hlen, hdec⟩ := h
  have hword : (bs.take n ++ rest).take 4 = bs.take 4 := by
    rw [List.take_append_of_le_length (by simp; omega), List.take_take, Nat.min_eq_left hfour]
  have hpayload : ((bs.take n ++ rest).drop 4).take (n - 4) = (bs.drop 4).take (n - 4) := by
    rw [List.drop_append_of_le_length (by simp; omega), List.drop_take,
      List.take_append_of_le_length (by simp; omega), List.take_take, Nat.min_self]
  refine ⟨hfour, by simp; omega, hmax, ?_, ?_⟩
  · rw [hword, hlen]
  · rw [hpayload, hdec]

theorem readFull_of_short {n : Nat} {bs : Bytes} (h : bs.length < n) :
    readFull n bs = .error .eof ∨ readFull n bs = .error .unexpectedEOF := by
  rw [readFull, if_neg (by omega)]
  by_cases hnil : bs = []
  · exact .inl (if_pos hnil)
  · exact .inr (if_neg hnil)

theorem readFull_eq_eof_iff (n : Nat) (bs : Bytes) :
    readFull n bs = .error .eof ↔ bs = [] ∧ 0 < n := by
  rw [readFull]
  split
  · rename_i hle
    simp only [reduceCtorEq, false_iff, not_and]
    rintro rfl
    simpa using hle
  · rename_i hlt
    split
    · rename_i hnil
      simp only [true_iff]
      exact ⟨hnil, by omega⟩
    · rename_i hne
      simp [hne]

theorem decodeField_ne_eof (bs : Bytes) : decodeField bs ≠ .error .eof := by
  rw [decodeField]
  dsimp only
  split_ifs <;> simp

theorem decodePayload_ne_eof (crc : Checksum) (payload : Bytes) :
    decodePayload crc payload ≠ .error .eof := by
  rw [decodePayload]
  dsimp only
  split_ifs
  · simp
  · simp
  · split
    · rename_i e hkey
      intro heq
      cases heq
      exact decodeField_ne_eof _ hkey
    · split
      · rename_i e hvalue
        intro heq
        cases heq
        exact decodeField_ne_eof _ hvalue
      · simp

def LengthWord (bs : Bytes) : Prop :=
  bs.length = 4 ∧ 0 < (getUint32 bs).toInt32 ∧ (getUint32 bs).toInt32.toInt ≤ maxRecordSize

instance (bs : Bytes) : Decidable (LengthWord bs) :=
  inferInstanceAs (Decidable (_ ∧ _))

theorem decodeRecord_eq_eof_iff (crc : Checksum) (bs : Bytes) :
    decodeRecord crc bs = .error .eof ↔ bs = [] ∨ LengthWord bs := by
  constructor
  · intro h
    rw [decodeRecord] at h
    split at h
    · rename_i hread
      cases h
      exact .inl ((readFull_eq_eof_iff 4 bs).mp hread).1
    · rename_i lenBuf hread
      obtain ⟨hfour, rfl⟩ := (readFull_eq_ok_iff 4 bs lenBuf).mp hread
      dsimp only at h
      split at h
      · simp at h
      split at h
      · simp at h
      · rename_i hsmall
        split at h
        · rename_i hpayload
          cases h
          obtain ⟨hrest, hpos⟩ := (readFull_eq_eof_iff _ _).mp hpayload
          have hlength : bs.length = 4 := by
            have := congrArg List.length hrest
            simp only [List.length_drop, List.length_nil] at this
            omega
          rw [List.take_of_length_le hlength.le] at hpos hsmall
          refine .inr ⟨hlength, ?_, not_lt.mp hsmall⟩
          rw [Int32.toNatClampNeg] at hpos
          rw [Int32.lt_iff_toInt_lt, Int32.toInt_zero]
          omega
        · split at h
          · rename_i hdec
            cases h
            exact absurd hdec (decodePayload_ne_eof crc _)
          · simp at h
  · rintro (rfl | ⟨hlength, hpos, hsmall⟩)
    · rfl
    · have hnonneg : ¬ (getUint32 bs).toInt32 < 0 := by
        rw [Int32.lt_iff_toInt_lt, Int32.toInt_zero] at hpos ⊢
        omega
      have hpayload : readFull (getUint32 bs).toInt32.toNatClampNeg (bs.drop 4) =
          .error .eof := by
        rw [readFull_eq_eof_iff, List.drop_eq_nil_iff, Int32.toNatClampNeg]
        rw [Int32.lt_iff_toInt_lt, Int32.toInt_zero] at hpos
        omega
      rw [decodeRecord, (readFull_eq_ok_iff 4 bs bs).mpr
        ⟨hlength.ge, (List.take_of_length_le hlength.le).symm⟩]
      dsimp only
      rw [if_neg hnonneg, if_neg (not_lt.mpr hsmall), hpayload]

/-- No strict prefix of a wire image decodes: the stream ends inside the
length word or inside the payload it announces. -/
theorem decodeRecord_strictPrefix (crc : Checksum) (r : Record) (t : Bytes)
    (hr : r.encodedSize ≤ maxRecordSize) (hinitial : t <+: r.wireImage crc)
    (hne : t ≠ r.wireImage crc) :
    decodeRecord crc t = .error .eof ∨ decodeRecord crc t = .error .unexpectedEOF := by
  have hlt : t.length < r.encodedSize := by
    rw [← length_wireImage crc r]
    exact lt_of_le_of_ne hinitial.length_le fun h => hne (hinitial.eq_of_length h)
  have hsmall : r.encodedSize - 4 < 2 ^ 31 := by
    simp only [maxRecordSize] at hr
    omega
  rw [decodeRecord]
  by_cases hshort : t.length < 4
  · rcases readFull_of_short hshort with h | h <;> simp [h]
  · have htake : t.take 4 = putUint32 (UInt32.ofNat (r.encodedSize - 4)) := by
      obtain ⟨missing, hmissing⟩ := hinitial
      have hfront : (t ++ missing).take 4 = t.take 4 :=
        List.take_append_of_le_length (by omega)
      rw [← hfront, hmissing, Record.wireImage]
      exact List.take_left' (by simp)
    have hlen : readFull 4 t = .ok (putUint32 (UInt32.ofNat (r.encodedSize - 4))) := by
      rw [readFull, if_pos (by omega), htake]
    have hrest : (t.drop 4).length < r.encodedSize - 4 := by
      rw [List.length_drop]
      omega
    rw [hlen]
    simp only [getUint32_putUint32]
    rw [if_neg (toInt32_nonneg_of_lt hsmall), toInt32_toInt_of_lt hsmall,
      if_neg (by omega), toInt32_toNatClampNeg_of_lt hsmall]
    rcases readFull_of_short hrest with h | h <;> simp [h]

end MiniKafka.RecordCodec
