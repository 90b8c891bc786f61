import MiniKafka.RecordCodec

/-!
`Record.Encode` into a writer and `DecodeRecord` from a reader.

What is written is read back.  The reader takes more than is ever written: it
bounds the length word where the writer bounds the whole record, and it does not
look at what follows the value.
-/

namespace MiniKafka.RecordStreams

open BigEndian RecordCodec

/-- `Encode`: what the writer holds afterwards, and the count or the error that
is returned. -/
def encodeTo (crc : Checksum) (r : Record) (written : Bytes) : Bytes × Except EncodeError Nat :=
  match r.encode crc with
  | .error e => (written, .error e)
  | .ok buf => (written ++ buf, .ok buf.length)

/-- `DecodeRecord`: the record or the error, the number of bytes reported with it,
and what the reader has left.  A read that fails has taken all there was. -/
def decodeFrom (crc : Checksum) (bs : Bytes) : Except DecodeError Record × Nat × Bytes :=
  match readFull 4 bs with
  | .error e => (.error e, 0, bs.drop 4)
  | .ok lenBuf =>
    let length := (getUint32 lenBuf).toInt32
    if length < 0 then (.error .corruptRecord, 4, bs.drop 4)
    else if (maxRecordSize : Int) < length.toInt then (.error .recordTooLarge, 4, bs.drop 4)
    else
      let left := (bs.drop 4).drop length.toNatClampNeg
      match readFull length.toNatClampNeg (bs.drop 4) with
      | .error e => (.error e, 4, left)
      | .ok payload => (decodePayload crc payload, 4 + payload.length, left)

theorem decodeRecord_eq_map (crc : Checksum) (bs : Bytes) :
    decodeRecord crc bs =
      (decodeFrom crc bs).1.map fun r => (r, (decodeFrom crc bs).2.1) := by
  rw [decodeRecord, decodeFrom]
  cases readFull 4 bs with
  | error e => rfl
  | ok lenBuf =>
    dsimp only
    split_ifs
    · rfl
    · rfl
    · cases readFull (getUint32 lenBuf).toInt32.toNatClampNeg (bs.drop 4) with
      | error e => rfl
      | ok payload =>
        dsimp only
        cases decodePayload crc payload with
        | error e => rfl
        | ok r => rfl

theorem left_of_decodeFrom {crc : Checksum} {bs left : Bytes} {r : Record} {n : Nat}
    (h : decodeFrom crc bs = (.ok r, n, left)) : left = bs.drop n := by
  rw [decodeFrom] at h
  split at h
  · cases h
  · dsimp only at h
    split_ifs at h
    · cases h
    · cases h
    · split at h
      · cases h
      · rename_i payload hpayload
        obtain ⟨hle, rfl⟩ := (readFull_eq_ok_iff _ _ _).mp hpayload
        simp only [Prod.mk.injEq, List.length_take, Nat.min_eq_left hle] at h
        rw [← h.2.1, ← h.2.2, List.drop_drop]

theorem decodeFrom_eq_ok_iff {crc : Checksum} {bs left : Bytes} {r : Record} {n : Nat} :
    decodeFrom crc bs = (.ok r, n, left) ↔
      decodeRecord crc bs = .ok (r, n) ∧ left = bs.drop n := by
  rw [decodeRecord_eq_map]
  constructor
  · intro h
    refine ⟨?_, left_of_decodeFrom h⟩
    rw [h]
    rfl
  · rintro ⟨hdecode, rfl⟩
    generalize hfrom : decodeFrom crc bs = read at hdecode
    rcases read with ⟨_ | r', n', left⟩
    · cases hdecode
    · cases hdecode
      rw [left_of_decodeFrom hfrom]

section

variable {crc : Checksum} {r : Record} {s : Bytes}

theorem encodeTo_of_le (h : r.encodedSize ≤ maxRecordSize) (written : Bytes) :
    encodeTo crc r written = (written ++ r.wireImage crc, .ok r.encodedSize) := by
  rw [encodeTo, (encode_eq_ok_iff crc r _).mpr ⟨h, rfl⟩]
  exact congrArg _ (congrArg _ (length_wireImage crc r))

theorem encodeTo_of_lt (h : maxRecordSize < r.encodedSize) (written : Bytes) :
    encodeTo crc r written = (written, .error .recordTooLarge) := by
  rw [encodeTo, Record.encode, if_pos h]

theorem decodeFrom_wireImage (h : r.encodedSize ≤ 4 + maxRecordSize) :
    decodeFrom crc (r.wireImage crc ++ s) = (.ok r, r.encodedSize, s) := by
  rw [decodeFrom_eq_ok_iff]
  constructor
  · exact decodeRecord_wireImage_of_le crc r s h
  · rw [List.drop_left' (length_wireImage crc r)]

end

/-- A record that is not too large is written and read back, with its size
reported and nothing taken of what follows; a larger one is not written. -/
theorem record_roundTrip (crc : Checksum) (r : Record) (written s : Bytes) :
    (r.encodedSize ≤ maxRecordSize → ∃ image,
        encodeTo crc r written = (written ++ image, .ok r.encodedSize) ∧
          decodeFrom crc (image ++ s) = (.ok r, r.encodedSize, s)) ∧
      (maxRecordSize < r.encodedSize →
        encodeTo crc r written = (written, .error .recordTooLarge)) := by
  constructor
  · intro h
    exact ⟨r.wireImage crc, encodeTo_of_le h written, decodeFrom_wireImage (by omega)⟩
  · intro h
    exact encodeTo_of_lt h written

/-- An absent key and an empty value. -/
theorem record_roundTrip_emptyValue :
    ∃ image, encodeTo castagnoli ⟨-1, 1000, -1, none, some []⟩ [7] = ([7] ++ image, .ok 33) ∧
      decodeFrom castagnoli (image ++ [8, 9]) = (.ok ⟨-1, 1000, -1, none, some []⟩, 33, [8, 9]) :=
  (record_roundTrip castagnoli ⟨-1, 1000, -1, none, some []⟩ [7] [8, 9]).1 (by decide)

section

variable {crc : Checksum}

theorem eq_of_toInt32_eq {v w : UInt32} (h : v.toInt32 = w.toInt32) : v = w := by
  rw [← UInt32.toUInt32_toInt32 v, h, UInt32.toUInt32_toInt32]

theorem decodeField_eq_ok {bs left : Bytes} {p : Option Bytes}
    (h : decodeField bs = .ok (p, left)) : bs = encodeField p ++ left := by
  rw [decodeField] at h
  split at h
  · cases h
  · rename_i hlong
    have hword : putUint32 (getUint32 (bs.take 4)) = bs.take 4 :=
      putUint32_getUint32 (by rw [List.length_take]; omega)
    generalize getUint32 (bs.take 4) = word at h hword
    dsimp only at h
    split_ifs at h with hnull hneg hshort
    · cases h
      have hword' : word = 0xFFFFFFFF := eq_of_toInt32_eq hnull
      rw [encodeField, ← hword', hword, List.take_append_drop]
    · cases h
      have hnonneg : (0 : Int32) ≤ word.toInt32 := by
        rw [Int32.lt_iff_toInt_lt] at hneg
        rw [Int32.le_iff_toInt_le]
        omega
      have hnat : word.toNat = word.toInt32.toNatClampNeg := by
        rw [← Int32.toNat_toUInt32_of_le hnonneg, UInt32.toUInt32_toInt32]
      have hlength : ((bs.drop 4).take word.toInt32.toNatClampNeg).length = word.toNat := by
        rw [List.length_take, hnat]
        omega
      rw [encodeField, hlength, UInt32.ofNat_toNat, hword, List.append_assoc,
        List.take_append_drop, List.take_append_drop]

theorem decodePayload_eq_ok {payload : Bytes} {r : Record}
    (h : decodePayload crc payload = .ok r) :
    ∃ extra, payload = putUint64 r.offset.toUInt64 ++ (putUint64 r.timestamp.toUInt64 ++
      (putUint32 (crc (r.body ++ extra)) ++ (r.body ++ extra))) := by
  rw [decodePayload] at h
  split at h
  · cases h
  · rename_i hlong
    simp only [minPayload] at hlong
    dsimp only at h
    split at h
    · cases h
    · rename_i hsum
      split at h
      · cases h
      · rename_i key rest hkey
        split at h
        · cases h
        · rename_i value extra hvalue
          cases h
          refine ⟨extra, ?_⟩
          have hcovered : payload.drop 20 =
              ((payload.drop 20).headD 0).toInt8.toUInt8 ::
                (encodeField key ++ encodeField value) ++ extra := by
            obtain ⟨b, tail, hcons⟩ : ∃ b tail, payload.drop 20 = b :: tail :=
              List.exists_cons_of_length_pos (by rw [List.length_drop]; omega)
            rw [hcons] at hkey
            have htail : tail = encodeField key ++ (encodeField value ++ extra) := by
              rw [← decodeField_eq_ok hvalue]
              exact decodeField_eq_ok hkey
            rw [hcons, htail, List.headD_cons, UInt8.toUInt8_toInt8, List.cons_append,
              List.append_assoc]
          rw [Record.body, ← hcovered, not_not.mp hsum, UInt64.toUInt64_toInt64,
            UInt64.toUInt64_toInt64, putUint64_getUint64 (by rw [List.length_take]; omega),
            putUint64_getUint64 (by rw [List.length_take, List.length_drop]; omega),
            putUint32_getUint32 (by rw [List.length_take, List.length_drop]; omega),
            ← List.drop_drop (i := 4) (j := 16), List.take_append_drop,
            ← List.drop_drop (i := 8) (j := 8), List.take_append_drop, List.take_append_drop]

end

def declaredLength (bs : Bytes) : Nat := (getUint32 (bs.take 4)).toNat

def fieldSize (bs : Bytes) : Nat :=
  4 + if getUint32 (bs.take 4) = 0xFFFFFFFF then 0 else declaredLength bs

/-- The length word of the record counts itself within the limit, and it is the sum
of its fields. -/
structure Canonical (bs : Bytes) : Prop where
  within : 4 + declaredLength bs ≤ maxRecordSize
  filled : declaredLength bs =
    21 + fieldSize (bs.drop 25) + fieldSize (bs.drop (25 + fieldSize (bs.drop 25)))

theorem fieldSize_encodeField (p : Option Bytes) (rest : Bytes) (h : payloadLength p < 2 ^ 31) :
    fieldSize (encodeField p ++ rest) = 4 + payloadLength p := by
  cases p with
  | none =>
    rw [fieldSize, encodeField, List.take_left' (length_putUint32 _), getUint32_putUint32,
      if_pos rfl]
    rfl
  | some bytes =>
    have hsmall : bytes.length < 2 ^ 31 := h
    have hnat : (UInt32.ofNat bytes.length).toNat = bytes.length := by
      rw [UInt32.toNat_ofNat', Nat.mod_eq_of_lt (by omega)]
    have hne : UInt32.ofNat bytes.length ≠ 0xFFFFFFFF := by
      intro heq
      have hmax : bytes.length = 4294967295 := by
        rw [← hnat, heq]
        rfl
      omega
    rw [fieldSize, declaredLength, encodeField, List.append_assoc,
      List.take_left' (length_putUint32 _), getUint32_putUint32, if_neg hne, hnat]
    rfl

section

variable {crc : Checksum} {bs left : Bytes} {r : Record} {n : Nat}

/-- The layout of a stream whose front was read as a record. -/
theorem decodeFrom_layout (h : decodeFrom crc bs = (.ok r, n, left)) :
    ∃ extra, n = r.encodedSize + extra.length ∧ n ≤ 4 + maxRecordSize ∧
      bs = putUint32 (UInt32.ofNat (n - 4)) ++ (putUint64 r.offset.toUInt64 ++
        (putUint64 r.timestamp.toUInt64 ++ (putUint32 (crc (r.body ++ extra)) ++
          (r.body ++ extra)))) ++ left := by
  obtain ⟨hdecode, rfl⟩ := decodeFrom_eq_ok_iff.mp h
  obtain ⟨hfour, hle, hmax, hword, hpayload⟩ := (decodeRecord_eq_ok_iff crc bs r n).mp hdecode
  obtain ⟨extra, hextra⟩ := decodePayload_eq_ok hpayload
  refine ⟨extra, ?_, hmax, ?_⟩
  · have hlength := congrArg List.length hextra
    simp only [List.length_append, List.length_take, List.length_drop, length_putUint64,
      length_putUint32, length_body] at hlength
    rw [Record.encodedSize]
    omega
  · have hfront : putUint32 (UInt32.ofNat (n - 4)) = bs.take 4 := by
      have hlen : (bs.take 4).length = 4 := by
        rw [List.length_take]
        omega
      rw [← putUint32_getUint32 hlen]
      refine congrArg putUint32 (eq_of_toInt32_eq (Int32.toInt_inj.mp ?_))
      rw [hword, toInt32_toInt_of_lt]
      simp only [maxRecordSize] at hmax
      omega
    rw [← hextra, hfront, ← List.take_add, Nat.add_sub_cancel' hfour, List.take_append_drop]

theorem declaredLength_of_decodeFrom (h : decodeFrom crc bs = (.ok r, n, left)) :
    4 + declaredLength bs = n := by
  obtain ⟨extra, hsize, hmax, hlayout⟩ := decodeFrom_layout h
  have hge := encodedSize_ge r
  simp only [maxRecordSize] at hmax
  rw [declaredLength, hlayout, List.append_assoc, List.take_left' (length_putUint32 _),
    getUint32_putUint32, UInt32.toNat_ofNat', Nat.mod_eq_of_lt (by omega)]
  omega

theorem fieldSizes_of_decodeFrom (h : decodeFrom crc bs = (.ok r, n, left)) :
    fieldSize (bs.drop 25) = 4 + payloadLength r.key ∧
      fieldSize (bs.drop (25 + fieldSize (bs.drop 25))) = 4 + payloadLength r.value := by
  obtain ⟨extra, hsize, hmax, hlayout⟩ := decodeFrom_layout h
  simp only [Record.encodedSize, maxRecordSize] at hsize hmax
  have hfields : ∃ front : Bytes, front.length = 25 ∧
      bs = front ++ (encodeField r.key ++ (encodeField r.value ++ (extra ++ left))) := by
    refine ⟨putUint32 (UInt32.ofNat (n - 4)) ++ (putUint64 r.offset.toUInt64 ++
      (putUint64 r.timestamp.toUInt64 ++ (putUint32 (crc (r.body ++ extra)) ++
        [r.attributes.toUInt8]))), by simp, ?_⟩
    rw [hlayout]
    simp only [Record.body, List.append_assoc, List.cons_append, List.nil_append]
  obtain ⟨front, hfront, rfl⟩ := hfields
  have hkey : fieldSize ((front ++ (encodeField r.key ++ (encodeField r.value ++
      (extra ++ left)))).drop 25) = 4 + payloadLength r.key := by
    rw [List.drop_left' hfront, fieldSize_encodeField _ _ (by omega)]
  refine ⟨hkey, ?_⟩
  rw [hkey, ← List.drop_drop, List.drop_left' hfront, List.drop_left' (length_encodeField _),
    fieldSize_encodeField _ _ (by omega)]

/-- A record that was read is what `Encode` writes exactly when its length word is
within the limit with itself counted and nothing follows the value. -/
theorem decoded_is_encoded_iff (h : decodeFrom crc bs = (.ok r, n, left)) :
    (encodeTo crc r [] = (bs.take n, .ok n) ∧ n = r.encodedSize ∧ r.encodedSize ≤ maxRecordSize) ↔
      Canonical bs := by
  have hdeclared := declaredLength_of_decodeFrom h
  obtain ⟨hkey, hvalue⟩ := fieldSizes_of_decodeFrom h
  constructor
  · rintro ⟨-, hsize, hle⟩
    constructor
    · omega
    · rw [hvalue, hkey]
      rw [Record.encodedSize] at hsize
      omega
  · rintro ⟨hwithin, hfilled⟩
    rw [hvalue, hkey] at hfilled
    obtain ⟨extra, hsize, -, hlayout⟩ := decodeFrom_layout h
    have hexact : n = r.encodedSize := by
      rw [Record.encodedSize]
      omega
    obtain rfl : extra = [] := List.length_eq_zero_iff.mp (by omega)
    have himage : bs.take n = r.wireImage crc := by
      rw [hlayout, List.append_nil, hexact]
      exact List.take_left' (length_wireImage crc r)
    have hle : r.encodedSize ≤ maxRecordSize := by omega
    refine ⟨?_, hexact, hle⟩
    rw [encodeTo_of_le hle, himage, hexact]
    rfl

end

theorem decoded_is_encoded_iff_bareRecord :
    Canonical (Record.wireImage castagnoli ⟨5, 0, 0, none, none⟩) ∧
      encodeTo castagnoli ⟨5, 0, 0, none, none⟩ [] =
        ((Record.wireImage castagnoli ⟨5, 0, 0, none, none⟩).take 33, .ok 33) := by
  have hread : decodeFrom castagnoli (Record.wireImage castagnoli ⟨5, 0, 0, none, none⟩) =
      (.ok ⟨5, 0, 0, none, none⟩, 33, []) := by decide +kernel
  have hcanonical : Canonical (Record.wireImage castagnoli ⟨5, 0, 0, none, none⟩) := by
    constructor
    · decide +kernel
    · decide +kernel
  exact ⟨hcanonical, ((decoded_is_encoded_iff hread).mpr hcanonical).1⟩

def oversizeRecord : Record := ⟨0, 0, 0, none, some (List.replicate (maxRecordSize - 32) 0)⟩

theorem encodedSize_oversizeRecord : oversizeRecord.encodedSize = maxRecordSize + 1 := by
  have hvalue : payloadLength oversizeRecord.value = maxRecordSize - 32 := by
    rw [oversizeRecord, payloadLength, Option.map_some, Option.getD_some, List.length_replicate]
  have hkey : payloadLength oversizeRecord.key = 0 := rfl
  rw [Record.encodedSize, hvalue, hkey, maxRecordSize]

/-- An empty record and one more byte, which the length word and the checksum
count. -/
def trailingByte : Bytes :=
  putUint32 30 ++ (putUint64 0 ++ (putUint64 0 ++
    (putUint32 (castagnoli ([0, 255, 255, 255, 255, 255, 255, 255, 255] ++ [7])) ++
      ([0, 255, 255, 255, 255, 255, 255, 255, 255] ++ [7]))))

/-- One record of the stream is larger than `Encode` writes; of the other the
consumed bytes are not the ones it writes. -/
theorem decodes_what_is_not_encoded :
    decodeFrom castagnoli (oversizeRecord.wireImage castagnoli) =
        (.ok oversizeRecord, maxRecordSize + 1, []) ∧
      encodeTo castagnoli oversizeRecord [] = ([], .error .recordTooLarge) ∧
      decodeFrom castagnoli trailingByte = (.ok ⟨0, 0, 0, none, none⟩, 34, []) ∧
      encodeTo castagnoli ⟨0, 0, 0, none, none⟩ [] ≠ (trailingByte.take 34, .ok 34) := by
  refine ⟨?_, ?_, by decide +kernel, by decide +kernel⟩
  · rw [← encodedSize_oversizeRecord, ← List.append_nil (oversizeRecord.wireImage castagnoli)]
    apply decodeFrom_wireImage
    rw [encodedSize_oversizeRecord]
    omega
  · apply encodeTo_of_lt
    rw [encodedSize_oversizeRecord]
    exact Nat.lt_succ_self _

end MiniKafka.RecordStreams
