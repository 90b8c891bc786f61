import MiniKafka.Frames

/-!
The declared size of a frame against the bytes that are there.

The fields are read through a reader limited to the declared size, and one more
byte is asked for at the end.  That no byte comes means that the limit is reached
or that the stream is at its end; the two are not told apart.
-/

namespace MiniKafka.FrameSizes

open BigEndian ExactReaders WireCodec Frames

def length16 (bs : Bytes) : Nat := (UInt16.ofNat (getBE (bs.take 2))).toInt16.toNatClampNeg

def length32 (bs : Bytes) : Nat := (getUint32 (bs.take 4)).toInt32.toNatClampNeg

/-- The size of the fields of a request by their length words, wherever they end. -/
def requestFieldsSize (body : Bytes) : Nat :=
  14 + length16 (body.drop 8) + length32 (body.drop (10 + length16 (body.drop 8)))

def responseFieldsSize (body : Bytes) : Nat := 10 + length32 (body.drop 6)

def declaredSize (bs : Bytes) : Int32 := (getUint32 (bs.take 4)).toInt32

/-- The frame came from a declared size within the limits and as many bytes, all of
them taken by its fields, and nothing more was consumed. -/
structure TakesDeclared {α : Type} (limit : Int32) (fields : Int32 → Decoder α) (bs : Bytes)
    (frame : α) (rest : Bytes) : Prop where
  nonneg : 0 ≤ (declaredSize bs).toInt
  small : (declaredSize bs).toInt ≤ maxFrameSize
  admitted : 0 < limit → declaredSize bs ≤ limit
  present : 4 + length32 bs ≤ bs.length
  occupied : fields (declaredSize bs) ((bs.drop 4).take (length32 bs)) = .ok (frame, [])
  consumed : rest = bs.drop (4 + length32 bs)

structure ReadsDeclared {α : Type} (limit : Int32) (fields : Int32 → Decoder α)
    (read : FrameReader α) (bs : Bytes) : Prop where
  frame : ∀ f rest, read bs = .ok (f, rest) → TakesDeclared limit fields bs f rest
  short : bs.length < 4 + length32 bs → ∃ e, read bs = .error e

/-- The stream ends where the fields end, before the declared size is reached. -/
structure BreaksOff (limit : Int32) (fieldsSize : Bytes → Nat) (bs : Bytes) : Prop where
  nonneg : 0 ≤ (declaredSize bs).toInt
  small : (declaredSize bs).toInt ≤ maxFrameSize
  admitted : 0 < limit → declaredSize bs ≤ limit
  complete : bs.length = 4 + fieldsSize (bs.drop 4)
  early : bs.length < 4 + length32 bs

theorem readFull_of_lt {n : Nat} {bs : Bytes} (h : bs.length < n) :
    ∃ e, readFull n bs = .error e := by
  rw [readFull, if_neg (by omega)]
  split
  · exact ⟨_, rfl⟩
  · exact ⟨_, rfl⟩

theorem int16_of_le {bs : Bytes} (h : 2 ≤ bs.length) :
    int16 bs = .ok ((UInt16.ofNat (getBE (bs.take 2))).toInt16, bs.drop 2) := by
  rw [int16, readFull, if_pos h]

theorem int16_of_lt {bs : Bytes} (h : bs.length < 2) : ∃ e, int16 bs = .error e := by
  obtain ⟨e, he⟩ := readFull_of_lt h
  exact ⟨e, by rw [int16, he]⟩

theorem int32_of_le {bs : Bytes} (h : 4 ≤ bs.length) :
    int32 bs = .ok (declaredSize bs, bs.drop 4) := by
  rw [int32, readFull, if_pos h]
  rfl

theorem int32_of_lt {bs : Bytes} (h : bs.length < 4) : ∃ e, int32 bs = .error e := by
  obtain ⟨e, he⟩ := readFull_of_lt h
  exact ⟨e, by rw [int32, he]⟩

theorem string_of_le {bs : Bytes} (h : 2 ≤ bs.length) :
    string bs =
      if length16 bs = 0 then .ok ([], bs.drop 2) else readFull (length16 bs) (bs.drop 2) := by
  rw [string, int16_of_le h]
  dsimp only
  rw [length16]
  generalize (UInt16.ofNat (getBE (bs.take 2))).toInt16 = v
  have hlt := v.toInt_lt
  have hnat : v.toNatClampNeg = v.toInt.toNat := rfl
  by_cases hv : v ≤ 0
  · rw [if_pos hv, if_pos]
    rw [Int16.le_iff_toInt_le, Int16.toInt_zero] at hv
    omega
  · rw [if_neg hv, if_neg (by simp only [maxStringLength]; omega), if_neg]
    rw [Int16.le_iff_toInt_le, Int16.toInt_zero] at hv
    omega

theorem bytes_of_le {bs : Bytes} (h : 4 ≤ bs.length) :
    ∃ empty, bytes bs =
      if length32 bs = 0 then .ok (empty, bs.drop 4)
      else if maxBytesLength < length32 bs then .error .lengthOutOfRange
      else (readFull (length32 bs) (bs.drop 4)).map fun x => (some x.1, x.2) := by
  rw [bytes, bind_ok (int32_of_le h)]
  have hnat : length32 bs = (declaredSize bs).toInt.toNat := rfl
  generalize declaredSize bs = v at hnat
  by_cases hneg : v < 0
  · refine ⟨none, ?_⟩
    rw [if_pos hneg, if_pos]
    · rfl
    · rw [Int32.lt_iff_toInt_lt, Int32.toInt_zero] at hneg
      omega
  · rw [if_neg hneg]
    refine ⟨some [], ?_⟩
    by_cases hzero : v = 0
    · rw [if_pos hzero, if_pos]
      · rfl
      · rw [hnat, hzero]
        rfl
    · have hlength : length32 bs ≠ 0 := by
        intro hlength
        rw [Int32.lt_iff_toInt_lt, Int32.toInt_zero] at hneg
        exact hzero (Int32.toInt_inj.mp (by rw [Int32.toInt_zero]; omega))
      rw [if_neg hzero, if_neg hlength, show v.toNatClampNeg = length32 bs from hnat.symm]
      by_cases hlarge : maxBytesLength < length32 bs
      · rw [if_pos hlarge, if_pos hlarge]
        rfl
      · rw [if_neg hlarge, if_neg hlarge]
        show (readFull (length32 bs) (bs.drop 4) >>= fun x => pure (some x.1, x.2)) = _
        cases readFull (length32 bs) (bs.drop 4) with
        | error e => rfl
        | ok x => rfl

section

variable {bound : Nat}

theorem takes_int16 : Takes bound (fun _ => 2) (int16 : Decoder Int16) where
  takes _ _ hle := ⟨_, int16_of_le hle⟩
  fails _ _ hlt := int16_of_lt hlt

theorem takes_int32 : Takes bound (fun _ => 4) (int32 : Decoder Int32) where
  takes _ _ hle := ⟨_, int32_of_le hle⟩
  fails _ _ hlt := int32_of_lt hlt

theorem takes_string : Takes bound (fun bs => 2 + length16 bs) (string : Decoder Bytes) where
  takes word _ hle := by
    rw [string_of_le (by omega)]
    split
    · rename_i hzero
      exact ⟨[], by rw [hzero]⟩
    · rw [readFull, if_pos (by rw [List.length_drop]; omega), List.drop_drop]
      exact ⟨_, rfl⟩
  fails word _ hlt := by
    by_cases hshort : word.length < 2
    · obtain ⟨e, he⟩ := int16_of_lt hshort
      exact ⟨e, by rw [string, he]⟩
    · rw [string_of_le (by omega), if_neg (by omega)]
      exact readFull_of_lt (by rw [List.length_drop]; omega)

theorem takes_bytes (hbound : bound ≤ maxBytesLength) :
    Takes bound (fun bs => 4 + length32 bs) bytes where
  takes word hlength hle := by
    obtain ⟨empty, hbytes⟩ := bytes_of_le (show 4 ≤ word.length by omega)
    rw [hbytes]
    split
    · rename_i hzero
      exact ⟨empty, by rw [hzero]⟩
    · rw [if_neg (by omega), readFull, if_pos (by rw [List.length_drop]; omega), List.drop_drop]
      exact ⟨_, rfl⟩
  fails word hlength hlt := by
    by_cases hshort : word.length < 4
    · obtain ⟨e, he⟩ := int32_of_lt hshort
      exact ⟨e, by rw [bytes, bind_error he]⟩
    · obtain ⟨empty, hbytes⟩ := bytes_of_le (show 4 ≤ word.length by omega)
      rw [hbytes, if_neg (by omega)]
      split
      · exact ⟨_, rfl⟩
      · have hlack : (word.drop 4).length < length32 word := by
          rw [List.length_drop]
          omega
        obtain ⟨e, he⟩ := readFull_of_lt hlack
        exact ⟨e, by rw [he]; rfl⟩

theorem takes_requestFields (hbound : bound ≤ maxBytesLength) (size : Int32) :
    Takes bound requestFieldsSize (RequestFrame.fields size) := by
  have h : Takes bound _ (RequestFrame.fields size) :=
    takes_int16.bind fun _ => takes_int16.bind fun _ => takes_int32.bind fun _ =>
      takes_string.bind fun _ => (takes_bytes hbound).bind fun _ => .pure bound _
  convert h using 1
  funext body
  simp only [requestFieldsSize, List.drop_drop, Nat.add_zero]
  generalize length16 (body.drop (2 + 2 + 4)) = client
  rw [show 2 + 2 + 4 + (2 + client) = 10 + client by omega]
  omega

theorem takes_responseFields (hbound : bound ≤ maxBytesLength) (size : Int32) :
    Takes bound responseFieldsSize (ResponseFrame.fields size) := by
  have h : Takes bound _ (ResponseFrame.fields size) :=
    takes_int32.bind fun _ => takes_int16.bind fun _ => (takes_bytes hbound).bind fun _ =>
      .pure bound _
  convert h using 1
  funext body
  simp only [responseFieldsSize, List.drop_drop, Nat.add_zero]
  rw [show 4 + 2 = 6 from rfl]
  omega

end

section

variable {α : Type}

theorem limited_eq_ok_iff {n : Nat} {fields : Decoder α} {bs rest : Bytes} {f : α} :
    limited n fields bs = .ok (f, rest) ↔ fields (bs.take n) = .ok (f, []) ∧ rest = bs.drop n := by
  rw [limited]
  cases fields (bs.take n) with
  | error e => simp
  | ok x =>
    obtain ⟨g, left⟩ := x
    dsimp only
    split
    · rename_i hleft
      simp [hleft, eq_comm]
    · rename_i hleft
      simp [hleft]

theorem tooLarge_eq_false_iff {size : Int32} :
    tooLarge size = false ↔ 0 ≤ size.toInt ∧ size.toInt ≤ maxFrameSize := by
  have hnat : size.toNatClampNeg = size.toInt.toNat := rfl
  simp only [tooLarge, Bool.or_eq_false_iff, decide_eq_false_iff_not, Int32.lt_iff_toInt_lt,
    Int32.toInt_zero, hnat]
  omega

/-- A reader that checks the declared size against the limits and then reads the
fields through a limited reader. -/
def ReadsLimited (limit : Int32) (fields : Int32 → Decoder α) (read : FrameReader α) : Prop :=
  ∀ bs f rest, read bs = .ok (f, rest) ↔
    4 ≤ bs.length ∧ tooLarge (declaredSize bs) = false ∧
      (0 < limit → declaredSize bs ≤ limit) ∧
      limited (length32 bs) (fields (declaredSize bs)) (bs.drop 4) = .ok (f, rest)

theorem size_of_le {bs : Bytes} (h : 4 ≤ bs.length) :
    mapError FrameError.wire int32 bs = .ok (declaredSize bs, bs.drop 4) := by
  rw [mapError, int32_of_le h]
  rfl

theorem size_of_lt {bs : Bytes} (h : bs.length < 4) :
    ∃ e, mapError FrameError.wire int32 bs = .error e := by
  obtain ⟨e, he⟩ := int32_of_lt h
  exact ⟨.wire e, by rw [mapError, he]; rfl⟩

theorem throw_ne_ok {e : FrameError} {bs rest : Bytes} {f : α} :
    (throw e : FrameReader α) bs ≠ .ok (f, rest) := by
  intro h
  cases h

theorem drain_throw_ne_ok {n : Nat} {e : FrameError} {bs rest : Bytes} {f : α} :
    (drain n >>= fun _ => throw e : FrameReader α) bs ≠ .ok (f, rest) := by
  by_cases hle : n ≤ bs.length
  · rw [bind_ok (show drain n bs = .ok ((), bs.drop n) from if_pos hle)]
    exact throw_ne_ok
  · rw [bind_error (show drain n bs = .error (.wire .eof) from if_neg hle)]
    intro h
    cases h

/-- The part both readers share: the size field and the check against the largest
frame. -/
theorem readsLimited_of_small {limit : Int32} {fields : Int32 → Decoder α}
    {next : Int32 → FrameReader α}
    (hnext : ∀ size bs f rest, next size bs = .ok (f, rest) ↔
      (0 < limit → size ≤ limit) ∧ limited size.toNatClampNeg (fields size) bs = .ok (f, rest)) :
    ReadsLimited limit fields
      (mapError FrameError.wire int32 >>= fun size =>
        if tooLarge size then throw .frameTooLarge else next size) := by
  intro bs f rest
  rcases Nat.lt_or_ge bs.length 4 with hshort | hsize
  · obtain ⟨e, he⟩ := size_of_lt hshort
    rw [bind_error he]
    simp [Nat.not_le.mpr hshort]
  · rw [bind_ok (size_of_le hsize)]
    simp only [hsize, true_and]
    cases hlarge : tooLarge (declaredSize bs) with
    | true =>
      rw [if_pos rfl]
      simp [throw_ne_ok]
    | false =>
      rw [if_neg (by decide), hnext, eq_self, true_and]
      rfl

theorem readsLimited_request (limit : Int32) :
    ReadsLimited limit RequestFrame.fields (readRequestFrameWithLimit limit) := by
  refine readsLimited_of_small fun size bs f rest => ?_
  have hlimits : ¬ (0 < limit ∧ limit < size) ↔ (0 < limit → size ≤ limit) := by
    simp only [not_and, Int32.not_lt]
  by_cases hlimit : 0 < limit ∧ limit < size
  · rw [if_pos hlimit]
    refine iff_of_false drain_throw_ne_ok ?_
    rintro ⟨hadmitted, -⟩
    exact hlimits.mpr hadmitted hlimit
  · rw [if_neg hlimit, and_iff_right (hlimits.mp hlimit)]

theorem readsLimited_response :
    ReadsLimited 0 ResponseFrame.fields readResponseFrame := by
  refine readsLimited_of_small fun size bs f rest => ?_
  rw [and_iff_right fun hpos => absurd hpos (by decide)]

theorem readsDeclared_iff {limit : Int32} {fields : Int32 → Decoder α} {read : FrameReader α}
    {fieldsSize : Bytes → Nat} (hread : ReadsLimited limit fields read)
    (hfields : ∀ size, Takes maxFrameSize fieldsSize (fields size)) (bs : Bytes) :
    ReadsDeclared limit fields read bs ↔ ¬ BreaksOff limit fieldsSize bs := by
  have hearly : bs.length < 4 + length32 bs → (bs.drop 4).take (length32 bs) = bs.drop 4 := by
    intro hlt
    apply List.take_of_length_le
    rw [List.length_drop]
    omega
  have hsmall : ∀ {n : Nat}, (declaredSize bs).toInt ≤ maxFrameSize → n < 4 + length32 bs →
      n - 4 ≤ maxFrameSize := by
    intro n hle hlt
    have hnat : length32 bs = (declaredSize bs).toInt.toNat := rfl
    omega
  constructor
  · rintro ⟨-, hshort⟩ hbreaks
    obtain ⟨e, he⟩ := hshort hbreaks.early
    have hcomplete := hbreaks.complete
    obtain ⟨f, hf⟩ := ((hfields (declaredSize bs)).whole_iff
      (by rw [List.length_drop]; exact hsmall hbreaks.small hbreaks.early)).mpr
      (show fieldsSize (bs.drop 4) = (bs.drop 4).length by rw [List.length_drop]; omega)
    have hok := (hread bs f _).mpr ⟨by omega, tooLarge_eq_false_iff.mpr ⟨hbreaks.nonneg,
      hbreaks.small⟩, hbreaks.admitted, limited_eq_ok_iff.mpr
        ⟨by rw [hearly hbreaks.early]; exact hf, rfl⟩⟩
    rw [he] at hok
    cases hok
  · intro hwhole
    have hpresent : ∀ f rest, read bs = .ok (f, rest) → 4 + length32 bs ≤ bs.length := by
      intro f rest hok
      obtain ⟨hfour, hlarge, hadmitted, hlimited⟩ := (hread bs f rest).mp hok
      obtain ⟨hnonneg, hle⟩ := tooLarge_eq_false_iff.mp hlarge
      by_contra hlt
      have hshort : bs.length < 4 + length32 bs := by omega
      obtain ⟨hoccupied, -⟩ := limited_eq_ok_iff.mp hlimited
      rw [hearly hshort] at hoccupied
      have hsize := ((hfields (declaredSize bs)).whole_iff
        (by rw [List.length_drop]; exact hsmall hle hshort)).mp ⟨f, hoccupied⟩
      rw [List.length_drop] at hsize
      exact hwhole ⟨hnonneg, hle, hadmitted, by omega, hshort⟩
    constructor
    · intro f rest hok
      obtain ⟨hfour, hlarge, hadmitted, hlimited⟩ := (hread bs f rest).mp hok
      obtain ⟨hnonneg, hle⟩ := tooLarge_eq_false_iff.mp hlarge
      obtain ⟨hoccupied, hconsumed⟩ := limited_eq_ok_iff.mp hlimited
      rw [List.drop_drop] at hconsumed
      exact ⟨hnonneg, hle, hadmitted, hpresent f rest hok, hoccupied, hconsumed⟩
    · intro hshort
      cases hresult : read bs with
      | error e => exact ⟨e, rfl⟩
      | ok x =>
        have := hpresent x.1 x.2 hresult
        omega

end

/-- Both readers return only frames that take their declared size, and fail on what
is shorter, exactly if the stream does not break off at the end of the fields. -/
theorem frame_takes_declared_iff (bs : Bytes) :
    (∀ limit, ReadsDeclared limit RequestFrame.fields (readRequestFrameWithLimit limit) bs ↔
        ¬ BreaksOff limit requestFieldsSize bs) ∧
      (ReadsDeclared 0 ResponseFrame.fields readResponseFrame bs ↔
        ¬ BreaksOff 0 responseFieldsSize bs) := by
  have hbound : maxFrameSize ≤ maxBytesLength := by decide
  constructor
  · intro limit
    exact readsDeclared_iff (readsLimited_request limit) (takes_requestFields hbound) bs
  · exact readsDeclared_iff readsLimited_response (takes_responseFields hbound) bs

/-- A size of 100, a complete request body of 14 bytes, and the end of the
stream. -/
def brokenOff : Bytes :=
  putInt32 100 ++ [0, 0, 0, 1, 0, 0, 0, 42, 0, 0, 0, 0, 0, 0]

theorem brokenOff_is_read :
    brokenOff.length = 18 ∧ declaredSize brokenOff = 100 ∧
      readRequestFrameWithLimit 0 brokenOff = .ok (⟨100, 0, 1, 42, [], some []⟩, []) ∧
      ¬ ReadsDeclared 0 RequestFrame.fields (readRequestFrameWithLimit 0) brokenOff := by
  have hread : readRequestFrameWithLimit 0 brokenOff =
      .ok (⟨100, 0, 1, 42, [], some []⟩, []) := by decide +kernel
  refine ⟨by decide +kernel, by decide +kernel, hread, ?_⟩
  rintro ⟨-, hshort⟩
  obtain ⟨e, he⟩ := hshort (by decide +kernel)
  rw [hread] at he
  cases he

end MiniKafka.FrameSizes
