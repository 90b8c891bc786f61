import MiniKafka.BigEndian
import MiniKafka.ExactReaders

/-!
The primitive wire types of `internal/protocol/codec.go`.

A decoder takes its value from the front of the remaining bytes.  An encoder
and a decoder fit together if the decoder reads back exactly what the encoder
wrote, whatever follows, and fails on what breaks off earlier; arrays and
structures inherit that from their parts.
-/

namespace MiniKafka.WireCodec

open BigEndian ExactReaders

inductive WireError where
  | eof
  | unexpectedEOF
  | lengthOutOfRange
  deriving DecidableEq, Repr

def maxStringLength : Nat := 10485760

def maxInt16 : Nat := 32767

def maxInt32 : Nat := 2147483647

def maxBytesLength : Nat := 104857600

def maxRequestElements : Nat := 100000

abbrev Decoder (α : Type) := Reader WireError UInt8 α

/-- A slice, which is `none` if it is nil. -/
abbrev Slice (α : Type) := Option (List α)

def elements {α : Type} (s : Slice α) : List α := s.getD []

def readFull (n : Nat) (bs : Bytes) : Except WireError (Bytes × Bytes) :=
  if n ≤ bs.length then .ok (bs.take n, bs.drop n)
  else if bs = [] then .error .eof
  else .error .unexpectedEOF

def putInt16 (v : Int16) : Bytes := putBE 2 v.toUInt16.toNat

def putInt32 (v : Int32) : Bytes := putUint32 v.toUInt32

def putInt64 (v : Int64) : Bytes := putUint64 v.toUInt64

def int16 (bs : Bytes) : Except WireError (Int16 × Bytes) :=
  match readFull 2 bs with
  | .error e => .error e
  | .ok (word, rest) => .ok ((UInt16.ofNat (getBE word)).toInt16, rest)

def int32 (bs : Bytes) : Except WireError (Int32 × Bytes) :=
  match readFull 4 bs with
  | .error e => .error e
  | .ok (word, rest) => .ok ((getUint32 word).toInt32, rest)

def int64 (bs : Bytes) : Except WireError (Int64 × Bytes) :=
  match readFull 8 bs with
  | .error e => .error e
  | .ok (word, rest) => .ok ((getUint64 word).toInt64, rest)

def putString (s : Bytes) : Except WireError Bytes :=
  if maxInt16 < s.length then .error .lengthOutOfRange
  else .ok (putInt16 (Int16.ofNat s.length) ++ s)

/-- `String`: a negative length stands for the empty string. -/
def string (bs : Bytes) : Except WireError (Bytes × Bytes) :=
  match int16 bs with
  | .error e => .error e
  | .ok (length, rest) =>
    if length ≤ 0 then .ok ([], rest)
    else if maxStringLength < length.toNatClampNeg then .error .lengthOutOfRange
    else readFull length.toNatClampNeg rest

def putBytes (v : Slice UInt8) : Except WireError Bytes :=
  if maxInt32 < (elements v).length then .error .lengthOutOfRange
  else .ok (putInt32 (Int32.ofNat (elements v).length) ++ elements v)

def bytes : Decoder (Slice UInt8) := do
  let length ← int32
  if length < 0 then return none
  else if length = 0 then return some []
  else if maxBytesLength < length.toNatClampNeg then throw .lengthOutOfRange
  else
    let buf ← readFull length.toNatClampNeg
    return some buf

def putArrayHeader (length : Nat) : Except WireError Bytes :=
  if maxInt32 < length then .error .lengthOutOfRange
  else .ok (putInt32 (Int32.ofNat length))

/-- `ArrayHeader`: its own limit is the largest 32-bit count. -/
def arrayHeader (bs : Bytes) : Except WireError (Int32 × Bytes) := int32 bs

def readArrayHeader : Decoder Int32 := do
  let count ← arrayHeader
  if maxRequestElements < count.toNatClampNeg then throw .lengthOutOfRange
  else return count

section

variable {α ε ε' : Type}

/-- The header of a slice and its elements. -/
def putArray (encode : α → Except WireError Bytes) (s : Slice α) : Except WireError Bytes :=
  inOrder (putArrayHeader (elements s).length :: (elements s).map encode)

/-- A negative count leaves the slice nil. -/
def readArray (header : Decoder Int32) (decode : Decoder α) : Decoder (Slice α) := do
  let count ← header
  if count < 0 then return none
  else
    let as ← readMany decode count.toNatClampNeg
    return some as

def encodeMany (encode : α → Except ε Bytes) : List α → Except ε Bytes
  | [] => .ok []
  | a :: as =>
    match encode a with
    | .error e => .error e
    | .ok bs =>
      match encodeMany encode as with
      | .error e => .error e
      | .ok rest => .ok (bs ++ rest)

def decodeMany (decode : Bytes → Except ε (α × Bytes)) : Nat → Bytes → Except ε (List α × Bytes)
  | 0, bs => .ok ([], bs)
  | n + 1, bs =>
    match decode bs with
    | .error e => .error e
    | .ok (a, rest) =>
      match decodeMany decode n rest with
      | .error e => .error e
      | .ok (as, rest) => .ok (a :: as, rest)

/-- `decode` reads back what `encode` wrote, and nothing of what follows. -/
def RoundTrips (encode : α → Except ε Bytes) (decode : Bytes → Except ε' (α × Bytes)) : Prop :=
  ∀ a bs, encode a = .ok bs → ∀ rest, decode (bs ++ rest) = .ok (a, rest)

theorem roundTrips_many {encode : α → Except ε Bytes} {decode : Bytes → Except ε' (α × Bytes)}
    (h : RoundTrips encode decode) {as : List α} {bs : Bytes} (hencode : encodeMany encode as = .ok bs)
    (rest : Bytes) : decodeMany decode as.length (bs ++ rest) = .ok (as, rest) := by
  induction as generalizing bs with
  | nil =>
    cases hencode
    rfl
  | cons a as ih =>
    rw [encodeMany] at hencode
    split at hencode
    · cases hencode
    · rename_i image himage
      split at hencode
      · cases hencode
      · rename_i images himages
        cases hencode
        rw [List.length_cons, decodeMany, List.append_assoc, h a image himage]
        dsimp only
        rw [ih himages]

theorem decodeMany_eq_ok_iff {decode : Bytes → Except ε (α × Bytes)} {Field : α → Bytes → Prop}
    (h : ∀ bs a rest, decode bs = .ok (a, rest) ↔ ∃ field, Field a field ∧ bs = field ++ rest)
    {n : Nat} {bs rest : Bytes} {as : List α} :
    decodeMany decode n bs = .ok (as, rest) ↔
      as.length = n ∧ ∃ fields, List.Forall₂ Field as fields ∧ bs = fields.flatten ++ rest := by
  induction n generalizing bs as with
  | zero =>
    rw [decodeMany]
    constructor
    · intro hok
      cases hok
      exact ⟨rfl, [], .nil, rfl⟩
    · rintro ⟨hlength, fields, hfields, rfl⟩
      obtain rfl := List.length_eq_zero_iff.mp hlength
      cases hfields
      rfl
  | succ n ih =>
    rw [decodeMany]
    constructor
    · intro hok
      split at hok
      · cases hok
      · rename_i a left hfirst
        split at hok
        · cases hok
        · rename_i others left' hothers
          cases hok
          obtain ⟨field, hfield, rfl⟩ := (h _ _ _).mp hfirst
          obtain ⟨hlength, fields, hfields, rfl⟩ := ih.mp hothers
          refine ⟨by rw [List.length_cons, hlength], field :: fields, .cons hfield hfields, ?_⟩
          rw [List.flatten_cons, List.append_assoc]
    · rintro ⟨hlength, fields, hfields, rfl⟩
      cases hfields with
      | nil => cases hlength
      | @cons a field others fields hfield hfields =>
        rw [List.flatten_cons, List.append_assoc, (h _ _ _).mpr ⟨field, hfield, rfl⟩]
        dsimp only
        rw [ih.mpr ⟨Nat.succ.inj hlength, fields, hfields, rfl⟩]

/-- The loop over an array fails at the first element that does. -/
theorem decodeMany_eq_error_iff {decode : Bytes → Except ε (α × Bytes)} {n : Nat} {bs : Bytes}
    {e : ε} :
    decodeMany decode n bs = .error e ↔
      ∃ m < n, ∃ as rest, decodeMany decode m bs = .ok (as, rest) ∧ decode rest = .error e := by
  induction n generalizing bs with
  | zero =>
    constructor
    · intro h
      cases h
    · rintro ⟨m, hm, -⟩
      exact absurd hm (Nat.not_lt_zero m)
  | succ n ih =>
    constructor
    · intro h
      rw [decodeMany] at h
      split at h
      · rename_i hfirst
        cases h
        exact ⟨0, Nat.succ_pos n, [], bs, rfl, hfirst⟩
      · rename_i a left hfirst
        split at h
        · rename_i hothers
          cases h
          obtain ⟨m, hm, as, rest, has, hlast⟩ := ih.mp hothers
          refine ⟨m + 1, Nat.succ_lt_succ hm, a :: as, rest, ?_, hlast⟩
          rw [decodeMany, hfirst]
          dsimp only
          rw [has]
        · cases h
    · rintro ⟨m, hm, as, rest, has, hlast⟩
      rw [decodeMany]
      cases m with
      | zero =>
        cases has
        rw [hlast]
      | succ m =>
        rw [decodeMany] at has
        cases hfirst : decode bs with
        | error e' =>
          rw [hfirst] at has
          cases has
        | ok first =>
          rw [hfirst] at has
          dsimp only at has ⊢
          split at has
          · cases has
          · rename_i others left hothers
            cases has
            rw [ih.mpr ⟨m, Nat.lt_of_succ_lt_succ hm, others, rest, hothers, hlast⟩]

end

theorem readFull_append (bs rest : Bytes) : readFull bs.length (bs ++ rest) = .ok (bs, rest) := by
  rw [readFull, if_pos (by simp), List.take_left, List.drop_left]

theorem readsAs_readFull (bs : Bytes) : ReadsAs (readFull bs.length : Decoder Bytes) bs bs where
  reads := readFull_append bs
  fails p hp hne := by
    have hlt : ¬ bs.length ≤ p.length := fun hle => hne (hp.eq_of_length_le hle)
    rw [readFull, if_neg hlt]
    split
    · exact ⟨_, rfl⟩
    · exact ⟨_, rfl⟩

theorem readsAs_word {α : Type} {r : Decoder α} (f : Bytes → α) (word : Bytes)
    (h : ∀ bs, r bs = match readFull word.length bs with
      | .error e => .error e
      | .ok (word, rest) => .ok (f word, rest)) :
    ReadsAs r word (f word) := by
  have hread : r = f <$> (readFull word.length : Decoder Bytes) := by
    funext bs
    rw [h bs]
    show _ = (readFull word.length bs >>= fun a => pure (f a.1, a.2))
    cases readFull word.length bs <;> rfl
  rw [hread]
  exact (readsAs_readFull word).map f

theorem readsAs_int16 (v : Int16) : ReadsAs int16 (putInt16 v) v := by
  have hv : v.toUInt16.toNat < 256 ^ 2 := v.toUInt16.toNat_lt
  have h : ReadsAs int16 (putInt16 v) _ :=
    readsAs_word (fun word => (UInt16.ofNat (getBE word)).toInt16) _ fun bs => by
      rw [putInt16, length_putBE, int16]
  simpa [putInt16, getBE_putBE_of_lt hv] using h

theorem readsAs_int32 (v : Int32) : ReadsAs int32 (putInt32 v) v := by
  have h : ReadsAs int32 (putInt32 v) _ :=
    readsAs_word (fun word => (getUint32 word).toInt32) _ fun bs => by
      rw [putInt32, length_putUint32, int32]
  simpa [putInt32] using h

theorem readsAs_int64 (v : Int64) : ReadsAs int64 (putInt64 v) v := by
  have h : ReadsAs int64 (putInt64 v) _ :=
    readsAs_word (fun word => (getUint64 word).toInt64) _ fun bs => by
      rw [putInt64, length_putUint64, int64]
  simpa [putInt64] using h

theorem carries_int16 (v : Int16) : Carries (.ok (putInt16 v) : Except WireError Bytes) int16 v :=
  carries_ok (readsAs_int16 v)

theorem carries_int32 (v : Int32) : Carries (.ok (putInt32 v) : Except WireError Bytes) int32 v :=
  carries_ok (readsAs_int32 v)

theorem carries_int64 (v : Int64) : Carries (.ok (putInt64 v) : Except WireError Bytes) int64 v :=
  carries_ok (readsAs_int64 v)

theorem int32_append (v : Int32) (rest : Bytes) : int32 (putInt32 v ++ rest) = .ok (v, rest) :=
  (readsAs_int32 v).reads rest

@[simp] theorem length_putInt16 (v : Int16) : (putInt16 v).length = 2 := length_putBE 2 _

@[simp] theorem length_putInt32 (v : Int32) : (putInt32 v).length = 4 := length_putUint32 _

theorem toInt_ofNat16 {n : Nat} (h : ¬ maxInt16 < n) : (Int16.ofNat n).toInt = n := by
  rw [maxInt16] at h
  exact Int16.toInt_ofNat_of_lt (by omega)

theorem toInt_ofNat32 {n : Nat} (h : ¬ maxInt32 < n) : (Int32.ofNat n).toInt = n := by
  rw [maxInt32] at h
  exact Int32.toInt_ofNat_of_lt (by omega)

theorem toNat_ofNat32 {n : Nat} (h : ¬ maxInt32 < n) : (Int32.ofNat n).toNatClampNeg = n := by
  rw [← Int32.toNat_toInt, toInt_ofNat32 h, Int.toNat_natCast]

theorem ofNat32_nonneg {n : Nat} (h : ¬ maxInt32 < n) : ¬ Int32.ofNat n < 0 := by
  rw [Int32.lt_iff_toInt_lt, toInt_ofNat32 h, Int32.toInt_zero]
  omega

theorem string_eq_bind : string = (do
    let length ← int16
    if length ≤ 0 then return []
    else if maxStringLength < length.toNatClampNeg then throw .lengthOutOfRange
    else readFull length.toNatClampNeg : Decoder Bytes) := by
  funext bs
  rw [string]
  cases h : int16 bs with
  | error e => rw [bind_error h]
  | ok read =>
    rw [bind_ok h]
    dsimp only
    split_ifs <;> rfl

theorem carries_string (s : Bytes) : Carries (putString s) string s := by
  rw [putString, string_eq_bind]
  split_ifs with hlength
  · exact carries_error
  · apply carries_ok
    apply (readsAs_int16 _).bind
    have hnat : (Int16.ofNat s.length).toNatClampNeg = s.length := by
      rw [← Int16.toNat_toInt, toInt_ofNat16 hlength, Int.toNat_natCast]
    rw [maxInt16] at hlength
    split_ifs with hzero hlong
    · rw [Int16.le_iff_toInt_le, toInt_ofNat16 hlength, Int16.toInt_zero] at hzero
      have hnil : s = [] := List.length_eq_zero_iff.mp (by omega)
      rw [hnil]
      exact .pure []
    · rw [hnat, maxStringLength] at hlong
      omega
    · rw [hnat]
      exact readsAs_readFull s

theorem roundTrips_string : RoundTrips putString string :=
  fun s bs hput => (carries_string s bs hput).reads

theorem carries_bytes {v : Slice UInt8} (hfits : (elements v).length ≤ maxBytesLength) :
    Carries (putBytes v) bytes (some (elements v)) := by
  rw [putBytes, bytes]
  split_ifs with hlength
  · exact carries_error
  · apply carries_ok
    apply (readsAs_int32 _).bind
    rw [if_neg (ofNat32_nonneg hlength)]
    split_ifs with hzero hlong
    · have hnil : (elements v).length = 0 := by
        rw [← toNat_ofNat32 hlength, hzero]
        rfl
      rw [List.length_eq_zero_iff.mp hnil]
      exact .pure _
    · rw [toNat_ofNat32 hlength] at hlong
      exact absurd hfits (Nat.not_le.mpr hlong)
    · rw [toNat_ofNat32 hlength]
      exact (readsAs_readFull _).map some

theorem readFull_eq_ok_iff {n : Nat} {bs word rest : Bytes} :
    readFull n bs = .ok (word, rest) ↔ word.length = n ∧ bs = word ++ rest := by
  rw [readFull]
  constructor
  · intro h
    split at h
    · rename_i hle
      cases h
      exact ⟨List.length_take_of_le hle, (List.take_append_drop n bs).symm⟩
    · split at h <;> cases h
  · rintro ⟨rfl, rfl⟩
    rw [if_pos (by simp), List.take_left, List.drop_left]

theorem int16_eq_ok_iff {bs rest : Bytes} {v : Int16} :
    int16 bs = .ok (v, rest) ↔ bs = putInt16 v ++ rest := by
  constructor
  · intro h
    rw [int16] at h
    split at h
    · cases h
    · rename_i word left hread
      cases h
      obtain ⟨hlength, rfl⟩ := readFull_eq_ok_iff.mp hread
      have hlt := getBE_lt word
      rw [hlength] at hlt
      rw [putInt16, UInt16.toUInt16_toInt16, UInt16.toNat_ofNat_of_lt' hlt, ← hlength, putBE_getBE]
  · rintro rfl
    exact (readsAs_int16 v).reads rest

theorem int32_eq_ok_iff {bs rest : Bytes} {v : Int32} :
    int32 bs = .ok (v, rest) ↔ bs = putInt32 v ++ rest := by
  constructor
  · intro h
    rw [int32] at h
    split at h
    · cases h
    · rename_i word left hread
      cases h
      obtain ⟨hlength, rfl⟩ := readFull_eq_ok_iff.mp hread
      rw [putInt32, UInt32.toUInt32_toInt32, putUint32_getUint32 hlength]
  · rintro rfl
    exact int32_append v rest

/-- A string on the wire: its length word, which says 0 also where it is negative. -/
def StringField (s field : Bytes) : Prop :=
  ∃ length : Int16, length.toNatClampNeg = s.length ∧ field = putInt16 length ++ s

theorem string_eq_ok_iff {bs s rest : Bytes} :
    string bs = .ok (s, rest) ↔ ∃ field, StringField s field ∧ bs = field ++ rest := by
  constructor
  · intro h
    rw [string] at h
    split at h
    · cases h
    · rename_i length left hlength
      obtain rfl := int16_eq_ok_iff.mp hlength
      split at h
      · rename_i hneg
        cases h
        refine ⟨putInt16 length, ⟨length, ?_, (List.append_nil _).symm⟩, rfl⟩
        rw [Int16.le_iff_toInt_le, Int16.toInt_zero] at hneg
        rw [Int16.toNatClampNeg, List.length_nil]
        omega
      · split at h
        · cases h
        · obtain ⟨hs, rfl⟩ := readFull_eq_ok_iff.mp h
          exact ⟨_, ⟨length, hs.symm, rfl⟩, (List.append_assoc _ _ _).symm⟩
  · rintro ⟨_, ⟨length, hlength, rfl⟩, rfl⟩
    have hlt := length.toInt_lt
    rw [string, List.append_assoc, int16_eq_ok_iff.mpr rfl]
    dsimp only
    split_ifs with hneg hlong
    · rw [Int16.le_iff_toInt_le, Int16.toInt_zero] at hneg
      rw [Int16.toNatClampNeg] at hlength
      have hnil : s = [] := List.length_eq_zero_iff.mp (by omega)
      rw [hnil, List.nil_append]
    · rw [Int16.toNatClampNeg, maxStringLength] at hlong
      omega
    · exact readFull_eq_ok_iff.mpr ⟨hlength.symm, rfl⟩

theorem putString_eq_ok {s bs : Bytes} (hput : putString s = .ok bs) :
    s.length ≤ maxInt16 ∧ bs = putInt16 (Int16.ofNat s.length) ++ s := by
  rw [putString] at hput
  split at hput
  · cases hput
  · rename_i hlength
    cases hput
    exact ⟨Nat.not_lt.mp hlength, rfl⟩

theorem putBytes_eq_ok {v : Slice UInt8} {bs : Bytes} (hput : putBytes v = .ok bs) :
    (elements v).length ≤ maxInt32 ∧
      bs = putInt32 (Int32.ofNat (elements v).length) ++ elements v := by
  rw [putBytes] at hput
  split at hput
  · cases hput
  · rename_i hlength
    cases hput
    exact ⟨Nat.not_lt.mp hlength, rfl⟩

theorem putArrayHeader_eq_ok {n : Nat} {bs : Bytes} (hput : putArrayHeader n = .ok bs) :
    ¬ maxInt32 < n ∧ bs = putInt32 (Int32.ofNat n) := by
  rw [putArrayHeader] at hput
  split at hput
  · cases hput
  · rename_i hlength
    cases hput
    exact ⟨hlength, rfl⟩

theorem encodes_int16 (v : Int16) : Encodes (.ok (putInt16 v) : Except WireError Bytes) 2 :=
  ⟨_, rfl, length_putInt16 v⟩

theorem encodes_int32 (v : Int32) : Encodes (.ok (putInt32 v) : Except WireError Bytes) 4 :=
  ⟨_, rfl, length_putInt32 v⟩

theorem encodes_int64 (v : Int64) : Encodes (.ok (putInt64 v) : Except WireError Bytes) 8 :=
  ⟨_, rfl, length_putUint64 v.toUInt64⟩

theorem encodes_string {s : Bytes} (h : s.length ≤ maxInt16) :
    Encodes (putString s) (2 + s.length) := by
  rw [putString, if_neg (Nat.not_lt.mpr h)]
  exact ⟨_, rfl, by rw [List.length_append, length_putInt16]⟩

theorem encodes_bytes {v : Slice UInt8} (h : (elements v).length ≤ maxInt32) :
    Encodes (putBytes v) (4 + (elements v).length) := by
  rw [putBytes, if_neg (Nat.not_lt.mpr h)]
  exact ⟨_, rfl, by rw [List.length_append, length_putInt32]⟩

theorem encodes_array {α β : Type} {encode : β → Except WireError Bytes} {f : α → β}
    {size : α → Nat} {as : List α} (hcount : as.length ≤ maxInt32)
    (h : ∀ a ∈ as, Encodes (encode (f a)) (size a)) :
    Encodes (putArray encode (some (as.map f))) (4 + (as.map size).sum) := by
  have hparts : Encodes (inOrder ((as.map f).map encode)) (as.map size).sum := by
    rw [List.map_map]
    exact encodes_many h
  refine encodes_cons ?_ hparts
  rw [elements, Option.getD_some, List.length_map, putArrayHeader, if_neg (Nat.not_lt.mpr hcount)]
  exact ⟨_, rfl, length_putInt32 _⟩

theorem fits_of_putArray {α : Type} {encode : α → Except WireError Bytes} {as : Slice α}
    {word : Bytes} (h : putArray encode as = .ok word) :
    (elements as).length ≤ maxInt32 ∧ ∀ a ∈ elements as, ∃ bs, encode a = .ok bs := by
  obtain ⟨v, w, hv, hw, -⟩ := inOrder_cons_eq_ok h
  refine ⟨Nat.not_lt.mp (putArrayHeader_eq_ok hv).1, fun a ha => ?_⟩
  exact exists_ok_of_mem hw (List.mem_map_of_mem ha)

theorem arrayHeader_append {n : Nat} {bs : Bytes} (hput : putArrayHeader n = .ok bs)
    (rest : Bytes) : arrayHeader (bs ++ rest) = .ok (Int32.ofNat n, rest) ∧
      ¬ Int32.ofNat n < 0 ∧ (Int32.ofNat n).toNatClampNeg = n := by
  obtain ⟨hlength, rfl⟩ := putArrayHeader_eq_ok hput
  exact ⟨int32_append _ rest, ofNat32_nonneg hlength, toNat_ofNat32 hlength⟩

theorem carries_arrayHeader (n : Nat) :
    Carries (putArrayHeader n) arrayHeader (Int32.ofNat n) := by
  intro bs hput
  obtain ⟨-, rfl⟩ := putArrayHeader_eq_ok hput
  exact readsAs_int32 _

theorem carries_readArrayHeader {n : Nat} (h : n ≤ maxRequestElements) :
    Carries (putArrayHeader n) readArrayHeader (Int32.ofNat n) := by
  intro bs hput
  obtain ⟨hlength, rfl⟩ := putArrayHeader_eq_ok hput
  rw [← List.append_nil (putInt32 _)]
  apply (readsAs_int32 _).bind
  rw [toNat_ofNat32 hlength, if_neg (Nat.not_lt.mpr h)]
  exact .pure _

theorem carries_array {α β : Type} {encode : α → Except WireError Bytes} {header : Decoder Int32}
    {decode : Decoder β} {f : α → β} {s : Slice α}
    (hheader : Carries (putArrayHeader (elements s).length) header
      (Int32.ofNat (elements s).length))
    (h : ∀ a ∈ elements s, Carries (encode a) decode (f a)) :
    Carries (putArray encode s) (readArray header decode) (some ((elements s).map f)) := by
  intro word hword
  obtain ⟨v, w, hv, hw, rfl⟩ := inOrder_cons_eq_ok hword
  obtain ⟨hlength, -⟩ := putArrayHeader_eq_ok hv
  apply (hheader v hv).bind
  rw [if_neg (ofNat32_nonneg hlength), toNat_ofNat32 hlength]
  exact (carries_many h w hw).map some

end MiniKafka.WireCodec
