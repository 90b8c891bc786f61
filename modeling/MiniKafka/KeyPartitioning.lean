import Mathlib.Data.Nat.ModEq
import MiniKafka.BigEndian
import MiniKafka.Murmur

/-!
Which partition a message goes to, from `internal/broker/topic.go`.

`docs/OPEN_QUESTIONS.md` promises that a key lands on the partition it has in
Kafka.
-/

namespace MiniKafka.KeyPartitioning

open BigEndian

def byteAt (data : Bytes) (i : UInt32) : UInt32 := (data.getD i.toNat 0).toUInt32

section Source

def block (data : Bytes) (i : UInt32) : UInt32 :=
  let i4 := i * 4
  byteAt data i4 ||| byteAt data (i4 + 1) <<< 8 ||| byteAt data (i4 + 2) <<< 16 |||
    byteAt data (i4 + 3) <<< 24

def addBlock (data : Bytes) (h i : UInt32) : UInt32 :=
  let m : UInt32 := 0x5bd1e995
  let r : UInt32 := 24
  let k := block data i
  let k := k * m
  let k := k ^^^ (k >>> r)
  let k := k * m
  let h := h * m
  h ^^^ k

/-- The switch on `length % 4`, whose cases fall through to the next. -/
def addTail (data : Bytes) (length h : UInt32) : UInt32 :=
  let m : UInt32 := 0x5bd1e995
  let tail := length &&& ~~~3
  let h := if length % 4 = 3 then h ^^^ (byteAt data (tail + 2) <<< 16) else h
  let h := if length % 4 = 3 ∨ length % 4 = 2 then h ^^^ (byteAt data (tail + 1) <<< 8) else h
  if length % 4 = 3 ∨ length % 4 = 2 ∨ length % 4 = 1 then (h ^^^ byteAt data tail) * m else h

def murmur2 (data : Bytes) : UInt32 :=
  let length := UInt32.ofNat data.length
  let seed : UInt32 := 0x973afb51
  let m : UInt32 := 0x5bd1e995
  let h := seed ^^^ length
  let length4 := length / 4
  let h := (List.range length4.toNat).foldl (fun h i => addBlock data h (UInt32.ofNat i)) h
  let h := addTail data length h
  let h := h ^^^ (h >>> 13)
  let h := h * m
  let h := h ^^^ (h >>> 15)
  h &&& 0x7fffffff

/-- A topic, of which partitions are chosen by their number only. -/
structure Topic where
  numPartitions : Int32
  roundRobinCounter : UInt32
  deriving DecidableEq, Repr

def Topic.partitionFor (t : Topic) (key : Bytes) : Int32 × Topic :=
  if t.numPartitions ≤ 0 then (0, t)
  else if 0 < key.length then ((murmur2 key % t.numPartitions.toUInt32).toInt32, t)
  else
    let counter := t.roundRobinCounter + 1
    (((counter - 1) % t.numPartitions.toUInt32).toInt32, { t with roundRobinCounter := counter })

end Source

/-- The vectors of `TestMurmur2_Kafka_Test_Vectors`. -/
example : [[], [97], [116, 101, 115, 116], [107, 97, 102, 107, 97],
      [109, 105, 110, 105, 45, 107, 97, 102, 107, 97]].map murmur2 =
    [590343075, 242020996, 146065218, 1519210584, 1423008314] := by
  decide +kernel

def sourceSeed : UInt32 := 0x973afb51

def kafkaSeed : UInt32 := 0x9747b28c

def hashedPartition (seed : UInt32) (numPartitions : Nat) (key : Bytes) : Nat :=
  (Murmur.murmur2 seed key &&& 0x7fffffff).toNat % numPartitions

/-- The hash of `foobar` in the tests of Kafka's own client. -/
example : (Murmur.murmur2 kafkaSeed [102, 111, 111, 98, 97, 114]).toInt32 = -790332482 := by
  decide +kernel

theorem and_not_three {n : Nat} (h : n < 2 ^ 32) :
    (UInt32.ofNat n &&& ~~~3).toNat = 4 * (n / 4) := by
  have hmask : (~~~3 : UInt32).toNat = 2 ^ 2 * (2 ^ 30 - 1) := by decide
  have hblocks : 4 * (n / 4) = 2 ^ 2 * (n / 2 ^ 2) := rfl
  rw [UInt32.toNat_and, UInt32.toNat_ofNat_of_lt' h, hmask, hblocks]
  refine Nat.eq_of_testBit_eq fun i => ?_
  rw [Nat.testBit_and, Nat.testBit_two_pow_mul, Nat.testBit_two_pow_mul,
    Nat.testBit_two_pow_sub_one, Nat.testBit_div_two_pow]
  by_cases hi : 2 ≤ i
  · have hback : i - 2 + 2 = i := by omega
    by_cases hsmall : i < 32
    · have hbit : i - 2 < 30 := by omega
      simp [hi, hback, hbit]
    · have hzero : n.testBit i = false :=
        Nat.testBit_lt_two_pow (h.trans_le (Nat.pow_le_pow_right (by omega) (by omega)))
      simp [hback, hzero]
  · simp [hi]

section

variable {pre rest : Bytes} {j : Nat}

theorem byteAt_append {i : UInt32} (hi : i.toNat = pre.length) (n : Nat)
    (hn : pre.length + n < 2 ^ 32) :
    byteAt (pre ++ rest) (i + UInt32.ofNat n) = (rest.getD n 0).toUInt32 := by
  have hplace : (i + UInt32.ofNat n).toNat = pre.length + n := by
    rw [UInt32.toNat_add, hi, UInt32.toNat_ofNat_of_lt' (by rw [UInt32.size]; omega)]
    exact Nat.mod_eq_of_lt hn
  rw [byteAt, hplace, List.getD_append_right _ _ _ _ (Nat.le_add_right _ _),
    Nat.add_sub_cancel_left]

theorem byteAt_append_zero {i : UInt32} (hi : i.toNat = pre.length) :
    byteAt (pre ++ rest) i = (rest.getD 0 0).toUInt32 := by
  rw [byteAt, hi, List.getD_append_right _ _ _ _ le_rfl, Nat.sub_self]

theorem block_append {a b c d : UInt8} (hpre : pre.length = 4 * j)
    (hlength : pre.length + 4 < 2 ^ 32) :
    block (pre ++ a :: b :: c :: d :: rest) (UInt32.ofNat j) = Murmur.word [a, b, c, d] := by
  have hfour : (4 : UInt32).toNat = 4 := rfl
  have hi4 : (UInt32.ofNat j * 4).toNat = pre.length := by
    rw [UInt32.toNat_mul, UInt32.toNat_ofNat_of_lt' (by rw [UInt32.size]; omega), hpre, hfour]
    omega
  have hb : byteAt (pre ++ a :: b :: c :: d :: rest) (UInt32.ofNat j * 4 + 1) = b.toUInt32 :=
    byteAt_append hi4 1 (by omega)
  have hc : byteAt (pre ++ a :: b :: c :: d :: rest) (UInt32.ofNat j * 4 + 2) = c.toUInt32 :=
    byteAt_append hi4 2 (by omega)
  have hd : byteAt (pre ++ a :: b :: c :: d :: rest) (UInt32.ofNat j * 4 + 3) = d.toUInt32 :=
    byteAt_append hi4 3 (by omega)
  rw [block, byteAt_append_zero hi4, hb, hc, hd]
  exact Murmur.word_eq_or a b c d

theorem addBlock_append {a b c d : UInt8} (hpre : pre.length = 4 * j)
    (hlength : pre.length + 4 < 2 ^ 32) (h : UInt32) :
    addBlock (pre ++ a :: b :: c :: d :: rest) h (UInt32.ofNat j) =
      h * Murmur.multiplier ^^^ Murmur.scramble (Murmur.word [a, b, c, d]) := by
  rw [addBlock, block_append hpre hlength]
  rfl

theorem addTail_append (hpre : pre.length = 4 * j) (hrest : rest.length < 4)
    (hlength : pre.length + rest.length < 2 ^ 32) (h : UInt32) :
    addTail (pre ++ rest) (UInt32.ofNat (pre ++ rest).length) h = Murmur.absorb h rest := by
  have htotal : (pre ++ rest).length = pre.length + rest.length := List.length_append
  have htail : (UInt32.ofNat (pre ++ rest).length &&& ~~~3).toNat = pre.length := by
    rw [and_not_three (by omega), htotal]
    omega
  have hfour : (4 : UInt32).toNat = 4 := rfl
  have hmod : UInt32.ofNat (pre ++ rest).length % 4 = UInt32.ofNat rest.length := by
    refine UInt32.toNat_inj.mp ?_
    rw [UInt32.toNat_mod, UInt32.toNat_ofNat_of_lt' (by rw [UInt32.size]; omega),
      UInt32.toNat_ofNat_of_lt' (by rw [UInt32.size]; omega), htotal, hpre, hfour]
    omega
  rw [addTail, hmod, byteAt_append_zero htail]
  generalize UInt32.ofNat (pre ++ rest).length &&& ~~~3 = tail at htail
  rcases rest with _ | ⟨a, _ | ⟨b, _ | ⟨c, _ | ⟨d, rest⟩⟩⟩⟩
  · rfl
  · rfl
  · have hb : byteAt (pre ++ [a, b]) (tail + 1) = b.toUInt32 := byteAt_append htail 1 (by omega)
    rw [hb]
    rfl
  · have hb : byteAt (pre ++ [a, b, c]) (tail + 1) = b.toUInt32 :=
      byteAt_append htail 1 (by omega)
    have hc : byteAt (pre ++ [a, b, c]) (tail + 2) = c.toUInt32 :=
      byteAt_append htail 2 (by omega)
    rw [hb, hc]
    rfl
  · simp only [List.length_cons] at hrest
    omega

/-- The loop over the blocks from number `j` on, and the switch after it. -/
def absorbFrom (data : Bytes) (j : Nat) (h : UInt32) : UInt32 :=
  addTail data (UInt32.ofNat data.length)
    ((List.range' j (data.length / 4 - j)).foldl (fun h i => addBlock data h (UInt32.ofNat i)) h)

theorem absorbFrom_tail (hpre : pre.length = 4 * j) (hrest : rest.length < 4)
    (hlength : pre.length + rest.length < 2 ^ 32) (h : UInt32) :
    absorbFrom (pre ++ rest) j h = Murmur.absorb h rest := by
  have hnone : (pre ++ rest).length / 4 - j = 0 := by
    rw [List.length_append]
    omega
  rw [absorbFrom, hnone]
  exact addTail_append hpre hrest hlength h

theorem absorbFrom_eq (hpre : pre.length = 4 * j) (hlength : pre.length + rest.length < 2 ^ 32)
    (h : UInt32) : absorbFrom (pre ++ rest) j h = Murmur.absorb h rest := by
  induction h, rest using Murmur.absorb.induct generalizing pre j with
  | case1 h a b c d rest ih =>
    simp only [List.length_cons] at hlength
    have hblocks : (pre ++ a :: b :: c :: d :: rest).length / 4 - j =
        (pre ++ a :: b :: c :: d :: rest).length / 4 - (j + 1) + 1 := by
      simp only [List.length_append, List.length_cons]
      omega
    have hmove : pre ++ a :: b :: c :: d :: rest = (pre ++ [a, b, c, d]) ++ rest := by simp
    have hnext : (pre ++ [a, b, c, d]).length = 4 * (j + 1) := by
      rw [List.length_append, hpre]
      rfl
    rw [absorbFrom, hblocks, List.range'_succ, List.foldl_cons, addBlock_append hpre (by omega),
      Murmur.absorb, ← ih hnext (by rw [hnext]; omega), hmove]
    rfl
  | case2 | case3 | case4 | case5 => exact absorbFrom_tail hpre (by simp) hlength _

end

/-- The source is murmur2 with its own seed. -/
theorem murmur2_eq {data : Bytes} (h : data.length < 2 ^ 32) :
    murmur2 data = Murmur.murmur2 sourceSeed data &&& 0x7fffffff := by
  have hblocks : (UInt32.ofNat data.length / 4).toNat = data.length / 4 := by
    rw [UInt32.toNat_div, UInt32.toNat_ofNat_of_lt' h]
    rfl
  have habsorb : absorbFrom ([] ++ data) 0 (sourceSeed ^^^ UInt32.ofNat data.length) = _ :=
    absorbFrom_eq rfl (by simpa using h) _
  rw [List.nil_append, absorbFrom, Nat.sub_zero, ← List.range_eq_range'] at habsorb
  rw [murmur2, hblocks, Murmur.murmur2, ← habsorb]
  rfl

theorem toInt_partitionFor {t : Topic} {key : Bytes} (h : 1 ≤ t.numPartitions) (hkey : key ≠ []) :
    (t.partitionFor key).1.toInt = ((murmur2 key).toNat % t.numPartitions.toNatClampNeg : Nat) := by
  have hone : (1 : Int32).toInt = 1 := rfl
  rw [Int32.le_iff_toInt_le, hone] at h
  have hpositive : ¬ t.numPartitions ≤ 0 := by
    rw [Int32.le_iff_toInt_le, Int32.toInt_zero]
    omega
  have hcount : t.numPartitions.toUInt32.toNat = t.numPartitions.toNatClampNeg := by
    apply Int32.toNat_toUInt32_of_le
    rw [Int32.le_iff_toInt_le, Int32.toInt_zero]
    omega
  have hlt : (murmur2 key).toNat % t.numPartitions.toNatClampNeg < 2 ^ 31 := by
    have hn := t.numPartitions.toInt_lt
    have hmod := Nat.mod_lt (murmur2 key).toNat (y := t.numPartitions.toNatClampNeg) (by
      rw [Int32.toNatClampNeg]
      omega)
    rw [Int32.toNatClampNeg] at hmod ⊢
    omega
  have hvalue : murmur2 key % t.numPartitions.toUInt32 =
      UInt32.ofNat ((murmur2 key).toNat % t.numPartitions.toNatClampNeg) := by
    rw [← hcount, ← UInt32.toNat_mod, UInt32.ofNat_toNat]
  rw [Topic.partitionFor, if_neg hpositive, if_pos (List.length_pos_of_ne_nil hkey), hvalue]
  exact Int32.toInt_ofNat_of_lt hlt

theorem eq_one_of_agreement {n : Nat}
    (h : ∀ key : Bytes, key ≠ [] →
      (murmur2 key).toNat % n = (Murmur.murmur2 kafkaSeed key &&& 0x7fffffff).toNat % n) :
    n = 1 := by
  have ha : 242020996 ≡ 584102524 [MOD n] := h [97] (by decide)
  have hf : 443507858 ≡ 55990575 [MOD n] := h [102] (by decide)
  have hdvd : n ∣ Nat.gcd (584102524 - 242020996) (443507858 - 55990575) :=
    Nat.dvd_gcd ((Nat.modEq_iff_dvd' (by decide)).mp ha)
      ((Nat.modEq_iff_dvd' (by decide)).mp hf.symm)
  have hgcd : Nat.gcd (584102524 - 242020996) (443507858 - 55990575) = 1 := by decide
  rw [hgcd] at hdvd
  exact Nat.dvd_one.mp hdvd

/-- Keys land where murmur2 puts them with the seed of the source, and where Kafka
puts them only if there is a single partition. -/
theorem lands_as_in_kafka_iff {t : Topic} (h : 1 ≤ t.numPartitions) :
    (∀ key : Bytes, key ≠ [] → key.length < 2 ^ 32 → (t.partitionFor key).1.toInt =
      hashedPartition sourceSeed t.numPartitions.toNatClampNeg key) ∧
    ((∀ key : Bytes, key ≠ [] → (t.partitionFor key).1.toInt =
      hashedPartition kafkaSeed t.numPartitions.toNatClampNeg key) ↔ t.numPartitions = 1) := by
  constructor
  · intro key hkey hlength
    rw [toInt_partitionFor h hkey, murmur2_eq hlength, hashedPartition]
  · constructor
    · intro hkafka
      have hcount : t.numPartitions.toNatClampNeg = 1 := by
        apply eq_one_of_agreement
        intro key hkey
        have hland := hkafka key hkey
        rw [toInt_partitionFor h hkey, hashedPartition] at hland
        exact Int.ofNat_inj.mp hland
      refine Int32.toInt_inj.mp ?_
      rw [Int32.toNatClampNeg] at hcount
      rw [show (1 : Int32).toInt = 1 from rfl]
      omega
    · intro hone key hkey
      have hcount : t.numPartitions.toNatClampNeg = 1 := by
        rw [hone]
        rfl
      rw [toInt_partitionFor h hkey, hashedPartition, hcount, Nat.mod_one, Nat.mod_one]

theorem lands_as_in_kafka_iff_onePartition :
    (1 : Int32) ≤ (⟨1, 0⟩ : Topic).numPartitions ∧
      ∀ key : Bytes, key ≠ [] → ((⟨1, 0⟩ : Topic).partitionFor key).1.toInt =
        hashedPartition kafkaSeed 1 key := by
  have h : (1 : Int32) ≤ (⟨1, 0⟩ : Topic).numPartitions := by decide
  exact ⟨h, (lands_as_in_kafka_iff h).2.mpr rfl⟩

/-- Of three partitions the key `f` gets the last one, and in Kafka the first. -/
theorem key_lands_elsewhere :
    (1 : Int32) ≤ (⟨3, 0⟩ : Topic).numPartitions ∧
      ((⟨3, 0⟩ : Topic).partitionFor [102]).1.toInt = 2 ∧
      hashedPartition kafkaSeed (⟨3, 0⟩ : Topic).numPartitions.toNatClampNeg [102] = 0 :=
  ⟨by decide, by decide +kernel, by decide +kernel⟩

end MiniKafka.KeyPartitioning
