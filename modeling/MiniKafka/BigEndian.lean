import Mathlib.Data.Nat.Basic
import Mathlib.Tactic.Ring

/-!
Fixed-width big-endian words over byte lists.

Every wire and disk format of the development writes its integers most
significant byte first.  The codec is stated once for an arbitrary width; the
32-bit and 64-bit words are instances of it.
-/

namespace MiniKafka.BigEndian

abbrev Bytes := List UInt8

/-- The `width` low bytes of `n`, most significant byte first. -/
def putBE : Nat → Nat → Bytes
  | 0, _ => []
  | width + 1, n => UInt8.ofNat (n / 256 ^ width) :: putBE width n

def getBE : Bytes → Nat
  | [] => 0
  | b :: bs => b.toNat * 256 ^ bs.length + getBE bs

@[simp] theorem length_putBE (width n : Nat) : (putBE width n).length = width := by
  induction width with
  | zero => rfl
  | succ width ih => simp [putBE, ih]

theorem getBE_putBE (width n : Nat) : getBE (putBE width n) = n % 256 ^ width := by
  induction width with
  | zero => simp [putBE, getBE, Nat.mod_one]
  | succ width ih =>
    simp only [putBE, getBE, length_putBE, ih, UInt8.toNat_ofNat']
    have hsplit := Nat.mod_mul (x := n) (a := 256 ^ width) (b := 256)
    rw [show (256 : Nat) ^ (width + 1) = 256 ^ width * 256 from pow_succ _ _, hsplit]
    ring

theorem getBE_putBE_of_lt {width n : Nat} (h : n < 256 ^ width) :
    getBE (putBE width n) = n := by
  rw [getBE_putBE, Nat.mod_eq_of_lt h]

theorem getBE_lt (bs : Bytes) : getBE bs < 256 ^ bs.length := by
  induction bs with
  | nil => simp [getBE]
  | cons b bs ih =>
    have hb : b.toNat < 256 := b.toNat_lt
    calc
      getBE (b :: bs) = b.toNat * 256 ^ bs.length + getBE bs := rfl
      _ < b.toNat * 256 ^ bs.length + 256 ^ bs.length := by omega
      _ = (b.toNat + 1) * 256 ^ bs.length := by ring
      _ ≤ 256 * 256 ^ bs.length := Nat.mul_le_mul_right _ hb
      _ = 256 ^ (b :: bs).length := by rw [List.length_cons, pow_succ, Nat.mul_comm]

theorem getBE_inj {bs cs : Bytes} (hlength : bs.length = cs.length) (h : getBE bs = getBE cs) :
    bs = cs := by
  induction bs generalizing cs with
  | nil => exact (List.length_eq_zero_iff.mp hlength.symm).symm
  | cons b bs ih =>
    rcases cs with _ | ⟨c, cs⟩
    · simp at hlength
    · have htail : bs.length = cs.length := by simpa using hlength
      have hpos : 0 < 256 ^ cs.length := pow_pos (by decide) _
      have hlow := getBE_lt bs
      have hlow' := getBE_lt cs
      rw [getBE, getBE, htail] at h
      rw [htail] at hlow
      have hdiv := congrArg (· / 256 ^ cs.length) h
      have hmod := congrArg (· % 256 ^ cs.length) h
      simp only [Nat.mul_comm _ (256 ^ cs.length), Nat.mul_add_div hpos, Nat.mul_add_mod,
        Nat.div_eq_of_lt hlow, Nat.div_eq_of_lt hlow', Nat.mod_eq_of_lt hlow,
        Nat.mod_eq_of_lt hlow', Nat.add_zero] at hdiv hmod
      rw [UInt8.toNat_inj.mp hdiv, ih htail hmod]

theorem putBE_getBE (bs : Bytes) : putBE bs.length (getBE bs) = bs := by
  apply getBE_inj (length_putBE _ _)
  exact getBE_putBE_of_lt (getBE_lt bs)

def putUint32 (v : UInt32) : Bytes := putBE 4 v.toNat

def getUint32 (bs : Bytes) : UInt32 := UInt32.ofNat (getBE bs)

def putUint64 (v : UInt64) : Bytes := putBE 8 v.toNat

def getUint64 (bs : Bytes) : UInt64 := UInt64.ofNat (getBE bs)

@[simp] theorem length_putUint32 (v : UInt32) : (putUint32 v).length = 4 := by
  simp [putUint32]

@[simp] theorem length_putUint64 (v : UInt64) : (putUint64 v).length = 8 := by
  simp [putUint64]

@[simp] theorem getUint32_putUint32 (v : UInt32) : getUint32 (putUint32 v) = v := by
  have hv : v.toNat < 256 ^ 4 := v.toNat_lt
  rw [getUint32, putUint32, getBE_putBE_of_lt hv, UInt32.ofNat_toNat]

@[simp] theorem getUint64_putUint64 (v : UInt64) : getUint64 (putUint64 v) = v := by
  have hv : v.toNat < 256 ^ 8 := v.toNat_lt
  rw [getUint64, putUint64, getBE_putBE_of_lt hv, UInt64.ofNat_toNat]

theorem putUint32_getUint32 {bs : Bytes} (h : bs.length = 4) : putUint32 (getUint32 bs) = bs := by
  have hlt := getBE_lt bs
  have hback := putBE_getBE bs
  rw [h] at hlt hback
  rw [putUint32, getUint32, UInt32.toNat_ofNat_of_lt' hlt, hback]

theorem putUint64_getUint64 {bs : Bytes} (h : bs.length = 8) : putUint64 (getUint64 bs) = bs := by
  have hlt := getBE_lt bs
  have hback := putBE_getBE bs
  rw [h] at hlt hback
  rw [putUint64, getUint64, UInt64.toNat_ofNat_of_lt' hlt, hback]

end MiniKafka.BigEndian
