import Mathlib.Algebra.Order.Ring.Int

/-!
Instants and durations on a nanosecond clock.

An instant is a number of nanoseconds and a duration a 64-bit count of them.
The distance of two instants saturates; scaling a count of milliseconds wraps.
-/

namespace MiniKafka.Durations

/-- `t.Sub(u)`: the distance from `u` to `t`, cut to the range of a duration. -/
def elapsed (t u : Int) : Int64 := Int64.ofInt (max (-2 ^ 63) (min (2 ^ 63 - 1) (t - u)))

def milliseconds (ms : Int64) : Int64 := ms * 1000000

theorem toInt_elapsed (t u : Int) :
    (elapsed t u).toInt = max (-2 ^ 63) (min (2 ^ 63 - 1) (t - u)) :=
  Int64.toInt_ofInt_of_le (by omega) (by omega)

theorem elapsed_mono {t t' : Int} (h : t ≤ t') (u : Int) :
    (elapsed t u).toInt ≤ (elapsed t' u).toInt := by
  rw [toInt_elapsed, toInt_elapsed]
  omega

theorem elapsed_nonneg {t u : Int} (h : u ≤ t) : 0 ≤ (elapsed t u).toInt := by
  rw [toInt_elapsed]
  omega

@[simp] theorem elapsed_self (t : Int) : elapsed t t = 0 := by
  rw [← Int64.toInt_inj, toInt_elapsed, Int64.toInt_zero]
  omega

def longest : Int := 2 ^ 63 - 1

/-- The largest count of milliseconds whose nanoseconds are a duration. -/
def maxMilliseconds : Int64 := 9223372036854

section

variable {ms : Int64}

theorem toInt_milliseconds (ms : Int64) :
    (milliseconds ms).toInt = (ms.toInt * 1000000).bmod (2 ^ 64) := by
  rw [milliseconds, Int64.toInt_mul]
  rfl

/-- The scaled count is even, so it is not the longest duration. -/
theorem milliseconds_lt_longest (ms : Int64) : milliseconds ms < elapsed longest 0 := by
  rw [Int64.lt_iff_toInt_lt, toInt_elapsed, toInt_milliseconds, Int.bmod_def, longest]
  omega

theorem le_maxMilliseconds_iff : ms ≤ maxMilliseconds ↔ ms.toInt * 1000000 ≤ longest := by
  have hmax : maxMilliseconds.toInt = 9223372036854 := rfl
  rw [Int64.le_iff_toInt_le, longest]
  omega

theorem toInt_milliseconds_of_le (hpos : 0 < ms) (hle : ms ≤ maxMilliseconds) :
    (milliseconds ms).toInt = ms.toInt * 1000000 := by
  rw [Int64.lt_iff_toInt_lt, Int64.toInt_zero] at hpos
  rw [le_maxMilliseconds_iff, longest] at hle
  rw [toInt_milliseconds, Int.bmod_eq_of_le (by omega) (by omega)]

theorem milliseconds_le_elapsed_iff (hpos : 0 < ms) (hle : ms ≤ maxMilliseconds) (t u : Int) :
    milliseconds ms ≤ elapsed t u ↔ ms.toInt * 1000000 ≤ t - u := by
  rw [Int64.le_iff_toInt_le, toInt_elapsed, toInt_milliseconds_of_le hpos hle]
  rw [Int64.lt_iff_toInt_lt, Int64.toInt_zero] at hpos
  rw [le_maxMilliseconds_iff, longest] at hle
  omega

theorem milliseconds_lt_elapsed_iff (hpos : 0 < ms) (hle : ms ≤ maxMilliseconds) (t u : Int) :
    milliseconds ms < elapsed t u ↔ ms.toInt * 1000000 < t - u := by
  rw [Int64.lt_iff_toInt_lt, toInt_elapsed, toInt_milliseconds_of_le hpos hle]
  rw [Int64.lt_iff_toInt_lt, Int64.toInt_zero] at hpos
  rw [le_maxMilliseconds_iff, longest] at hle
  omega

end

end MiniKafka.Durations
