import Mathlib.Data.Nat.Basic

/-!
Binary search for the first index of a range at which a predicate holds.
-/

namespace MiniKafka.BinarySearch

/-- Halve the interval `[i, j)` until it is empty.  `fuel` bounds the number
of rounds. -/
def searchLoop (f : Nat → Bool) : Nat → Nat → Nat → Nat
  | 0, i, _ => i
  | fuel + 1, i, j =>
    if i < j then
      let h := (i + j) / 2
      if f h then searchLoop f fuel i h else searchLoop f fuel (h + 1) j
    else i

def search (n : Nat) (f : Nat → Bool) : Nat :=
  searchLoop f n 0 n

def Monotone (n : Nat) (f : Nat → Bool) : Prop :=
  ∀ i j, i ≤ j → j < n → f i = true → f j = true

theorem searchLoop_spec {n : Nat} {f : Nat → Bool} (hf : Monotone n f)
    (fuel i j : Nat) (hfuel : j - i ≤ fuel) (hij : i ≤ j) (hjn : j ≤ n)
    (hlow : ∀ k, k < i → f k = false) (hhigh : ∀ k, j ≤ k → k < n → f k = true) :
    searchLoop f fuel i j ≤ n ∧ (∀ k, k < searchLoop f fuel i j → f k = false) ∧
      ∀ k, searchLoop f fuel i j ≤ k → k < n → f k = true := by
  induction fuel generalizing i j with
  | zero =>
    have heq : i = j := by omega
    subst j
    exact ⟨hjn, hlow, hhigh⟩
  | succ fuel ih =>
    simp only [searchLoop]
    by_cases hlt : i < j
    · rw [if_pos hlt]
      by_cases hmid : f ((i + j) / 2) = true
      · rw [if_pos hmid]
        apply ih i ((i + j) / 2) (by omega) (by omega) (by omega) hlow
        intro k hk hkn
        exact hf _ k hk hkn hmid
      · rw [if_neg hmid]
        apply ih ((i + j) / 2 + 1) j (by omega) (by omega) hjn ?_ hhigh
        intro k hk
        by_contra hne
        have hk' : f k = true := by simpa using hne
        exact hmid (hf k _ (by omega) (by omega) hk')
    · rw [if_neg hlt]
      have heq : i = j := by omega
      subst j
      exact ⟨hjn, hlow, hhigh⟩

/-- On a monotone predicate the search returns the first index at which it
holds, and `n` when there is none. -/
theorem search_spec {n : Nat} {f : Nat → Bool} (hf : Monotone n f) :
    search n f ≤ n ∧ (∀ k, k < search n f → f k = false) ∧
      ∀ k, search n f ≤ k → k < n → f k = true := by
  apply searchLoop_spec hf n 0 n (by omega) (by omega) le_rfl
  · intro k hk
    omega
  · intro k hk hkn
    omega

end MiniKafka.BinarySearch
