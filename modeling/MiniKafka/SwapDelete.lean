import Mathlib.Data.List.Perm.Basic
import Mathlib.Data.List.Basic

/-!
Slices over an array, and deletion by moving the last element into the gap.

The array is the list of its cells up to the capacity.  A slice shows the first
of them; who holds an older header of the same array sees the cells as they
are now.
-/

namespace MiniKafka.SwapDelete

structure Slice (α : Type) where
  cells : List α
  length : Nat
  within : length ≤ cells.length
  deriving DecidableEq, Repr

section

variable {α : Type}

def Slice.empty : Slice α := ⟨[], 0, Nat.le_refl 0⟩

def Slice.visible (s : Slice α) : List α := s.cells.take s.length

/-- Append in place where the array has a cell left, and to a copy where it has
none.  The spare cells of a copy are not kept. -/
def Slice.push (s : Slice α) (x : α) : Slice α :=
  if h : s.length < s.cells.length then
    ⟨s.cells.set s.length x, s.length + 1, by rw [List.length_set]; exact h⟩
  else ⟨s.visible ++ [x], s.visible.length + 1, by simp⟩

/-- Move the last element to place `i`, clear its cell and shorten the slice. -/
def Slice.swapDelete (blank : α) (s : Slice α) (i : Nat) : Slice α where
  cells := (s.cells.set i (s.cells.getD (s.length - 1) blank)).set (s.length - 1) blank
  length := s.length - 1
  within := by
    have := s.within
    rw [List.length_set, List.length_set]
    omega

def Slice.remove [BEq α] (blank : α) (s : Slice α) (x : α) : Option (Slice α) :=
  (s.visible.idxOf? x).map (s.swapDelete blank)

@[simp] theorem visible_empty : (Slice.empty : Slice α).visible = [] := rfl

@[simp] theorem length_visible (s : Slice α) : s.visible.length = s.length := by
  rw [Slice.visible, List.length_take]
  exact Nat.min_eq_left s.within

theorem getElem?_visible (s : Slice α) {j : Nat} (h : j < s.length) :
    s.visible[j]? = s.cells[j]? := List.getElem?_take_of_lt h

theorem mem_visible_iff {s : Slice α} {x : α} :
    x ∈ s.visible ↔ ∃ j, j < s.length ∧ s.cells[j]? = some x := by
  rw [List.mem_iff_getElem?]
  constructor
  · rintro ⟨j, hj⟩
    have hlt : j < s.length := by
      rw [← length_visible]
      exact (List.getElem?_eq_some_iff.mp hj).1
    exact ⟨j, hlt, by rw [← getElem?_visible s hlt, hj]⟩
  · rintro ⟨j, hlt, hj⟩
    exact ⟨j, by rw [getElem?_visible s hlt, hj]⟩

theorem visible_push (s : Slice α) (x : α) : (s.push x).visible = s.visible ++ [x] := by
  rw [Slice.push]
  split
  · rename_i h
    rw [Slice.visible, Slice.visible, List.take_add_one, List.getElem?_set_self h,
      List.take_set_of_le (Nat.le_refl _)]
    rfl
  · rw [Slice.visible]
    exact List.take_of_length_le (by simp)

section

variable {blank : α} {s : Slice α} {i : Nat}

theorem getElem?_swapDelete (hi : i < s.length) {j : Nat} (hj : j < s.length - 1) :
    (s.swapDelete blank i).cells[j]? =
      if j = i then s.cells[s.length - 1]? else s.cells[j]? := by
  have hwithin := s.within
  rw [Slice.swapDelete, List.getElem?_set_ne (by omega), List.getElem?_set]
  by_cases h : i = j
  · rw [if_pos h, if_pos h.symm, if_pos (by omega), List.getD_eq_getElem?_getD,
      List.getElem?_eq_getElem (by omega)]
    rfl
  · rw [if_neg h, if_neg (Ne.symm h)]

theorem swapDelete_perm (hi : i < s.length) {x : α} (hx : s.cells[i]? = some x) :
    s.visible.Perm (x :: (s.swapDelete blank i).visible) := by
  have hwithin := s.within
  -- the visible part is what stays in place, followed by the element that moves
  have hvisibleLength := length_visible s
  obtain hnil | ⟨kept, last, hvisible⟩ := List.eq_nil_or_concat' s.visible
  · rw [hnil, List.length_nil] at hvisibleLength
    omega
  have hlength : kept.length = s.length - 1 := by
    rw [hvisible, List.length_append, List.length_singleton] at hvisibleLength
    omega
  have hat (j : Nat) (hj : j < s.length) : s.cells[j]? = (kept ++ [last])[j]? := by
    rw [← hvisible, getElem?_visible s hj]
  have hlast : s.cells[s.length - 1]? = some last := by
    rw [hat _ (by omega), ← hlength]
    simp
  have hnew : (s.swapDelete blank i).visible = kept.set i last := by
    apply List.ext_getElem?
    intro j
    by_cases hj : j < s.length - 1
    · rw [getElem?_visible _ hj, getElem?_swapDelete hi hj, List.getElem?_set]
      by_cases h : i = j
      · rw [if_pos h.symm, if_pos h, if_pos (by omega), hlast]
      · rw [if_neg (Ne.symm h), if_neg h, hat j (by omega),
          List.getElem?_append_left (by omega)]
    · rw [List.getElem?_eq_none (by rw [length_visible]; exact Nat.le_of_not_lt hj),
        List.getElem?_eq_none (by rw [List.length_set]; omega)]
  rw [hnew, hvisible]
  rw [hat i hi] at hx
  by_cases h : i < kept.length
  · rw [List.getElem?_append_left h, List.getElem?_eq_getElem h] at hx
    obtain rfl := Option.some.inj hx
    calc
      List.Perm (kept ++ [last]) (last :: kept) := List.perm_append_singleton last kept
      List.Perm _ (last :: kept[i] :: kept.eraseIdx i) :=
        (List.getElem_cons_eraseIdx_perm h).symm.cons last
      List.Perm _ (kept[i] :: last :: kept.eraseIdx i) := List.Perm.swap ..
      List.Perm _ (kept[i] :: kept.set i last) := (List.set_perm_cons_eraseIdx h last).symm.cons _
  · obtain rfl : i = kept.length := by omega
    rw [List.getElem?_concat_length] at hx
    obtain rfl := Option.some.inj hx
    rw [List.set_eq_of_length_le (Nat.le_refl _)]
    exact List.perm_append_singleton last kept

end

section

variable [BEq α] [LawfulBEq α] {blank : α} {s t : Slice α} {x : α}

theorem remove_eq_none_iff : s.remove blank x = none ↔ x ∉ s.visible := by
  rw [Slice.remove, Option.map_eq_none_iff, List.idxOf?_eq_none_iff]

theorem idxOf?_visible {i : Nat} (h : s.visible.idxOf? x = some i) :
    i < s.length ∧ s.cells[i]? = some x ∧ ∀ j, j < i → s.cells[j]? ≠ some x := by
  obtain ⟨hlt, hx, hfirst⟩ := List.idxOf?_eq_some_iff.mp h
  have hi := hlt
  rw [length_visible] at hi
  refine ⟨hi, ?_, fun j hj hat => ?_⟩
  · rw [← getElem?_visible s hi, List.getElem?_eq_getElem hlt, hx]
  · rw [← getElem?_visible s (by omega), List.getElem?_eq_getElem (by omega)] at hat
    exact hfirst j hj (Option.some.inj hat)

theorem remove_perm (h : s.remove blank x = some t) : s.visible.Perm (x :: t.visible) := by
  rw [Slice.remove, Option.map_eq_some_iff] at h
  obtain ⟨i, hindex, rfl⟩ := h
  obtain ⟨hi, hx, -⟩ := idxOf?_visible hindex
  exact swapDelete_perm hi hx

end

end

end MiniKafka.SwapDelete
