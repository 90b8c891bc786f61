import Mathlib.Data.List.Induction
import Mathlib.Logic.Function.Basic

/-!
Maps that are written key by key, and the lists of writes that lead to them.

A map may be kept beside several journals of writes that are read back one
after the other.  What is read back at a key is its last write, as long as the
writes of the key are not spread over journals.
-/

namespace MiniKafka.LastWrite

section

variable {κ ν : Type} [DecidableEq κ]

def overwrite (m : κ → Option ν) (writes : List (κ × ν)) : κ → Option ν :=
  writes.foldl (fun m w => Function.update m w.1 (some w.2)) m

def latest (writes : List (κ × ν)) : κ → Option ν := overwrite (fun _ => none) writes

theorem overwrite_append (m : κ → Option ν) (xs ys : List (κ × ν)) :
    overwrite m (xs ++ ys) = overwrite (overwrite m xs) ys := List.foldl_append

theorem overwrite_apply (m : κ → Option ν) (writes : List (κ × ν)) (k : κ) :
    overwrite m writes k = (latest writes k).or (m k) := by
  induction writes using List.reverseRecOn with
  | nil => rfl
  | append_singleton ws w ih =>
    rw [latest, overwrite_append, overwrite_append]
    change Function.update (overwrite m ws) w.1 (some w.2) k =
      (Function.update (latest ws) w.1 (some w.2) k).or (m k)
    by_cases h : k = w.1
    · rw [h, Function.update_self, Function.update_self, Option.some_or]
    · rw [Function.update_of_ne h, Function.update_of_ne h, ih]

@[simp] theorem latest_singleton (k : κ) (v : ν) :
    latest [(k, v)] = Function.update (fun _ => none) k (some v) := rfl

theorem latest_append (xs ys : List (κ × ν)) (k : κ) :
    latest (xs ++ ys) k = (latest ys k).or (latest xs k) := by
  rw [latest, overwrite_append, overwrite_apply]
  rfl

theorem latest_concat (writes : List (κ × ν)) (k : κ) (v : ν) :
    latest (writes ++ [(k, v)]) = Function.update (latest writes) k (some v) := by
  rw [latest, overwrite_append]
  rfl

theorem latest_map (keys : List κ) (f : κ → ν) (k : κ) :
    latest (keys.map fun key => (key, f key)) k = if k ∈ keys then some (f k) else none := by
  induction keys using List.reverseRecOn with
  | nil => rfl
  | append_singleton keys key ih =>
    rw [List.map_append, List.map_singleton, latest_concat]
    by_cases h : k = key
    · rw [h, Function.update_self, if_pos (by simp)]
    · rw [Function.update_of_ne h, ih]
      simp [h]

theorem latest_eq_none {writes : List (κ × ν)} {k : κ} (h : ∀ w ∈ writes, w.1 ≠ k) :
    latest writes k = none := by
  induction writes using List.reverseRecOn with
  | nil => rfl
  | append_singleton ws w ih =>
    rw [show w = (w.1, w.2) from rfl, latest_concat,
      Function.update_of_ne (Ne.symm (h w (by simp)))]
    exact ih fun u hu => h u (by simp [hu])

theorem latest_replace (writes : List (κ × ν)) (k : κ) (v : ν) :
    latest ((writes.filter fun w => decide (w.1 ≠ k)) ++ [(k, v)]) =
      Function.update (latest writes) k (some v) := by
  rw [latest_concat]
  funext k'
  by_cases hk : k' = k
  · rw [hk, Function.update_self, Function.update_self]
  · rw [Function.update_of_ne hk, Function.update_of_ne hk]
    induction writes using List.reverseRecOn with
    | nil => rfl
    | append_singleton ws w ih =>
      rw [List.filter_append, latest_append, latest_append, ih]
      congr 1
      by_cases hw : w.1 = k
      · rw [List.filter_cons_of_neg (by simp [hw])]
        exact (latest_eq_none (by simpa [hw] using Ne.symm hk)).symm
      · rw [List.filter_cons_of_pos (by simp [hw])]
        rfl

/-- `journals'` has one write more than `journals`, at the end of journal `i`. -/
def Appended (i : Nat) (w : κ × ν) (journals journals' : List (List (κ × ν))) : Prop :=
  ∃ pre writes post, journals = pre ++ writes :: post ∧ pre.length = i ∧
    journals' = pre ++ (writes ++ [w]) :: post

omit [DecidableEq κ] in
theorem appended_set {i : Nat} {w : κ × ν} {journals : List (List (κ × ν))} {writes : List (κ × ν)}
    (h : journals[i]? = some writes) : Appended i w journals (journals.set i (writes ++ [w])) := by
  obtain ⟨hi, rfl⟩ := List.getElem?_eq_some_iff.mp h
  refine ⟨journals.take i, journals[i], journals.drop (i + 1), ?_, ?_, ?_⟩
  · rw [← List.drop_eq_getElem_cons hi, List.take_append_drop]
  · rw [List.length_take, Nat.min_eq_left (Nat.le_of_lt hi)]
  · exact List.set_eq_take_append_cons_drop.trans (if_pos hi)

/-- A write shows at no other key, whichever journal it goes to. -/
theorem latest_of_appended_ne {i : Nat} {k k' : κ} {v : ν} {journals journals' : List (List (κ × ν))}
    (h : Appended i (k, v) journals journals') (hne : k' ≠ k) :
    latest journals'.flatten k' = latest journals.flatten k' := by
  obtain ⟨pre, writes, post, rfl, -, rfl⟩ := h
  simp only [List.flatten_append, List.flatten_cons, latest_append, latest_singleton,
    Function.update_of_ne hne, Option.none_or]

theorem latest_of_appended_self {i : Nat} {k : κ} {v : ν} {journals journals' : List (List (κ × ν))}
    (h : Appended i (k, v) journals journals')
    (hlater : ∀ j writes, journals[j]? = some writes → i < j → ∀ w ∈ writes, w.1 ≠ k) :
    latest journals'.flatten k = some v := by
  obtain ⟨pre, writes, post, rfl, rfl, rfl⟩ := h
  have hnone : latest post.flatten k = none := by
    apply latest_eq_none
    intro w hw
    obtain ⟨ws, hws, hmem⟩ := List.mem_flatten.mp hw
    obtain ⟨j, hj, rfl⟩ := List.getElem_of_mem hws
    refine hlater (pre.length + (j + 1)) post[j] ?_ (by omega) w hmem
    rw [List.getElem?_append_right (by omega), Nat.add_sub_cancel_left, List.getElem?_cons_succ,
      List.getElem?_eq_getElem hj]
  simp only [List.flatten_append, List.flatten_cons, latest_append, latest_singleton,
    Function.update_self, hnone, Option.none_or, Option.some_or]

omit [DecidableEq κ] in
theorem mem_of_appended {i : Nat} {w : κ × ν} {journals journals' : List (List (κ × ν))}
    (h : Appended i w journals journals') {j : Nat} {writes : List (κ × ν)}
    (hj : journals'[j]? = some writes) {u : κ × ν} (hu : u ∈ writes) :
    (j = i ∧ u = w) ∨ ∃ old, journals[j]? = some old ∧ u ∈ old := by
  obtain ⟨pre, ws, post, rfl, rfl, rfl⟩ := h
  rcases Nat.lt_trichotomy j pre.length with hlt | rfl | hgt
  · rw [List.getElem?_append_left hlt] at hj
    exact .inr ⟨writes, by rwa [List.getElem?_append_left hlt], hu⟩
  · rw [List.getElem?_append_right (Nat.le_refl _), Nat.sub_self] at hj
    obtain rfl := Option.some.inj hj
    rcases List.mem_append.mp hu with hold | hnew
    · exact .inr ⟨ws, by simp, hold⟩
    · exact .inl ⟨rfl, List.mem_singleton.mp hnew⟩
  · obtain ⟨d, rfl⟩ : ∃ d, j = pre.length + (d + 1) := ⟨j - pre.length - 1, by omega⟩
    rw [List.getElem?_append_right (by omega), Nat.add_sub_cancel_left,
      List.getElem?_cons_succ] at hj
    refine .inr ⟨writes, ?_, hu⟩
    rw [List.getElem?_append_right (by omega), Nat.add_sub_cancel_left, List.getElem?_cons_succ]
    exact hj

end

end MiniKafka.LastWrite
