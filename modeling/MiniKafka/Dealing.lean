import Mathlib.Data.List.Nodup
import Mathlib.Data.List.Range
import Mathlib.Logic.Function.Basic

/-!
Items dealt to owners, one after the other.

Each hand names an owner, a heading and an item; the owner keeps the items under
each heading in the order in which they were dealt.  Where the items of the hands
are distinct, an item has one owner.
-/

namespace MiniKafka.Dealing

section

variable {ω κ α : Type} [DecidableEq ω] [DecidableEq κ]

def place (holdings : ω → κ → List α) (hand : ω × κ × α) : ω → κ → List α :=
  Function.update holdings hand.1
    (Function.update (holdings hand.1) hand.2.1 (holdings hand.1 hand.2.1 ++ [hand.2.2]))

def deal (hands : List (ω × κ × α)) : ω → κ → List α := hands.foldl place fun _ _ => []

theorem place_apply (holdings : ω → κ → List α) (hand : ω × κ × α) (o : ω) (k : κ) :
    place holdings hand o k =
      holdings o k ++ if hand.1 = o ∧ hand.2.1 = k then [hand.2.2] else [] := by
  rw [place]
  by_cases ho : hand.1 = o
  · subst ho
    rw [Function.update_self]
    by_cases hk : hand.2.1 = k
    · subst hk
      rw [Function.update_self, if_pos ⟨rfl, rfl⟩]
    · rw [Function.update_of_ne (Ne.symm hk), if_neg (fun h => hk h.2), List.append_nil]
  · rw [Function.update_of_ne (Ne.symm ho), if_neg (fun h => ho h.1), List.append_nil]

theorem foldl_place (hands : List (ω × κ × α)) (holdings : ω → κ → List α) (o : ω) (k : κ) :
    hands.foldl place holdings o k =
      holdings o k ++ (hands.filter fun hand => hand.1 = o ∧ hand.2.1 = k).map fun hand =>
        hand.2.2 := by
  induction hands generalizing holdings with
  | nil => simp
  | cons hand hands ih =>
    rw [List.foldl_cons, ih, place_apply, List.filter_cons]
    by_cases h : hand.1 = o ∧ hand.2.1 = k
    · simp [h]
    · simp [h]

theorem deal_apply (hands : List (ω × κ × α)) (o : ω) (k : κ) :
    deal hands o k =
      (hands.filter fun hand => hand.1 = o ∧ hand.2.1 = k).map fun hand => hand.2.2 := by
  rw [deal, foldl_place, List.nil_append]

theorem mem_deal {hands : List (ω × κ × α)} {o : ω} {k : κ} {a : α} :
    a ∈ deal hands o k ↔ (o, k, a) ∈ hands := by
  rw [deal_apply]
  simp only [List.mem_map, List.mem_filter, decide_eq_true_eq]
  constructor
  · rintro ⟨⟨o', k', a'⟩, ⟨hmem, rfl, rfl⟩, rfl⟩
    exact hmem
  · intro hmem
    exact ⟨_, ⟨hmem, rfl, rfl⟩, rfl⟩

theorem nodup_deal {hands : List (ω × κ × α)} (h : (hands.map Prod.snd).Nodup) (o : ω) (k : κ) :
    (deal hands o k).Nodup := by
  rw [deal_apply]
  refine (h.of_map.filter _).map_on ?_
  rintro ⟨o₁, k₁, a₁⟩ h₁ ⟨o₂, k₂, a₂⟩ h₂ heq
  simp only [List.mem_filter, decide_eq_true_eq] at h₁ h₂
  obtain ⟨-, rfl, rfl⟩ := h₁
  obtain ⟨-, rfl, rfl⟩ := h₂
  exact congrArg _ (congrArg _ heq)

theorem deal_flatMap {β : Type} (xs : List β) (hands : β → List (ω × κ × α)) (o : ω) (k : κ) :
    deal (xs.flatMap hands) o k = xs.flatMap fun x => deal (hands x) o k := by
  simp only [deal_apply, List.filter_flatMap, List.map_flatMap]

theorem deal_map {β : Type} (items : List β) (f : β → α) (o o' : ω) (k k' : κ) :
    deal (items.map fun x => (o', k', f x)) o k =
      if o' = o ∧ k' = k then items.map f else [] := by
  rw [deal_apply, List.filter_map, List.map_map]
  by_cases h : o' = o ∧ k' = k
  · rw [if_pos h, List.filter_eq_self.mpr]
    · rfl
    · exact fun x _ => decide_eq_true h
  · rw [if_neg h, List.filter_eq_nil_iff.mpr, List.map_nil]
    exact fun x _ hx => h (of_decide_eq_true hx)

end

theorem flatMap_eq_of_unique {β γ : Type} {l : List β} {f : β → List γ} {a : β} (hnodup : l.Nodup)
    (ha : a ∈ l) (h : ∀ b ∈ l, b ≠ a → f b = []) : l.flatMap f = f a := by
  obtain ⟨before, after, rfl⟩ := List.append_of_mem ha
  obtain ⟨-, hafter, hbefore⟩ := List.nodup_append.mp hnodup
  have hfirst : before.flatMap f = [] := by
    refine List.flatMap_eq_nil_iff.mpr fun b hb => h b (List.mem_append_left _ hb) ?_
    exact hbefore b hb a List.mem_cons_self
  have hlast : after.flatMap f = [] := by
    refine List.flatMap_eq_nil_iff.mpr fun b hb => h b (by simp [hb]) ?_
    rintro rfl
    exact (List.nodup_cons.mp hafter).1 hb
  rw [List.flatMap_append, List.flatMap_cons, hfirst, hlast, List.nil_append, List.append_nil]

theorem owner_unique {ω β : Type} {hands : List (ω × β)} (h : (hands.map Prod.snd).Nodup) {o o' : ω}
    {x : β} (ho : (o, x) ∈ hands) (ho' : (o', x) ∈ hands) : o = o' :=
  (Prod.mk.inj (List.inj_on_of_nodup_map h ho ho' rfl)).1

/-- The shares of `k` owners, of `q` items each and one more for the first `r`, are
the items in order. -/
theorem shares_tile (q r k : Nat) :
    ((List.range k).flatMap fun i => List.range' (q * i + min i r) (q + if i < r then 1 else 0)) =
      List.range (q * k + min k r) := by
  induction k with
  | zero => simp
  | succ k ih =>
    have hlength : q * (k + 1) + min (k + 1) r =
        q * k + min k r + (q + if k < r then 1 else 0) := by
      rw [Nat.mul_succ]
      split <;> omega
    rw [List.range_succ, List.flatMap_append, ih, List.flatMap_singleton, hlength]
    generalize q * k + min k r = n
    rw [List.range_add, List.range'_eq_map_range]

end MiniKafka.Dealing
