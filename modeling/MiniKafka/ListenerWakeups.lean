import MiniKafka.LongPollListeners

/-!
`notifyAppended` among the `unregisterListener` calls of other fetches
(`internal/broker/broker.go`).

`notifyAppended` copies the header of a listener list under the lock and walks
over it without the lock, so it reads the array that the other calls delete
from.  A list whose last entry is gone leaves the map; here it stays with
length zero, which the later calls cannot tell apart.
-/

namespace MiniKafka.ListenerWakeups

open Runs SwapDelete LongPollListeners

/-- The list in the map, the length in the copied header and the index of the
next send.  A channel has room for one signal; `received` tells which channels
have been received from since the copy. -/
structure Walk where
  list : ListenerList
  count : Nat
  index : Nat
  pending : Channel → Bool
  received : Channel → Bool

def snapshot (list : ListenerList) (pending : Channel → Bool) : Walk :=
  ⟨list, list.length, 0, pending, fun _ => false⟩

inductive Action where
  | send
  | receive (ch : Channel)
  | unregister (ch : Channel)
  deriving DecidableEq, Repr

/-- A send on a full channel is dropped, as is one on `nil`. -/
def Walk.next (w : Walk) : Action → Option Walk
  | .send =>
    if w.index < w.count then
      match w.list.cells[w.index]? with
      | some (some ch) => some
          { w with pending := Function.update w.pending ch true, index := w.index + 1 }
      | _ => some { w with index := w.index + 1 }
    else none
  | .receive ch =>
    if w.pending ch then some
      { w with
        pending := Function.update w.pending ch false
        received := Function.update w.received ch true }
    else none
  | .unregister ch => some { w with list := (w.list.remove none (some ch)).getD w.list }

def Walk.Returned (w : Walk) : Prop := w.index = w.count

def Walk.signalled (w : Walk) (ch : Channel) : Bool := w.pending ch || w.received ch

def Walk.aheadOfLast (w : Walk) : List (Option Channel) :=
  (w.list.cells.take (w.list.length - 1)).drop w.index

/-- An `unregisterListener` that does not move a channel past the walk: the
entry it removes is still ahead, or the last entry has been reached, or the
channel of the last entry has its signal or another entry ahead. -/
def Walk.keepsAhead (w : Walk) : Action → Bool
  | .unregister ch =>
    match w.list.visible.idxOf? (some ch), w.list.cells[w.list.length - 1]? with
    | some i, some (some last) =>
      decide (w.index ≤ i) || decide (w.list.length ≤ w.index) || w.signalled last ||
        w.aheadOfLast.contains (some last)
    | _, _ => true
  | _ => true

/-- Any interleaving of the walk with the calls of other fetches. -/
def Step : Walk → Action → Walk → Prop := Guarded (fun _ _ => true) Walk.next

/-- The interleavings in which no channel is moved past the walk. -/
def OrderedStep : Walk → Action → Walk → Prop := Guarded Walk.keepsAhead Walk.next

def Walk.Ahead (w : Walk) (ch : Channel) : Prop :=
  ∃ j, w.index ≤ j ∧ j < w.list.length ∧ w.list.cells[j]? = some (some ch)

/-- Every listed channel has its signal or will be reached. -/
structure Covered (w : Walk) : Prop where
  within : w.list.length ≤ w.count
  reached : ∀ ch, some ch ∈ w.list.visible → w.signalled ch = true ∨ w.Ahead ch

section

variable {w w' : Walk} {ch c : Channel}

theorem signalled_of_pending (h : w.pending c = true) : w.signalled c = true := by
  rw [Walk.signalled, h, Bool.true_or]

theorem mem_aheadOfLast_iff : some c ∈ w.aheadOfLast ↔
    ∃ j, w.index ≤ j ∧ j < w.list.length - 1 ∧ w.list.cells[j]? = some (some c) := by
  rw [List.mem_iff_getElem?]
  constructor
  · rintro ⟨k, hk⟩
    rw [Walk.aheadOfLast, List.getElem?_drop] at hk
    have hlt : w.index + k < w.list.length - 1 := by
      have := (List.getElem?_eq_some_iff.mp hk).1
      rw [List.length_take] at this
      omega
    rw [List.getElem?_take_of_lt hlt] at hk
    exact ⟨w.index + k, Nat.le_add_right _ _, hlt, hk⟩
  · rintro ⟨j, hle, hlt, hj⟩
    refine ⟨j - w.index, ?_⟩
    rw [Walk.aheadOfLast, List.getElem?_drop, Nat.add_sub_cancel' hle,
      List.getElem?_take_of_lt hlt]
    exact hj

theorem covered_snapshot (list : ListenerList) (pending : Channel → Bool) :
    Covered (snapshot list pending) where
  within := Nat.le_refl _
  reached := by
    intro ch hmem
    obtain ⟨j, hlt, hj⟩ := mem_visible_iff.mp hmem
    exact .inr ⟨j, Nat.zero_le j, hlt, hj⟩

theorem Covered.send (h : Covered w) (hstep : w.next .send = some w') : Covered w' := by
  rw [Walk.next] at hstep
  split at hstep
  swap
  · cases hstep
  -- an entry ahead is the one that this send reaches, or is ahead of the next send
  have hahead : ∀ c, w.Ahead c → w.list.cells[w.index]? = some (some c) ∨
      ∃ j, w.index + 1 ≤ j ∧ j < w.list.length ∧ w.list.cells[j]? = some (some c) := by
    rintro c ⟨j, hle, hlt, hj⟩
    rcases Nat.eq_or_lt_of_le hle with rfl | hnext
    · exact .inl hj
    · exact .inr ⟨j, hnext, hlt, hj⟩
  split at hstep
  · rename_i ch hcell
    obtain rfl := Option.some.inj hstep
    refine ⟨h.within, fun c hmem => ?_⟩
    by_cases hc : c = ch
    · refine .inl (signalled_of_pending ?_)
      rw [hc]
      exact Function.update_self ..
    · rcases h.reached c hmem with hsignalled | hc'
      · refine .inl ?_
        rw [Walk.signalled] at hsignalled ⊢
        dsimp only
        rw [Function.update_of_ne hc]
        exact hsignalled
      · refine (hahead c hc').elim (fun hat => ?_) .inr
        rw [hcell] at hat
        exact absurd (Option.some.inj (Option.some.inj hat)).symm hc
  · rename_i hcell
    obtain rfl := Option.some.inj hstep
    refine ⟨h.within, fun c hmem => ?_⟩
    refine (h.reached c hmem).elim .inl fun hc => ?_
    exact (hahead c hc).elim (fun hat => absurd hat (hcell c)) .inr

theorem Covered.receive (h : Covered w) (hstep : w.next (.receive ch) = some w') :
    Covered w' := by
  rw [Walk.next] at hstep
  split at hstep
  · obtain rfl := Option.some.inj hstep
    refine ⟨h.within, fun c hmem => ?_⟩
    refine (h.reached c hmem).elim (fun hsignalled => .inl ?_) .inr
    rw [Walk.signalled] at hsignalled ⊢
    dsimp only
    by_cases hc : c = ch
    · rw [hc, Function.update_self, Function.update_self, Bool.or_true]
    · rw [Function.update_of_ne hc, Function.update_of_ne hc]
      exact hsignalled
  · cases hstep

theorem Covered.moved (h : Covered w) {i : Nat} (hindex : w.list.visible.idxOf? (some ch) = some i)
    (hkeeps : w.keepsAhead (.unregister ch) = true) (hi : i < w.list.length - 1)
    (hlast : w.list.cells[w.list.length - 1]? = some (some c)) :
    w.signalled c = true ∨
      ∃ j, w.index ≤ j ∧ j < w.list.length - 1 ∧
        (w.list.swapDelete none i).cells[j]? = some (some c) := by
  have hlt : i < w.list.length := by omega
  rw [Walk.keepsAhead, hindex, hlast] at hkeeps
  simp only [Bool.or_eq_true, decide_eq_true_eq, List.contains_iff_mem] at hkeeps
  obtain ((hle | hreached) | hsignalled) | hahead := hkeeps
  · refine .inr ⟨i, hle, hi, ?_⟩
    rw [getElem?_swapDelete hlt hi, if_pos rfl, hlast]
  · -- the walk is past the whole list, so the channel has its signal
    refine (h.reached c (mem_visible_iff.mpr ⟨_, by omega, hlast⟩)).elim .inl ?_
    rintro ⟨j, hle, hj, -⟩
    omega
  · exact .inl hsignalled
  · obtain ⟨j, hle, hj, hat⟩ := mem_aheadOfLast_iff.mp hahead
    refine .inr ⟨j, hle, hj, ?_⟩
    rw [getElem?_swapDelete hlt hj]
    split
    · exact hlast
    · exact hat

theorem Covered.unregister (h : Covered w) (hkeeps : w.keepsAhead (.unregister ch) = true)
    (hstep : w.next (.unregister ch) = some w') : Covered w' := by
  obtain rfl := Option.some.inj hstep
  cases hindex : w.list.visible.idxOf? (some ch) with
  | none =>
    rw [Slice.remove, hindex]
    exact h
  | some i =>
    obtain ⟨hi, hat, hfirst⟩ := idxOf?_visible hindex
    rw [Slice.remove, hindex]
    refine ⟨Nat.le_trans (Nat.sub_le _ _) h.within, fun c hmem => ?_⟩
    change w.signalled c = true ∨ ∃ j, w.index ≤ j ∧ j < w.list.length - 1 ∧
      (w.list.swapDelete none i).cells[j]? = some (some c)
    obtain ⟨j, hj, hc⟩ := mem_visible_iff.mp hmem
    change j < w.list.length - 1 at hj
    change (w.list.swapDelete none i).cells[j]? = some (some c) at hc
    have hplace := hc
    rw [getElem?_swapDelete hi hj] at hplace
    split at hplace
    · rename_i hji
      exact h.moved hindex hkeeps (hji ▸ hj) hplace
    by_cases hle : w.index ≤ j
    · exact .inr ⟨j, hle, hj, hc⟩
    -- the entry at `j` has been passed; the old list says where the channel is reached
    refine (h.reached c (mem_visible_iff.mpr ⟨j, by omega, hplace⟩)).elim .inl ?_
    rintro ⟨k, hk, hklt, hck⟩
    have hki : k ≠ i := by
      rintro rfl
      refine hfirst j (by omega) ?_
      rw [hplace, ← hck, hat]
    by_cases hlast : k < w.list.length - 1
    · refine .inr ⟨k, hk, hlast, ?_⟩
      rw [getElem?_swapDelete hi hlast, if_neg hki]
      exact hck
    · obtain rfl : k = w.list.length - 1 := by omega
      exact h.moved hindex hkeeps (by omega) hck

/-- The condition on a call is exact: another call leaves a listed channel
without a signal behind the walk. -/
theorem not_covered_of_overtaken (hkeeps : w.keepsAhead (.unregister ch) = false)
    (hstep : w.next (.unregister ch) = some w') : ¬ Covered w' := by
  obtain rfl := Option.some.inj hstep
  rw [Walk.keepsAhead] at hkeeps
  split at hkeeps
  swap
  · cases hkeeps
  rename_i i c hindex hlast
  simp only [Bool.or_eq_false_iff, decide_eq_false_iff_not, Nat.not_le] at hkeeps
  obtain ⟨⟨⟨hpassed, hunreached⟩, hsignalled⟩, hahead⟩ := hkeeps
  have hi : i < w.list.length - 1 := by omega
  have hlt : i < w.list.length := by omega
  rw [Slice.remove, hindex]
  intro h
  have hlisted : some c ∈ (w.list.swapDelete none i).visible := by
    refine mem_visible_iff.mpr ⟨i, hi, ?_⟩
    rw [getElem?_swapDelete hlt hi, if_pos rfl, hlast]
  rcases h.reached c hlisted with hsignal | ⟨j, hle, hj, hat⟩
  · change w.signalled c = true at hsignal
    rw [hsignalled] at hsignal
    cases hsignal
  · change w.index ≤ j at hle
    change j < w.list.length - 1 at hj
    change (w.list.swapDelete none i).cells[j]? = some (some c) at hat
    rw [getElem?_swapDelete hlt hj, if_neg (by omega)] at hat
    have hmem : some c ∈ w.aheadOfLast := mem_aheadOfLast_iff.mpr ⟨j, hle, hj, hat⟩
    rw [← List.contains_iff_mem, hahead] at hmem
    cases hmem

theorem Covered.step (h : Covered w) {a : Action} (hstep : OrderedStep w a w') : Covered w' := by
  obtain ⟨hkeeps, hnext⟩ := hstep
  cases a with
  | send => exact h.send hnext
  | receive ch => exact h.receive hnext
  | unregister ch => exact h.unregister hkeeps hnext

end

/-- A walk that no removal overtakes wakes every listener that stays. -/
theorem listeners_woken {list : ListenerList} {pending : Channel → Bool} {as : List Action}
    {w : Walk} (hrun : Run OrderedStep (snapshot list pending) as w) (hreturned : w.Returned)
    {ch : Channel} (hregistered : some ch ∈ w.list.visible) : w.signalled ch = true := by
  have h : Covered w :=
    hrun.invariant (covered_snapshot list pending) fun _ _ _ hw hstep => hw.step hstep
  refine (h.reached ch hregistered).elim id ?_
  rintro ⟨j, hle, hlt, -⟩
  have hwithin := h.within
  rw [Walk.Returned] at hreturned
  omega

def threeListeners : ListenerList := ⟨[some 0, some 1, some 2], 3, Nat.le_refl 3⟩

theorem listeners_woken_threeListeners :
    ∃ w, Run OrderedStep (snapshot threeListeners fun _ => false)
        [.send, .unregister 2, .send, .receive 0, .unregister 0, .send] w ∧
      w.Returned ∧ some 1 ∈ w.list.visible ∧ w.signalled 1 = true := by
  have hend : (execute Walk.keepsAhead Walk.next (snapshot threeListeners fun _ => false)
      [.send, .unregister 2, .send, .receive 0, .unregister 0, .send]).map
      (fun w => (w.index, w.count, w.list.visible)) = some (3, 3, [some 1]) := by decide +kernel
  obtain ⟨w, hrun, hw⟩ := exists_run_of_execute hend
  simp only [Prod.mk.injEq] at hw
  obtain ⟨hindex, hcount, hlist⟩ := hw
  have hreturned : w.Returned := hindex.trans hcount.symm
  have hlisted : some 1 ∈ w.list.visible := by simp [hlist]
  exact ⟨w, hrun, hreturned, hlisted, listeners_woken hrun hreturned hlisted⟩

/-- Channel 0 leaves after its send; channel 2 takes its place, which the walk
has passed, and the walk finds `nil` where channel 2 was. -/
theorem moved_listener_sleeps :
    ∃ w, Run Step (snapshot threeListeners fun _ => false) [.send, .unregister 0, .send, .send] w ∧
      w.Returned ∧ some 2 ∈ threeListeners.visible ∧ some 2 ∈ w.list.visible ∧
      w.signalled 2 = false := by
  have hend : (execute (fun _ _ => true) Walk.next (snapshot threeListeners fun _ => false)
      [.send, .unregister 0, .send, .send]).map
      (fun w => (w.index, w.count, w.list.visible, w.signalled 2)) =
        some (3, 3, [some 2, some 1], false) := by decide +kernel
  obtain ⟨w, hrun, hw⟩ := exists_run_of_execute hend
  simp only [Prod.mk.injEq] at hw
  obtain ⟨hindex, hcount, hlist, hsignalled⟩ := hw
  exact ⟨w, hrun, hindex.trans hcount.symm, by decide, by simp [hlist], hsignalled⟩

end MiniKafka.ListenerWakeups
