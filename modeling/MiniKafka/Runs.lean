import Mathlib.Data.List.Basic

/-!
Runs of a labelled transition relation.

A run is the list of labels of its steps.  What one step preserves holds at
the end of every run, and a relation that every step can follow is a
simulation of whole runs.  Where the steps are a partial function, a run can
be computed from its labels.
-/

namespace MiniKafka.Runs

/-- `Run step s as t`: steps with the labels `as` lead from `s` to `t`. -/
inductive Run {σ α : Type} (step : σ → α → σ → Prop) (s : σ) : List α → σ → Prop
  | nil : Run step s [] s
  | snoc {as : List α} {a : α} {t u : σ} :
      Run step s as t → step t a u → Run step s (as ++ [a]) u

section

variable {σ τ α : Type} {step : σ → α → σ → Prop} {s t : σ} {as : List α}

/-- What holds at the start and is preserved by every step holds at the end. -/
theorem Run.invariant {P : σ → Prop} (hrun : Run step s as t) (hinit : P s)
    (hstep : ∀ s a t, P s → step s a t → P t) : P t := by
  induction hrun with
  | nil => exact hinit
  | snoc _ hlast ih => exact hstep _ _ _ ih hlast

theorem Run.invariant_of_labels {P : σ → Prop} {Q : α → Prop} (hrun : Run step s as t)
    (hlabels : ∀ a ∈ as, Q a) (hinit : P s)
    (hstep : ∀ s a t, Q a → P s → step s a t → P t) : P t := by
  induction hrun with
  | nil => exact hinit
  | snoc _ hlast ih =>
    exact hstep _ _ _ (hlabels _ (by simp)) (ih fun a ha => hlabels a (by simp [ha])) hlast

theorem Run.simulation {step' : τ → α → τ → Prop} {R : σ → τ → Prop} (hrun : Run step s as t)
    {x : τ} (hinit : R s x)
    (hstep : ∀ s a t x, R s x → step s a t → ∃ y, step' x a y ∧ R t y) :
    ∃ y, Run step' x as y ∧ R t y := by
  induction hrun with
  | nil => exact ⟨x, .nil, hinit⟩
  | snoc _ hlast ih =>
    obtain ⟨y, hfollow, hy⟩ := ih
    obtain ⟨z, hz, hR⟩ := hstep _ _ _ y hy hlast
    exact ⟨z, hfollow.snoc hz, hR⟩

theorem Run.step_of_mem (hrun : Run step s as t) {a : α} (ha : a ∈ as) :
    ∃ before u v, Run step s before u ∧ before <+: as ∧ step u a v := by
  induction hrun with
  | nil => cases ha
  | @snoc as b t u hinit hlast ih =>
    rcases List.mem_append.mp ha with hmem | hmem
    · obtain ⟨before, u', v, hrun', hbefore, hstep⟩ := ih hmem
      exact ⟨before, u', v, hrun', hbefore.trans (List.prefix_append as [b]), hstep⟩
    · obtain rfl := List.mem_singleton.mp hmem
      exact ⟨as, t, u, hinit, List.prefix_append as [a], hlast⟩

end

/-- The relation of a partial step function, restricted to the steps that meet
a condition on the state before them. -/
def Guarded {σ α : Type} (guard : σ → α → Bool) (next : σ → α → Option σ) (s : σ) (a : α) (t : σ) :
    Prop :=
  guard s a = true ∧ next s a = some t

def execute {σ α : Type} (guard : σ → α → Bool) (next : σ → α → Option σ) (s : σ) :
    List α → Option σ
  | [] => some s
  | a :: as => if guard s a then (next s a).bind fun t => execute guard next t as else none

section

variable {σ α β : Type} {guard : σ → α → Bool} {next : σ → α → Option σ}

theorem Run.cons {step : σ → α → σ → Prop} {s t u : σ} {a : α} {as : List α} (hstep : step s a t)
    (hrun : Run step t as u) : Run step s (a :: as) u := by
  induction hrun with
  | nil => exact Run.snoc .nil hstep
  | snoc _ hlast ih => exact Run.snoc ih hlast

theorem Run.trans {step : σ → α → σ → Prop} {s t u : σ} {as bs : List α} (h : Run step s as t)
    (k : Run step t bs u) : Run step s (as ++ bs) u := by
  induction k with
  | nil => rwa [List.append_nil]
  | snoc _ hlast ih =>
    rw [← List.append_assoc]
    exact Run.snoc ih hlast

theorem Run.relabel {step : σ → α → σ → Prop} {step' : σ → β → σ → Prop} {f : α → β} {s t : σ}
    {as : List α} (hrun : Run step s as t) (hstep : ∀ s a t, step s a t → step' s (f a) t) :
    Run step' s (as.map f) t := by
  induction hrun with
  | nil => exact .nil
  | snoc _ hlast ih =>
    rw [List.map_append]
    exact Run.snoc ih (hstep _ _ _ hlast)

theorem Run.mono {step step' : σ → α → σ → Prop} {s t : σ} {as : List α} (hrun : Run step s as t)
    (hstep : ∀ s a t, step s a t → step' s a t) : Run step' s as t := by
  induction hrun with
  | nil => exact .nil
  | snoc _ hlast ih => exact Run.snoc ih (hstep _ _ _ hlast)

theorem Run.unguarded {s t : σ} {as : List α} (hrun : Run (Guarded guard next) s as t) :
    Run (Guarded (fun _ _ => true) next) s as t :=
  hrun.mono fun _ _ _ hstep => ⟨rfl, hstep.2⟩

theorem run_of_execute {s t : σ} {as : List α} (h : execute guard next s as = some t) :
    Run (Guarded guard next) s as t := by
  induction as generalizing s with
  | nil =>
    obtain rfl := Option.some.inj h
    exact .nil
  | cons a as ih =>
    rw [execute] at h
    split at h
    · rename_i hguard
      obtain ⟨u, hnext, hrest⟩ := Option.bind_eq_some_iff.mp h
      exact Run.cons ⟨hguard, hnext⟩ (ih hrest)
    · cases h

theorem run_getD {s d : σ} {as : List α} (h : (execute guard next s as).isSome = true) :
    Run (Guarded guard next) s as ((execute guard next s as).getD d) := by
  obtain ⟨t, ht⟩ := Option.isSome_iff_exists.mp h
  rw [ht]
  exact run_of_execute ht

theorem exists_run_of_execute {s : σ} {as : List α} {observe : σ → β} {v : β}
    (h : (execute guard next s as).map observe = some v) :
    ∃ t, Run (Guarded guard next) s as t ∧ observe t = v := by
  obtain ⟨t, ht, hv⟩ := Option.map_eq_some_iff.mp h
  exact ⟨t, run_of_execute ht, hv⟩

end

def onComponent {σ α : Type} (next : σ → α → Option σ) (ss : List σ) (a : Nat × α) :
    Option (List σ) :=
  ss[a.1]?.bind fun s => (next s a.2).map (ss.set a.1)

def guardComponent {σ α : Type} (guard : σ → α → Bool) (ss : List σ) (a : Nat × α) : Bool :=
  ss[a.1]?.any fun s => guard s a.2

def labelsOf {α : Type} (i : Nat) (as : List (Nat × α)) : List α :=
  as.filterMap fun a => if a.1 = i then some a.2 else none

theorem length_of_component_run {σ α : Type} {guard : List σ → Nat × α → Bool}
    {next : σ → α → Option σ} {ss ts : List σ} {as : List (Nat × α)}
    (hrun : Run (Guarded guard (onComponent next)) ss as ts) : ts.length = ss.length := by
  induction hrun with
  | nil => rfl
  | snoc _ hlast ih =>
    obtain ⟨u, -, hmap⟩ := Option.bind_eq_some_iff.mp hlast.2
    obtain ⟨v, -, rfl⟩ := Option.map_eq_some_iff.mp hmap
    rw [List.length_set, ih]

/-- Each component makes a run of its own. -/
theorem run_component {σ α : Type} {guard : σ → α → Bool} {next : σ → α → Option σ}
    {ss ts : List σ} {as : List (Nat × α)}
    (hrun : Run (Guarded (guardComponent guard) (onComponent next)) ss as ts) {i : Nat} {t : σ}
    (ht : ts[i]? = some t) :
    ∃ s, ss[i]? = some s ∧ Run (Guarded guard next) s (labelsOf i as) t := by
  induction hrun generalizing t with
  | nil => exact ⟨t, ht, .nil⟩
  | @snoc as a us vs _ hlast ih =>
    obtain ⟨hguard, hstep⟩ := hlast
    obtain ⟨u, hu, hmap⟩ := Option.bind_eq_some_iff.mp hstep
    obtain ⟨v, hv, rfl⟩ := Option.map_eq_some_iff.mp hmap
    rw [labelsOf, List.filterMap_append]
    by_cases hi : a.1 = i
    · subst hi
      rw [List.getElem?_set_self (List.getElem?_eq_some_iff.mp hu).1] at ht
      obtain rfl := Option.some.inj ht
      obtain ⟨s, hs, hbefore⟩ := ih hu
      rw [guardComponent, hu] at hguard
      refine ⟨s, hs, ?_⟩
      rw [List.filterMap_cons, if_pos rfl]
      exact hbefore.snoc ⟨hguard, hv⟩
    · rw [List.getElem?_set_ne hi] at ht
      obtain ⟨s, hs, hbefore⟩ := ih ht
      refine ⟨s, hs, ?_⟩
      rw [List.filterMap_cons, if_neg hi, List.filterMap_nil, List.append_nil]
      exact hbefore

end MiniKafka.Runs
