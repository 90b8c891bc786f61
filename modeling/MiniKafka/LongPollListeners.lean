import Mathlib.Data.List.AList
import Mathlib.Data.List.Count
import MiniKafka.RequestBodies
import MiniKafka.Runs
import MiniKafka.SwapDelete

/-!
The listeners of long-polling `Fetch` requests (`internal/broker/broker.go`).

A fetch makes one channel, registers it on every partition it names, waits, and
unregisters it from each of them.  Each of these calls is one critical section
of the broker's lock; the calls of different fetches interleave.  A channel is
the place of its fetch in the list of all fetches, and `nil` is `none`.
-/

namespace MiniKafka.LongPollListeners

open BigEndian WireCodec RequestBodies Runs SwapDelete

abbrev Channel := Nat

abbrev ListenerList := SwapDelete.Slice (Option Channel)

abbrev PartitionMap := AList fun _ : Int32 => ListenerList

abbrev Listeners := AList fun _ : Bytes => PartitionMap

def registerListenerOn (listeners : Listeners) (topic : Bytes) (partitionID : Int32)
    (ch : Channel) : Listeners :=
  let pMap := (listeners.lookup topic).getD ∅
  let list := (pMap.lookup partitionID).getD .empty
  listeners.insert topic (pMap.insert partitionID (list.push (some ch)))

def unregisterListener (listeners : Listeners) (topic : Bytes) (partitionID : Int32)
    (ch : Channel) : Listeners :=
  match listeners.lookup topic with
  | none => listeners
  | some pMap =>
    match ((pMap.lookup partitionID).getD .empty).remove none (some ch) with
    | none => listeners
    | some list =>
      if list.length = 0 then
        let pMap := pMap.erase partitionID
        if pMap.entries.length = 0 then listeners.erase topic
        else listeners.insert topic pMap
      else listeners.insert topic (pMap.insert partitionID list)

def listed (listeners : Listeners) (topic : Bytes) (partitionID : Int32) : List (Option Channel) :=
  ((((listeners.lookup topic).getD ∅).lookup partitionID).getD .empty).visible

/-- No empty list and no empty topic map is kept. -/
def Tidy (listeners : Listeners) : Prop :=
  ∀ topic pMap, listeners.lookup topic = some pMap →
    pMap.entries ≠ [] ∧ ∀ partitionID list, pMap.lookup partitionID = some list → list.length ≠ 0

section

variable {listeners : Listeners} {topic topic' : Bytes} {partitionID partitionID' : Int32}
  {ch : Channel}

theorem listed_registerListenerOn (listeners : Listeners) (topic topic' : Bytes)
    (partitionID partitionID' : Int32) (ch : Channel) :
    listed (registerListenerOn listeners topic partitionID ch) topic' partitionID' =
      listed listeners topic' partitionID' ++
        if topic' = topic ∧ partitionID' = partitionID then [some ch] else [] := by
  rw [listed, registerListenerOn]
  by_cases htopic : topic' = topic
  · subst htopic
    rw [AList.lookup_insert, Option.getD_some]
    by_cases hpartition : partitionID' = partitionID
    · subst hpartition
      rw [AList.lookup_insert, Option.getD_some, visible_push, if_pos ⟨rfl, rfl⟩]
      rfl
    · rw [AList.lookup_insert_ne hpartition, if_neg fun h => hpartition h.2, List.append_nil]
      rfl
  · rw [AList.lookup_insert_ne htopic, if_neg fun h => htopic h.1, List.append_nil]
    rfl

theorem entries_insert_ne_nil (pMap : PartitionMap) (partitionID : Int32) (list : ListenerList) :
    (pMap.insert partitionID list).entries ≠ [] := by
  rw [AList.entries_insert]
  exact List.cons_ne_nil _ _

theorem tidy_insert (h : Tidy listeners) {pMap : PartitionMap} (hentries : pMap.entries ≠ [])
    (hlists : ∀ partitionID list, pMap.lookup partitionID = some list → list.length ≠ 0) :
    Tidy (listeners.insert topic pMap) := by
  intro topic' pMap' hlookup
  by_cases htopic : topic' = topic
  · subst htopic
    rw [AList.lookup_insert] at hlookup
    obtain rfl := Option.some.inj hlookup
    exact ⟨hentries, hlists⟩
  · rw [AList.lookup_insert_ne htopic] at hlookup
    exact h topic' pMap' hlookup

theorem lists_insert {pMap : PartitionMap} {list : ListenerList} (hlist : list.length ≠ 0)
    (hlists : ∀ partitionID list, pMap.lookup partitionID = some list → list.length ≠ 0) :
    ∀ partitionID' list', (pMap.insert partitionID list).lookup partitionID' = some list' →
      list'.length ≠ 0 := by
  intro partitionID' list' hlookup
  by_cases hpartition : partitionID' = partitionID
  · subst hpartition
    rw [AList.lookup_insert] at hlookup
    obtain rfl := Option.some.inj hlookup
    exact hlist
  · rw [AList.lookup_insert_ne hpartition] at hlookup
    exact hlists partitionID' list' hlookup

theorem tidy_registerListenerOn (h : Tidy listeners) :
    Tidy (registerListenerOn listeners topic partitionID ch) := by
  rw [registerListenerOn]
  refine tidy_insert h (entries_insert_ne_nil _ _ _) (lists_insert ?_ ?_)
  · rw [← length_visible, visible_push]
    simp
  · intro partitionID' list hlookup
    cases hmap : listeners.lookup topic with
    | none =>
      rw [hmap] at hlookup
      simp at hlookup
    | some pMap =>
      rw [hmap] at hlookup
      exact (h topic pMap hmap).2 partitionID' list hlookup

theorem unregisterListener_cases (listeners : Listeners) (topic : Bytes) (partitionID : Int32)
    (ch : Channel) :
    unregisterListener listeners topic partitionID ch = listeners ∧
        some ch ∉ listed listeners topic partitionID ∨
      ∃ pMap list, listeners.lookup topic = some pMap ∧
        (listed listeners topic partitionID).Perm (some ch :: list.visible) ∧
        (list.length ≠ 0 ∧ unregisterListener listeners topic partitionID ch =
            listeners.insert topic (pMap.insert partitionID list) ∨
          list.length = 0 ∧ (pMap.erase partitionID).entries ≠ [] ∧
            unregisterListener listeners topic partitionID ch =
              listeners.insert topic (pMap.erase partitionID) ∨
          list.length = 0 ∧ (pMap.erase partitionID).entries = [] ∧
            unregisterListener listeners topic partitionID ch = listeners.erase topic) := by
  rw [unregisterListener]
  cases hmap : listeners.lookup topic with
  | none =>
    refine .inl ⟨rfl, ?_⟩
    rw [listed, hmap]
    simp
  | some pMap =>
    have hlisted : listed listeners topic partitionID =
        ((pMap.lookup partitionID).getD .empty).visible := by
      rw [listed, hmap]
      rfl
    dsimp only
    cases hremove : ((pMap.lookup partitionID).getD .empty).remove none (some ch) with
    | none =>
      refine .inl ⟨rfl, ?_⟩
      rw [hlisted]
      exact remove_eq_none_iff.mp hremove
    | some list =>
      refine .inr ⟨pMap, list, rfl, ?_, ?_⟩
      · rw [hlisted]
        exact remove_perm hremove
      · dsimp only
        by_cases hlength : list.length = 0
        · rw [if_pos hlength]
          by_cases hentries : (pMap.erase partitionID).entries.length = 0
          · rw [if_pos hentries]
            exact .inr (.inr ⟨hlength, List.eq_nil_of_length_eq_zero hentries, rfl⟩)
          · rw [if_neg hentries]
            exact .inr (.inl ⟨hlength, fun h => hentries (by rw [h]; rfl), rfl⟩)
        · rw [if_neg hlength]
          exact .inl ⟨hlength, rfl⟩

theorem listed_insert (listeners : Listeners) (topic topic' : Bytes) (pMap : PartitionMap)
    (partitionID' : Int32) :
    listed (listeners.insert topic pMap) topic' partitionID' =
      if topic' = topic then ((pMap.lookup partitionID').getD .empty).visible
      else listed listeners topic' partitionID' := by
  rw [listed]
  by_cases htopic : topic' = topic
  · subst htopic
    rw [AList.lookup_insert, if_pos rfl]
    rfl
  · rw [AList.lookup_insert_ne htopic, if_neg htopic]
    rfl

theorem lookup_of_entries_nil {pMap : PartitionMap} (h : pMap.entries = []) (partitionID : Int32) :
    pMap.lookup partitionID = none := by
  rw [AList.lookup, h]
  rfl

/-- Every list but the one of the partition is as it was, whichever of the two
maps an entry is deleted from. -/
theorem listed_unregisterListener_of_ne
    (hne : ¬ (topic' = topic ∧ partitionID' = partitionID)) :
    listed (unregisterListener listeners topic partitionID ch) topic' partitionID' =
      listed listeners topic' partitionID' := by
  obtain ⟨heq, -⟩ | ⟨pMap, list, hmap, -, hcases⟩ :=
    unregisterListener_cases listeners topic partitionID ch
  · rw [heq]
  have hold : topic' = topic → listed listeners topic' partitionID' =
      ((pMap.lookup partitionID').getD .empty).visible := by
    rintro rfl
    rw [listed, hmap]
    rfl
  obtain ⟨-, heq⟩ | ⟨-, -, heq⟩ | ⟨-, hentries, heq⟩ := hcases
  · rw [heq, listed_insert]
    split
    · rename_i htopic
      rw [hold htopic, AList.lookup_insert_ne fun h => hne ⟨htopic, h⟩]
    · rfl
  · rw [heq, listed_insert]
    split
    · rename_i htopic
      rw [hold htopic, AList.lookup_erase_ne fun h => hne ⟨htopic, h⟩]
    · rfl
  · rw [heq]
    by_cases htopic : topic' = topic
    · have hgone := lookup_of_entries_nil hentries partitionID'
      rw [AList.lookup_erase_ne fun h => hne ⟨htopic, h⟩] at hgone
      rw [hold htopic, hgone, listed, htopic, AList.lookup_erase]
      rfl
    · rw [listed, AList.lookup_erase_ne htopic]
      rfl

theorem listed_unregisterListener (h : some ch ∈ listed listeners topic partitionID) :
    (listed listeners topic partitionID).Perm (some ch ::
      listed (unregisterListener listeners topic partitionID ch) topic partitionID) := by
  obtain ⟨-, hnot⟩ | ⟨pMap, list, hmap, hperm, hcases⟩ :=
    unregisterListener_cases listeners topic partitionID ch
  · exact absurd h hnot
  have hempty : list.length = 0 → list.visible = [] := fun hlength =>
    List.eq_nil_of_length_eq_zero (by rw [length_visible, hlength])
  obtain ⟨-, heq⟩ | ⟨hlength, -, heq⟩ | ⟨hlength, -, heq⟩ := hcases
  · rw [heq, listed_insert, if_pos rfl, AList.lookup_insert]
    exact hperm
  · rw [heq, listed_insert, if_pos rfl, AList.lookup_erase]
    rwa [hempty hlength] at hperm
  · have hgone : listed (listeners.erase topic) topic partitionID = [] := by
      rw [listed, AList.lookup_erase]
      rfl
    rw [heq, hgone]
    rwa [hempty hlength] at hperm

theorem tidy_unregisterListener (h : Tidy listeners) :
    Tidy (unregisterListener listeners topic partitionID ch) := by
  obtain ⟨heq, -⟩ | ⟨pMap, list, hmap, -, hcases⟩ :=
    unregisterListener_cases listeners topic partitionID ch
  · rw [heq]
    exact h
  obtain ⟨hlength, heq⟩ | ⟨-, hentries, heq⟩ | ⟨-, -, heq⟩ := hcases
  · rw [heq]
    exact tidy_insert h (entries_insert_ne_nil _ _ _) (lists_insert hlength (h topic pMap hmap).2)
  · rw [heq]
    refine tidy_insert h hentries fun partitionID' list' hlookup => ?_
    by_cases hpartition : partitionID' = partitionID
    · rw [hpartition, AList.lookup_erase] at hlookup
      cases hlookup
    · rw [AList.lookup_erase_ne hpartition] at hlookup
      exact (h topic pMap hmap).2 partitionID' list' hlookup
  · rw [heq]
    intro topic' pMap' hlookup
    by_cases htopic : topic' = topic
    · rw [htopic, AList.lookup_erase] at hlookup
      cases hlookup
    · rw [AList.lookup_erase_ne htopic] at hlookup
      exact h topic' pMap' hlookup

theorem eq_empty_of_listed_nil (h : Tidy listeners)
    (hnil : ∀ topic partitionID, listed listeners topic partitionID = []) : listeners = ∅ := by
  apply AList.ext
  cases hentries : listeners.entries with
  | nil => rfl
  | cons entry rest =>
    have hmap : listeners.lookup entry.1 = some entry.2 :=
      AList.mem_lookup_iff.mpr (by rw [hentries]; exact List.mem_cons_self)
    obtain ⟨hne, hlists⟩ := h entry.1 entry.2 hmap
    obtain ⟨listEntry, hmem⟩ := List.exists_mem_of_ne_nil _ hne
    have hlist : entry.2.lookup listEntry.1 = some listEntry.2 := AList.mem_lookup_iff.mpr hmem
    have hvisible := hnil entry.1 listEntry.1
    rw [listed, hmap, Option.getD_some, hlist, Option.getD_some] at hvisible
    refine absurd ?_ (hlists listEntry.1 listEntry.2 hlist)
    rw [← length_visible, hvisible]
    rfl

end

@[ext]
structure FetchTarget where
  topic : Bytes
  partitionID : Int32
  deriving DecidableEq, Repr

def longPollTargets (req : FetchRequest) : List FetchTarget :=
  if 0 < req.maxWaitMs ∧ 0 < (elements req.topics).length then
    (elements req.topics).flatMap fun t =>
      (elements t.partitions).map fun p => ⟨t.name, p.partitionID⟩
  else []

/-- Where a fetch stands: it has registered on `done` and still has to register
on `rest`, or it leaves the long poll and still has to unregister from `rest`. -/
inductive Fetch where
  | registering (done rest : List FetchTarget)
  | leaving (rest : List FetchTarget)
  deriving DecidableEq, Repr

def Fetch.outstanding : Fetch → List FetchTarget
  | .registering done _ => done
  | .leaving rest => rest

def Fetch.Returned (f : Fetch) : Prop := f = .leaving []

instance (f : Fetch) : Decidable f.Returned := inferInstanceAs (Decidable (f = .leaving []))

structure Polling where
  listeners : Listeners
  fetches : List Fetch

def Polling.initial : Polling := ⟨∅, []⟩

inductive Action where
  | arrive (req : FetchRequest)
  | register (ch : Channel)
  | leave (ch : Channel)
  | unregister (ch : Channel)
  deriving DecidableEq, Repr

/-- A fetch leaves once it has registered everywhere, at whichever round of its
loop it finds data or the deadline passed. -/
def Polling.next (s : Polling) : Action → Option Polling
  | .arrive req =>
    some { s with fetches := s.fetches ++ [.registering [] (longPollTargets req)] }
  | .register ch =>
    match s.fetches[ch]? with
    | some (.registering done (t :: rest)) => some
        { listeners := registerListenerOn s.listeners t.topic t.partitionID ch
          fetches := s.fetches.set ch (.registering (done ++ [t]) rest) }
    | _ => none
  | .leave ch =>
    match s.fetches[ch]? with
    | some (.registering done []) =>
      some { s with fetches := s.fetches.set ch (.leaving done) }
    | _ => none
  | .unregister ch =>
    match s.fetches[ch]? with
    | some (.leaving (t :: rest)) => some
        { listeners := unregisterListener s.listeners t.topic t.partitionID ch
          fetches := s.fetches.set ch (.leaving rest) }
    | _ => none

def Step : Polling → Action → Polling → Prop := Guarded (fun _ _ => true) Polling.next

def outstandingOf (fetches : List Fetch) (ch : Channel) : List FetchTarget :=
  (fetches[ch]?.map Fetch.outstanding).getD []

/-- The channels of the fetches, each once for every registration on the target
that its fetch has not undone. -/
def registrations (s : Polling) (target : FetchTarget) : List Channel :=
  (List.range s.fetches.length).flatMap fun ch =>
    List.replicate ((outstandingOf s.fetches ch).count target) ch

section

variable {fetches : List Fetch} {ch ch' : Channel} {f : Fetch}

theorem outstandingOf_append_fresh (fetches : List Fetch) (rest : List FetchTarget)
    (ch : Channel) :
    outstandingOf (fetches ++ [.registering [] rest]) ch = outstandingOf fetches ch := by
  rw [outstandingOf, outstandingOf, List.getElem?_append]
  split
  · rfl
  · rename_i hle
    rw [List.getElem?_eq_none (Nat.le_of_not_lt hle), List.getElem?_singleton]
    split
    · rfl
    · rfl

theorem outstandingOf_set (h : fetches[ch]? = some f) (g : Fetch) (ch' : Channel) :
    outstandingOf (fetches.set ch g) ch' =
      if ch' = ch then g.outstanding else outstandingOf fetches ch' := by
  obtain ⟨hlt, -⟩ := List.getElem?_eq_some_iff.mp h
  rw [outstandingOf, List.getElem?_set]
  by_cases heq : ch = ch'
  · rw [if_pos heq, if_pos heq.symm, if_pos (heq ▸ hlt)]
    rfl
  · rw [if_neg heq, if_neg (Ne.symm heq)]
    rfl

theorem outstandingOf_eq (h : fetches[ch]? = some f) :
    outstandingOf fetches ch = f.outstanding := by
  rw [outstandingOf, h]
  rfl

theorem count_registrations (s : Polling) (target : FetchTarget) (ch : Channel) :
    (registrations s target).count ch = (outstandingOf s.fetches ch).count target := by
  have hterms : ∀ n, ((List.range n).flatMap fun ch' =>
      List.replicate ((outstandingOf s.fetches ch').count target) ch').count ch =
        if ch < n then (outstandingOf s.fetches ch).count target else 0 := by
    intro n
    induction n with
    | zero => rfl
    | succ n ih =>
      rw [List.range_succ, List.flatMap_append, List.count_append, ih, List.flatMap_singleton,
        List.count_replicate]
      rcases Nat.lt_trichotomy ch n with hlt | rfl | hgt
      · simp [hlt, Nat.lt_succ_of_lt hlt, hlt.ne']
      · simp
      · simp [hgt.not_gt, Nat.not_lt.mpr (Nat.succ_le_of_lt hgt), hgt.ne]
  rw [registrations, hterms]
  split
  · rfl
  · rename_i hle
    rw [outstandingOf, List.getElem?_eq_none (Nat.le_of_not_lt hle)]
    rfl

end

/-- Every channel is listed as often as its fetch has registrations to undo, and
`nil` is not listed. -/
structure Accounted (s : Polling) : Prop where
  tidy : Tidy s.listeners
  no_nil : ∀ t : FetchTarget, none ∉ listed s.listeners t.topic t.partitionID
  count : ∀ (t : FetchTarget) ch, (listed s.listeners t.topic t.partitionID).count (some ch) =
    (outstandingOf s.fetches ch).count t

section

variable {s s' : Polling}

theorem accounted_initial : Accounted .initial where
  tidy := by
    intro topic pMap hlookup
    cases hlookup
  no_nil := fun _ => by simp [Polling.initial, listed]
  count := fun _ _ => by simp [Polling.initial, listed, outstandingOf]

theorem Accounted.of_same (h : Accounted s) {fetches : List Fetch}
    (hsame : ∀ ch, outstandingOf fetches ch = outstandingOf s.fetches ch) :
    Accounted { s with fetches := fetches } where
  tidy := h.tidy
  no_nil := h.no_nil
  count := fun t ch => (h.count t ch).trans (by rw [hsame ch])

theorem Accounted.register (h : Accounted s) {ch : Channel} {done rest : List FetchTarget}
    {t : FetchTarget} (hfetch : s.fetches[ch]? = some (.registering done (t :: rest))) :
    Accounted
      { listeners := registerListenerOn s.listeners t.topic t.partitionID ch
        fetches := s.fetches.set ch (.registering (done ++ [t]) rest) } where
  tidy := tidy_registerListenerOn h.tidy
  no_nil := by
    intro u hmem
    rw [listed_registerListenerOn, List.mem_append] at hmem
    refine hmem.elim (h.no_nil u) fun hnew => ?_
    split at hnew <;> simp at hnew
  count := by
    intro u ch'
    rw [listed_registerListenerOn, List.count_append, h.count u ch',
      outstandingOf_set hfetch _ ch']
    by_cases hch : ch' = ch
    · subst hch
      rw [if_pos rfl, outstandingOf_eq hfetch, Fetch.outstanding, Fetch.outstanding,
        List.count_append]
      congr 1
      by_cases hu : u = t
      · rw [if_pos ⟨congrArg _ hu, congrArg _ hu⟩, hu]
        simp
      · rw [if_neg fun heq => hu (FetchTarget.ext heq.1 heq.2), List.count_nil,
          List.count_eq_zero.mpr (by simpa using hu)]
    · rw [if_neg hch]
      split
      · simp [Ne.symm hch]
      · rfl

theorem Accounted.unregister (h : Accounted s) {ch : Channel} {rest : List FetchTarget}
    {t : FetchTarget} (hfetch : s.fetches[ch]? = some (.leaving (t :: rest))) :
    Accounted
      { listeners := unregisterListener s.listeners t.topic t.partitionID ch
        fetches := s.fetches.set ch (.leaving rest) } := by
  -- the fetch has a registration on `t`, so its channel is found in the list
  have hmem : some ch ∈ listed s.listeners t.topic t.partitionID := by
    rw [← List.count_pos_iff, h.count t ch, outstandingOf_eq hfetch, Fetch.outstanding,
      List.count_cons_self]
    omega
  have hperm := listed_unregisterListener hmem
  refine ⟨tidy_unregisterListener h.tidy, fun u hnil => ?_, fun u ch' => ?_⟩
  · by_cases hu : u = t
    · subst hu
      exact h.no_nil u (hperm.mem_iff.mpr (List.mem_cons_of_mem _ hnil))
    · rw [listed_unregisterListener_of_ne fun heq => hu (FetchTarget.ext heq.1 heq.2)] at hnil
      exact h.no_nil u hnil
  · have hcount := h.count u ch'
    rw [outstandingOf_set hfetch _ ch']
    by_cases hu : u = t
    · subst hu
      rw [hperm.count_eq, List.count_cons] at hcount
      by_cases hch : ch' = ch
      · subst hch
        rw [outstandingOf_eq hfetch, Fetch.outstanding, List.count_cons_self, if_pos (by simp)]
          at hcount
        rw [if_pos rfl, Fetch.outstanding]
        exact Nat.succ.inj hcount
      · rw [if_neg (by simpa using Ne.symm hch)] at hcount
        rw [if_neg hch]
        exact hcount
    · rw [listed_unregisterListener_of_ne fun heq => hu (FetchTarget.ext heq.1 heq.2), hcount]
      by_cases hch : ch' = ch
      · subst hch
        rw [if_pos rfl, outstandingOf_eq hfetch, Fetch.outstanding, Fetch.outstanding,
          List.count_cons_of_ne (Ne.symm hu)]
      · rw [if_neg hch]

theorem Accounted.step (h : Accounted s) {a : Action} (hstep : Step s a s') : Accounted s' := by
  replace hstep := hstep.2
  cases a with
  | arrive req =>
    obtain rfl := Option.some.inj hstep
    exact h.of_same (outstandingOf_append_fresh s.fetches _)
  | register ch =>
    rw [Polling.next] at hstep
    split at hstep
    · rename_i done t rest hfetch
      obtain rfl := Option.some.inj hstep
      exact h.register hfetch
    · cases hstep
  | leave ch =>
    rw [Polling.next] at hstep
    split at hstep
    · rename_i done hfetch
      obtain rfl := Option.some.inj hstep
      refine h.of_same fun ch' => ?_
      rw [outstandingOf_set hfetch]
      split
      · rename_i hch
        rw [hch, outstandingOf_eq hfetch]
        rfl
      · rfl
    · cases hstep
  | unregister ch =>
    rw [Polling.next] at hstep
    split at hstep
    · rename_i t rest hfetch
      obtain rfl := Option.some.inj hstep
      exact h.unregister hfetch
    · cases hstep

theorem Accounted.perm (h : Accounted s) (t : FetchTarget) :
    (listed s.listeners t.topic t.partitionID).Perm ((registrations s t).map some) := by
  rw [List.perm_iff_count]
  intro entry
  cases entry with
  | none =>
    rw [List.count_eq_zero.mpr (h.no_nil t), List.count_eq_zero.mpr (by simp)]
  | some ch =>
    rw [h.count t ch, ← count_registrations,
      List.count_map_of_injective _ _ (Option.some_injective _)]

theorem Accounted.listeners_eq_empty (h : Accounted s)
    (hreturned : ∀ f ∈ s.fetches, f.Returned) : s.listeners = ∅ := by
  refine eq_empty_of_listed_nil h.tidy fun topic partitionID => ?_
  rw [List.eq_nil_iff_forall_not_mem]
  intro entry hmem
  cases entry with
  | none => exact h.no_nil ⟨topic, partitionID⟩ hmem
  | some ch =>
    have hcount := h.count ⟨topic, partitionID⟩ ch
    have hnone : outstandingOf s.fetches ch = [] := by
      rw [outstandingOf]
      cases hfetch : s.fetches[ch]? with
      | none => rfl
      | some f =>
        have hleft : f = .leaving [] := hreturned f (List.mem_of_getElem? hfetch)
        rw [hleft]
        rfl
    rw [hnone, List.count_nil, List.count_eq_zero] at hcount
    exact hcount hmem

end

/-- However the steps of the fetches are interleaved, the lists hold what the running
fetches have registered and nothing else. -/
theorem listeners_do_not_leak {as : List Action} {s : Polling} (hrun : Run Step .initial as s) :
    (∀ t : FetchTarget,
        (listed s.listeners t.topic t.partitionID).Perm ((registrations s t).map some) ∧
          none ∉ listed s.listeners t.topic t.partitionID) ∧
      Tidy s.listeners ∧
      ((∀ f ∈ s.fetches, f.Returned) → s.listeners = ∅) := by
  have h : Accounted s := hrun.invariant accounted_initial fun _ _ _ hs hstep => hs.step hstep
  exact ⟨fun t => ⟨h.perm t, h.no_nil t⟩, h.tidy, h.listeners_eq_empty⟩

def repeatedFetch : FetchRequest :=
  { maxWaitMs := 50, minBytes := 1, maxBytes := 1024,
    topics := some [⟨[116], some [⟨0, 0, 1024⟩, ⟨0, 0, 1024⟩]⟩] }

def interleavedFetches : List Action :=
  [.arrive repeatedFetch, .register 0, .arrive repeatedFetch, .register 1, .register 0, .leave 0,
    .unregister 0, .register 1, .leave 1, .unregister 1, .unregister 0, .unregister 1]

theorem listeners_do_not_leak_interleavedFetches :
    ∃ s, Run Step .initial interleavedFetches s ∧ (∀ f ∈ s.fetches, f.Returned) ∧
      s.listeners = ∅ := by
  have hend : (execute (fun _ _ => true) Polling.next .initial interleavedFetches).map
      (fun s => s.fetches) = some [.leaving [], .leaving []] := by decide +kernel
  obtain ⟨s, hrun, hfetches⟩ := exists_run_of_execute hend
  have hreturned : ∀ f ∈ s.fetches, f.Returned := by
    rw [hfetches]
    decide
  exact ⟨s, hrun, hreturned, (listeners_do_not_leak hrun).2.2 hreturned⟩

end MiniKafka.LongPollListeners
