import MiniKafka.GroupCoordinator
import MiniKafka.Runs

/-!
What a group agrees on: who leads which generation, and who has been assigned
what.

The ledger of a group forgets clocks, metadata and channels.  On it the
operations of the coordinator are five kinds of steps, and the model of the
source follows them.  Members are told the leader of a generation by the answers
to their joins, and no two answers ever differ.
-/

namespace MiniKafka.GroupLedger

open BigEndian GroupCoordinator Runs

structure Ledger where
  state : GroupState
  generationID : Int32
  leaderID : Bytes
  members : List (Bytes × Option Bytes)
  joins : List JoinGroupResponse
  submissions : List Submission
  rebalances : Nat

def Ledger.ids (l : Ledger) : List Bytes := l.members.map Prod.fst

def ledger (w : Coordination) : Ledger where
  state := w.group.state
  generationID := w.group.generationID
  leaderID := w.group.leaderID
  members := w.group.members.map fun m => (m.id, m.assignment)
  joins := w.joins
  submissions := w.submissions
  rebalances := w.rebalances

def setAssignment (entry : Bytes × Option Bytes) (a : SyncGroupAssignment) : Bytes × Option Bytes :=
  if entry.1 = a.memberID then (entry.1, a.assignment) else entry

/-- A member after the assignments of the leader, of which the last one for the
member counts. -/
def assigned (assignments : List SyncGroupAssignment) (entry : Bytes × Option Bytes) :
    Bytes × Option Bytes :=
  assignments.foldl setAssignment entry

structure Reports (r : JoinGroupResponse) (l : Ledger) : Prop where
  generationID : r.generationID = l.generationID
  leaderID : r.leaderID = l.leaderID
  memberID : r.memberID ∈ l.ids
  members : r.memberID = l.leaderID → r.members.map JoinGroupMember.memberID = l.ids

def Ledger.rebalanced (l : Ledger) (ids : List Bytes) (leader : Bytes) : Ledger :=
  { l with
    state := .preparingRebalance
    generationID := l.generationID + 1
    leaderID := leader
    members := ids.map fun id => (id, none)
    rebalances := l.rebalances + 1 }

def Ledger.accepted (l : Ledger) (assignments : List SyncGroupAssignment) : Ledger :=
  { l with
    state := .stable
    members := l.members.map (assigned assignments)
    submissions := l.submissions ++ [⟨l.generationID, l.leaderID, assignments⟩] }

/-- The steps of a group, labelled with the assignments they accept. -/
inductive Ledger.Step (l : Ledger) : Option (List SyncGroupAssignment) → Ledger → Prop
  | quiet : Step l none l
  | enroll {members : List (Bytes × Option Bytes)} {r : JoinGroupResponse}
      (hstable : l.state ≠ .stable) (hempty : l.state ≠ .empty)
      (hmembers : members = l.members ∨
        ∃ id, id ≠ [] ∧ id ∉ l.ids ∧ members = l.members ++ [(id, none)])
      (hreports : Reports r { l with members := members }) :
      Step l none { l with members := members, joins := l.joins ++ [r] }
  | rebalance {ids : List Bytes} {leader : Bytes} {joins : List JoinGroupResponse}
      (hids : ids.Nodup) (hnamed : [] ∉ ids) (hleader : leader ∈ ids)
      (hjoins : joins = l.joins ∨
        ∃ r, Reports r (l.rebalanced ids leader) ∧ joins = l.joins ++ [r]) :
      Step l none { l.rebalanced ids leader with joins := joins }
  | vacate : Step l none { l with state := .empty, leaderID := [], members := [] }
  | assign {assignments : List SyncGroupAssignment} (hleader : l.leaderID ∈ l.ids) :
      Step l (some assignments) (l.accepted assignments)

/-- The assignment of a member was submitted by the leader of the current
generation. -/
def Ledger.Submitted (l : Ledger) (id : Bytes) (assignment : Option Bytes) : Prop :=
  ∃ s ∈ l.submissions, s.generationID = l.generationID ∧ s.leaderID = l.leaderID ∧
    ⟨id, assignment⟩ ∈ s.assignments

structure Sound (l : Ledger) : Prop where
  distinct : l.ids.Nodup
  named : [] ∉ l.ids
  empty_iff : l.state = .empty ↔ l.members = []
  leaderless_iff : l.leaderID = [] ↔ l.members = []
  leader : l.members ≠ [] → l.leaderID ∈ l.ids
  submitted : ∀ id a, (id, some a) ∈ l.members → l.Submitted id (some a)
  generation : l.generationID = Int32.ofNat l.rebalances

/-- The answers to joins agree with the group and with one another. -/
structure Agreed (l : Ledger) : Prop where
  past : ∀ r ∈ l.joins, r.generationID.toInt ≤ l.rebalances
  current : ∀ r ∈ l.joins, r.generationID = l.generationID → l.members ≠ [] →
    r.leaderID = l.leaderID
  pairs : ∀ r ∈ l.joins, ∀ r' ∈ l.joins, r.generationID = r'.generationID →
    r.leaderID = r'.leaderID

section

variable {l l' : Ledger} {submission : Option (List SyncGroupAssignment)}

theorem fst_assigned (assignments : List SyncGroupAssignment) (entry : Bytes × Option Bytes) :
    (assigned assignments entry).1 = entry.1 := by
  induction assignments generalizing entry with
  | nil => rfl
  | cons a rest ih =>
    rw [assigned, List.foldl_cons]
    refine (ih _).trans ?_
    rw [setAssignment]
    split <;> rfl

theorem assigned_cases (assignments : List SyncGroupAssignment) (entry : Bytes × Option Bytes) :
    ⟨entry.1, (assigned assignments entry).2⟩ ∈ assignments ∨
      (assigned assignments entry = entry ∧ ∀ a ∈ assignments, a.memberID ≠ entry.1) := by
  induction assignments generalizing entry with
  | nil => exact .inr ⟨rfl, nofun⟩
  | cons a rest ih =>
    rw [assigned, List.foldl_cons, ← assigned, setAssignment]
    split
    · rename_i heq
      refine .inl ?_
      rcases ih (entry.1, a.assignment) with hlater | ⟨hsame, -⟩
      · exact List.mem_cons_of_mem _ hlater
      · rw [hsame, heq]
        exact List.mem_cons_self
    · rename_i hne
      rcases ih entry with hlater | ⟨hsame, hnone⟩
      · exact .inl (List.mem_cons_of_mem _ hlater)
      · refine .inr ⟨hsame, fun b hb => ?_⟩
        rcases List.mem_cons.mp hb with rfl | hb
        · exact fun h => hne h.symm
        · exact hnone b hb

theorem ids_accepted (assignments : List SyncGroupAssignment) (l : Ledger) :
    (l.accepted assignments).ids = l.ids := by
  rw [Ledger.ids, Ledger.accepted, List.map_map]
  exact List.map_congr_left fun entry _ => fst_assigned assignments entry

theorem ids_rebalanced (l : Ledger) (ids : List Bytes) (leader : Bytes) :
    (l.rebalanced ids leader).ids = ids := by
  rw [Ledger.ids, Ledger.rebalanced, List.map_map]
  exact List.map_id ids

theorem rebalances_step (hstep : l.Step submission l') : l.rebalances ≤ l'.rebalances := by
  cases hstep with
  | rebalance hids hnamed hleader hjoins => exact Nat.le_succ _
  | _ => exact le_rfl

theorem sound_enrolled (h : Sound l) (hempty : l.state ≠ .empty) {id : Bytes} (hid : id ≠ [])
    (hnew : id ∉ l.ids) (joins : List JoinGroupResponse) :
    Sound { l with members := l.members ++ [(id, none)], joins := joins } := by
  have hne : l.members ≠ [] := fun hnil => hempty (h.empty_iff.mpr hnil)
  have hids : (l.members ++ [(id, none)]).map Prod.fst = l.ids ++ [id] := by
    rw [List.map_append]
    rfl
  refine ⟨?_, ?_, ?_, ?_, ?_, ?_, h.generation⟩
  · change ((l.members ++ [(id, none)]).map Prod.fst).Nodup
    rw [hids]
    exact List.nodup_append'.mpr ⟨h.distinct, List.nodup_singleton _,
      List.disjoint_singleton.mpr hnew⟩
  · change [] ∉ (l.members ++ [(id, none)]).map Prod.fst
    rw [hids, List.mem_append, List.mem_singleton]
    exact fun hor => hor.elim h.named fun heq => hid heq.symm
  · exact iff_of_false hempty (by simp)
  · exact iff_of_false (fun hnil => hne (h.leaderless_iff.mp hnil)) (by simp)
  · intro _
    change l.leaderID ∈ (l.members ++ [(id, none)]).map Prod.fst
    rw [hids]
    exact List.mem_append_left _ (h.leader hne)
  · intro id' a hmem
    rcases List.mem_append.mp hmem with hold | hadded
    · exact h.submitted id' a hold
    · cases List.mem_singleton.mp hadded

theorem sound_rebalanced (h : Sound l) {ids : List Bytes} {leader : Bytes} (hids : ids.Nodup)
    (hnamed : [] ∉ ids) (hleader : leader ∈ ids) (joins : List JoinGroupResponse) :
    Sound { l.rebalanced ids leader with joins := joins } := by
  have hmap : Ledger.ids { l.rebalanced ids leader with joins := joins } = ids :=
    ids_rebalanced l ids leader
  have hne : (ids.map fun id => (id, (none : Option Bytes))) ≠ [] := by
    intro hnil
    rw [List.map_eq_nil_iff] at hnil
    rw [hnil] at hleader
    cases hleader
  refine ⟨?_, ?_, ?_, ?_, ?_, ?_, ?_⟩
  · rw [hmap]
    exact hids
  · rw [hmap]
    exact hnamed
  · exact iff_of_false nofun hne
  · refine iff_of_false (fun hnil => ?_) hne
    exact hnamed (hnil ▸ hleader)
  · intro _
    rw [hmap]
    exact hleader
  · intro id a hmem
    obtain ⟨_, _, heq⟩ := List.mem_map.mp hmem
    cases heq
  · change l.generationID + 1 = Int32.ofNat (l.rebalances + 1)
    rw [h.generation, Int32.ofNat_add]
    rfl

theorem sound_accepted (h : Sound l) (hleader : l.leaderID ∈ l.ids)
    (assignments : List SyncGroupAssignment) : Sound (l.accepted assignments) := by
  have hne : l.members ≠ [] := fun hnil => by
    rw [Ledger.ids, hnil] at hleader
    cases hleader
  have hids := ids_accepted assignments l
  refine ⟨?_, ?_, ?_, ?_, ?_, ?_, h.generation⟩
  · rw [hids]
    exact h.distinct
  · rw [hids]
    exact h.named
  · exact iff_of_false nofun (by simpa [Ledger.accepted] using hne)
  · exact iff_of_false (fun hnil => hne (h.leaderless_iff.mp hnil))
      (by simpa [Ledger.accepted] using hne)
  · intro _
    rw [hids]
    exact hleader
  · intro id a hmem
    obtain ⟨entry, hentry, heq⟩ := List.mem_map.mp hmem
    rcases assigned_cases assignments entry with hnamed | ⟨hsame, -⟩
    · rw [← fst_assigned assignments entry, heq] at hnamed
      exact ⟨_, List.mem_append_right _ (List.mem_singleton_self _), rfl, rfl, hnamed⟩
    · rw [hsame] at heq
      subst heq
      obtain ⟨s, hs, hrest⟩ := h.submitted id a hentry
      exact ⟨s, List.mem_append_left _ hs, hrest⟩

theorem sound_step (h : Sound l) (hstep : l.Step submission l') : Sound l' := by
  cases hstep with
  | quiet => exact h
  | enroll hstable hempty hmembers hreports =>
    rcases hmembers with rfl | ⟨id, hid, hnew, rfl⟩
    · exact ⟨h.distinct, h.named, h.empty_iff, h.leaderless_iff, h.leader, h.submitted,
        h.generation⟩
    · exact sound_enrolled h hempty hid hnew _
  | rebalance hids hnamed hleader hjoins => exact sound_rebalanced h hids hnamed hleader _
  | vacate =>
    exact ⟨List.nodup_nil, nofun, iff_of_true rfl rfl, iff_of_true rfl rfl,
      fun hne => absurd rfl hne, nofun, h.generation⟩
  | assign hleader => exact sound_accepted h hleader _

theorem toInt_generation (h : Sound l) (hcount : l.rebalances < 2 ^ 31) :
    l.generationID.toInt = l.rebalances := by
  rw [h.generation]
  exact Int32.toInt_ofNat_of_lt hcount

theorem Agreed.join {joins : List JoinGroupResponse} {r : JoinGroupResponse}
    (hjoins : l'.joins = joins ++ [r]) (hreports : Reports r l')
    (hpast : ∀ r ∈ joins, r.generationID.toInt ≤ l'.rebalances)
    (hgeneration : l'.generationID.toInt = l'.rebalances)
    (hcurrent : ∀ r ∈ joins, r.generationID = l'.generationID → r.leaderID = l'.leaderID)
    (hpairs : ∀ r ∈ joins, ∀ r' ∈ joins, r.generationID = r'.generationID →
      r.leaderID = r'.leaderID) : Agreed l' := by
  have hall : ∀ r ∈ l'.joins, r.generationID = l'.generationID → r.leaderID = l'.leaderID := by
    intro s hs
    rw [hjoins] at hs
    rcases List.mem_append.mp hs with hold | hnew
    · exact hcurrent s hold
    · obtain rfl := List.mem_singleton.mp hnew
      exact fun _ => hreports.leaderID
  refine ⟨?_, fun s hs heq _ => hall s hs heq, ?_⟩
  · intro s hs
    rw [hjoins] at hs
    rcases List.mem_append.mp hs with hold | hnew
    · exact hpast s hold
    · obtain rfl := List.mem_singleton.mp hnew
      rw [hreports.generationID, hgeneration]
  · intro s hs s' hs' heq
    have hs₀ := hs
    have hs₀' := hs'
    rw [hjoins] at hs₀ hs₀'
    rcases List.mem_append.mp hs₀ with hold | hnew
    · rcases List.mem_append.mp hs₀' with hold' | hnew'
      · exact hpairs s hold s' hold' heq
      · obtain rfl := List.mem_singleton.mp hnew'
        rw [hreports.leaderID]
        exact hall s hs (heq.trans hreports.generationID)
    · obtain rfl := List.mem_singleton.mp hnew
      rw [hreports.leaderID]
      exact (hall s' hs' (heq.symm.trans hreports.generationID)).symm

theorem agreed_step (h : Sound l) (hagreed : Agreed l) (hstep : l.Step submission l')
    (hcount : l'.rebalances < 2 ^ 31) : Agreed l' := by
  have hgeneration := toInt_generation (sound_step h hstep) hcount
  cases hstep with
  | quiet => exact hagreed
  | enroll hstable hempty hmembers hreports =>
    have hne : l.members ≠ [] := fun hnil => hempty (h.empty_iff.mpr hnil)
    exact Agreed.join rfl ⟨hreports.1, hreports.2, hreports.3, hreports.4⟩ hagreed.past
      hgeneration (fun r hr heq => hagreed.current r hr heq hne) hagreed.pairs
  | rebalance hids hnamed hleader hjoins =>
    -- no answer of the past names the generation that starts now
    have hpast : ∀ r ∈ l.joins, r.generationID.toInt < (l.rebalances + 1 : Nat) := by
      intro r hr
      have hle := hagreed.past r hr
      omega
    have hnever : ∀ r ∈ l.joins, r.generationID ≠ l.generationID + 1 := by
      intro r hr heq
      have hlt := hpast r hr
      rw [heq] at hlt
      exact absurd hgeneration (ne_of_lt hlt)
    rcases hjoins with rfl | ⟨r, hreports, rfl⟩
    · exact ⟨fun r hr => (hpast r hr).le, fun r hr heq => absurd heq (hnever r hr), hagreed.pairs⟩
    · exact Agreed.join rfl ⟨hreports.1, hreports.2, hreports.3, hreports.4⟩
        (fun r hr => (hpast r hr).le) hgeneration (fun r hr heq => absurd heq (hnever r hr))
        hagreed.pairs
  | vacate => exact ⟨hagreed.past, fun _ _ _ hne => absurd rfl hne, hagreed.pairs⟩
  | assign hleader =>
    refine ⟨hagreed.past, fun r hr heq hne => ?_, hagreed.pairs⟩
    exact hagreed.current r hr heq (by simpa [Ledger.accepted] using hne)

end

def entries (g : Group) : List (Bytes × Option Bytes) := g.members.map fun m => (m.id, m.assignment)

section

variable {g : Group}

theorem map_fst_entries (g : Group) : (entries g).map Prod.fst = g.ids := by
  rw [entries, List.map_map]
  rfl

theorem entries_updateMember {id : Bytes} {f : Member → Member} {hf : ∀ m, (f m).id = m.id}
    (hassignment : ∀ m, (f m).assignment = m.assignment) :
    entries (g.updateMember id f hf) = entries g := by
  rw [entries, Group.updateMember, Group.updateMembers, List.map_map]
  refine List.map_congr_left fun m _ => ?_
  dsimp only [Function.comp_apply]
  split
  · rw [hf, hassignment]
  · rfl

theorem entries_heardFrom (id : Bytes) (now : Int) : entries (g.heardFrom id now) = entries g :=
  entries_updateMember fun _ => rfl

theorem entries_enroll (id : Bytes) (timeout : Int32) (metadata : Option Bytes) (now : Int)
    (channel : Nat) :
    entries (g.enroll id timeout metadata now channel) =
      if id ∈ g.ids then entries g else entries g ++ [(id, none)] := by
  rw [Group.enroll]
  split
  · exact entries_updateMember fun _ => rfl
  · rw [entries, List.map_append]
    rfl

theorem enroll_fields (g : Group) (id : Bytes) (timeout : Int32) (metadata : Option Bytes)
    (now : Int) (channel : Nat) :
    (g.enroll id timeout metadata now channel).state = g.state ∧
      (g.enroll id timeout metadata now channel).generationID = g.generationID ∧
      (g.enroll id timeout metadata now channel).leaderID = g.leaderID := by
  rw [Group.enroll]
  split <;> exact ⟨rfl, rfl, rfl⟩

theorem entries_transition (g : Group) (pick : Nat) :
    entries (g.transitionToRebalance pick) = g.ids.map fun id => (id, none) := by
  rw [entries, Group.transitionToRebalance, Group.updateMembers, Group.ids, List.map_map,
    List.map_map]
  rfl

theorem ids_transition (g : Group) (pick : Nat) : (g.transitionToRebalance pick).ids = g.ids := by
  rw [← map_fst_entries, entries_transition, List.map_map]
  exact List.map_id g.ids

/-- Whatever order the map is iterated in, the leader is a member. -/
theorem leader_transition (hne : g.members ≠ []) (hnamed : [] ∉ g.ids) (pick : Nat) :
    (g.transitionToRebalance pick).leaderID ∈ g.ids := by
  change ((g.ids.rotate pick).find? fun id => decide (id ≠ [])).getD [] ∈ g.ids
  cases hfind : (g.ids.rotate pick).find? fun id => decide (id ≠ []) with
  | some id => exact List.mem_rotate.mp (List.mem_of_find?_eq_some hfind)
  | none =>
    obtain ⟨m, rest, hmembers⟩ := List.exists_cons_of_ne_nil hne
    have hmem : m.id ∈ g.ids := List.mem_map_of_mem (hmembers ▸ List.mem_cons_self)
    have hnil := List.find?_eq_none.mp hfind m.id (List.mem_rotate.mpr hmem)
    rw [decide_eq_true_eq, not_not] at hnil
    exact absurd (hnil ▸ hmem) hnamed

theorem assign_eq (g : Group) (assignments : List SyncGroupAssignment) :
    g.assign assignments = g.updateMembers
      (fun m => { m with assignment := (assigned assignments (m.id, m.assignment)).2 })
      fun _ => rfl := by
  have hext {g g' : Group} (hstate : g.state = g'.state)
      (hgeneration : g.generationID = g'.generationID) (hleader : g.leaderID = g'.leaderID)
      (hprotocol : g.protocolName = g'.protocolName) (hmembers : g.members = g'.members) :
      g = g' := by
    cases g
    cases g'
    simp_all
  induction assignments generalizing g with
  | nil => exact hext rfl rfl rfl rfl (List.map_id' _).symm
  | cons a rest ih =>
    rw [Group.assign, List.foldl_cons, ← Group.assign, ih]
    refine hext rfl rfl rfl rfl (List.map_map.trans ?_)
    refine List.map_congr_left fun m _ => ?_
    simp only [Function.comp_apply, assigned, List.foldl_cons, setAssignment]
    split <;> rfl

theorem entries_assign (g : Group) (assignments : List SyncGroupAssignment) :
    entries (g.assign assignments) = (entries g).map (assigned assignments) := by
  rw [assign_eq, entries, entries, Group.updateMembers, List.map_map, List.map_map]
  refine List.map_congr_left fun m _ => ?_
  exact Prod.ext (fst_assigned assignments (m.id, m.assignment)).symm rfl

end

section

variable {w w' : Coordination}

theorem ledger_setGroup {g : Group} (hgeneration : g.generationID = w.group.generationID) :
    ledger (w.setGroup g) =
      { ledger w with state := g.state, leaderID := g.leaderID, members := entries g } := by
  have hcount : (w.setGroup g).rebalances = w.rebalances := if_pos hgeneration
  change Ledger.mk g.state g.generationID g.leaderID (entries g) w.joins w.submissions
    (w.setGroup g).rebalances = _
  rw [hcount, hgeneration]
  rfl

theorem ledger_setGroup_transition {g : Group} (pick : Nat)
    (hgeneration : g.generationID = w.group.generationID) :
    ledger (w.setGroup (g.transitionToRebalance pick)) =
      (ledger w).rebalanced g.ids (g.transitionToRebalance pick).leaderID := by
  have hne : g.generationID + 1 ≠ w.group.generationID := by
    rw [hgeneration]
    exact fun heq => absurd (Int32.add_eq_left.mp heq) (by decide)
  have hcount : (w.setGroup (g.transitionToRebalance pick)).rebalances = w.rebalances + 1 :=
    if_neg hne
  change Ledger.mk .preparingRebalance (g.generationID + 1) _
    (entries (g.transitionToRebalance pick)) w.joins w.submissions
    (w.setGroup (g.transitionToRebalance pick)).rebalances = _
  rw [hcount, entries_transition, hgeneration]
  rfl

theorem refines_remove (h : Sound (ledger w)) (gone : Member → Bool) (pick : Nat) :
    (ledger w).Step none (ledger (w.setGroup (w.group.remove gone pick))) := by
  have hsub : (w.group.without gone).ids.Sublist w.group.ids := List.filter_sublist.map _
  have hids : (ledger w).ids = w.group.ids := map_fst_entries w.group
  rw [Group.remove]
  split
  · rename_i hnil
    have hentries : entries (w.group.without gone).vacate = [] := by
      rw [entries, Group.vacate, hnil]
      rfl
    rw [ledger_setGroup (g := (w.group.without gone).vacate) rfl, hentries]
    exact .vacate
  · rename_i hne
    have hnamed : [] ∉ (w.group.without gone).ids := fun hmem =>
      h.named (hids ▸ hsub.subset hmem)
    rw [ledger_setGroup_transition (g := w.group.without gone) pick rfl]
    exact .rebalance (w.group.distinct.sublist hsub) hnamed (leader_transition hne hnamed pick)
      (.inl rfl)

theorem refines_upkeep {g : Group} (h : Sound (ledger w)) (hupkeep : Upkeep w.group g) :
    (ledger w).Step none (ledger (w.setGroup g)) := by
  cases hupkeep with
  | same =>
    rw [ledger_setGroup rfl]
    exact .quiet
  | heard id now =>
    rw [ledger_setGroup (g := w.group.heardFrom id now) rfl, entries_heardFrom]
    exact .quiet
  | removed gone pick => exact refines_remove h gone pick

theorem named_joiningID (request : JoinGroupRequest) (clientID random : Bytes) :
    joiningID request clientID random ≠ [] := by
  rw [joiningID]
  split
  · simp [generateMemberID]
  · assumption

theorem reports_joinResponse {g : Group} {l : Ledger} {id : Bytes}
    (hgeneration : g.generationID = l.generationID) (hleader : g.leaderID = l.leaderID)
    (hids : g.ids = l.ids) (hid : id ∈ g.ids) : Reports (g.joinResponse id) l := by
  refine ⟨hgeneration, hleader, hids ▸ hid, fun heq => ?_⟩
  have hlist : (g.joinResponse id).members = g.members.map fun m => ⟨m.id, m.metadata⟩ :=
    if_pos (Eq.trans heq hleader.symm)
  rw [hlist, List.map_map, ← hids]
  rfl

theorem joining_fields (g : Group) (request : JoinGroupRequest) (id : Bytes) (now : Int)
    (channel : Nat) :
    (g.joining request id now channel).state = g.state ∧
      (g.joining request id now channel).generationID = g.generationID ∧
      (g.joining request id now channel).leaderID = g.leaderID ∧
      entries (g.joining request id now channel) =
        if id ∈ g.ids then entries g else entries g ++ [(id, none)] := by
  obtain ⟨hstate, hgeneration, hleader⟩ := enroll_fields g id request.sessionTimeoutMs
    ((request.protocols.head?.map JoinGroupProtocol.metadata).getD (some [])) now channel
  exact ⟨hstate, hgeneration, hleader, entries_enroll id _ _ now channel⟩

theorem ids_joining (g : Group) (request : JoinGroupRequest) (id : Bytes) (now : Int)
    (channel : Nat) :
    (g.joining request id now channel).ids = if id ∈ g.ids then g.ids else g.ids ++ [id] := by
  obtain ⟨-, -, -, hentries⟩ := joining_fields g request id now channel
  rw [← map_fst_entries, hentries]
  split
  · exact map_fst_entries g
  · rw [List.map_append, map_fst_entries]
    rfl

theorem refines_join (h : Sound (ledger w)) (request : JoinGroupRequest) {id : Bytes}
    (hid : id ≠ []) (pick : Nat) (now : Int) (channels : Channels) :
    (ledger w).Step none (ledger
      { w.setGroup (w.group.joinGroup request id now w.channels.length pick).1 with
        channels := channels
        joins := w.joins ++ [(w.group.joinGroup request id now w.channels.length pick).2] }) := by
  obtain ⟨hstate, hgeneration, hleader, hentries⟩ :=
    joining_fields w.group request id now w.channels.length
  have hidsJoining := ids_joining w.group request id now w.channels.length
  have hids : (ledger w).ids = w.group.ids := map_fst_entries w.group
  rw [Group.joinGroup]
  generalize w.group.joining request id now w.channels.length = g at *
  have hmember : id ∈ g.ids := by
    rw [hidsJoining]
    split
    · assumption
    · simp
  have hnamed : [] ∉ g.ids := by
    rw [hidsJoining]
    split
    · exact hids ▸ h.named
    · rw [List.mem_append, List.mem_singleton]
      exact fun hor => hor.elim (hids ▸ h.named) fun heq => hid heq.symm
  by_cases hsettled : g.state = .stable ∨ g.state = .empty
  · have hpick : (g.transitionToRebalance pick).leaderID ∈ g.ids := by
      refine leader_transition (fun hnil => ?_) hnamed pick
      rw [Group.ids, hnil] at hmember
      cases hmember
    have hnever : (g.transitionToRebalance pick).leaderID ≠ [] := fun hnil => hnamed (hnil ▸ hpick)
    have hreports : Reports ((g.transitionToRebalance pick).joinResponse id)
        ((ledger w).rebalanced g.ids (g.transitionToRebalance pick).leaderID) := by
      have hsame := ids_transition g pick
      exact reports_joinResponse (congrArg (· + 1) hgeneration) rfl
        (hsame.trans (ids_rebalanced _ _ _).symm) (hsame ▸ hmember)
    dsimp only
    rw [Group.rebalanceIfSettled, if_pos hsettled, Group.ensureLeader, if_neg hnever]
    change (ledger w).Step none { ledger (w.setGroup (g.transitionToRebalance pick)) with
      joins := w.joins ++ [(g.transitionToRebalance pick).joinResponse id] }
    rw [ledger_setGroup_transition pick hgeneration]
    exact .rebalance g.distinct hnamed hpick (.inr ⟨_, hreports, rfl⟩)
  · rw [hstate] at hsettled
    have hne : w.group.members ≠ [] := fun hnil =>
      hsettled (.inr (h.empty_iff.mpr (List.map_eq_nil_iff.mpr hnil)))
    have hled : g.leaderID ≠ [] := fun hnil =>
      hne (List.map_eq_nil_iff.mp (h.leaderless_iff.mp (hleader.symm.trans hnil)))
    dsimp only
    rw [Group.rebalanceIfSettled, hstate, if_neg hsettled, Group.ensureLeader, if_neg hled]
    change (ledger w).Step none { ledger (w.setGroup g) with joins := w.joins ++ [g.joinResponse id] }
    rw [ledger_setGroup hgeneration, hstate, hleader]
    refine .enroll (fun hstable => hsettled (.inl hstable)) (fun hempty => hsettled (.inr hempty)) ?_
      (reports_joinResponse hgeneration hleader (map_fst_entries g).symm hmember)
    rw [hentries]
    split
    · exact .inl rfl
    · rename_i hnew
      exact .inr ⟨id, hid, hids ▸ hnew, rfl⟩

theorem ledger_heardFrom (w : Coordination) (id : Bytes) (now : Int) :
    ledger (w.heardFrom id now) = ledger w := by
  change { ledger w with members := entries (w.group.heardFrom id now) } = ledger w
  rw [entries_heardFrom]
  rfl

theorem ledger_accept (w : Coordination) (assignments : List SyncGroupAssignment) :
    ledger (w.accept assignments) = (ledger w).accepted assignments := by
  change Ledger.mk .stable (w.group.assign assignments).generationID
    (w.group.assign assignments).leaderID (entries (w.group.assign assignments)) _ _ _ = _
  rw [entries_assign, assign_eq]
  rfl

theorem refines_sync (request : SyncGroupRequest) (now : Int) :
    (ledger w).Step (w.submitted (.sync request now)) (ledger (w.syncGroup request now)) := by
  rcases syncGroup_cases w request now with ⟨code, -, hsubmitted, heq⟩ |
    ⟨m, hmem, hid, -, ⟨hsubmitted, heq⟩ | ⟨hsubmitted, hleads, heq⟩⟩
  · rw [hsubmitted, heq]
    exact .quiet
  · rw [hsubmitted, heq]
    change (ledger w).Step none (ledger (w.heardFrom request.memberID now))
    rw [ledger_heardFrom]
    exact .quiet
  · rw [hsubmitted, heq]
    change (ledger w).Step _ (ledger ((w.heardFrom request.memberID now).accept request.assignments))
    rw [ledger_accept, ledger_heardFrom]
    refine .assign ?_
    change w.group.leaderID ∈ (entries w.group).map Prod.fst
    rw [map_fst_entries, ← hleads, ← hid]
    exact List.mem_map_of_mem hmem

/-- The model of the source follows the ledger. -/
theorem refines_step {e : Event} (h : Sound (ledger w)) (hstep : w.step e = some w') :
    (ledger w).Step (w.submitted e) (ledger w') := by
  cases e with
  | join request clientID random pick now =>
    obtain rfl := Option.some.inj hstep
    exact refines_join h request (named_joiningID request clientID random) pick now _
  | sync request now =>
    obtain rfl := Option.some.inj hstep
    exact refines_sync request now
  | receive call =>
    rw [Coordination.step] at hstep
    split at hstep
    · split at hstep
      · obtain rfl := Option.some.inj hstep
        exact .quiet
      · cases hstep
    · cases hstep
  | timeout call =>
    rw [Coordination.step] at hstep
    split at hstep
    · obtain rfl := Option.some.inj hstep
      exact .quiet
    · cases hstep
  | heartbeat request now =>
    obtain rfl := Option.some.inj hstep
    exact refines_upkeep h (upkeep_heartbeat w.group request now)
  | leave memberID pick =>
    obtain rfl := Option.some.inj hstep
    exact refines_upkeep h (upkeep_leaveGroup w.group memberID pick)
  | expire now pick =>
    obtain rfl := Option.some.inj hstep
    exact refines_upkeep h (upkeep_checkSessionTimeouts w.group now pick)

theorem sound_new : Sound (ledger newCoordination) :=
  ⟨List.nodup_nil, nofun, iff_of_true rfl rfl, iff_of_true rfl rfl, fun hne => absurd rfl hne,
    nofun, rfl⟩

theorem sound_run {events : List Event} {guard : Coordination → Event → Bool}
    (hrun : Run (Guarded guard Coordination.step) newCoordination events w) :
    Sound (ledger w) := by
  refine hrun.invariant (P := fun w => Sound (ledger w)) sound_new ?_
  rintro s e t hs ⟨-, hstep⟩
  exact sound_step hs (refines_step hs hstep)

theorem agreed_run {events : List Event}
    (hrun : Run (Guarded (fun _ _ => true) Coordination.step) newCoordination events w) :
    w.rebalances < 2 ^ 31 → Agreed (ledger w) := by
  induction hrun with
  | nil => exact fun _ => ⟨nofun, nofun, nofun⟩
  | snoc hbefore hlast ih =>
    intro hcount
    have hs := sound_run hbefore
    have hstep := refines_step hs hlast.2
    exact agreed_step hs (ih (lt_of_le_of_lt (rebalances_step hstep) hcount)) hstep hcount

theorem rebalances_run {events : List Event} (h : Sound (ledger w))
    (hrun : Run (Guarded (fun _ _ => true) Coordination.step) w events w') :
    w.rebalances ≤ w'.rebalances := by
  have hboth : Sound (ledger w') ∧ w.rebalances ≤ w'.rebalances := by
    refine hrun.invariant (P := fun v => Sound (ledger v) ∧ w.rebalances ≤ v.rebalances)
      ⟨h, le_rfl⟩ ?_
    rintro s e t ⟨hs, hle⟩ ⟨-, hstep⟩
    have hfollows := refines_step hs hstep
    exact ⟨sound_step hs hfollows, hle.trans (rebalances_step hfollows)⟩
  exact hboth.2

theorem rebalances_of_removed {l l' : Ledger} {submission : Option (List SyncGroupAssignment)}
    (hstep : l.Step submission l') {id : Bytes} (hid : id ∈ l.ids) (hgone : id ∉ l'.ids)
    (hne : l'.members ≠ []) : l'.rebalances = l.rebalances + 1 := by
  cases hstep with
  | quiet => exact absurd hid hgone
  | enroll hstable hempty hmembers hreports =>
    rcases hmembers with rfl | ⟨new, -, -, rfl⟩
    · exact absurd hid hgone
    · refine absurd ?_ hgone
      rw [Ledger.ids, List.map_append]
      exact List.mem_append_left _ hid
  | rebalance hids hnamed hleader hjoins => rfl
  | vacate => exact absurd rfl hne
  | @assign assignments hleader =>
    rw [ids_accepted] at hgone
    exact absurd hid hgone

structure WellLed (w : Coordination) : Prop where
  empty_iff : w.group.state = .empty ↔ w.group.members = []
  leaderless_iff : w.group.leaderID = [] ↔ w.group.members = []
  leader : w.group.members ≠ [] → w.group.leaderID ∈ w.group.ids
  submitted : ∀ m ∈ w.group.members, ∀ a, m.assignment = some a →
    ∃ s ∈ w.submissions, s.generationID = w.group.generationID ∧
      s.leaderID = w.group.leaderID ∧ ⟨m.id, some a⟩ ∈ s.assignments

theorem wellLed_of_sound (h : Sound (ledger w)) : WellLed w := by
  have hnil : (ledger w).members = [] ↔ w.group.members = [] := List.map_eq_nil_iff
  refine ⟨h.empty_iff.trans hnil, h.leaderless_iff.trans hnil, fun hne => ?_, ?_⟩
  · rw [← map_fst_entries]
    exact h.leader fun heq => hne (hnil.mp heq)
  · intro m hm a ha
    have hentry : (m.id, some a) ∈ (ledger w).members := ha ▸ List.mem_map_of_mem hm
    exact h.submitted m.id a hentry

/-- Along every run of a group with fewer than `2 ^ 31` rebalances, whichever
members lead: state, leader and assignments fit together; the generation never
falls, and rises when a member is removed and others stay; and all answers to
joins of one generation name one leader. -/
theorem group_invariant {before after : List Event}
    (hbefore : Run (Guarded (fun _ _ => true) Coordination.step) newCoordination before w)
    (hafter : Run (Guarded (fun _ _ => true) Coordination.step) w after w')
    (hcount : w'.rebalances < 2 ^ 31) :
    WellLed w' ∧ w.group.generationID.toInt ≤ w'.group.generationID.toInt ∧
      (∀ r ∈ w'.joins, ∀ r' ∈ w'.joins, r.generationID = r'.generationID →
        r.leaderID = r'.leaderID) ∧
      ∀ e w'', w'.step e = some w'' → w''.rebalances < 2 ^ 31 → w''.group.members ≠ [] →
        ∀ id ∈ w'.group.ids, id ∉ w''.group.ids →
          w'.group.generationID.toInt < w''.group.generationID.toInt := by
  have hs := sound_run hbefore
  have hs' := sound_run (hbefore.trans hafter)
  have hle := rebalances_run hs hafter
  have hgeneration' : w'.group.generationID.toInt = w'.rebalances := toInt_generation hs' hcount
  refine ⟨wellLed_of_sound hs', ?_, (agreed_run (hbefore.trans hafter) hcount).pairs, ?_⟩
  · have hgeneration : w.group.generationID.toInt = w.rebalances :=
      toInt_generation hs (lt_of_le_of_lt hle hcount)
    rw [hgeneration, hgeneration']
    exact Int.ofNat_le.mpr hle
  · intro e w'' hstep hcount' hne id hid hgone
    have hfollows := refines_step hs' hstep
    have hgeneration'' : w''.group.generationID.toInt = w''.rebalances :=
      toInt_generation (sound_step hs' hfollows) hcount'
    rw [← map_fst_entries] at hid hgone
    have hnext : w''.rebalances = w'.rebalances + 1 :=
      rebalances_of_removed hfollows hid hgone fun hnil => hne (List.map_eq_nil_iff.mp hnil)
    rw [hgeneration', hgeneration'', hnext]
    exact Int.ofNat_lt.mpr (Nat.lt_succ_self _)

end

def alice : Bytes := [97]

def bob : Bytes := [98]

def joins (id : Bytes) : Event := .join ⟨10000, id, []⟩ [] [] 0 0

def twoMembers : List Event :=
  [joins alice, joins bob, .sync ⟨1, alice, [⟨alice, some [1]⟩, ⟨bob, some [2]⟩]⟩ 0]

theorem group_invariant_leave :
    ∃ w w', Run (Guarded (fun _ _ => true) Coordination.step) newCoordination twoMembers w ∧
      w.step (.leave bob 0) = some w' ∧ w'.group.ids = [alice] ∧ WellLed w ∧
      (∀ r ∈ w.joins, ∀ r' ∈ w.joins, r.generationID = r'.generationID →
        r.leaderID = r'.leaderID) ∧
      w.group.generationID.toInt < w'.group.generationID.toInt := by
  have hend : (execute (fun _ _ => true) Coordination.step newCoordination twoMembers).map
      (fun w => (w.rebalances, w.group.ids, (w.step (.leave bob 0)).map fun w' =>
        (w'.rebalances, w'.group.ids))) =
      some (1, [alice, bob], some (2, [alice])) := by
    decide +kernel
  obtain ⟨w, hrun, hw⟩ := exists_run_of_execute hend
  obtain ⟨hcount, hrest⟩ := Prod.mk.inj hw
  obtain ⟨hids, hleave⟩ := Prod.mk.inj hrest
  obtain ⟨w', hstep, hw'⟩ := Option.map_eq_some_iff.mp hleave
  obtain ⟨hcount', hids'⟩ := Prod.mk.inj hw'
  obtain ⟨hled, -, hagree, hremoved⟩ := group_invariant hrun .nil (by rw [hcount]; decide)
  have hne : w'.group.members ≠ [] := fun hnil => by
    rw [Group.ids, hnil] at hids'
    cases hids'
  refine ⟨w, w', hrun, hstep, hids', hled, hagree, ?_⟩
  exact hremoved _ w' hstep (by rw [hcount']; decide) hne bob (by rw [hids]; decide)
    (by rw [hids']; decide)

end MiniKafka.GroupLedger
