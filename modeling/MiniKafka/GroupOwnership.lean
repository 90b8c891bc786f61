import Mathlib.Data.List.Pairwise
import MiniKafka.GroupLedger
import MiniKafka.PartitionAssignments

/-!
Who owns which partition of a group.

A leader computes its assignments from the list of members that a `JoinGroup`
answered.  Members may join afterwards without starting a new generation, and
the leader may hold several lists of one generation.  The assignments computed
from one list overwrite only what the members on it had, and leave out those who
are not on it.
-/

namespace MiniKafka.GroupOwnership

open BigEndian PartitionAssignments GroupCoordinator GroupLedger Runs

def onSubmission (condition : Ledger → List SyncGroupAssignment → Bool) (w : Coordination)
    (e : Event) : Bool :=
  (w.submitted e).all (condition (ledger w))

def Apart (a b : Option Bytes) : Prop := ∀ tp ∈ owned a, tp ∉ owned b

instance : DecidableRel Apart := fun a b => List.decidableBAll (fun tp => tp ∉ owned b) (owned a)

def Ledger.ownList (l : Ledger) (r : JoinGroupResponse) : Bool :=
  decide (r.memberID = l.leaderID ∧ r.generationID = l.generationID)

/-- The assignments split partitions over the members on one of the leader's own
lists. -/
def splitsOwnList (l : Ledger) (assignments : List SyncGroupAssignment) : Bool :=
  (l.joins.any fun r => Ledger.ownList l r &&
      decide ((assignments.map SyncGroupAssignment.memberID).Perm
        (r.members.map JoinGroupMember.memberID))) &&
    decide (assignments.Pairwise fun a b => Apart a.assignment b.assignment)

def covers (partitions : List (Bytes × Int32)) (assignments : List SyncGroupAssignment) : Bool :=
  let all := assignments.flatMap fun a => owned a.assignment
  decide (∀ tp ∈ partitions, tp ∈ all) && decide (∀ tp ∈ all, tp ∈ partitions)

def namesOwners (l : Ledger) (assignments : List SyncGroupAssignment) : Bool :=
  l.members.all fun entry => (owned entry.2).isEmpty ||
    assignments.any fun a => decide (a.memberID = entry.1)

/-- The list that the leader's latest join of the generation was answered. -/
def Ledger.latestList (l : Ledger) : List Bytes :=
  match l.joins.reverse.find? (Ledger.ownList l) with
  | some r => r.members.map JoinGroupMember.memberID
  | none => []

/-- The leader has something for everybody on its latest list. -/
def assignsLatestList (l : Ledger) (assignments : List SyncGroupAssignment) : Bool :=
  ((Ledger.latestList l).all fun id => assignments.any fun a => decide (a.memberID = id)) &&
    assignments.all fun a => a.assignment.isSome

/-- Nobody has joined since that list was made who has no assignment. -/
def listIsCurrent (l : Ledger) (_ : List SyncGroupAssignment) : Bool :=
  l.members.all fun entry => entry.2.isSome ||
    (Ledger.latestList l).any fun id => decide (id = entry.1)

section

variable {l l' : Ledger} {submission : Option (List SyncGroupAssignment)} {w : Coordination}
  {events : List Event}

theorem Apart.symm {a b : Option Bytes} (h : Apart a b) : Apart b a :=
  fun tp hb ha => h tp ha hb

theorem apart_of_empty {a b : Option Bytes} (h : owned a = []) : Apart a b := by
  intro tp htp
  rw [h] at htp
  cases htp

/-- A property of ledgers that every step keeps, given a condition on what is
accepted, holds after every run under that condition. -/
theorem ledger_run {P : Ledger → Prop} {condition : Ledger → List SyncGroupAssignment → Bool}
    (hrun : Run (Guarded (onSubmission condition) Coordination.step) newCoordination events w)
    (hinit : P (ledger newCoordination))
    (hstep : ∀ l submission l', Sound l → P l → submission.all (condition l) = true →
      l.Step submission l' → P l') : P (ledger w) := by
  have hboth : Sound (ledger w) ∧ P (ledger w) := by
    refine hrun.invariant (P := fun w => Sound (ledger w) ∧ P (ledger w)) ⟨sound_new, hinit⟩ ?_
    rintro s e t ⟨hs, hp⟩ ⟨hguard, hnext⟩
    have hfollows := refines_step hs hnext
    exact ⟨sound_step hs hfollows, hstep _ _ _ hs hp hguard hfollows⟩
  exact hboth.2

def Disjoint (l : Ledger) : Prop := l.members.Pairwise fun entry other => Apart entry.2 other.2

theorem apart_assigned {assignments : List SyncGroupAssignment} (hsound : Sound l)
    (hsplit : assignments.Pairwise fun a b => Apart a.assignment b.assignment)
    (hnames : namesOwners l assignments = true) :
    Disjoint (l.accepted assignments) := by
  -- a member has what it is named with, or nothing
  have hfrom : ∀ entry ∈ l.members, ⟨entry.1, (assigned assignments entry).2⟩ ∈ assignments ∨
      owned (assigned assignments entry).2 = [] := by
    intro entry hentry
    rcases assigned_cases assignments entry with hnamed | ⟨hsame, hnone⟩
    · exact .inl hnamed
    · right
      have howner := List.all_eq_true.mp hnames entry hentry
      rw [Bool.or_eq_true, List.isEmpty_iff] at howner
      rcases howner with hempty | hnamed
      · rwa [hsame]
      · obtain ⟨a, ha, hid⟩ := List.any_eq_true.mp hnamed
        exact absurd (of_decide_eq_true hid) (hnone a ha)
  have hpair := List.pairwise_map.mp hsound.distinct
  rw [Disjoint, Ledger.accepted, List.pairwise_map]
  refine hpair.imp_of_mem ?_
  intro entry other hentry hother hne
  rcases hfrom entry hentry with hnamed | hempty
  · rcases hfrom other hother with hnamed' | hempty'
    · have hsymm : Std.Symm fun a b : SyncGroupAssignment => Apart a.assignment b.assignment :=
        ⟨fun _ _ hapart => hapart.symm⟩
      exact hsplit.forall hnamed hnamed' fun heq =>
        hne (congrArg SyncGroupAssignment.memberID heq)
    · exact (apart_of_empty hempty').symm
  · exact apart_of_empty hempty

theorem disjoint_step (hsound : Sound l) (h : Disjoint l)
    (hguard : (submission.all fun assignments =>
      splitsOwnList l assignments && namesOwners l assignments) = true)
    (hstep : l.Step submission l') : Disjoint l' := by
  cases hstep with
  | quiet => exact h
  | enroll hstable hempty hmembers hreports =>
    rcases hmembers with rfl | ⟨id, -, -, rfl⟩
    · exact h
    · refine List.pairwise_append.mpr ⟨h, List.pairwise_singleton _ _, ?_⟩
      intro entry _ added hadded
      obtain rfl := List.mem_singleton.mp hadded
      exact (apart_of_empty rfl).symm
  | rebalance hids hnamed hleader hjoins =>
    refine List.pairwise_map.mpr (List.pairwise_of_forall ?_)
    exact fun _ _ => apart_of_empty rfl
  | vacate => exact List.Pairwise.nil
  | @assign assignments hleader =>
    obtain ⟨hsplits, hnames⟩ := (Bool.and_eq_true _ _).mp hguard
    obtain ⟨-, hpairwise⟩ := (Bool.and_eq_true _ _).mp hsplits
    exact apart_assigned hsound (of_decide_eq_true hpairwise) hnames

/-- As long as whoever owns a partition is named in every set of assignments the
leader submits, no partition ever has two owners. -/
theorem assignments_disjoint
    (hrun : Run (Guarded (onSubmission fun l assignments =>
        splitsOwnList l assignments && namesOwners l assignments) Coordination.step)
      newCoordination events w) :
    w.group.members.Pairwise fun m other => Apart m.assignment other.assignment := by
  have hdisjoint : Disjoint (ledger w) :=
    ledger_run hrun List.Pairwise.nil fun _ _ _ => disjoint_step
  exact (List.pairwise_map (f := fun m : Member => (m.id, m.assignment))).mp hdisjoint

def Complete (l : Ledger) : Prop := l.state = .stable → ∀ entry ∈ l.members, entry.2.isSome = true

theorem complete_accepted {assignments : List SyncGroupAssignment}
    (hlatest : assignsLatestList l assignments = true)
    (hcurrent : listIsCurrent l assignments = true) : Complete (l.accepted assignments) := by
  obtain ⟨hlist, hsome⟩ := (Bool.and_eq_true _ _).mp hlatest
  intro _ entry hentry
  obtain ⟨old, hold, rfl⟩ := List.mem_map.mp hentry
  rcases assigned_cases assignments old with hnamed | ⟨hsame, hnone⟩
  · exact List.all_eq_true.mp hsome _ hnamed
  · have hknown := List.all_eq_true.mp hcurrent old hold
    rcases (Bool.or_eq_true _ _).mp hknown with hhas | hlisted
    · rwa [hsame]
    · obtain ⟨id, hid, hold⟩ := List.any_eq_true.mp hlisted
      obtain rfl := of_decide_eq_true hold
      obtain ⟨a, ha, hnamed⟩ := List.any_eq_true.mp (List.all_eq_true.mp hlist _ hid)
      exact absurd (of_decide_eq_true hnamed) (hnone a ha)

theorem complete_step (h : Complete l)
    (hguard : (submission.all fun assignments =>
      assignsLatestList l assignments && listIsCurrent l assignments) = true)
    (hstep : l.Step submission l') : Complete l' := by
  cases hstep with
  | quiet => exact h
  | enroll hstable hempty hmembers hreports => exact fun hstate => absurd hstate hstable
  | rebalance hids hnamed hleader hjoins => exact nofun
  | vacate => exact nofun
  | @assign assignments hleader =>
    obtain ⟨hlatest, hcurrent⟩ := (Bool.and_eq_true _ _).mp hguard
    exact complete_accepted hlatest hcurrent

/-- As long as nobody has joined since the leader's latest list was made, a
stable group leaves nobody out. -/
theorem stable_complete
    (hrun : Run (Guarded (onSubmission fun l assignments =>
        assignsLatestList l assignments && listIsCurrent l assignments) Coordination.step)
      newCoordination events w) (hstable : w.group.state = .stable) :
    ∀ m ∈ w.group.members, ∃ a, m.assignment = some a ∧
      ∃ s ∈ w.submissions, s.generationID = w.group.generationID ∧
        s.leaderID = w.group.leaderID ∧ ⟨m.id, some a⟩ ∈ s.assignments := by
  have hcomplete : Complete (ledger w) :=
    ledger_run hrun nofun fun _ _ _ _ => complete_step
  intro m hm
  have hsome : m.assignment.isSome = true := hcomplete hstable _ (List.mem_map_of_mem hm)
  obtain ⟨a, ha⟩ := Option.isSome_iff_exists.mp hsome
  exact ⟨a, ha, (wellLed_of_sound (sound_run hrun)).submitted m hm a ha⟩

end

def topic : Bytes := [116]

def share (partitions : List Int32) : Option Bytes :=
  (encodeAssignment ⟨[⟨topic, partitions⟩]⟩).toOption

/-- The leader has two lists of the first generation, one with and one without
the second member, and submits what it computed from the longer one. -/
def twoLists : List Event :=
  [joins alice, joins bob, joins alice,
    .sync ⟨1, alice, [⟨alice, share [0]⟩, ⟨bob, share [1]⟩]⟩ 0]

/-- What it computed from the shorter list arrives late. -/
def lateSync : List Event := twoLists ++ [.sync ⟨1, alice, [⟨alice, share [0, 1]⟩]⟩ 0]

theorem assignments_overlap :
    ∃ w, Run (Guarded (onSubmission fun l assignments =>
          splitsOwnList l assignments && covers [(topic, 0), (topic, 1)] assignments)
        Coordination.step) newCoordination lateSync w ∧
      ¬ w.group.members.Pairwise fun m other => Apart m.assignment other.assignment := by
  have hend : (execute (onSubmission fun l assignments =>
          splitsOwnList l assignments && covers [(topic, 0), (topic, 1)] assignments)
        Coordination.step newCoordination lateSync).map
        (fun w => decide (w.group.members.Pairwise fun m other =>
          Apart m.assignment other.assignment)) = some false := by
    decide +kernel
  obtain ⟨w, hrun, hw⟩ := exists_run_of_execute hend
  exact ⟨w, hrun, of_decide_eq_false hw⟩

theorem assignments_disjoint_twoLists :
    ∃ w, Run (Guarded (onSubmission fun l assignments =>
          splitsOwnList l assignments && namesOwners l assignments)
        Coordination.step) newCoordination twoLists w ∧
      w.group.members.map (fun m => owned m.assignment) = [[(topic, 0)], [(topic, 1)]] ∧
      w.group.members.Pairwise fun m other => Apart m.assignment other.assignment := by
  have hend : (execute (onSubmission fun l assignments =>
          splitsOwnList l assignments && namesOwners l assignments)
        Coordination.step newCoordination twoLists).map
        (fun w => w.group.members.map fun m => owned m.assignment) =
      some [[(topic, 0)], [(topic, 1)]] := by
    decide +kernel
  obtain ⟨w, hrun, hw⟩ := exists_run_of_execute hend
  exact ⟨w, hrun, hw, assignments_disjoint hrun⟩

/-- The second member joins after the leader got its list, and asks for its
assignment when the leader has submitted. -/
def leftOut : List Event :=
  [joins alice, joins bob, .sync ⟨1, alice, [⟨alice, share [0, 1]⟩]⟩ 0, .sync ⟨1, bob, []⟩ 0,
    .receive 1]

/-- The group is stable, and the second member is told that its assignment is
nil. -/
theorem stable_incomplete :
    ∃ w, Run (Guarded (onSubmission assignsLatestList) Coordination.step) newCoordination
        leftOut w ∧
      w.group.state = .stable ∧ (∃ m ∈ w.group.members, m.id = bob ∧ m.assignment = none) ∧
      w.calls[1]? = some ⟨1, bob, .returned ⟨.none, none⟩⟩ := by
  have hend : (execute (onSubmission assignsLatestList) Coordination.step newCoordination
      leftOut).map (fun w => (w.group.state, w.group.members.any (fun m =>
        decide (m.id = bob ∧ m.assignment = none)), w.calls[1]?)) =
      some (.stable, true, some ⟨1, bob, .returned ⟨.none, none⟩⟩) := by
    decide +kernel
  obtain ⟨w, hrun, hw⟩ := exists_run_of_execute hend
  obtain ⟨hstate, hrest⟩ := Prod.mk.inj hw
  obtain ⟨hany, hcall⟩ := Prod.mk.inj hrest
  obtain ⟨m, hm, hbob⟩ := List.any_eq_true.mp hany
  exact ⟨w, hrun, hstate, ⟨m, hm, of_decide_eq_true hbob⟩, hcall⟩

theorem stable_complete_twoLists :
    ∃ w, Run (Guarded (onSubmission fun l assignments =>
          assignsLatestList l assignments && listIsCurrent l assignments)
        Coordination.step) newCoordination twoLists w ∧
      w.group.state = .stable ∧ w.group.ids = [alice, bob] ∧
      ∀ m ∈ w.group.members, ∃ a, m.assignment = some a ∧
        ∃ s ∈ w.submissions, s.generationID = w.group.generationID ∧
          s.leaderID = w.group.leaderID ∧ ⟨m.id, some a⟩ ∈ s.assignments := by
  have hend : (execute (onSubmission fun l assignments =>
          assignsLatestList l assignments && listIsCurrent l assignments)
        Coordination.step newCoordination twoLists).map
        (fun w => (w.group.state, w.group.ids)) = some (.stable, [alice, bob]) := by
    decide +kernel
  obtain ⟨w, hrun, hw⟩ := exists_run_of_execute hend
  obtain ⟨hstate, hids⟩ := Prod.mk.inj hw
  exact ⟨w, hrun, hstate, hids, stable_complete hrun hstate⟩

end MiniKafka.GroupOwnership
