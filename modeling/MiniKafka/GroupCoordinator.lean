import Mathlib.Data.List.Rotate
import MiniKafka.BigEndian
import MiniKafka.Durations

/-!
One consumer group of `internal/coordinator/group.go`.

Every operation takes the lock of the group once, except that `SyncGroup`
afterwards waits on the channel its member had at that moment.  Joining again
gives a member a new channel; calls that still wait keep the old one.
-/

namespace MiniKafka.GroupCoordinator

open BigEndian Durations

inductive GroupState where
  | empty
  | preparingRebalance
  | completingRebalance
  | stable
  deriving DecidableEq, Repr

/-- The codes of `internal/server` that the coordinator answers with. -/
inductive ErrorCode where
  | none
  | invalidGroupID
  | unknownMemberID
  | illegalGeneration
  | rebalanceInProgress
  | requestTimedOut
  deriving DecidableEq, Repr

/-- A byte slice that is `none` is nil. -/
structure Member where
  id : Bytes
  sessionTimeoutMs : Int32
  lastHeartbeat : Int
  metadata : Option Bytes
  assignment : Option Bytes
  syncRespCh : Nat
  deriving DecidableEq, Repr

/-- The source keeps the members in a map by their ids. -/
structure Group where
  state : GroupState
  generationID : Int32
  leaderID : Bytes
  protocolName : Bytes
  members : List Member
  distinct : (members.map Member.id).Nodup
  deriving DecidableEq

structure JoinGroupProtocol where
  name : Bytes
  metadata : Option Bytes
  deriving DecidableEq, Repr

structure JoinGroupRequest where
  sessionTimeoutMs : Int32
  memberID : Bytes
  protocols : List JoinGroupProtocol
  deriving DecidableEq, Repr

structure JoinGroupMember where
  memberID : Bytes
  metadata : Option Bytes
  deriving DecidableEq, Repr

structure JoinGroupResponse where
  errorCode : ErrorCode
  generationID : Int32
  protocolName : Bytes
  leaderID : Bytes
  memberID : Bytes
  members : List JoinGroupMember
  deriving DecidableEq, Repr

structure SyncGroupAssignment where
  memberID : Bytes
  assignment : Option Bytes
  deriving DecidableEq, Repr

structure SyncGroupRequest where
  generationID : Int32
  memberID : Bytes
  assignments : List SyncGroupAssignment
  deriving DecidableEq, Repr

structure SyncGroupResponse where
  errorCode : ErrorCode
  assignment : Option Bytes
  deriving DecidableEq, Repr

def newGroup : Group where
  state := .empty
  generationID := 0
  leaderID := []
  protocolName := []
  members := []
  distinct := List.nodup_nil

def hexDigit (n : Nat) : UInt8 := if n < 10 then UInt8.ofNat (48 + n) else UInt8.ofNat (87 + n)

def hexEncode (bs : Bytes) : Bytes :=
  bs.flatMap fun b => [hexDigit (b.toNat / 16), hexDigit (b.toNat % 16)]

def generateMemberID (clientID random : Bytes) : Bytes := clientID ++ 45 :: hexEncode random

def Group.ids (g : Group) : List Bytes := g.members.map Member.id

theorem ids_map {f : Member → Member} (hf : ∀ m, (f m).id = m.id) (members : List Member) :
    (members.map f).map Member.id = members.map Member.id := by
  rw [List.map_map]
  exact List.map_congr_left fun m _ => hf m

def Group.updateMembers (g : Group) (f : Member → Member) (hf : ∀ m, (f m).id = m.id) : Group :=
  { g with
    members := g.members.map f
    distinct := by
      rw [ids_map hf]
      exact g.distinct }

def Group.updateMember (g : Group) (id : Bytes) (f : Member → Member)
    (hf : ∀ m, (f m).id = m.id) : Group :=
  g.updateMembers (fun m => if m.id = id then f m else m) (by
    intro m
    split
    · exact hf m
    · rfl)

def Group.find? (g : Group) (id : Bytes) : Option Member :=
  g.members.find? fun m => decide (m.id = id)

def Group.heardFrom (g : Group) (id : Bytes) (now : Int) : Group :=
  g.updateMember id (fun m => { m with lastHeartbeat := now }) fun _ => rfl

/-- `transitionToRebalanceLocked`.  The leader is the first member that the
iteration over the map meets: `pick` says where it starts. -/
def Group.transitionToRebalance (g : Group) (pick : Nat) : Group :=
  { g.updateMembers (fun m => { m with assignment := none }) fun _ => rfl with
    state := .preparingRebalance
    generationID := g.generationID + 1
    leaderID := ((g.ids.rotate pick).find? fun id => decide (id ≠ [])).getD [] }

def Group.enroll (g : Group) (id : Bytes) (sessionTimeoutMs : Int32) (metadata : Option Bytes)
    (now : Int) (channel : Nat) : Group :=
  if h : id ∈ g.ids then
    g.updateMember id
      (fun m =>
        { m with
          sessionTimeoutMs := sessionTimeoutMs
          lastHeartbeat := now
          metadata := metadata
          syncRespCh := channel })
      fun _ => rfl
  else
    { g with
      members := g.members ++ [⟨id, sessionTimeoutMs, now, metadata, none, channel⟩]
      distinct := by
        rw [List.map_append, List.map_singleton]
        exact List.nodup_append.mpr ⟨g.distinct, List.nodup_singleton _, by
          rintro a ha b hb rfl
          exact h (by rwa [List.mem_singleton.mp hb] at ha)⟩ }

def Group.joining (g : Group) (request : JoinGroupRequest) (memberID : Bytes) (now : Int)
    (channel : Nat) : Group :=
  let metadata := (request.protocols.head?.map JoinGroupProtocol.metadata).getD (some [])
  { g.enroll memberID request.sessionTimeoutMs metadata now channel with
    protocolName := (request.protocols.head?.map JoinGroupProtocol.name).getD [] }

def Group.rebalanceIfSettled (g : Group) (pick : Nat) : Group :=
  -- whoever joins during a rebalance joins its generation
  if g.state = .stable ∨ g.state = .empty then g.transitionToRebalance pick else g

def Group.ensureLeader (g : Group) (memberID : Bytes) : Group :=
  if g.leaderID = [] then { g with leaderID := memberID } else g

def Group.joinResponse (g : Group) (memberID : Bytes) : JoinGroupResponse where
  errorCode := .none
  generationID := g.generationID
  protocolName := g.protocolName
  leaderID := g.leaderID
  memberID := memberID
  members := if memberID = g.leaderID then g.members.map fun m => ⟨m.id, m.metadata⟩ else []

def Group.joinGroup (g : Group) (request : JoinGroupRequest) (memberID : Bytes) (now : Int)
    (channel pick : Nat) : Group × JoinGroupResponse :=
  let g := ((g.joining request memberID now channel).rebalanceIfSettled pick).ensureLeader memberID
  (g, g.joinResponse memberID)

/-- The leader's assignments, one after the other; those for strangers are
skipped. -/
def Group.assign (g : Group) (assignments : List SyncGroupAssignment) : Group :=
  assignments.foldl
    (fun g a => g.updateMember a.memberID (fun m => { m with assignment := a.assignment })
      fun _ => rfl) g

/-- A response in the buffer of a channel, with the generation of the group at
the moment it was sent, which the response itself does not show. -/
structure Delivery where
  generationID : Int32
  response : SyncGroupResponse
  deriving DecidableEq, Repr

/-- Channels with room for one response. -/
abbrev Channels := List (Option Delivery)

def offer (channels : Channels) (channel : Nat) (d : Delivery) : Channels :=
  if channels[channel]? = some none then channels.set channel (some d) else channels

def Group.notify (g : Group) (channels : Channels) : Channels :=
  g.members.foldl
    (fun channels m => offer channels m.syncRespCh ⟨g.generationID, .none, m.assignment⟩) channels

structure HeartbeatRequest where
  generationID : Int32
  memberID : Bytes
  deriving DecidableEq, Repr

def Group.heartbeat (g : Group) (request : HeartbeatRequest) (now : Int) : Group × ErrorCode :=
  if request.generationID ≠ g.generationID then (g, .illegalGeneration)
  else if request.memberID ∉ g.ids then (g, .unknownMemberID)
  else if g.state = .preparingRebalance then (g, .rebalanceInProgress)
  else (g.heardFrom request.memberID now, .none)

def Group.without (g : Group) (gone : Member → Bool) : Group :=
  { g with
    members := g.members.filter fun m => !gone m
    distinct := g.distinct.sublist (List.filter_sublist.map _) }

def Group.vacate (g : Group) : Group := { g with state := .empty, leaderID := [] }

def Group.remove (g : Group) (gone : Member → Bool) (pick : Nat) : Group :=
  if (g.without gone).members = [] then (g.without gone).vacate
  else (g.without gone).transitionToRebalance pick

def Group.leaveGroup (g : Group) (memberID : Bytes) (pick : Nat) : Group × ErrorCode :=
  if memberID ∉ g.ids then (g, .unknownMemberID)
  else (g.remove (fun m => decide (m.id = memberID)) pick, .none)

def Member.sessionTimeout (m : Member) : Int64 :=
  let timeout := milliseconds m.sessionTimeoutMs.toInt64
  if timeout ≤ 0 then 45000000000 else timeout

def Member.expired (now : Int) (m : Member) : Bool :=
  decide (m.sessionTimeout < elapsed now m.lastHeartbeat)

def Group.checkSessionTimeouts (g : Group) (now : Int) (pick : Nat) : Group :=
  if g.members.any (Member.expired now) then g.remove (Member.expired now) pick else g

inductive CallState where
  | waiting (channel : Nat)
  | returned (response : SyncGroupResponse)
  deriving DecidableEq, Repr

structure SyncCall where
  generationID : Int32
  memberID : Bytes
  state : CallState
  deriving DecidableEq, Repr

/-- The assignments a leader has had accepted. -/
structure Submission where
  generationID : Int32
  leaderID : Bytes
  assignments : List SyncGroupAssignment
  deriving DecidableEq, Repr

/-- A group with its channels and the calls of `SyncGroup`.  The last three
fields are a record of what has happened: the answers to `JoinGroup`, the
assignments accepted, and how often the generation has changed. -/
structure Coordination where
  group : Group
  channels : Channels
  calls : List SyncCall
  joins : List JoinGroupResponse
  submissions : List Submission
  rebalances : Nat
  deriving DecidableEq

inductive Event where
  | join (request : JoinGroupRequest) (clientID random : Bytes) (pick : Nat) (now : Int)
  | sync (request : SyncGroupRequest) (now : Int)
  | receive (call : Nat)
  | timeout (call : Nat)
  | heartbeat (request : HeartbeatRequest) (now : Int)
  | leave (memberID : Bytes) (pick : Nat)
  | expire (now : Int) (pick : Nat)
  deriving DecidableEq, Repr

def newCoordination : Coordination where
  group := newGroup
  channels := []
  calls := []
  joins := []
  submissions := []
  rebalances := 0

def joiningID (request : JoinGroupRequest) (clientID random : Bytes) : Bytes :=
  if request.memberID = [] then generateMemberID clientID random else request.memberID

def Coordination.setGroup (w : Coordination) (g : Group) : Coordination :=
  { w with
    group := g
    rebalances :=
      if g.generationID = w.group.generationID then w.rebalances else w.rebalances + 1 }

def Coordination.refuse (w : Coordination) (request : SyncGroupRequest) (code : ErrorCode) :
    Coordination :=
  { w with
    calls := w.calls ++ [⟨request.generationID, request.memberID, .returned ⟨code, none⟩⟩] }

/-- The assignments that `SyncGroup` is going to accept from the leader. -/
def Coordination.submitted (w : Coordination) : Event → Option (List SyncGroupAssignment)
  | .sync request _ =>
    if request.generationID = w.group.generationID ∧ request.memberID ∈ w.group.ids ∧
        request.memberID = w.group.leaderID ∧ request.assignments ≠ [] then
      some request.assignments
    else none
  | _ => none

def Coordination.heardFrom (w : Coordination) (id : Bytes) (now : Int) : Coordination :=
  { w with group := w.group.heardFrom id now }

def Group.accept (g : Group) (assignments : List SyncGroupAssignment) : Group :=
  { g.assign assignments with state := .stable }

def Coordination.accept (w : Coordination) (assignments : List SyncGroupAssignment) :
    Coordination :=
  { w with
    group := w.group.accept assignments
    channels := (w.group.accept assignments).notify w.channels
    submissions := w.submissions ++ [⟨w.group.generationID, w.group.leaderID, assignments⟩] }

def Coordination.await (w : Coordination) (request : SyncGroupRequest) (channel : Nat) :
    Coordination :=
  { w with
    calls := w.calls ++ [⟨request.generationID, request.memberID, .waiting channel⟩] }

/-- The part of `SyncGroup` under the lock of the group. -/
def Coordination.syncGroup (w : Coordination) (request : SyncGroupRequest) (now : Int) :
    Coordination :=
  if request.generationID ≠ w.group.generationID then w.refuse request .illegalGeneration
  else
    match w.group.find? request.memberID with
    | none => w.refuse request .unknownMemberID
    | some m =>
      let w := w.heardFrom request.memberID now
      let w :=
        if request.memberID = w.group.leaderID ∧ request.assignments ≠ [] then
          w.accept request.assignments
        else w
      w.await request m.syncRespCh

/-- One step: an operation under the lock of the group, or a waiting call
returns. -/
def Coordination.step (w : Coordination) : Event → Option Coordination
  | .join request clientID random pick now =>
    let joined := w.group.joinGroup request (joiningID request clientID random) now
      w.channels.length pick
    some
      { w.setGroup joined.1 with
        channels := w.channels ++ [none]
        joins := w.joins ++ [joined.2] }
  | .sync request now => some (w.syncGroup request now)
  | .receive call =>
    match w.calls[call]? with
    | some ⟨generationID, memberID, .waiting channel⟩ =>
      match w.channels[channel]? with
      | some (some d) =>
        some
          { w with
            channels := w.channels.set channel none
            calls := w.calls.set call ⟨generationID, memberID, .returned d.response⟩ }
      | _ => none
    | _ => none
  | .timeout call =>
    -- after thirty seconds, or when the caller gives up
    match w.calls[call]? with
    | some ⟨generationID, memberID, .waiting _⟩ =>
      some
        { w with
          calls := w.calls.set call
            ⟨generationID, memberID, .returned ⟨.requestTimedOut, none⟩⟩ }
    | _ => none
  | .heartbeat request now => some (w.setGroup (w.group.heartbeat request now).1)
  | .leave memberID pick => some (w.setGroup (w.group.leaveGroup memberID pick).1)
  | .expire now pick => some (w.setGroup (w.group.checkSessionTimeouts now pick))

theorem mem_of_find? {g : Group} {id : Bytes} {m : Member} (hfind : g.find? id = some m) :
    m ∈ g.members ∧ m.id = id := by
  rw [Group.find?] at hfind
  have hid := List.find?_some hfind
  rw [decide_eq_true_eq] at hid
  exact ⟨List.mem_of_find?_eq_some hfind, hid⟩

theorem find?_eq_none_iff {g : Group} {id : Bytes} : g.find? id = none ↔ id ∉ g.ids := by
  rw [Group.find?, List.find?_eq_none, Group.ids, List.mem_map, not_exists]
  simp

/-- `SyncGroup` refuses, or lets a member wait on its channel; before that, the
assignments of the leader are accepted. -/
theorem syncGroup_cases (w : Coordination) (request : SyncGroupRequest) (now : Int) :
    (∃ code, code ≠ .none ∧ w.submitted (.sync request now) = none ∧
        w.syncGroup request now = w.refuse request code) ∨
      ∃ m ∈ w.group.members, m.id = request.memberID ∧
        request.generationID = w.group.generationID ∧
        ((w.submitted (.sync request now) = none ∧
            w.syncGroup request now =
              (w.heardFrom request.memberID now).await request m.syncRespCh) ∨
          (w.submitted (.sync request now) = some request.assignments ∧
            request.memberID = w.group.leaderID ∧
            w.syncGroup request now =
              ((w.heardFrom request.memberID now).accept request.assignments).await request
                m.syncRespCh)) := by
  rw [Coordination.syncGroup, Coordination.submitted]
  by_cases hgeneration : request.generationID = w.group.generationID
  · rw [if_neg (not_not.mpr hgeneration)]
    cases hfind : w.group.find? request.memberID with
    | none =>
      rw [if_neg fun hall => find?_eq_none_iff.mp hfind hall.2.1]
      exact .inl ⟨.unknownMemberID, by decide, rfl, rfl⟩
    | some m =>
      obtain ⟨hmem, hid⟩ := mem_of_find? hfind
      refine .inr ⟨m, hmem, hid, hgeneration, ?_⟩
      have hids : request.memberID ∈ w.group.ids := hid ▸ List.mem_map_of_mem hmem
      have hleader : (w.heardFrom request.memberID now).group.leaderID = w.group.leaderID := rfl
      dsimp only
      rw [hleader]
      by_cases hsubmits : request.memberID = w.group.leaderID ∧ request.assignments ≠ []
      · rw [if_pos ⟨hgeneration, hids, hsubmits⟩, if_pos hsubmits]
        exact .inr ⟨rfl, hsubmits.1, rfl⟩
      · rw [if_neg fun hall => hsubmits hall.2.2, if_neg hsubmits]
        exact .inl ⟨rfl, rfl⟩
  · rw [if_pos hgeneration, if_neg fun hall => hgeneration hall.1]
    exact .inl ⟨.illegalGeneration, by decide, rfl, rfl⟩

/-- What `Heartbeat`, `LeaveGroup` and the expiry of sessions do to a group. -/
inductive Upkeep (g : Group) : Group → Prop
  | same : Upkeep g g
  | heard (id : Bytes) (now : Int) : Upkeep g (g.heardFrom id now)
  | removed (gone : Member → Bool) (pick : Nat) : Upkeep g (g.remove gone pick)

theorem upkeep_heartbeat (g : Group) (request : HeartbeatRequest) (now : Int) :
    Upkeep g (g.heartbeat request now).1 := by
  rw [Group.heartbeat]
  split
  · exact .same
  split
  · exact .same
  split
  · exact .same
  · exact .heard request.memberID now

theorem upkeep_leaveGroup (g : Group) (memberID : Bytes) (pick : Nat) :
    Upkeep g (g.leaveGroup memberID pick).1 := by
  rw [Group.leaveGroup]
  split
  · exact .same
  · exact .removed _ pick

theorem upkeep_checkSessionTimeouts (g : Group) (now : Int) (pick : Nat) :
    Upkeep g (g.checkSessionTimeouts now pick) := by
  rw [Group.checkSessionTimeouts]
  split
  · exact .removed _ pick
  · exact .same

end MiniKafka.GroupCoordinator
