import MiniKafka.GroupLedger
import MiniKafka.GroupOwnership

/-!
What a call of `SyncGroup` is answered.

A call waits on the channel of its member outside the lock.  The channel stays
the same when the generation changes, until the member joins again.  So a call
of an old generation may be answered with the assignment of a new one, and a
response that nobody took stays for a later call.  Nobody tells the calls that
wait that the generation has changed.
-/

namespace MiniKafka.SyncAnswers

open BigEndian GroupCoordinator
open GroupLedger (ledger sound_new sound_step refines_step wellLed_of_sound WellLed alice
  bob joins)
open Runs
open GroupOwnership (share)

/-- Nothing that was sent in another generation is left for the member. -/
def nothingLeft (w : Coordination) (m : Member) : Bool :=
  match w.channels[m.syncRespCh]? with
  | some (some d) => decide (d.generationID = w.group.generationID)
  | _ => true

def waitsInTime (w : Coordination) (m : Member) (call : SyncCall) : Bool :=
  decide (call.state ≠ .waiting m.syncRespCh ∨ call.generationID = w.group.generationID)

/-- No call of an old generation waits when the leader submits, and the leader
leaves nobody without an assignment; a call that is let in finds nothing old. -/
def inGeneration (w : Coordination) (e : Event) : Bool :=
  ((w.submitted e).all fun assignments => w.group.members.all fun m =>
      (m.assignment.isSome || assignments.any fun a => decide (a.memberID = m.id)) &&
        w.calls.all (waitsInTime w m)) &&
    match e with
    | .sync request _ => w.group.members.all fun m =>
      decide (m.id ≠ request.memberID) || nothingLeft w m
    | _ => true

def Submitted (w : Coordination) (generationID : Int32) (id : Bytes) (assignment : Option Bytes) :
    Prop :=
  ∃ s ∈ w.submissions, s.generationID = generationID ∧ ⟨id, assignment⟩ ∈ s.assignments

structure Sound (w : Coordination) : Prop where
  memberChannels : ∀ m ∈ w.group.members, m.syncRespCh < w.channels.length
  callChannels : ∀ call ∈ w.calls, ∀ c, call.state = .waiting c → c < w.channels.length
  distinct : ∀ m ∈ w.group.members, ∀ m' ∈ w.group.members, m.syncRespCh = m'.syncRespCh →
    m.id = m'.id
  waiting : ∀ call ∈ w.calls, ∀ m ∈ w.group.members, call.state = .waiting m.syncRespCh →
    m.id = call.memberID
  buffered : ∀ m ∈ w.group.members, ∀ d, w.channels[m.syncRespCh]? = some (some d) →
    Submitted w d.generationID m.id d.response.assignment
  answers : ∀ call ∈ w.calls, ∀ c d, call.state = .waiting c → w.channels[c]? = some (some d) →
    d.generationID = call.generationID ∧
      Submitted w call.generationID call.memberID d.response.assignment
  returned : ∀ call ∈ w.calls, ∀ a, call.state = .returned ⟨.none, a⟩ →
    Submitted w call.generationID call.memberID a

/-- Every member of `g'` was a member of `g`, with the same channel. -/
def Keeps (g g' : Group) : Prop :=
  ∀ m' ∈ g'.members, ∃ m ∈ g.members, m'.id = m.id ∧ m'.syncRespCh = m.syncRespCh

section

variable {w w' : Coordination} {g g' : Group}

variable {f : Member → Member} {id : Bytes} {m m' : Member} {now : Int} {channels : Channels}
  {d : Delivery}

theorem Keeps.refl (g : Group) : Keeps g g := fun m hm => ⟨m, hm, rfl, rfl⟩

theorem Keeps.trans {g'' : Group} (h : Keeps g g') (k : Keeps g' g'') : Keeps g g'' := by
  intro m'' hm''
  obtain ⟨m', hm', hid', hchannel'⟩ := k m'' hm''
  obtain ⟨m, hm, hid, hchannel⟩ := h m' hm'
  exact ⟨m, hm, hid'.trans hid, hchannel'.trans hchannel⟩

theorem keeps_updateMembers {hf : ∀ m, (f m).id = m.id}
    (hchannel : ∀ m, (f m).syncRespCh = m.syncRespCh) : Keeps g (g.updateMembers f hf) := by
  intro m' hm'
  obtain ⟨m, hm, rfl⟩ := List.mem_map.mp hm'
  exact ⟨m, hm, hf m, hchannel m⟩

theorem keeps_updateMember {hf : ∀ m, (f m).id = m.id}
    (hchannel : ∀ m, (f m).syncRespCh = m.syncRespCh) : Keeps g (g.updateMember id f hf) := by
  refine keeps_updateMembers fun m => ?_
  split
  · exact hchannel m
  · rfl

theorem mem_updateMember (hm : m ∈ g.members) (id : Bytes) (hf : ∀ m, (f m).id = m.id)
    (hchannel : ∀ m, (f m).syncRespCh = m.syncRespCh) :
    ∃ m' ∈ (g.updateMember id f hf).members, m'.id = m.id ∧ m'.syncRespCh = m.syncRespCh := by
  refine ⟨_, List.mem_map_of_mem hm, ?_⟩
  split
  · exact ⟨hf m, hchannel m⟩
  · exact ⟨rfl, rfl⟩

theorem keeps_heardFrom (g : Group) (id : Bytes) (now : Int) : Keeps g (g.heardFrom id now) :=
  keeps_updateMember fun _ => rfl

theorem keeps_transition (g : Group) (pick : Nat) : Keeps g (g.transitionToRebalance pick) := by
  intro m' hm'
  obtain ⟨m, hm, rfl⟩ := List.mem_map.mp hm'
  exact ⟨m, hm, rfl, rfl⟩

theorem keeps_remove (g : Group) (gone : Member → Bool) (pick : Nat) :
    Keeps g (g.remove gone pick) := by
  have hwithout : Keeps g (g.without gone) :=
    fun m hm => ⟨m, List.mem_of_mem_filter hm, rfl, rfl⟩
  rw [Group.remove]
  split
  · exact hwithout
  · exact hwithout.trans (keeps_transition _ pick)

theorem keeps_upkeep (h : Upkeep g g') : Keeps g g' := by
  cases h with
  | same => exact Keeps.refl g
  | heard id now => exact keeps_heardFrom g id now
  | removed gone pick => exact keeps_remove g gone pick

theorem mem_joinGroup {request : JoinGroupRequest} {channel pick : Nat}
    (hm' : m' ∈ (g.joinGroup request id now channel pick).1.members) :
    (m'.id = id ∧ m'.syncRespCh = channel) ∨
      ∃ m ∈ g.members, m'.id = m.id ∧ m'.syncRespCh = m.syncRespCh := by
  have hjoining : ∀ m' ∈ (g.joining request id now channel).members,
      (m'.id = id ∧ m'.syncRespCh = channel) ∨
        ∃ m ∈ g.members, m'.id = m.id ∧ m'.syncRespCh = m.syncRespCh := by
    intro m' hm'
    change m' ∈ (g.enroll _ _ _ _ _).members at hm'
    rw [Group.enroll] at hm'
    split at hm'
    · obtain ⟨m, hm, rfl⟩ := List.mem_map.mp hm'
      dsimp only
      split
      · rename_i heq
        exact .inl ⟨heq, rfl⟩
      · exact .inr ⟨m, hm, rfl, rfl⟩
    · rcases List.mem_append.mp hm' with hold | hnew
      · exact .inr ⟨m', hold, rfl, rfl⟩
      · obtain rfl := List.mem_singleton.mp hnew
        exact .inl ⟨rfl, rfl⟩
  have hsettled : Keeps (g.joining request id now channel)
      ((g.joining request id now channel).rebalanceIfSettled pick) := by
    rw [Group.rebalanceIfSettled]
    split
    · exact keeps_transition _ pick
    · exact Keeps.refl _
  have hkeeps : Keeps (g.joining request id now channel)
      (g.joinGroup request id now channel pick).1 := by
    refine hsettled.trans ?_
    rw [Group.joinGroup, Group.ensureLeader]
    split <;> exact Keeps.refl _
  obtain ⟨m, hm, hid, hchannel⟩ := hkeeps m' hm'
  rcases hjoining m hm with ⟨hid', hchannel'⟩ | ⟨m₀, hm₀, hid', hchannel'⟩
  · exact .inl ⟨hid.trans hid', hchannel.trans hchannel'⟩
  · exact .inr ⟨m₀, hm₀, hid.trans hid', hchannel.trans hchannel'⟩

theorem mem_assign {assignments : List SyncGroupAssignment}
    (hm' : m' ∈ (g.assign assignments).members) :
    ∃ m ∈ g.members, m'.id = m.id ∧ m'.syncRespCh = m.syncRespCh ∧
      (⟨m.id, m'.assignment⟩ ∈ assignments ∨
        (m'.assignment = m.assignment ∧ ∀ a ∈ assignments, a.memberID ≠ m.id)) := by
  rw [GroupLedger.assign_eq] at hm'
  obtain ⟨m, hm, rfl⟩ := List.mem_map.mp hm'
  refine ⟨m, hm, rfl, rfl, ?_⟩
  rcases GroupLedger.assigned_cases assignments (m.id, m.assignment) with hnamed | ⟨hsame, hnone⟩
  · exact .inl hnamed
  · exact .inr ⟨congrArg Prod.snd hsame, hnone⟩

theorem offer_cases {c n : Nat} {d' : Delivery} (h : (offer channels c d)[n]? = some (some d')) :
    channels[n]? = some (some d') ∨ (c = n ∧ d' = d) := by
  rw [offer] at h
  split at h
  · by_cases heq : c = n
    · subst heq
      rename_i hempty
      rw [List.getElem?_set_self (List.getElem?_eq_some_iff.mp hempty).1] at h
      cases h
      exact .inr ⟨rfl, rfl⟩
    · rw [List.getElem?_set_ne heq] at h
      exact .inl h
  · exact .inl h

theorem length_offer (channels : Channels) (c : Nat) (d : Delivery) :
    (offer channels c d).length = channels.length := by
  rw [offer]
  split
  · exact List.length_set
  · rfl

theorem mem_accept (hm : m ∈ g.members) (assignments : List SyncGroupAssignment) :
    ∃ m' ∈ (g.accept assignments).members, m'.id = m.id ∧ m'.syncRespCh = m.syncRespCh := by
  rw [Group.accept, GroupLedger.assign_eq]
  exact ⟨_, List.mem_map_of_mem hm, rfl, rfl⟩

theorem generation_accept (g : Group) (assignments : List SyncGroupAssignment) :
    (g.accept assignments).generationID = g.generationID := by
  rw [Group.accept, GroupLedger.assign_eq]
  rfl

/-- What is in a channel after the members have been notified was there before,
or is the assignment of the member with that channel. -/
theorem notify_cases {n : Nat} (h : (g.notify channels)[n]? = some (some d)) :
    channels[n]? = some (some d) ∨ ∃ m ∈ g.members, m.syncRespCh = n ∧
      d = ⟨g.generationID, .none, m.assignment⟩ := by
  rw [Group.notify] at h
  generalize g.members = members at h ⊢
  induction members generalizing channels with
  | nil => exact .inl h
  | cons m members ih =>
    rcases ih h with hrest | ⟨m', hm', hlater⟩
    · rcases offer_cases hrest with hbefore | ⟨hchannel, heq⟩
      · exact .inl hbefore
      · exact .inr ⟨m, List.mem_cons_self, hchannel, heq⟩
    · exact .inr ⟨m', List.mem_cons_of_mem _ hm', hlater⟩

theorem length_notify (g : Group) (channels : Channels) :
    (g.notify channels).length = channels.length := by
  rw [Group.notify]
  generalize g.members = members
  induction members generalizing channels with
  | nil => rfl
  | cons m members ih => rw [List.foldl_cons, ih, length_offer]

theorem Submitted.mono {generationID : Int32} {assignment : Option Bytes}
    (h : Submitted w generationID id assignment) (hsub : w.submissions ⊆ w'.submissions) :
    Submitted w' generationID id assignment := by
  obtain ⟨s, hs, hrest⟩ := h
  exact ⟨s, hsub hs, hrest⟩

theorem Sound.keep (h : Sound w) (hkeeps : Keeps w.group g) (rebalances : Nat) :
    Sound { w with group := g, rebalances := rebalances } := by
  refine ⟨?_, h.callChannels, ?_, ?_, ?_, h.answers, h.returned⟩
  · intro m' hm'
    obtain ⟨m, hm, -, hchannel⟩ := hkeeps m' hm'
    rw [hchannel]
    exact h.memberChannels m hm
  · intro m hm m' hm' heq
    obtain ⟨m₀, hm₀, hid, hchannel⟩ := hkeeps m hm
    obtain ⟨m₀', hm₀', hid', hchannel'⟩ := hkeeps m' hm'
    rw [hid, hid']
    exact h.distinct m₀ hm₀ m₀' hm₀' (hchannel.symm.trans (heq.trans hchannel'))
  · intro call hcall m' hm' hwaits
    obtain ⟨m, hm, hid, hchannel⟩ := hkeeps m' hm'
    rw [hid]
    exact h.waiting call hcall m hm (hchannel ▸ hwaits)
  · intro m' hm' d hd
    obtain ⟨m, hm, hid, hchannel⟩ := hkeeps m' hm'
    rw [hid]
    exact h.buffered m hm d (hchannel ▸ hd)

theorem Sound.calls {calls : List SyncCall} (h : Sound w)
    (hlength : channels.length = w.channels.length)
    (hchannels : ∀ (n : Nat) d, channels[n]? = some (some d) → w.channels[n]? = some (some d))
    (hcalls : ∀ call ∈ calls, call ∈ w.calls ∨ ∃ r, call.state = .returned r ∧
      (r.errorCode = .none → Submitted w call.generationID call.memberID r.assignment)) :
    Sound { w with calls := calls, channels := channels } := by
  refine ⟨?_, ?_, h.distinct, ?_, ?_, ?_, ?_⟩
  · intro m hm
    dsimp only
    rw [hlength]
    exact h.memberChannels m hm
  · intro call hcall c hwaits
    dsimp only
    rw [hlength]
    rcases hcalls call hcall with hold | ⟨r, hreturned, -⟩
    · exact h.callChannels call hold c hwaits
    · rw [hreturned] at hwaits
      cases hwaits
  · intro call hcall m hm hwaits
    rcases hcalls call hcall with hold | ⟨r, hreturned, -⟩
    · exact h.waiting call hold m hm hwaits
    · rw [hreturned] at hwaits
      cases hwaits
  · exact fun m hm d hd => h.buffered m hm d (hchannels _ d hd)
  · intro call hcall c d hwaits hd
    rcases hcalls call hcall with hold | ⟨r, hreturned, -⟩
    · exact h.answers call hold c d hwaits (hchannels c d hd)
    · rw [hreturned] at hwaits
      cases hwaits
  · intro call hcall a hstate
    rcases hcalls call hcall with hold | ⟨r, hreturned, hsubmitted⟩
    · exact h.returned call hold a hstate
    · rw [hreturned] at hstate
      cases hstate
      exact hsubmitted rfl

theorem Sound.join (h : Sound w) {response : JoinGroupResponse}
    (hmembers : ∀ m' ∈ g.members, (m'.id = id ∧ m'.syncRespCh = w.channels.length) ∨
      ∃ m ∈ w.group.members, m'.id = m.id ∧ m'.syncRespCh = m.syncRespCh) :
    Sound { w.setGroup g with
      channels := w.channels ++ [none], joins := w.joins ++ [response] } := by
  have hold : ∀ {n : Nat} {d : Delivery}, (w.channels ++ [none])[n]? = some (some d) →
      w.channels[n]? = some (some d) := by
    intro n d hd
    rw [List.getElem?_append] at hd
    split at hd
    · exact hd
    · rw [List.getElem?_singleton] at hd
      split at hd <;> cases hd
  refine ⟨?_, ?_, ?_, ?_, ?_, ?_, h.returned⟩
  · intro m' hm'
    have hlength : (w.channels ++ [none]).length = w.channels.length + 1 := by simp
    rcases hmembers m' hm' with ⟨-, hchannel⟩ | ⟨m, hm, -, hchannel⟩
    · dsimp only
      omega
    · have hlt := h.memberChannels m hm
      dsimp only
      omega
  · intro call hcall c hwaits
    have hlt := h.callChannels call hcall c hwaits
    have hlength : (w.channels ++ [none]).length = w.channels.length + 1 := by simp
    dsimp only
    omega
  · intro m hm m' hm' heq
    rcases hmembers m hm with ⟨hid, hchannel⟩ | ⟨m₀, hm₀, hid, hchannel⟩
    · rcases hmembers m' hm' with ⟨hid', -⟩ | ⟨m₀', hm₀', -, hchannel'⟩
      · rw [hid, hid']
      · have hlt := h.memberChannels m₀' hm₀'
        omega
    · rcases hmembers m' hm' with ⟨-, hchannel'⟩ | ⟨m₀', hm₀', hid', hchannel'⟩
      · have hlt := h.memberChannels m₀ hm₀
        omega
      · rw [hid, hid']
        exact h.distinct m₀ hm₀ m₀' hm₀' (hchannel.symm.trans (heq.trans hchannel'))
  · intro call hcall m' hm' hwaits
    rcases hmembers m' hm' with ⟨-, hchannel⟩ | ⟨m, hm, hid, hchannel⟩
    · have hlt := h.callChannels call hcall _ hwaits
      omega
    · rw [hid]
      exact h.waiting call hcall m hm (hchannel ▸ hwaits)
  · intro m' hm' d hd
    rcases hmembers m' hm' with ⟨-, hchannel⟩ | ⟨m, hm, hid, hchannel⟩
    · have hlt := (List.getElem?_eq_some_iff.mp (hold hd)).1
      omega
    · rw [hid]
      exact h.buffered m hm d (hchannel ▸ hold hd)
  · exact fun call hcall c d hwaits hd => h.answers call hcall c d hwaits (hold hd)

theorem Sound.await (h : Sound w) (hm : m ∈ w.group.members) {request : SyncGroupRequest}
    (hid : m.id = request.memberID) (hclean : ∀ d, w.channels[m.syncRespCh]? = some (some d) →
      d.generationID = request.generationID) : Sound (w.await request m.syncRespCh) := by
  refine ⟨h.memberChannels, ?_, h.distinct, ?_, h.buffered, ?_, ?_⟩
  · intro call hcall c hwaits
    rcases List.mem_append.mp hcall with hold | hnew
    · exact h.callChannels call hold c hwaits
    · obtain rfl := List.mem_singleton.mp hnew
      cases hwaits
      exact h.memberChannels m hm
  · intro call hcall m' hm' hwaits
    rcases List.mem_append.mp hcall with hold | hnew
    · exact h.waiting call hold m' hm' hwaits
    · obtain rfl := List.mem_singleton.mp hnew
      have hchannel := CallState.waiting.inj hwaits
      exact (h.distinct m' hm' m hm hchannel.symm).trans hid
  · intro call hcall c d hwaits hd
    rcases List.mem_append.mp hcall with hold | hnew
    · exact h.answers call hold c d hwaits hd
    · obtain rfl := List.mem_singleton.mp hnew
      cases hwaits
      have hgeneration := hclean d hd
      refine ⟨hgeneration, ?_⟩
      have hsubmitted := h.buffered m hm d hd
      rw [hid, hgeneration] at hsubmitted
      exact hsubmitted
  · intro call hcall a hstate
    rcases List.mem_append.mp hcall with hold | hnew
    · exact h.returned call hold a hstate
    · obtain rfl := List.mem_singleton.mp hnew
      cases hstate

theorem Sound.accept (h : Sound w) (hled : WellLed w) {assignments : List SyncGroupAssignment}
    (hnamed : ∀ m ∈ w.group.members, m.assignment.isSome = true ∨
      ∃ a ∈ assignments, a.memberID = m.id)
    (hcalls : ∀ call ∈ w.calls, ∀ m ∈ w.group.members, call.state = .waiting m.syncRespCh →
      call.generationID = w.group.generationID) : Sound (w.accept assignments) := by
  have hgeneration : (w.group.accept assignments).generationID = w.group.generationID :=
    generation_accept w.group assignments
  have hsub : w.submissions ⊆ (w.accept assignments).submissions := List.subset_append_left _ _
  -- what a member is sent now has been submitted for it in this generation
  have hsent : ∀ m' ∈ (w.group.accept assignments).members, ∃ m ∈ w.group.members,
      m'.id = m.id ∧ m'.syncRespCh = m.syncRespCh ∧
        Submitted (w.accept assignments) w.group.generationID m.id m'.assignment := by
    intro m' hm'
    obtain ⟨m, hm, hid, hchannel, hnow | ⟨hsame, hnone⟩⟩ := mem_assign hm'
    · exact ⟨m, hm, hid, hchannel, _, List.mem_append_right _ (List.mem_singleton_self _), rfl, hnow⟩
    · refine ⟨m, hm, hid, hchannel, ?_⟩
      rcases hnamed m hm with hsome | ⟨a, ha, heq⟩
      · obtain ⟨a, ha⟩ := Option.isSome_iff_exists.mp hsome
        obtain ⟨s, hs, hsgen, -, hmem⟩ := hled.submitted m hm a ha
        rw [hsame, ha]
        exact ⟨s, hsub hs, hsgen, hmem⟩
      · exact absurd heq (hnone a ha)
  have hkeeps : Keeps w.group (w.group.accept assignments) := by
    intro m' hm'
    obtain ⟨m, hm, hid, hchannel, -⟩ := hsent m' hm'
    exact ⟨m, hm, hid, hchannel⟩
  have hkept := h.keep hkeeps w.rebalances
  have hlength := length_notify (w.group.accept assignments) w.channels
  refine ⟨?_, ?_, hkept.distinct, hkept.waiting, ?_, ?_, ?_⟩
  · intro m' hm'
    exact lt_of_lt_of_eq (hkept.memberChannels m' hm') hlength.symm
  · intro call hcall c hwaits
    exact lt_of_lt_of_eq (h.callChannels call hcall c hwaits) hlength.symm
  · intro m' hm' d hd
    rcases notify_cases hd with hold | ⟨m'', hm'', hchannel, rfl⟩
    · exact (hkept.buffered m' hm' d hold).mono hsub
    · obtain ⟨m, -, hid, -, hsubmitted⟩ := hsent m'' hm''
      rw [← hkept.distinct m'' hm'' m' hm' hchannel, hid, hgeneration]
      exact hsubmitted
  · intro call hcall c d hwaits hd
    rcases notify_cases hd with hold | ⟨m', hm', rfl, rfl⟩
    · obtain ⟨hsame, hsubmitted⟩ := h.answers call hcall c d hwaits hold
      exact ⟨hsame, hsubmitted.mono hsub⟩
    · obtain ⟨m, hm, -, hchannel, hsubmitted⟩ := hsent m' hm'
      rw [hchannel] at hwaits
      have hnow := hcalls call hcall m hm hwaits
      rw [hgeneration, hnow, ← h.waiting call hcall m hm hwaits]
      exact ⟨rfl, hsubmitted⟩
  · exact fun call hcall a hstate => (h.returned call hcall a hstate).mono hsub

theorem of_mem_heardFrom (hm' : m' ∈ (g.heardFrom id now).members) :
    ∃ m ∈ g.members, m'.id = m.id ∧ m'.syncRespCh = m.syncRespCh ∧
      m'.assignment = m.assignment := by
  obtain ⟨m, hm, rfl⟩ := List.mem_map.mp hm'
  refine ⟨m, hm, ?_⟩
  dsimp only
  split <;> exact ⟨rfl, rfl, rfl⟩

theorem generation_of_left (hleft : nothingLeft w m = true)
    (hd : w.channels[m.syncRespCh]? = some (some d)) : d.generationID = w.group.generationID := by
  rw [nothingLeft, hd] at hleft
  exact of_decide_eq_true hleft

theorem sound_sync (h : Sound w) (hledger : GroupLedger.Sound (ledger w))
    {request : SyncGroupRequest} (hguard : inGeneration w (.sync request now) = true) :
    Sound (w.syncGroup request now) := by
  obtain ⟨hsubmission, hfresh⟩ := (Bool.and_eq_true _ _).mp hguard
  have hheard : Sound (w.heardFrom request.memberID now) :=
    h.keep (keeps_heardFrom w.group request.memberID now) w.rebalances
  rcases syncGroup_cases w request now with ⟨code, hcode, -, heq⟩ |
    ⟨m, hm, hid, hgeneration, hcases⟩
  · rw [heq]
    refine h.calls rfl (fun _ _ => id) fun call hcall => ?_
    rcases List.mem_append.mp hcall with hold | hnew
    · exact .inl hold
    · obtain rfl := List.mem_singleton.mp hnew
      exact .inr ⟨_, rfl, fun hnone => absurd hnone hcode⟩
  have hleft : nothingLeft w m = true := by
    have hmember := List.all_eq_true.mp hfresh m hm
    rw [Bool.or_eq_true, decide_eq_true_eq] at hmember
    exact hmember.resolve_left fun hne => hne hid
  obtain ⟨m', hm', hid', hchannel⟩ := mem_updateMember hm request.memberID
    (f := fun m => { m with lastHeartbeat := now }) (fun _ => rfl) fun _ => rfl
  rcases hcases with ⟨-, heq⟩ | ⟨hsubmitted, -, heq⟩
  · rw [heq, ← hchannel]
    refine Sound.await hheard hm' (hid'.trans hid) fun d hd => ?_
    rw [hchannel] at hd
    exact (generation_of_left hleft hd).trans hgeneration.symm
  · rw [hsubmitted] at hsubmission
    have haccept : Sound ((w.heardFrom request.memberID now).accept request.assignments) := by
      refine Sound.accept hheard (wellLed_of_sound ?_) ?_ ?_
      · rw [GroupLedger.ledger_heardFrom]
        exact hledger
      · intro m₁ hm₁
        obtain ⟨m₀, hm₀, hid₀, -, hsame⟩ := of_mem_heardFrom hm₁
        have hmember := (Bool.and_eq_true _ _).mp (List.all_eq_true.mp hsubmission m₀ hm₀)
        rw [Bool.or_eq_true, List.any_eq_true] at hmember
        rw [hsame, hid₀]
        exact hmember.1.imp_right fun ⟨a, ha, heq⟩ => ⟨a, ha, of_decide_eq_true heq⟩
      · intro call hcall m₁ hm₁ hwaits
        obtain ⟨m₀, hm₀, -, hchannel₀, -⟩ := of_mem_heardFrom hm₁
        have hmember := (Bool.and_eq_true _ _).mp (List.all_eq_true.mp hsubmission m₀ hm₀)
        have hcalls := of_decide_eq_true (List.all_eq_true.mp hmember.2 call hcall)
        exact hcalls.resolve_left fun hne => hne (hchannel₀ ▸ hwaits)
    have hsame : ((w.heardFrom request.memberID now).group.accept
        request.assignments).generationID = w.group.generationID :=
      generation_accept _ request.assignments
    obtain ⟨m₂, hm₂, hid₂, hchannel₂⟩ := mem_accept hm' request.assignments
    rw [heq, ← hchannel, ← hchannel₂]
    refine haccept.await hm₂ (hid₂.trans (hid'.trans hid)) fun d hd => ?_
    rw [hchannel₂, hchannel] at hd
    rcases notify_cases hd with hold | ⟨_, -, -, rfl⟩
    · exact (generation_of_left hleft hold).trans hgeneration.symm
    · exact hsame.trans hgeneration.symm

theorem sound_receive {call : Nat} (h : Sound w) (hstep : w.step (.receive call) = some w') :
    Sound w' := by
  rw [Coordination.step] at hstep
  split at hstep
  · rename_i generationID memberID channel hcall
    split at hstep
    · rename_i d hd
      obtain rfl := Option.some.inj hstep
      refine h.calls List.length_set ?_ ?_
      · intro n d' hd'
        by_cases heq : channel = n
        · subst heq
          rw [List.getElem?_set_self (List.getElem?_eq_some_iff.mp hd).1] at hd'
          cases hd'
        · rwa [List.getElem?_set_ne heq] at hd'
      · intro other hother
        rcases List.mem_or_eq_of_mem_set hother with hold | rfl
        · exact .inl hold
        · refine .inr ⟨d.response, rfl, fun _ => ?_⟩
          exact (h.answers _ (List.mem_of_getElem? hcall) channel d rfl hd).2
    · cases hstep
  · cases hstep

theorem sound_timeout {call : Nat} (h : Sound w) (hstep : w.step (.timeout call) = some w') :
    Sound w' := by
  rw [Coordination.step] at hstep
  split at hstep
  · obtain rfl := Option.some.inj hstep
    refine h.calls rfl (fun _ _ => id) fun other hother => ?_
    rcases List.mem_or_eq_of_mem_set hother with hold | rfl
    · exact .inl hold
    · refine .inr ⟨_, rfl, ?_⟩
      intro hnone
      cases hnone
  · cases hstep

theorem sound_step {e : Event} (h : Sound w) (hledger : GroupLedger.Sound (ledger w))
    (hguard : inGeneration w e = true) (hstep : w.step e = some w') : Sound w' := by
  cases e with
  | join request clientID random pick now =>
    obtain rfl := Option.some.inj hstep
    exact h.join fun m' hm' => mem_joinGroup hm'
  | sync request now =>
    obtain rfl := Option.some.inj hstep
    exact sound_sync h hledger hguard
  | receive call => exact sound_receive h hstep
  | timeout call => exact sound_timeout h hstep
  | heartbeat request now =>
    obtain rfl := Option.some.inj hstep
    exact h.keep (keeps_upkeep (upkeep_heartbeat w.group request now)) _
  | leave memberID pick =>
    obtain rfl := Option.some.inj hstep
    exact h.keep (keeps_upkeep (upkeep_leaveGroup w.group memberID pick)) _
  | expire now pick =>
    obtain rfl := Option.some.inj hstep
    exact h.keep (keeps_upkeep (upkeep_checkSessionTimeouts w.group now pick)) _

/-- In every run that meets the condition, a call that returns without an error
returns what was submitted for its member in its generation. -/
theorem syncGroup_faithful {events : List Event}
    (hrun : Run (Guarded inGeneration Coordination.step) newCoordination events w)
    {call : SyncCall} (hcall : call ∈ w.calls) {assignment : Option Bytes}
    (hreturned : call.state = .returned ⟨.none, assignment⟩) :
    Submitted w call.generationID call.memberID assignment := by
  have hboth : GroupLedger.Sound (ledger w) ∧ Sound w := by
    refine hrun.invariant (P := fun w => GroupLedger.Sound (ledger w) ∧ Sound w)
      ⟨sound_new, ⟨nofun, nofun, nofun, nofun, nofun, nofun, nofun⟩⟩ ?_
    rintro s e t ⟨hledger, hs⟩ ⟨hguard, hstep⟩
    exact ⟨GroupLedger.sound_step hledger (refines_step hledger hstep),
      sound_step hs hledger hguard hstep⟩
  exact hboth.2.returned call hcall assignment hreturned

end

def carol : Bytes := [99]

/-- The second member waits for the first generation when a third one leaves.
The leader joins again and submits for the next generation. -/
def staleWaiter : List Event :=
  [joins alice, joins bob, joins carol, .sync ⟨1, bob, []⟩ 0, .leave carol 0, joins alice,
    .sync ⟨2, alice, [⟨alice, share [0]⟩, ⟨bob, share [1]⟩]⟩ 0, .receive 0]

/-- The call of the first generation is answered with the assignment of the
second; in the first nothing has been submitted at all. -/
theorem syncGroup_stale :
    ∃ w, Run (Guarded (fun _ _ => true) Coordination.step) newCoordination staleWaiter w ∧
      ∃ call ∈ w.calls, call.state = .returned ⟨.none, share [1]⟩ ∧
        ¬ Submitted w call.generationID call.memberID (share [1]) := by
  have hend : (execute (fun _ _ => true) Coordination.step newCoordination staleWaiter).map
      (fun w => (w.calls[0]?, w.submissions.map Submission.generationID)) =
      some (some ⟨1, bob, .returned ⟨.none, share [1]⟩⟩, [2]) := by
    decide +kernel
  obtain ⟨w, hrun, hw⟩ := exists_run_of_execute hend
  obtain ⟨hcall, hgenerations⟩ := Prod.mk.inj hw
  refine ⟨w, hrun, _, List.mem_of_getElem? hcall, rfl, ?_⟩
  rintro ⟨s, hs, hgeneration, -⟩
  have hmem := List.mem_map_of_mem (f := Submission.generationID) hs
  rw [hgenerations, hgeneration] at hmem
  exact absurd hmem (by decide)

def calmSync : List Event :=
  [joins alice, joins bob, joins alice, .sync ⟨1, bob, []⟩ 0,
    .sync ⟨1, alice, [⟨alice, share [0]⟩, ⟨bob, share [1]⟩]⟩ 0, .receive 0]

theorem syncGroup_faithful_calm :
    ∃ w, Run (Guarded inGeneration Coordination.step) newCoordination calmSync w ∧
      w.calls[0]? = some ⟨1, bob, .returned ⟨.none, share [1]⟩⟩ ∧
      Submitted w 1 bob (share [1]) := by
  have hend : (execute inGeneration Coordination.step newCoordination calmSync).map
      (fun w => w.calls[0]?) = some (some ⟨1, bob, .returned ⟨.none, share [1]⟩⟩) := by
    decide +kernel
  obtain ⟨w, hrun, hcall⟩ := exists_run_of_execute hend
  exact ⟨w, hrun, hcall, syncGroup_faithful hrun (List.mem_of_getElem? hcall) rfl⟩

end MiniKafka.SyncAnswers
