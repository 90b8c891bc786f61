import MiniKafka.OffsetRecovery

/-!
Commits that change the offset of someone else.

Group and topic are joined by a colon that both may contain, so two of them
can share a key.  Everything else about a commit is its own.
-/

namespace MiniKafka.CommitInterference

open BigEndian LastWrite RecordCodec PartitionLog LogContents CommittedOffsets OffsetRecovery Runs
  WireCodec

/-- No commit for `(g, t, p)` shows in what is fetched for `(g', t', p')`, and
neither does it after a restart. -/
def Undisturbed (crc : Checksum) (numPartitions : Int32) (g t : Bytes) (p : Int32) (g' t' : Bytes)
    (p' : Int32) : Prop :=
  ∀ s, Running crc numPartitions s → hasOffsets s g 1 = true →
    ∀ offset timestamp env s₁ error, s.commit crc g t p offset timestamp env = (s₁, error) →
      s₁.fetch g' t' p' = s.fetch g' t' p' ∧
      ∀ dir r r₁, restart crc numPartitions s dir = some (r, none) →
        restart crc numPartitions s₁ dir = some (r₁, none) → r₁.fetch g' t' p' = r.fetch g' t' p'

section

variable {crc : Checksum} {numPartitions : Int32} {s : OffsetStore}

theorem restart_cache (h : Backed crc numPartitions s) {dir : Directory} {r : OffsetStore}
    (hrestart : restart crc numPartitions s dir = some (r, none)) :
    r.cache = latest (journal crc s).flatten := by
  obtain ⟨r', hrestart', -, -, hcache⟩ := restart_spec h dir
  rw [hrestart] at hrestart'
  obtain rfl : r = r' := (Prod.mk.inj (Option.some.inj hrestart')).1
  exact hcache

theorem undisturbed_of_ne {g t g' t' : Bytes} {p p' : Int32}
    (hne : commitKey g' t' p' ≠ commitKey g t p) :
    Undisturbed crc numPartitions g t p g' t' p' := by
  intro s hs hleft offset timestamp env s₁ error hcommit
  have hbacked := hs.backed
  obtain ⟨s₂, error₂, hcommit₂, hbacked₁, -, hcases⟩ :=
    commit_spec hbacked hleft t p offset timestamp env
  obtain ⟨rfl, rfl⟩ := Prod.mk.inj (hcommit.symm.trans hcommit₂)
  refine ⟨?_, ?_⟩
  · rw [OffsetStore.fetch, OffsetStore.fetch]
    rcases hcases with ⟨-, hcache, -⟩ | ⟨-, hcache, -⟩
    · rw [hcache]
    · rw [hcache, Function.update_of_ne hne]
  · intro dir r r₁ hr hr₁
    rw [OffsetStore.fetch, OffsetStore.fetch, restart_cache hbacked hr, restart_cache hbacked₁ hr₁]
    rcases hcases with ⟨-, -, hjournal⟩ | ⟨-, -, happended⟩
    · rw [hjournal]
    · rw [latest_of_appended_ne happended hne]

theorem hasOffsets_of_empty (h : Backed crc numPartitions s)
    (hempty : ∀ records ∈ contents crc s, records = []) (g : Bytes) :
    hasOffsets s g 1 = true := by
  obtain ⟨l, hl, hkept⟩ := log_of_group h g
  have hstored : storedRecords crc l = [] :=
    hempty _ (List.mem_map.mpr ⟨l, List.mem_of_getElem? hl, rfl⟩)
  rw [hasOffsets_iff hl, OffsetsLeft, hkept.wellFormed.highestOffset, hkept.lowest, hstored]
  decide

/-- A commit leaves another offset alone exactly when group and topic, joined,
tell the two apart or the partition does. -/
theorem undisturbed_iff {g t g' t' : Bytes} {p p' : Int32} (hg : g.length ≤ maxInt16)
    (ht : t.length ≤ maxInt16) :
    Undisturbed crc numPartitions g t p g' t' p' ↔
      g ++ colon :: t ≠ g' ++ colon :: t' ∨ p ≠ p' := by
  constructor
  · intro h
    by_contra hsame
    rw [not_or, not_not, not_not] at hsame
    have hkey := commitKey_eq_iff.mpr hsame
    -- the first commit ever is seen under the other name
    obtain ⟨s, hstart, hbacked, hempty, hcache⟩ :=
      start_empty crc numPartitions emptyDirectory fun _ => rfl
    have hleft := hasOffsets_of_empty hbacked hempty g
    have hok := commit_ok hbacked hg ht (show (⟨0, none⟩ : Surroundings).fault = none from rfl) p 0 0
    obtain ⟨s₁, error, hcommit, -, -, hcases⟩ :=
      commit_spec hbacked hleft t p 0 0 ⟨0, none⟩
    rw [hcommit] at hok
    obtain ⟨hfetch, -⟩ :=
      h s ⟨_, _, [], fun _ => rfl, hstart, .nil⟩ hleft 0 0 ⟨0, none⟩ s₁ error hcommit
    rcases hcases with ⟨hfailed, -⟩ | ⟨-, hcache₁, -⟩
    · exact hfailed hok
    · rw [OffsetStore.fetch, OffsetStore.fetch, hcache₁, hcache, hkey, Function.update_self] at hfetch
      change (0 : Int64) = -1 at hfetch
      exact absurd hfetch (by decide)
  · intro h
    apply undisturbed_of_ne
    intro hkey
    obtain ⟨hname, hp⟩ := commitKey_eq_iff.mp hkey
    rcases h with hdiffer | hdiffer
    · exact hdiffer hname.symm
    · exact hdiffer hp.symm

end

/-- The group `a:b` with the topic `c`, and the group `a` with the topic `b:c`. -/
theorem undisturbed_iff_colliding :
    Undisturbed castagnoli 2 [97, 58, 98] [99] 0 [97] [98, 58, 99] 0 ↔
      ([97, 58, 98] : Bytes) ++ colon :: [99] ≠ [97] ++ colon :: [98, 58, 99] ∨
        (0 : Int32) ≠ 0 :=
  undisturbed_iff (by decide) (by decide)

/-- What is fetched for `a` and `b:c` before a commit of `a:b` and `c`, after it,
and after a restart. -/
def fetchedAround (s : OffsetStore) : Option (Int64 × Int64 × Int64) :=
  match s.commit castagnoli [97, 58, 98] [99] 0 9 0 ⟨0, none⟩ with
  | (s₁, none) =>
    match restart castagnoli 2 s₁ emptyDirectory with
    | some (r₁, none) =>
      some (s.fetch [97] [98, 58, 99] 0, s₁.fetch [97] [98, 58, 99] 0,
        r₁.fetch [97] [98, 58, 99] 0)
    | _ => none
  | _ => none

/-- A commit of the one shows up as the offset of the other, and still does
after a restart. -/
theorem commit_disturbs :
    ∃ s s₁ r₁, Running castagnoli 2 s ∧
      s.commit castagnoli [97, 58, 98] [99] 0 9 0 ⟨0, none⟩ = (s₁, none) ∧
      restart castagnoli 2 s₁ emptyDirectory = some (r₁, none) ∧
      s.fetch [97] [98, 58, 99] 0 = 4 ∧ s₁.fetch [97] [98, 58, 99] 0 = 9 ∧
      r₁.fetch [97] [98, 58, 99] 0 = 9 ∧
      ¬ Undisturbed castagnoli 2 [97, 58, 98] [99] 0 [97] [98, 58, 99] 0 := by
  have hsome : (opened.bind fun s₀ =>
      (execute guard (next castagnoli 2) s₀ [commitEvent [97] [98, 58, 99] 4]).map fun s =>
        (fetchedAround s, hasOffsets s [97, 58, 98] 1)) =
      some (some (4, 9, 9), true) := by decide +kernel
  obtain ⟨s₀, s, hstart, hrun, hobserved⟩ := run_of_opened hsome
  obtain ⟨haround, hleft⟩ := Prod.mk.inj hobserved
  have hs : Running castagnoli 2 s := ⟨_, _, _, fun _ => rfl, hstart, hrun⟩
  rw [fetchedAround] at haround
  split at haround
  · rename_i s₁ hcommit
    split at haround
    · rename_i r₁ hrestart
      obtain ⟨hbefore, hafter, hrestarted⟩ :
          s.fetch [97] [98, 58, 99] 0 = 4 ∧ s₁.fetch [97] [98, 58, 99] 0 = 9 ∧
            r₁.fetch [97] [98, 58, 99] 0 = 9 := by simpa using haround
      refine ⟨s, s₁, r₁, hs, hcommit, hrestart, hbefore, hafter, hrestarted, ?_⟩
      intro hundisturbed
      have hsame := (hundisturbed s hs hleft 9 0 ⟨0, none⟩ s₁ none hcommit).1
      rw [hbefore, hafter] at hsame
      exact absurd hsame (by decide)
    · cases haround
  · cases haround

end MiniKafka.CommitInterference
