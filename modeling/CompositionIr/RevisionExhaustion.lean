import CompositionIr.CommitSpec

/-!
The last revision. A commit asks for the next revision before it has compared anything,
so at the last one it traps also where nothing would be published.
-/

namespace CompositionIr.RevisionExhaustion

open Outcomes ChildGraphs Addresses Records Snapshots Deltas Commits
open PublishedStates DeltaSpec CommitSpec

/-- The comparison of base and candidate finds a difference, or the placement is stored
otherwise than in the base. -/
def WouldPublish (b : SnapshotBuilder) : Prop :=
  (∃ revision fuel diffs,
      diffsBetween b.base (candidate b revision) fuel = .done diffs ∧ diffs ≠ []) ∨
    b.placement ≠ b.base.placement

def Exhausted (b : SnapshotBuilder) : Prop :=
  b.base.version.revision.value = NonZeroU64.max ∧ WouldPublish b

/-- The revisions give out exactly for a commit that needs one. Any other commit returns,
under the base's version or the next revision, a delta from the base to its result. -/
structure ExhaustsToPublish (b : SnapshotBuilder) (fuel : ℕ) : Prop where
  traps : commit b fuel = .trap .revisionExhausted ↔ Exhausted b
  returns : ¬ Exhausted b → ∃ c, commit b fuel = .done c ∧
    c.delta.before = b.base.version ∧ c.delta.after = c.snapshot.version ∧
    ((¬ WouldPublish b ∧ c.snapshot.version = b.base.version) ∨
      (WouldPublish b ∧ c.snapshot.version.domain = b.base.version.domain ∧
        c.snapshot.version.revision.value.val = b.base.version.revision.value.val + 1))

section Own

variable {b : SnapshotBuilder}

/-- Over own addresses and an acyclic base a commit would publish exactly where it shows
other projections or stores another placement. -/
theorem wouldPublish_iff (hb : OwnAddresses b.base) (hac : AcyclicChildren b.base)
    (ha : ∀ revision, OwnAddresses (candidate b revision)) :
    WouldPublish b ↔ ¬ Unchanged b := by
  constructor
  · intro h hun
    rcases h with ⟨revision, fuel, diffs, hdiffs, hne⟩ | hplacement
    · have hdesc := diffsBetween_describes (candidate_domain b revision) fuel diffs hdiffs
      exact hne ((diffs_eq_nil_iff hdesc).mpr hun.1)
    · exact hplacement hun.2
  · intro h
    by_cases hplacement : b.placement = b.base.placement
    · have hne : state b.base.records ≠ state b.records := fun heq => h ⟨heq, hplacement⟩
      obtain ⟨diffs, hdiffs⟩ := diffsBetween_done hb (ha b.base.version.revision) hac
        (candidate_domain b _) (b.base.len + 1) (by omega)
      have hdesc := diffsBetween_describes (candidate_domain b _) _ diffs hdiffs
      refine Or.inl ⟨_, _, diffs, hdiffs, fun hnil => ?_⟩
      exact hne ((diffs_eq_nil_iff hdesc).mp hnil)
    · exact Or.inr hplacement

theorem commit_traps_of_max (fuel : ℕ)
    (hmax : b.base.version.revision.value = NonZeroU64.max) :
    commit b fuel = .trap .revisionExhausted := by
  unfold commit
  rw [(nextRevision_eq_trap_iff _ _).mpr ⟨hmax, rfl⟩, Outcome.trap_bind]

/-- What a commit that returned says of its versions. -/
theorem commit_versions (hb : OwnAddresses b.base) (hac : AcyclicChildren b.base)
    (ha : ∀ revision, OwnAddresses (candidate b revision)) (fuel : ℕ) (c : Commit)
    (h : commit b fuel = .done c) :
    c.delta.before = b.base.version ∧ c.delta.after = c.snapshot.version ∧
    ((¬ WouldPublish b ∧ c.snapshot.version = b.base.version) ∨
      (WouldPublish b ∧ c.snapshot.version.domain = b.base.version.domain ∧
        c.snapshot.version.revision.value.val = b.base.version.revision.value.val + 1)) := by
  obtain ⟨revision, diffs, hnext, hdiffs, ⟨hun, hc⟩ | ⟨hun, hc⟩⟩ := commit_cases b fuel c h
  · have hsame := (unpublished_iff b revision fuel diffs hdiffs).mp hun
    rw [hc]
    refine ⟨rfl, rfl, Or.inl ⟨?_, rfl⟩⟩
    rw [wouldPublish_iff hb hac ha, not_not]
    exact hsame
  · have hchanged : ¬ Unchanged b :=
      fun hsame => hun ((unpublished_iff b revision fuel diffs hdiffs).mpr hsame)
    rw [hc]
    exact ⟨rfl, rfl, Or.inr ⟨(wouldPublish_iff hb hac ha).mpr hchanged, rfl,
      nextRevision_eq_done _ _ hnext⟩⟩

theorem exhaustsToPublish_iff (hb : OwnAddresses b.base) (hac : AcyclicChildren b.base)
    (ha : ∀ revision, OwnAddresses (candidate b revision)) (fuel : ℕ)
    (hfuel : b.base.len < fuel) :
    ExhaustsToPublish b fuel ↔
      b.base.version.revision.value ≠ NonZeroU64.max ∨ ¬ Unchanged b := by
  constructor
  · intro h
    by_cases hmax : b.base.version.revision.value = NonZeroU64.max
    · right
      have hexhausted := h.traps.mp (commit_traps_of_max fuel hmax)
      exact (wouldPublish_iff hb hac ha).mp hexhausted.2
    · exact Or.inl hmax
  · intro h
    by_cases hmax : b.base.version.revision.value = NonZeroU64.max
    · have hexhausted : Exhausted b := by
        refine ⟨hmax, (wouldPublish_iff hb hac ha).mpr ?_⟩
        exact h.resolve_left (fun hne => hne hmax)
      exact ⟨iff_of_true (commit_traps_of_max fuel hmax) hexhausted,
        fun hnot => absurd hexhausted hnot⟩
    · have hnot : ¬ Exhausted b := fun hexhausted => hmax hexhausted.1
      have hlt : b.base.version.revision.value.val + 1 < 2 ^ 64 := by
        by_contra hge
        have htrap : nextRevision b.base.version.revision = .trap .revisionExhausted := by
          unfold nextRevision
          rw [dif_neg hge]
        exact hmax ((nextRevision_eq_trap_iff _ _).mp htrap).1
      obtain ⟨c, hc⟩ := commit_done b hb hac ha hlt fuel hfuel
      refine ⟨iff_of_false (by simp [hc]) hnot, fun _ => ⟨c, hc, ?_⟩⟩
      exact commit_versions hb hac ha fuel c hc

end Own

/-- Revisions give out exactly for a commit that needs one, unless the commit is on the
last revision and its calls changed no projection and no stored placement. -/
theorem revision_exhaustion_iff (s : Snapshot) (edits : List Edit) (heap heap' : Heap)
    (b : SnapshotBuilder) (hedits : Edit.applyAll edits s.edit heap = .done (b, heap'))
    (hs : OwnAddresses s) (hac : AcyclicChildren s)
    (ha : ∀ revision, OwnAddresses (candidate b revision)) :
    (∀ fuel, s.len < fuel → ExhaustsToPublish b fuel) ↔
      s.version.revision.value ≠ NonZeroU64.max ∨
        ¬ (state s.records = state b.records ∧ b.placement = s.placement) := by
  have hbase : b.base = s := applyAll_base edits s.edit b heap heap' hedits
  subst hbase
  have hone := exhaustsToPublish_iff hs hac ha
  constructor
  · intro h
    exact (hone (b.base.len + 1) (by omega)).mp (h _ (by omega))
  · intro h fuel hfuel
    exact (hone fuel hfuel).mpr h

section Example

def lastDocument : Snapshot :=
  holding ⟨NonZeroU64.max⟩ 0 [(addr .node 1, { text := "a" })]

theorem ownAddresses_rewritten (n : Node) (hn : n.children = []) (revision : Revision) :
    OwnAddresses (candidate (lastDocument.edit.put ⟨1⟩ (addr .node 1) n).1 revision) := by
  refine (ownAddresses_iff _).mpr (fun x hx => ?_)
  obtain ⟨arc, harc⟩ := (mem_addresses _ x).mp hx
  change (lastDocument.records.insert (addr .node 1) ⟨1, n⟩).lookup x = some arc at harc
  by_cases hone : x = addr .node 1
  · subst hone
    refine ⟨rfl, fun c hc => ?_⟩
    obtain ⟨arc', harc', hmem⟩ := (mem_childrenOf _ _ _).mp hc
    change (lastDocument.records.insert (addr .node 1) ⟨1, n⟩).lookup _ = some arc' at harc'
    rw [AList.lookup_insert, Option.some.injEq] at harc'
    rw [← harc', hn] at hmem
    cases hmem
  · rw [AList.lookup_insert_ne hone] at harc
    have hmem : x ∈ lastDocument.addresses := (mem_addresses _ x).mpr ⟨arc, harc⟩
    exact absurd (List.mem_singleton.mp hmem) hone

theorem acyclic_lastDocument : AcyclicChildren lastDocument :=
  acyclicChildren_of_rank _ (fun _ => 0) (by decide)

/-- A new text is published nowhere, and that is what the trap is for. -/
theorem revision_exhaustion_rewritten :
    ∃ b heap', Edit.applyAll [.put (addr .node 1) { text := "b" }] lastDocument.edit ⟨1⟩ =
        .done (b, heap') ∧ ∀ fuel, 1 < fuel → ExhaustsToPublish b fuel := by
  refine ⟨_, _, rfl, ?_⟩
  refine (revision_exhaustion_iff lastDocument [.put (addr .node 1) { text := "b" }] ⟨1⟩ _ _ rfl
    (by decide) acyclic_lastDocument (ownAddresses_rewritten _ rfl)).mpr (Or.inr ?_)
  intro hun
  have hsame := Option.some.inj (congrFun hun.1 (addr .node 1))
  have htext : "a" = "b" := congrFun hsame Part.text
  exact absurd htext (by decide)

/-- The record is written as it is: nothing would be published, and the commit traps. -/
theorem no_op_exhausts :
    ∃ b heap', Edit.applyAll [.put (addr .node 1) { text := "a" }] lastDocument.edit ⟨1⟩ =
        .done (b, heap') ∧ OwnAddresses lastDocument ∧ AcyclicChildren lastDocument ∧
      (∀ revision, OwnAddresses (candidate b revision)) ∧ ¬ WouldPublish b ∧
      (∀ fuel, commit b fuel = .trap .revisionExhausted) ∧
      ∀ fuel, ¬ ExhaustsToPublish b fuel := by
  have hown := ownAddresses_rewritten { text := "a" } rfl
  have hcalm : ¬ WouldPublish (lastDocument.edit.put ⟨1⟩ (addr .node 1) { text := "a" }).1 := by
    rw [wouldPublish_iff (by decide) acyclic_lastDocument hown, not_not]
    refine ⟨?_, rfl⟩
    change state lastDocument.records = state (lastDocument.records.insert (addr .node 1) _)
    funext x
    by_cases hx : x = addr .node 1
    · subst hx
      rfl
    · unfold state graph
      rw [AList.lookup_insert_ne hx]
  refine ⟨_, _, rfl, by decide, acyclic_lastDocument, hown, hcalm, ?_, ?_⟩
  · exact fun fuel => commit_traps_of_max fuel rfl
  · intro fuel h
    exact hcalm (h.traps.mp (commit_traps_of_max fuel rfl)).2

end Example

end CompositionIr.RevisionExhaustion
