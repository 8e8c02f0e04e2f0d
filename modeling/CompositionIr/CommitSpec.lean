import CompositionIr.DeltaSpec

/-!
What a commit does, told once. It returns the base when the comparison found nothing
and the stored placement is the base's, and otherwise the candidate under the next
revision; either way it publishes the projections and the placement accumulated in the
builder, and the delta it returns describes base and result.
-/

namespace CompositionIr.CommitSpec

open Outcomes ChildGraphs Addresses Records Snapshots Deltas Commits PublishedStates
open SubtreeComparison DeltaSpec

section Edits

/-- An update answers for a live address only, with a new allocation. -/
theorem update_eq_done (b b' : SnapshotBuilder) (heap heap' : Heap) (x : Address)
    (f : Node → Node) (h : b.update heap x f = .done (b', heap')) :
    ∃ arc, b.records.lookup x = some arc ∧ heap' = ⟨heap.next + 1⟩ ∧
      b' = { b with records := b.records.insert x ⟨heap.next, f arc.node⟩ } := by
  unfold SnapshotBuilder.update at h
  cases hx : b.records.lookup x with
  | none => simp [hx] at h
  | some arc =>
    simp only [hx, Outcome.done.injEq] at h
    obtain ⟨hb, hheap⟩ := Prod.mk.inj h
    exact ⟨arc, rfl, hheap.symm, hb.symm⟩

/-- An update that skips dead addresses is an update, or does nothing. -/
theorem updateIfLive_eq_done (b b' : SnapshotBuilder) (heap heap' : Heap) (x : Address)
    (f : Node → Node) (h : b.updateIfLive heap x f = .done (b', heap')) :
    b.update heap x f = .done (b', heap') ∨
      (b.records.lookup x = none ∧ b' = b ∧ heap' = heap) := by
  unfold SnapshotBuilder.updateIfLive at h
  by_cases hlive : (b.records.lookup x).isSome = true
  · rw [if_pos hlive] at h
    exact Or.inl h
  · rw [if_neg hlive] at h
    obtain ⟨hb, hheap⟩ := Prod.mk.inj (Outcome.done.inj h)
    exact Or.inr ⟨by simpa using hlive, hb.symm, hheap.symm⟩

/-- What one call can do to the records: nothing, if the address to write is not live, a
new allocation at one address, or the removal of one address. -/
theorem apply_records (e : Edit) (b b' : SnapshotBuilder) (heap heap' : Heap)
    (h : e.apply b heap = .done (b', heap')) :
    (b'.records = b.records ∧ heap' = heap ∧
        ∀ x, e.written = some x → b.records.lookup x = none) ∨
      (∃ x n, e.written = some x ∧ b'.records = b.records.insert x ⟨heap.next, n⟩ ∧
        heap' = ⟨heap.next + 1⟩) ∨
      ∃ x, e = .remove x ∧ b'.records = b.records.erase x ∧ heap' = heap := by
  cases e with
  | put x n =>
    obtain ⟨hb, hheap⟩ := Prod.mk.inj (Outcome.done.inj h)
    exact Or.inr (Or.inl ⟨x, n, rfl, by rw [← hb], hheap.symm⟩)
  | update x f =>
    obtain ⟨arc, _, hheap, hb⟩ := update_eq_done b b' heap heap' x f h
    exact Or.inr (Or.inl ⟨x, f arc.node, rfl, by rw [hb], hheap⟩)
  | updateIfLive x f =>
    rcases updateIfLive_eq_done b b' heap heap' x f h with hone | ⟨hnone, hb, hheap⟩
    · obtain ⟨arc, _, hheap, hb⟩ := update_eq_done b b' heap heap' x f hone
      exact Or.inr (Or.inl ⟨x, f arc.node, rfl, by rw [hb], hheap⟩)
    · refine Or.inl ⟨by rw [hb], hheap, fun y hy => ?_⟩
      rw [← Option.some.inj hy]
      exact hnone
  | remove x =>
    obtain ⟨hb, hheap⟩ := Prod.mk.inj (Outcome.done.inj h)
    exact Or.inr (Or.inr ⟨x, rfl, by rw [← hb]; rfl, hheap.symm⟩)
  | root _ | resetPlacement | place _ _ | translate _ _ _ =>
    obtain ⟨hb, hheap⟩ := Prod.mk.inj (Outcome.done.inj h)
    exact Or.inl ⟨by rw [← hb]; rfl, hheap.symm, fun y hy => by cases hy⟩

theorem apply_base (e : Edit) (b b' : SnapshotBuilder) (heap heap' : Heap)
    (h : e.apply b heap = .done (b', heap')) : b'.base = b.base := by
  cases e with
  | update x f =>
    obtain ⟨_, _, _, hb⟩ := update_eq_done b b' heap heap' x f h
    rw [hb]
  | updateIfLive x f =>
    rcases updateIfLive_eq_done b b' heap heap' x f h with hone | ⟨_, hb, _⟩
    · obtain ⟨_, _, _, hb⟩ := update_eq_done b b' heap heap' x f hone
      rw [hb]
    · rw [hb]
  | put _ _ | remove _ | root _ | resetPlacement | place _ _ | translate _ _ _ =>
    exact (congrArg SnapshotBuilder.base (Prod.mk.inj (Outcome.done.inj h)).1).symm

theorem applyAll_cons_eq_done (e : Edit) (rest : List Edit) (b b' : SnapshotBuilder)
    (heap heap' : Heap) (h : Edit.applyAll (e :: rest) b heap = .done (b', heap')) :
    ∃ b₁ heap₁, e.apply b heap = .done (b₁, heap₁) ∧
      Edit.applyAll rest b₁ heap₁ = .done (b', heap') := by
  unfold Edit.applyAll at h
  rw [Outcome.bind_eq_done] at h
  obtain ⟨⟨b₁, heap₁⟩, hone, hrest⟩ := h
  exact ⟨b₁, heap₁, hone, hrest⟩

/-- What every call preserves, a sequence of calls preserves. -/
theorem applyAll_preserves (I : SnapshotBuilder → Heap → Prop) (edits : List Edit)
    (b b' : SnapshotBuilder) (heap heap' : Heap)
    (h : Edit.applyAll edits b heap = .done (b', heap')) (hI : I b heap)
    (hstep : ∀ e ∈ edits, ∀ b b' heap heap', e.apply b heap = .done (b', heap') → I b heap →
      I b' heap') : I b' heap' := by
  induction edits generalizing b heap with
  | nil =>
    obtain ⟨hb, hheap⟩ := Prod.mk.inj (Outcome.done.inj h)
    rw [← hb, ← hheap]
    exact hI
  | cons e rest ih =>
    obtain ⟨b₁, heap₁, hone, hrest⟩ := applyAll_cons_eq_done e rest b b' heap heap' h
    have hI₁ := hstep e (List.mem_cons_self ..) b b₁ heap heap₁ hone hI
    exact ih b₁ heap₁ hrest hI₁ (fun e' he' => hstep e' (List.mem_cons_of_mem _ he'))

theorem applyAll_base (edits : List Edit) (b b' : SnapshotBuilder) (heap heap' : Heap)
    (h : Edit.applyAll edits b heap = .done (b', heap')) : b'.base = b.base :=
  applyAll_preserves (fun c _ => c.base = b.base) edits b b' heap heap' h rfl
    (fun e _ c c' k k' hone hbase => (apply_base e c c' k k' hone).trans hbase)

end Edits

section Commit

theorem nextRevision_eq_done (r r' : Revision) (h : nextRevision r = .done r') :
    r'.value.val = r.value.val + 1 := by
  unfold nextRevision at h
  by_cases hlt : r.value.val + 1 < 2 ^ 64
  · rw [dif_pos hlt] at h
    rw [← Outcome.done.inj h]
  · rw [dif_neg hlt] at h
    cases h

/-- The revisions run out at the largest word. -/
theorem nextRevision_eq_trap_iff (r : Revision) (e : Trap) :
    nextRevision r = .trap e ↔ r.value = NonZeroU64.max ∧ e = .revisionExhausted := by
  have hlt := r.value.lt
  have hmax : r.value = NonZeroU64.max ↔ ¬ r.value.val + 1 < 2 ^ 64 := by
    constructor
    · intro heq
      rw [heq]
      simp [NonZeroU64.max]
    · intro hge
      apply NonZeroU64.ext_val
      simp only [NonZeroU64.max]
      omega
  rw [hmax]
  unfold nextRevision
  by_cases hnext : r.value.val + 1 < 2 ^ 64
  · rw [dif_pos hnext]
    exact iff_of_false (by simp) (fun h => h.1 hnext)
  · rw [dif_neg hnext, Outcome.trap.injEq]
    exact ⟨fun h => ⟨hnext, h.symm⟩, fun h => h.2.symm⟩

theorem nextRevision_ne (r r' : Revision) (h : nextRevision r = .done r') : r' ≠ r := by
  intro heq
  have hval := nextRevision_eq_done r r' h
  rw [heq] at hval
  omega

/-- The commit publishes nothing: no difference was found and placement is stored as
in the base. -/
def Unpublished (b : SnapshotBuilder) (diffs : List Diff) : Prop :=
  diffs = [] ∧ b.placement = b.base.placement

/-- Everything a commit can return. -/
theorem commit_cases (b : SnapshotBuilder) (fuel : ℕ) (c : Commit)
    (h : commit b fuel = .done c) :
    ∃ revision diffs, nextRevision b.base.version.revision = .done revision ∧
      diffsBetween b.base (candidate b revision) fuel = .done diffs ∧
      ((Unpublished b diffs ∧ c = ⟨b.base, ⟨b.base.version, b.base.version, []⟩⟩) ∨
        (¬ Unpublished b diffs ∧
          c = ⟨candidate b revision,
            ⟨b.base.version, (candidate b revision).version, diffs⟩⟩)) := by
  unfold commit at h
  rw [Outcome.bind_eq_done] at h
  obtain ⟨revision, hrev, h⟩ := h
  rw [Outcome.bind_eq_done] at h
  obtain ⟨diffs, hdiffs, h⟩ := h
  refine ⟨revision, diffs, hrev, hdiffs, ?_⟩
  have hiff : (diffs.isEmpty && (candidate b revision).placement == b.base.placement) = true ↔
      Unpublished b diffs := by
    rw [Bool.and_eq_true, List.isEmpty_iff, beq_iff_eq]
    rfl
  by_cases hun : Unpublished b diffs
  · rw [if_pos (hiff.mpr hun)] at h
    exact Or.inl ⟨hun, (Outcome.done.inj h).symm⟩
  · rw [if_neg (fun hc => hun (hiff.mp hc))] at h
    exact Or.inr ⟨hun, (Outcome.done.inj h).symm⟩

theorem candidate_domain (b : SnapshotBuilder) (revision : Revision) :
    b.base.version.domain = (candidate b revision).version.domain := rfl

/-- The delta of a commit describes its base and its result. -/
theorem commit_describes (b : SnapshotBuilder) (fuel : ℕ) (c : Commit)
    (h : commit b fuel = .done c) :
    Describes (DiffersAt b.base c.snapshot) b.base.records c.snapshot.records c.delta.diffs := by
  obtain ⟨revision, diffs, _, hdiffs, ⟨_, hc⟩ | ⟨_, hc⟩⟩ := commit_cases b fuel c h
  · rw [hc]
    exact describes_self b.base
  · rw [hc]
    exact diffsBetween_describes (candidate_domain b revision) fuel diffs hdiffs

/-- The builder accumulated nothing a commit looks for. -/
def Unchanged (b : SnapshotBuilder) : Prop :=
  state b.base.records = state b.records ∧ b.placement = b.base.placement

theorem unpublished_iff (b : SnapshotBuilder) (revision : Revision) (fuel : ℕ)
    (diffs : List Diff) (h : diffsBetween b.base (candidate b revision) fuel = .done diffs) :
    Unpublished b diffs ↔ Unchanged b := by
  have hdesc := diffsBetween_describes (candidate_domain b revision) fuel diffs h
  unfold Unpublished Unchanged
  exact and_congr (diffs_eq_nil_iff hdesc) Iff.rfl

/-- A commit returns the base when nothing accumulated, and the candidate under the next
revision otherwise. -/
theorem commit_result (b : SnapshotBuilder) (fuel : ℕ) (c : Commit)
    (h : commit b fuel = .done c) :
    (Unchanged b ∧ c.snapshot = b.base) ∨
      ∃ revision, ¬ Unchanged b ∧ nextRevision b.base.version.revision = .done revision ∧
        c.snapshot = candidate b revision := by
  obtain ⟨revision, diffs, hrev, hdiffs, ⟨hun, hc⟩ | ⟨hun, hc⟩⟩ := commit_cases b fuel c h
  · exact Or.inl ⟨(unpublished_iff b revision fuel diffs hdiffs).mp hun, by rw [hc]⟩
  · refine Or.inr ⟨revision, ?_, hrev, by rw [hc]⟩
    exact fun hsame => hun ((unpublished_iff b revision fuel diffs hdiffs).mpr hsame)

/-- The projections published are those accumulated, also when nothing is published. -/
theorem commit_state (b : SnapshotBuilder) (fuel : ℕ) (c : Commit)
    (h : commit b fuel = .done c) : state c.snapshot.records = state b.records := by
  rcases commit_result b fuel c h with ⟨hun, hc⟩ | ⟨revision, _, _, hc⟩
  · rw [hc]
    exact hun.1
  · rw [hc]
    rfl

theorem commit_placement (b : SnapshotBuilder) (fuel : ℕ) (c : Commit)
    (h : commit b fuel = .done c) : c.snapshot.placement = b.placement := by
  rcases commit_result b fuel c h with ⟨hun, hc⟩ | ⟨revision, _, _, hc⟩
  · rw [hc]
    exact hun.2.symm
  · rw [hc]
    rfl

theorem commit_records (b : SnapshotBuilder) (fuel : ℕ) (c : Commit)
    (h : commit b fuel = .done c) :
    c.snapshot.records = b.base.records ∨ c.snapshot.records = b.records := by
  rcases commit_result b fuel c h with ⟨_, hc⟩ | ⟨revision, _, _, hc⟩
  · exact Or.inl (by rw [hc])
  · exact Or.inr (by rw [hc]; rfl)

theorem commit_domain (b : SnapshotBuilder) (fuel : ℕ) (c : Commit)
    (h : commit b fuel = .done c) : c.snapshot.version.domain = b.base.version.domain := by
  rcases commit_result b fuel c h with ⟨_, hc⟩ | ⟨revision, _, _, hc⟩
  · rw [hc]
  · rw [hc]
    rfl

theorem commit_delta_before (b : SnapshotBuilder) (fuel : ℕ) (c : Commit)
    (h : commit b fuel = .done c) : c.delta.before = b.base.version := by
  obtain ⟨revision, diffs, _, _, ⟨_, hc⟩ | ⟨_, hc⟩⟩ := commit_cases b fuel c h
  · rw [hc]
  · rw [hc]

theorem commit_mono (b : SnapshotBuilder) : FuelMonotone (commit b) := by
  intro n
  refine Outcome.Approx.bind (Outcome.Approx.refl _) (fun revision => ?_)
  exact (diffsBetween_mono b.base (candidate b revision) n).bind
    (fun _ => Outcome.Approx.refl _)

/-- A commit on an acyclic base with own addresses answers unless revisions ran out. -/
theorem commit_done (b : SnapshotBuilder) (hb : OwnAddresses b.base)
    (hac : AcyclicChildren b.base)
    (ha : ∀ revision, OwnAddresses (candidate b revision))
    (hrev : b.base.version.revision.value.val + 1 < 2 ^ 64) (fuel : ℕ)
    (hfuel : b.base.len < fuel) : ∃ c, commit b fuel = .done c := by
  have hnext : ∃ revision, nextRevision b.base.version.revision = .done revision :=
    ⟨_, dif_pos hrev⟩
  obtain ⟨revision, hnext⟩ := hnext
  obtain ⟨diffs, hdiffs⟩ :=
    diffsBetween_done hb (ha revision) hac (candidate_domain b revision) fuel hfuel
  unfold commit
  rw [hnext, Outcome.done_bind]
  change ∃ c, (diffsBetween b.base (candidate b revision) fuel >>= _) = Outcome.done c
  rw [hdiffs, Outcome.done_bind]
  by_cases hun : (diffs.isEmpty && (candidate b revision).placement == b.base.placement) = true
  · rw [if_pos hun]
    exact ⟨_, rfl⟩
  · rw [if_neg hun]
    exact ⟨_, rfl⟩

/-- Over own addresses a commit traps only where the next revision does. -/
theorem commit_trap (b : SnapshotBuilder) (hb : OwnAddresses b.base)
    (ha : ∀ revision, OwnAddresses (candidate b revision)) (fuel : ℕ) (e : Trap)
    (h : commit b fuel = .trap e) : nextRevision b.base.version.revision = .trap e := by
  unfold commit at h
  rw [Outcome.bind_eq_trap] at h
  obtain h | ⟨revision, _, h⟩ := h
  · exact h
  · rw [Outcome.bind_eq_trap] at h
    obtain h | ⟨diffs, _, h⟩ := h
    · exact absurd h (diffsBetween_ne_trap hb (ha revision) (candidate_domain b revision) fuel e)
    · by_cases hun : (diffs.isEmpty && (candidate b revision).placement == b.base.placement) = true
      · rw [if_pos hun] at h
        cases h
      · rw [if_neg hun] at h
        cases h

end Commit

end CompositionIr.CommitSpec
