import CompositionIr.Processes

/-!
Which records of a snapshot are the same instances as in its base. A call that writes an
address allocates, whether or not the value is new, and nothing brings an allocation
back. So an address keeps its instance exactly as long as no call wrote it, while the
delta names it only when something at or below it changed.
-/

namespace CompositionIr.InstanceSharing

open Outcomes ChildGraphs Transitions Addresses Records Placements Snapshots Deltas Commits
open PublishedStates DeltaSpec CommitSpec Processes

def Allocated (heap : Heap) (records : RecordMap) : Prop :=
  ∀ x arc, records.lookup x = some arc → arc.serial < heap.next

/-- What a process holds is allocated. -/
theorem allocated_of_reaches {domain : Domain} {revision : Revision} {labels : List Action}
    {p : Process} (hrun : Reaches domain revision labels p) (s : Snapshot)
    (hs : s ∈ p.snapshots) : Allocated p.heap s.records := by
  obtain ⟨value, hp⟩ := run_coherent hrun
  exact fun x arc harc => (hp s.records (Or.inl ⟨s, hs, rfl⟩) x arc harc).1

def Rewritten (edits : List Edit) (x : Address) : Prop := ∃ e ∈ edits, e.written = some x

def Fresh (serial : ℕ) (x : Address) (records : RecordMap) : Prop :=
  ∀ arc, records.lookup x = some arc → serial ≤ arc.serial

section Calls

variable {e : Edit} {b b' : SnapshotBuilder} {heap heap' : Heap} {x : Address}

/-- A call that does not write the address leaves its record or removes it. -/
theorem apply_kept (h : e.apply b heap = .done (b', heap')) (hx : e.written ≠ some x) :
    b'.records.lookup x = b.records.lookup x ∨ b'.records.lookup x = none := by
  rcases apply_records e b b' heap heap' h with
    ⟨hrec, _, _⟩ | ⟨y, n, hy, hrec, _⟩ | ⟨y, _, hrec, _⟩
  · exact Or.inl (by rw [hrec])
  · have hne : x ≠ y := by
      intro heq
      rw [heq] at hx
      exact hx hy
    exact Or.inl (by rw [hrec, AList.lookup_insert_ne hne])
  · rw [hrec]
    by_cases hxy : x = y
    · subst hxy
      exact Or.inr (AList.lookup_erase _ _)
    · exact Or.inl (AList.lookup_erase_ne hxy)

theorem apply_heap (h : e.apply b heap = .done (b', heap')) : heap.next ≤ heap'.next := by
  rcases apply_records e b b' heap heap' h with
    ⟨_, hheap, _⟩ | ⟨_, _, _, _, hheap⟩ | ⟨_, _, _, hheap⟩ <;> rw [hheap]
  exact Nat.le_succ _

/-- A fresh record stays fresh, whatever is called. -/
theorem apply_fresh (h : e.apply b heap = .done (b', heap')) (serial : ℕ)
    (hserial : serial ≤ heap.next) (hx : Fresh serial x b.records) :
    Fresh serial x b'.records := by
  intro arc harc
  rcases apply_records e b b' heap heap' h with
    ⟨hrec, _, _⟩ | ⟨y, n, _, hrec, _⟩ | ⟨y, _, hrec, _⟩
  · rw [hrec] at harc
    exact hx arc harc
  · rw [hrec] at harc
    by_cases hxy : x = y
    · subst hxy
      rw [AList.lookup_insert, Option.some.injEq] at harc
      rw [← harc]
      exact hserial
    · rw [AList.lookup_insert_ne hxy] at harc
      exact hx arc harc
  · rw [hrec] at harc
    by_cases hxy : x = y
    · subst hxy
      rw [AList.lookup_erase] at harc
      cases harc
    · rw [AList.lookup_erase_ne hxy] at harc
      exact hx arc harc

/-- A call that writes the address leaves a fresh record there, or none. -/
theorem apply_written (h : e.apply b heap = .done (b', heap')) (hx : e.written = some x) :
    Fresh heap.next x b'.records := by
  intro arc harc
  rcases apply_records e b b' heap heap' h with
    ⟨hrec, _, hdead⟩ | ⟨y, n, hy, hrec, _⟩ | ⟨y, hremove, _, _⟩
  · rw [hrec, hdead x hx] at harc
    cases harc
  · rw [hx, Option.some.injEq] at hy
    subst hy
    rw [hrec, AList.lookup_insert, Option.some.injEq] at harc
    rw [← harc]
  · rw [hremove] at hx
    cases hx

end Calls

section Sequences

variable {edits : List Edit} {b b' : SnapshotBuilder} {heap heap' : Heap} {x : Address}

theorem applyAll_kept (h : Edit.applyAll edits b heap = .done (b', heap'))
    (hx : ¬ Rewritten edits x) :
    b'.records.lookup x = b.records.lookup x ∨ b'.records.lookup x = none := by
  refine applyAll_preserves (fun d _ => d.records.lookup x = b.records.lookup x ∨
    d.records.lookup x = none) edits b b' heap heap' h (Or.inl rfl) ?_
  intro e he d d' k k' hone hd
  rcases apply_kept hone (fun hw => hx ⟨e, he, hw⟩) with heq | hnone
  · rw [heq]
    exact hd
  · exact Or.inr hnone

theorem applyAll_fresh (serial : ℕ) (hserial : serial ≤ heap.next)
    (h : Edit.applyAll edits b heap = .done (b', heap')) (hx : Fresh serial x b.records) :
    Fresh serial x b'.records := by
  have hkeep := applyAll_preserves
    (fun d k => Fresh serial x d.records ∧ serial ≤ k.next) edits b b' heap heap' h
    ⟨hx, hserial⟩ (fun e _ d d' k k' hone hd =>
      ⟨apply_fresh hone serial hd.2 hd.1, hd.2.trans (apply_heap hone)⟩)
  exact hkeep.1

/-- Once a call of the sequence writes the address, its record is a new allocation. -/
theorem applyAll_rewritten (h : Edit.applyAll edits b heap = .done (b', heap'))
    (hx : Rewritten edits x) : Fresh heap.next x b'.records := by
  induction edits generalizing b heap with
  | nil =>
    obtain ⟨e, he, _⟩ := hx
    cases he
  | cons e rest ih =>
    obtain ⟨b₁, heap₁, hone, hrest⟩ := applyAll_cons_eq_done e rest b b' heap heap' h
    have hle := apply_heap hone
    by_cases hlater : Rewritten rest x
    · exact fun arc harc => hle.trans (ih hrest hlater arc harc)
    · obtain ⟨e', he', hw⟩ := hx
      rcases List.mem_cons.mp he' with heq | hin
      · rw [heq] at hw
        exact applyAll_fresh heap.next hle hrest (apply_written hone hw)
      · exact absurd ⟨e', hin, hw⟩ hlater

end Sequences

/-- The delta leaves an address unnamed exactly when nothing at or below it changed. -/
theorem named_iff_changedBelow (b : SnapshotBuilder) (fuel : ℕ) (c : Commit)
    (h : commit b fuel = .done c) (x : Address) :
    x ∈ c.delta.diffs.map Diff.address ↔ ChangedBelow b.base.records b.records x := by
  rw [(commit_describes b fuel c h).named, ← differs_iff_changedBelow, ← commit_state b fuel c h]

/-- Every unnamed address live on both sides keeps its instance exactly when the commit
publishes nothing or every rewritten record that stays live changed, itself or below. -/
theorem unnamed_same_instance_iff (s : Snapshot) (heap : Heap) (hs : Allocated heap s.records)
    (edits : List Edit) (b : SnapshotBuilder) (heap' : Heap)
    (hedits : Edit.applyAll edits s.edit heap = .done (b, heap')) (fuel : ℕ) (c : Commit)
    (hcommit : commit b fuel = .done c) :
    (∀ x old new, s.records.lookup x = some old → c.snapshot.records.lookup x = some new →
      x ∉ c.delta.diffs.map Diff.address → new.serial = old.serial) ↔
      Unchanged b ∨ ∀ x, Rewritten edits x → s.contains x = true →
        (b.records.lookup x).isSome = true → ChangedBelow s.records b.records x := by
  have hbase : b.base = s := applyAll_base edits s.edit b heap heap' hedits
  have hnamed := named_iff_changedBelow b fuel c hcommit
  rw [hbase] at hnamed
  rcases commit_result b fuel c hcommit with ⟨hun, hc⟩ | ⟨revision, hpub, _, hc⟩
  · refine iff_of_true ?_ (Or.inl hun)
    intro x old new hold hnew _
    rw [hc, hbase, hold, Option.some.injEq] at hnew
    rw [hnew]
  · have hrecords : c.snapshot.records = b.records := by
      rw [hc]
      rfl
    rw [hrecords]
    constructor
    · intro hsame
      refine Or.inr (fun x hx hlive hstill => ?_)
      obtain ⟨old, hold⟩ := (contains_iff s x).mp hlive
      obtain ⟨new, hnew⟩ := Option.isSome_iff_exists.mp hstill
      by_contra hnot
      have hserial := hsame x old new hold hnew (fun hmem => hnot ((hnamed x).mp hmem))
      have hfresh := applyAll_rewritten hedits hx new hnew
      have hbefore := hs x old hold
      omega
    · intro hchanged x old new hold hnew hnot
      have hkept : ¬ Rewritten edits x := by
        intro hx
        rcases hchanged with hun | hall
        · exact hpub hun
        · refine hnot ((hnamed x).mpr (hall x hx ?_ ?_))
          · exact (contains_iff s x).mpr ⟨old, hold⟩
          · rw [hnew]
            rfl
      rcases applyAll_kept hedits hkept with heq | hnone
      · rw [hnew] at heq
        change some new = s.records.lookup x at heq
        rw [hold, Option.some.injEq] at heq
        rw [heq]
      · rw [hnew] at hnone
        cases hnone

section Example

def pairDocument : Snapshot :=
  holding (rev 2) 0 [(addr .node 1, { text := "a" }), (addr .node 2, { text := "b" })]

theorem allocated_pair : Allocated ⟨2⟩ pairDocument.records := by
  intro x arc harc
  have hx : x ∈ pairDocument.addresses := (mem_addresses _ x).mpr ⟨arc, harc⟩
  have hall : ∀ y ∈ pairDocument.addresses,
      ((pairDocument.records.lookup y).map Arc.serial).getD 2 < 2 := by decide
  have hlt := hall x hx
  rw [harc] at hlt
  exact hlt

/-- Rewriting one record with an equal value, while another changes, publishes an unnamed
address under a new instance. -/
theorem equal_rewrite_is_new_instance :
    Allocated ⟨2⟩ pairDocument.records ∧
      ∃ c, editAndCommit pairDocument
          [.put (addr .node 1) { text := "a" }, .update (addr .node 2) (fun n =>
            { n with text := "c" })] ⟨2⟩ 3 = .done c ∧
        ∃ old new, pairDocument.records.lookup (addr .node 1) = some old ∧
          c.snapshot.records.lookup (addr .node 1) = some new ∧
          addr .node 1 ∉ c.delta.diffs.map Diff.address ∧ new.serial ≠ old.serial :=
  ⟨allocated_pair, _, rfl, _, _, rfl, rfl, by decide, by decide⟩

/-- Rewriting only a record that changes leaves the other one the same instance. -/
theorem changed_rewrite_keeps_instances :
    ∃ c, editAndCommit pairDocument
        [.update (addr .node 2) (fun n => { n with text := "c" })] ⟨2⟩ 3 = .done c ∧
      ∀ x old new, pairDocument.records.lookup x = some old →
        c.snapshot.records.lookup x = some new →
        x ∉ c.delta.diffs.map Diff.address → new.serial = old.serial := by
  refine ⟨_, rfl, (unnamed_same_instance_iff pairDocument ⟨2⟩ allocated_pair
    [.update (addr .node 2) (fun n => { n with text := "c" })] _ _ rfl 3 _ rfl).mpr ?_⟩
  refine Or.inr (fun x hx _ _ => ⟨addr .node 2, ?_, ?_⟩)
  · obtain ⟨e, he, hw⟩ := hx
    rw [List.mem_singleton.mp he] at hw
    rw [← Option.some.inj hw]
  · exact Or.inr ⟨_, _, Part.text, rfl, rfl, by decide, by decide⟩

end Example

end CompositionIr.InstanceSharing
