import CompositionIr.ShownStates

/-!
What the calls on a builder do to the records as values and to the roots, read off the
calls alone: a snapshot is edited as if its records were held by value.
-/

namespace CompositionIr.CallEffects

open Outcomes ChildGraphs Addresses Records Snapshots Deltas Commits
open PublishedStates DeltaSpec CommitSpec ShownStates

def values (records : RecordMap) : Address → Option Node :=
  fun x => (records.lookup x).map Arc.node

theorem values_insert (records : RecordMap) (x : Address) (arc : Arc) :
    values (records.insert x arc) = Function.update (values records) x (some arc.node) := by
  funext y
  unfold values
  by_cases hy : y = x
  · subst hy
    rw [Function.update_self, AList.lookup_insert, Option.map_some]
  · rw [Function.update_of_ne hy, AList.lookup_insert_ne hy]

theorem values_erase (records : RecordMap) (x : Address) :
    values (records.erase x) = Function.update (values records) x none := by
  funext y
  unfold values
  by_cases hy : y = x
  · subst hy
    rw [Function.update_self, AList.lookup_erase, Option.map_none]
  · rw [Function.update_of_ne hy, AList.lookup_erase_ne hy]

theorem state_eq_map (records : RecordMap) (x : Address) :
    state records x = (values records x).map Node.projection := by
  unfold values state graph
  rw [Option.map_map]
  rfl

theorem state_of_values {records records' : RecordMap} (h : values records = values records') :
    state records = state records' := by
  funext x
  rw [state_eq_map, state_eq_map, h]

theorem mem_addresses_iff_values (s : Snapshot) (x : Address) :
    x ∈ s.addresses ↔ values s.records x ≠ none := by
  rw [mem_addresses]
  unfold values
  cases s.records.lookup x <;> simp

def recorded (m : Address → Option Node) : Edit → Address → Option Node
  | .put x n => Function.update m x (some n)
  | .update x f => Function.update m x ((m x).map f)
  | .updateIfLive x f => Function.update m x ((m x).map f)
  | .remove x => Function.update m x none
  | .root _ | .resetPlacement | .place _ _ | .translate _ _ _ => m

def rooted (roots : List Address) : Edit → List Address
  | .remove x => roots.filter (fun r => r != x)
  | .root x => roots ++ [x]
  | .put _ _ | .update _ _ | .updateIfLive _ _ | .resetPlacement | .place _ _
  | .translate _ _ _ => roots

theorem update_effect (b b' : SnapshotBuilder) (heap heap' : Heap) (x : Address)
    (f : Node → Node) (h : b.update heap x f = .done (b', heap')) :
    values b'.records = Function.update (values b.records) x ((values b.records x).map f) ∧
      b'.roots = b.roots := by
  obtain ⟨arc, harc, _, hb⟩ := update_eq_done b b' heap heap' x f h
  have hx : (values b.records x).map f = some (f arc.node) := by
    unfold values
    rw [harc]
    rfl
  rw [hb, hx]
  exact ⟨values_insert b.records x ⟨heap.next, f arc.node⟩, rfl⟩

theorem apply_effect (e : Edit) (b b' : SnapshotBuilder) (heap heap' : Heap)
    (h : e.apply b heap = .done (b', heap')) :
    values b'.records = recorded (values b.records) e ∧ b'.roots = rooted b.roots e := by
  cases e with
  | put x n =>
    rw [← (Prod.mk.inj (Outcome.done.inj h)).1]
    exact ⟨values_insert b.records x ⟨heap.next, n⟩, rfl⟩
  | update x f => exact update_effect b b' heap heap' x f h
  | updateIfLive x f =>
    rcases updateIfLive_eq_done b b' heap heap' x f h with hone | ⟨hdead, hsame, _⟩
    · exact update_effect b b' heap heap' x f hone
    · have hnone : values b.records x = none := Option.map_eq_none_iff.mpr hdead
      rw [hsame]
      refine ⟨?_, rfl⟩
      change values b.records =
        Function.update (values b.records) x ((values b.records x).map f)
      rw [hnone, Option.map_none, ← hnone, Function.update_eq_self]
  | remove x =>
    rw [← (Prod.mk.inj (Outcome.done.inj h)).1]
    exact ⟨values_erase b.records x, rfl⟩
  | root _ | resetPlacement | place _ _ | translate _ _ _ =>
    rw [← (Prod.mk.inj (Outcome.done.inj h)).1]
    exact ⟨rfl, rfl⟩

/-- A sequence of calls has its effects one after another. -/
theorem applyAll_effect (edits : List Edit) (b b' : SnapshotBuilder) (heap heap' : Heap)
    (h : Edit.applyAll edits b heap = .done (b', heap')) :
    values b'.records = edits.foldl recorded (values b.records) ∧
      b'.roots = edits.foldl rooted b.roots := by
  induction edits generalizing b heap with
  | nil =>
    rw [(Prod.mk.inj (Outcome.done.inj h)).1]
    exact ⟨rfl, rfl⟩
  | cons e rest ih =>
    obtain ⟨b₁, heap₁, hone, hrest⟩ := applyAll_cons_eq_done e rest b b' heap heap' h
    obtain ⟨hvalues, hroots⟩ := apply_effect e b b₁ heap heap₁ hone
    rw [List.foldl_cons, List.foldl_cons, ← hvalues, ← hroots]
    exact ih b₁ heap₁ hrest

theorem applyAll_append (left right : List Edit) (b b₁ b₂ : SnapshotBuilder)
    (heap heap₁ heap₂ : Heap) (hl : Edit.applyAll left b heap = .done (b₁, heap₁))
    (hr : Edit.applyAll right b₁ heap₁ = .done (b₂, heap₂)) :
    Edit.applyAll (left ++ right) b heap = .done (b₂, heap₂) := by
  induction left generalizing b heap with
  | nil =>
    obtain ⟨hb, hheap⟩ := Prod.mk.inj (Outcome.done.inj hl)
    rw [hb, hheap]
    exact hr
  | cons e rest ih =>
    obtain ⟨b', heap', hone, hrest⟩ := applyAll_cons_eq_done e rest b b₁ heap heap₁ hl
    rw [List.cons_append, Edit.applyAll, hone, Outcome.done_bind]
    exact ih b' heap' hrest

section Removals

/-- Removing a list of addresses leaves the records of the others. -/
theorem foldl_remove (l : List Address) (m : Address → Option Node) (x : Address) :
    (l.map Edit.remove).foldl recorded m x = if x ∈ l then none else m x := by
  induction l generalizing m with
  | nil => simp
  | cons y rest ih =>
    rw [List.map_cons, List.foldl_cons, ih]
    by_cases hx : x = y
    · subst hx
      simp [recorded]
    · simp [recorded, hx]

theorem foldl_remove_roots (l roots : List Address) :
    (l.map Edit.remove).foldl rooted roots = roots.filter (fun r => !l.contains r) := by
  induction l generalizing roots with
  | nil => simp
  | cons y rest ih =>
    rw [List.map_cons, List.foldl_cons, ih]
    unfold rooted
    rw [List.filter_filter]
    refine List.filter_congr (fun r _ => ?_)
    rw [List.contains_cons, Bool.not_or, Bool.and_comm]
    rfl

end Removals

/-- Calls that neither write, remove nor root leave records and roots as they are. -/
theorem foldl_still (edits : List Edit) (hedits : ∀ e ∈ edits, ∀ m r, recorded m e = m ∧
    rooted r e = r) (m : Address → Option Node) (roots : List Address) :
    edits.foldl recorded m = m ∧ edits.foldl rooted roots = roots := by
  induction edits with
  | nil => exact ⟨rfl, rfl⟩
  | cons e rest ih =>
    obtain ⟨hm, hr⟩ := hedits e (List.mem_cons_self ..) m roots
    rw [List.foldl_cons, List.foldl_cons, hm, hr]
    exact ih (fun e' he' => hedits e' (List.mem_cons_of_mem _ he'))

section Commits

def WithoutResources (m : Address → Option Node) : Prop :=
  ∀ x n, m x = some n → n.resources = []

/-- Records that show the same are the same, where none refers to a resource. -/
theorem values_eq_iff {records records' : RecordMap}
    (hplain : WithoutResources (values records)) (hplain' : WithoutResources (values records'))
    (x : Address) : values records x = values records' x ↔ state records x = state records' x := by
  rw [state_eq_map, state_eq_map]
  constructor
  · intro h
    rw [h]
  · intro h
    cases hn : values records x with
    | none =>
      rw [hn] at h
      exact (Option.map_eq_none_iff.mp h.symm).symm
    | some n =>
      rw [hn] at h
      obtain ⟨n', hn', hproj⟩ := Option.map_eq_some_iff.mp h.symm
      rw [hn', Node.eq_of_projection n' n hproj]
      rw [hplain x n hn, hplain' x n' hn']

/-- Without resources a commit publishes the records accumulated, whether or not it
publishes the builder. -/
theorem commit_values (b : SnapshotBuilder) (fuel : ℕ) (c : Commit)
    (h : commit b fuel = .done c) (hbase : WithoutResources (values b.base.records))
    (hbuilt : WithoutResources (values b.records)) :
    values c.snapshot.records = values b.records := by
  have hplain : WithoutResources (values c.snapshot.records) := by
    rcases commit_records b fuel c h with hc | hc
    · rw [hc]
      exact hbase
    · rw [hc]
      exact hbuilt
  funext x
  exact (values_eq_iff hplain hbuilt x).mpr (congrFun (commit_state b fuel c h) x)

def WithoutChildren (m : Address → Option Node) : Prop :=
  ∀ x n, m x = some n → n.children = []

theorem childrenOf_eq_nil {records : RecordMap} (h : WithoutChildren (values records))
    (x : Address) : childrenOf records x = [] := by
  unfold WithoutChildren values at h
  unfold childrenOf
  cases hx : records.lookup x with
  | none => rfl
  | some arc => exact h x arc.node (by rw [hx, Option.map_some])

/-- Where no record has children, nothing differs but by its own record. -/
theorem differsAt_iff {s t : Snapshot} (hs : WithoutChildren (values s.records))
    (ht : WithoutChildren (values t.records)) (x : Address) :
    DiffersAt s t x ↔ state s.records x ≠ state t.records x := by
  constructor
  · intro h
    cases h with
    | seed hne => exact hne
    | before hc _ =>
      rw [child_iff_mem, childrenOf_eq_nil hs] at hc
      cases hc
    | after hc _ =>
      rw [child_iff_mem, childrenOf_eq_nil ht] at hc
      cases hc
  · exact Differs.seed

/-- Two snapshots equal but for the allocations that hold their records. -/
structure SameByValue (s t : Snapshot) : Prop where
  version : s.version = t.version
  records : values s.records = values t.records
  roots : s.roots = t.roots
  placement : s.placement = t.placement

theorem SameByValue.refl (s : Snapshot) : SameByValue s s := ⟨rfl, rfl, rfl, rfl⟩

theorem SameByValue.symm {s t : Snapshot} (h : SameByValue s t) : SameByValue t s :=
  ⟨h.version.symm, h.records.symm, h.roots.symm, h.placement.symm⟩

theorem SameByValue.showSame {s t : Snapshot} (h : SameByValue s t) : ShowSame s t :=
  ⟨congrArg SnapshotVersion.domain h.version, state_of_values h.records⟩

/-- Builders equal by value on bases equal by value commit to snapshots equal by value,
with one delta. -/
theorem commit_sameByValue {b b' : SnapshotBuilder} (hbase : SameByValue b.base b'.base)
    (hrecords : values b.records = values b'.records) (hroots : b.roots = b'.roots)
    (hplacement : b.placement = b'.placement) (fuel fuel' : ℕ) (c c' : Commit)
    (h : commit b fuel = .done c) (h' : commit b' fuel' = .done c') :
    SameByValue c.snapshot c'.snapshot ∧ c.delta = c'.delta := by
  have hstate := state_of_values hrecords
  have hshown : ShowSame b.base b'.base :=
    ⟨congrArg SnapshotVersion.domain hbase.version, state_of_values hbase.records⟩
  obtain ⟨revision, diffs, hnext, hdiffs, hcase⟩ := commit_cases b fuel c h
  obtain ⟨revision', diffs', hnext', hdiffs', hcase'⟩ := commit_cases b' fuel' c' h'
  have hrevision : revision = revision' := by
    rw [hbase.version, hnext'] at hnext
    exact (Outcome.done.inj hnext).symm
  have hdelta : diffs = diffs' := by
    have hcandidate : ShowSame (candidate b revision) (candidate b' revision') :=
      ⟨hshown.domain, hstate⟩
    exact diffs_eq hshown hcandidate (candidate_domain b revision) hdiffs hdiffs'
  have hsame : Unpublished b diffs ↔ Unpublished b' diffs' := by
    unfold Unpublished
    rw [hdelta, hplacement, hbase.placement]
  rcases hcase with ⟨hun, hc⟩ | ⟨hun, hc⟩
  · rcases hcase' with ⟨_, hc'⟩ | ⟨hpub, _⟩
    · rw [hc, hc', hbase.version]
      exact ⟨hbase, rfl⟩
    · exact absurd (hsame.mp hun) hpub
  · rcases hcase' with ⟨hun', _⟩ | ⟨_, hc'⟩
    · exact absurd (hsame.mpr hun') hun
    · have hversion : (candidate b revision).version = (candidate b' revision').version := by
        unfold candidate
        rw [hbase.version, hrevision]
      rw [hc, hc', hversion, hbase.version, hdelta]
      exact ⟨⟨hversion, hrecords, hroots, hplacement⟩, rfl⟩

end Commits

end CompositionIr.CallEffects
