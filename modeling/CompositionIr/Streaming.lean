import CompositionIr.CommitSpec
import CompositionIr.Transitions

/-!
Streaming a document is editing it. Each streamed call acts on what a builder shows, its
projections and its placement, and a commit shows what its builder did, published or not.
Cutting a sequence of calls into commits therefore shows what one commit of all shows.
-/

namespace CompositionIr.Streaming

open Outcomes ChildGraphs Transitions Addresses Records Placements Snapshots Deltas Commits
open PublishedStates DeltaSpec CommitSpec

/-- What streaming is judged by. -/
structure View where
  records : ChildGraph Address Projection
  placement : Placement

def viewOf (s : Snapshot) : View := ⟨state s.records, s.placement⟩

def builderView (b : SnapshotBuilder) : View := ⟨state b.records, b.placement⟩

/-- The calls that streaming is made of. -/
inductive Streamed : Edit → Prop
  | put (x : Address) (n : Node) : Streamed (.put x n)
  | remove (x : Address) : Streamed (.remove x)
  | place (x : Address) (r : Rect) : Streamed (.place x r)
  | translate (covers : List Address) (dx dy : ℤ) : Streamed (.translate covers dx dy)
  | resetPlacement : Streamed .resetPlacement

/-- What a streamed call does to a view; the other calls read records the view does not
show and are left out. -/
def effect (v : View) : Edit → View
  | .put x n => { v with records := Function.update v.records x (some n.projection) }
  | .remove x => { v with records := Function.update v.records x none }
  | .place x r => { v with placement := v.placement.push x r }
  | .translate covers dx dy => { v with placement := v.placement.translate covers dx dy }
  | .resetPlacement => { v with placement := Placement.empty }
  | .update _ _ | .updateIfLive _ _ | .root _ => v

theorem state_insert (records : RecordMap) (x : Address) (arc : Arc) :
    state (records.insert x arc) =
      Function.update (state records) x (some arc.node.projection) := by
  funext y
  by_cases hy : y = x
  · subst hy
    rw [Function.update_self]
    exact state_of_lookup (AList.lookup_insert _)
  · rw [Function.update_of_ne hy]
    unfold state graph
    rw [AList.lookup_insert_ne hy]

theorem state_erase (records : RecordMap) (x : Address) :
    state (records.erase x) = Function.update (state records) x none := by
  funext y
  by_cases hy : y = x
  · subst hy
    rw [Function.update_self, state_eq_none]
    exact AList.lookup_erase _ _
  · rw [Function.update_of_ne hy]
    unfold state graph
    rw [AList.lookup_erase_ne hy]

/-- One streamed call has its effect on the view. -/
theorem apply_effect (e : Edit) (he : Streamed e) (b b' : SnapshotBuilder) (heap heap' : Heap)
    (h : e.apply b heap = .done (b', heap')) : builderView b' = effect (builderView b) e := by
  unfold builderView effect
  cases he with
  | put x n =>
    rw [← (Prod.mk.inj (Outcome.done.inj h)).1]
    exact congrArg (fun r => View.mk r b.placement) (state_insert b.records x ⟨heap.next, n⟩)
  | remove x =>
    rw [← (Prod.mk.inj (Outcome.done.inj h)).1]
    exact congrArg (fun r => View.mk r b.placement) (state_erase b.records x)
  | place _ _ | translate _ _ _ | resetPlacement =>
    rw [← (Prod.mk.inj (Outcome.done.inj h)).1]
    rfl

theorem applyAll_effect (edits : List Edit) (hedits : ∀ e ∈ edits, Streamed e)
    (b b' : SnapshotBuilder) (heap heap' : Heap)
    (h : Edit.applyAll edits b heap = .done (b', heap')) :
    builderView b' = edits.foldl effect (builderView b) := by
  induction edits generalizing b heap with
  | nil => rw [(Prod.mk.inj (Outcome.done.inj h)).1, List.foldl_nil]
  | cons e rest ih =>
    obtain ⟨b₁, heap₁, hone, hrest⟩ := applyAll_cons_eq_done e rest b b' heap heap' h
    rw [ih (fun e' he' => hedits e' (List.mem_cons_of_mem _ he')) b₁ heap₁ hrest,
      apply_effect e (hedits e (List.mem_cons_self ..)) b b₁ heap heap₁ hone, List.foldl_cons]

def Chunk (s : Snapshot) (edits : List Edit) (t : Snapshot) : Prop :=
  ∃ heap b heap' fuel delta, Edit.applyAll edits s.edit heap = .done (b, heap') ∧
    commit b fuel = .done ⟨t, delta⟩

/-- A commit shows what the calls did to the view, whether or not it published. -/
theorem chunk_view (s t : Snapshot) (edits : List Edit) (hedits : ∀ e ∈ edits, Streamed e)
    (h : Chunk s edits t) :
    viewOf t = edits.foldl effect (viewOf s) ∧ t.version.domain = s.version.domain := by
  obtain ⟨heap, b, heap', fuel, delta, happly, hcommit⟩ := h
  have hbase : b.base = s := applyAll_base edits s.edit b heap heap' happly
  have hdomain := commit_domain b fuel ⟨t, delta⟩ hcommit
  rw [hbase] at hdomain
  refine ⟨?_, hdomain⟩
  calc viewOf t = builderView b := by
        unfold viewOf builderView
        rw [← commit_state b fuel _ hcommit, ← commit_placement b fuel _ hcommit]
    _ = edits.foldl effect (builderView s.edit) :=
        applyAll_effect edits hedits s.edit b heap heap' happly

/-- The commits of a cut sequence show what all its calls did. -/
theorem run_view (s t : Snapshot) (chunks : List (List Edit)) (hrun : Run Chunk s chunks t)
    (hchunks : ∀ e ∈ chunks.flatten, Streamed e) :
    viewOf t = chunks.flatten.foldl effect (viewOf s) ∧
      t.version.domain = s.version.domain := by
  induction hrun with
  | nil => exact ⟨rfl, rfl⟩
  | @snoc t u chunks edits hrun hstep ih =>
    rw [List.flatten_append, List.flatten_singleton] at hchunks ⊢
    obtain ⟨hview, hdomain⟩ := ih (fun e he => hchunks e (List.mem_append_left _ he))
    obtain ⟨hlast, hsame⟩ :=
      chunk_view t u edits (fun e he => hchunks e (List.mem_append_right _ he)) hstep
    rw [List.foldl_append, ← hview]
    exact ⟨hlast, hsame.trans hdomain⟩

section Equivalent

variable {t u : Snapshot}

theorem contains_congr (h : state t.records = state u.records) (x : Address) :
    t.contains x = u.contains x := by
  rw [Bool.eq_iff_iff, ← not_iff_not, Bool.not_eq_true, Bool.not_eq_true, contains_eq_false_iff,
    contains_eq_false_iff, ← state_eq_none, ← state_eq_none, h]

theorem partEq_congr (h : state t.records = state u.records) (x : Address) (b a : Arc)
    (hb : t.records.lookup x = some b) (ha : u.records.lookup x = some a) (p : Part) :
    b.node.partEq a.node p = true := by
  have hx := congrFun h x
  rw [state_of_lookup hb, state_of_lookup ha, Option.some.injEq] at hx
  exact (Node.partEq_iff _ _ p).mpr (congrFun hx p)

theorem ownAddresses_congr (h : state t.records = state u.records)
    (hdom : t.version.domain = u.version.domain) (ht : OwnAddresses t) : OwnAddresses u := by
  refine ⟨fun x hx => ?_, fun x arc harc c hc => ?_⟩
  · obtain ⟨arc, harc⟩ := (mem_addresses u x).mp hx
    have hlive := state_of_lookup harc
    rw [← h] at hlive
    obtain ⟨arc', harc', _⟩ := (state_eq_some _ _ _).mp hlive
    exact (ht.keys x ((mem_addresses t x).mpr ⟨arc', harc'⟩)).trans hdom
  · have hedge := (child_iff u.records x c).mpr ⟨arc, harc, hc⟩
    rw [← h] at hedge
    obtain ⟨arc', harc', hc'⟩ := (child_iff _ _ _).mp hedge
    exact (ht.children x arc' harc' c hc').trans hdom

/-- Between snapshots that show the same, the emitter lists nothing. -/
theorem diffsBetween_nil (h : state t.records = state u.records)
    (hdom : t.version.domain = u.version.domain) (fuel : ℕ) (diffs : List Diff)
    (hdiffs : diffsBetween t u fuel = .done diffs) : diffs = [] :=
  (diffs_eq_nil_iff (diffsBetween_describes hdom fuel diffs hdiffs)).mpr h

end Equivalent

section Whole

/-- Streamed calls never trap. -/
theorem applyAll_streamed (edits : List Edit) (hedits : ∀ e ∈ edits, Streamed e)
    (b : SnapshotBuilder) (heap : Heap) :
    ∃ b' heap', Edit.applyAll edits b heap = .done (b', heap') := by
  induction edits generalizing b heap with
  | nil => exact ⟨b, heap, rfl⟩
  | cons e rest ih =>
    have hone : ∃ built, e.apply b heap = .done built := by
      cases hedits e (List.mem_cons_self ..) <;> exact ⟨_, rfl⟩
    obtain ⟨⟨b₁, heap₁⟩, hone⟩ := hone
    unfold Edit.applyAll
    rw [hone, Outcome.done_bind]
    exact ih (fun e' he' => hedits e' (List.mem_cons_of_mem _ he')) b₁ heap₁

theorem run_first_chunk (s t : Snapshot) (chunks : List (List Edit))
    (hrun : Run Chunk s chunks t) (hne : chunks ≠ []) : ∃ edits u, Chunk s edits u := by
  induction hrun with
  | nil => exact absurd rfl hne
  | @snoc t u chunks edits hrun hstep ih =>
    cases hrun with
    | nil => exact ⟨edits, u, hstep⟩
    | snoc _ _ => exact ih (by simp)

/-- Where a snapshot was committed on, it has a next revision. -/
theorem revision_lt_of_chunk (s t : Snapshot) (edits : List Edit) (h : Chunk s edits t) :
    s.version.revision.value.val + 1 < 2 ^ 64 := by
  obtain ⟨heap, b, heap', fuel, delta, happly, hcommit⟩ := h
  have hbase : b.base = s := applyAll_base edits s.edit b heap heap' happly
  obtain ⟨revision, _, hnext, _⟩ := commit_cases b fuel _ hcommit
  rw [hbase] at hnext
  have hval := nextRevision_eq_done _ _ hnext
  have hlt := revision.value.lt
  omega

/-- Where the cut commits return, the one commit of all calls returns as well. -/
theorem whole_returns (s t : Snapshot) (chunks : List (List Edit))
    (hstreamed : ∀ e ∈ chunks.flatten, Streamed e) (hrun : Run Chunk s chunks t)
    (hne : chunks ≠ []) (hs : OwnAddresses s) (ht : OwnAddresses t) (hac : AcyclicChildren s) :
    ∃ u, Chunk s chunks.flatten u := by
  obtain ⟨edits, u, hfirst⟩ := run_first_chunk s t chunks hrun hne
  obtain ⟨hview, hdomain⟩ := run_view s t chunks hrun hstreamed
  obtain ⟨b, heap', happly⟩ := applyAll_streamed chunks.flatten hstreamed s.edit ⟨0⟩
  have hbase : b.base = s := applyAll_base _ s.edit b ⟨0⟩ heap' happly
  have hbuilt : builderView b = viewOf t :=
    (applyAll_effect _ hstreamed s.edit b ⟨0⟩ heap' happly).trans hview.symm
  have hcand : ∀ revision, OwnAddresses (candidate b revision) := by
    intro revision
    refine ownAddresses_congr (congrArg View.records hbuilt.symm) ?_ ht
    rw [hdomain, ← hbase]
    exact candidate_domain b revision
  obtain ⟨c, hc⟩ := commit_done b (hbase ▸ hs) (hbase ▸ hac) hcand
    (by rw [hbase]; exact revision_lt_of_chunk s u edits hfirst) (b.base.len + 1)
    (Nat.lt_succ_self _)
  exact ⟨c.snapshot, ⟨0⟩, b, heap', _, c.delta, happly, hc⟩

end Whole

/-- Streaming is ordinary editing: any way of cutting a sequence of streamed calls into
commits reaches the live addresses, the parts and the placement answers of one commit, which
returns as well. -/
theorem streaming_is_editing (s t : Snapshot) (chunks : List (List Edit))
    (hstreamed : ∀ e ∈ chunks.flatten, Streamed e) (hrun : Run Chunk s chunks t) :
    (∀ u, Chunk s chunks.flatten u →
      (∀ x, t.contains x = u.contains x) ∧
      (∀ x b a, t.records.lookup x = some b → u.records.lookup x = some a →
        ∀ p ∈ ownParts, b.node.partEq a.node p = true) ∧
      (∀ a, t.placement.rect a = u.placement.rect a) ∧
      (∀ fuel diffs, diffsBetween t u fuel = .done diffs → diffs = []) ∧
      (OwnAddresses t → AcyclicChildren t → ∀ fuel, t.len < fuel →
        diffsBetween t u fuel = .done [])) ∧
    (chunks ≠ [] → OwnAddresses s → OwnAddresses t → AcyclicChildren s →
      ∃ u, Chunk s chunks.flatten u) := by
  refine ⟨fun u hwhole => ?_, whole_returns s t chunks hstreamed hrun⟩
  obtain ⟨hviewt, hdomt⟩ := run_view s t chunks hrun hstreamed
  obtain ⟨hviewu, hdomu⟩ := chunk_view s u chunks.flatten hstreamed hwhole
  have hview : viewOf t = viewOf u := hviewt.trans hviewu.symm
  have hstate : state t.records = state u.records := congrArg View.records hview
  have hplacement : t.placement = u.placement := congrArg View.placement hview
  have hdom : t.version.domain = u.version.domain := hdomt.trans hdomu.symm
  refine ⟨contains_congr hstate, ?_, ?_, diffsBetween_nil hstate hdom, ?_⟩
  · exact fun x b a hb ha p _ => partEq_congr hstate x b a hb ha p
  · exact fun a => by rw [hplacement]
  · intro hown hac fuel hfuel
    obtain ⟨diffs, hdiffs⟩ :=
      diffsBetween_done hown (ownAddresses_congr hstate hdom hown) hac hdom fuel hfuel
    rw [hdiffs, diffsBetween_nil hstate hdom fuel diffs hdiffs]

section Example

def streamedDocument : Snapshot := holding (rev 1) 0 [(addr .node 1, { text := "a" })]

def emptiedDocument : Snapshot :=
  { Snapshot.empty dom (rev 2) with records := streamedDocument.records.erase (addr .node 1) }

def refilledDocument : Snapshot := holding (rev 3) 1 [(addr .node 1, { text := "a" })]

def cutAt : List (List Edit) := [[.remove (addr .node 1)], [.put (addr .node 1) { text := "a" }]]

/-- The one commit of both calls returns too, and there is nothing between the two results. -/
theorem streaming_is_editing_cut :
    ∃ t u, Run Chunk streamedDocument cutAt t ∧ Chunk streamedDocument cutAt.flatten u ∧
      t.version ≠ streamedDocument.version ∧ (∀ x, t.contains x = u.contains x) ∧
      diffsBetween t u 2 = .done [] := by
  have hfirst : Chunk streamedDocument [.remove (addr .node 1)] emptiedDocument :=
    ⟨⟨1⟩, _, _, 2, _, rfl, rfl⟩
  have hsecond : Chunk emptiedDocument [.put (addr .node 1) { text := "a" }] refilledDocument :=
    ⟨⟨1⟩, _, _, 2, _, rfl, rfl⟩
  have hrun : Run Chunk streamedDocument cutAt refilledDocument :=
    (Run.single hfirst).snoc hsecond
  have hstreamed : ∀ e ∈ cutAt.flatten, Streamed e := by
    intro e he
    rcases List.mem_cons.mp he with he | he
    · rw [he]
      exact Streamed.remove _
    · rw [List.mem_singleton.mp he]
      exact Streamed.put _ _
  have hbefore : AcyclicChildren streamedDocument :=
    acyclicChildren_of_rank _ (fun _ => 0) (by decide)
  have hafter : AcyclicChildren refilledDocument :=
    acyclicChildren_of_rank _ (fun _ => 0) (by decide)
  obtain ⟨hsame, hreturns⟩ := streaming_is_editing _ _ cutAt hstreamed hrun
  obtain ⟨u, hwhole⟩ := hreturns (by decide) (by decide) (by decide) hbefore
  obtain ⟨hlive, _, _, _, hnothing⟩ := hsame u hwhole
  exact ⟨_, u, hrun, hwhole, by decide, hlive, hnothing (by decide) hafter 2 (by decide)⟩

end Example

end CompositionIr.Streaming
