import CompositionIr.CallEffects
import CompositionIr.Interleavings
import CompositionIr.PlacementReplay

/-!
The order of the calls on a builder. A call on a record sees the record at its own address,
and a commit compares what two snapshots show. So the calls on different addresses may be
interleaved in any way, on any allocator, as long as the root calls and the placement calls
each keep their order: commit by commit a session reports the same deltas and publishes the
same contents, or it fails in the same way.
-/

namespace CompositionIr.CallOrder

open Outcomes Addresses Records Placements Snapshots Deltas Commits
open PublishedStates CommitSpec ShownStates CallEffects PlacementReplay Interleavings

section Calls

/-- The address a call is about; the placement calls are about all of them. -/
def touched : Edit → Option Address
  | .put x _ | .update x _ | .updateIfLive x _ | .remove x | .root x => some x
  | .resetPlacement | .place _ _ | .translate _ _ _ => none

def isRoot : Edit → Bool
  | .root _ => true
  | _ => false

def isPlacement : Edit → Bool
  | .resetPlacement | .place _ _ | .translate _ _ _ => true
  | _ => false

def recordStep (held : Option Node) : Edit → Eval (Option Node)
  | .put _ n => .done (some n)
  | .update _ f =>
    match held with
    | none => .trap .noSuchAddress
    | some n => .done (some (f n))
  | .updateIfLive _ f => .done (held.map f)
  | .remove _ => .done none
  | .root _ | .resetPlacement | .place _ _ | .translate _ _ _ => .done held

def records : Keyed Trap Address (Option Node) Edit (SnapshotBuilder × Heap) where
  apply e s := e.apply s.1 s.2
  view s := values s.1.records
  key := touched
  step := recordStep

/-- A call leaves the records of the addresses it is not about. -/
theorem recorded_elsewhere (m : Address → Option Node) (e : Edit) (x : Address)
    (he : touched e ≠ some x) : recorded m e x = m x := by
  cases e with
  | put y n | update y f | updateIfLive y f | remove y =>
    have hne : x ≠ y := fun heq => he (by rw [heq]; rfl)
    exact Function.update_of_ne hne _ _
  | root _ | resetPlacement | place _ _ | translate _ _ _ => rfl

/-- What an update of a live address does. -/
theorem update_live (b : SnapshotBuilder) (heap : Heap) (x : Address) (f : Node → Node) (arc : Arc)
    (h : b.records.lookup x = some arc) : b.update heap x f =
      .done ({ b with records := b.records.insert x ⟨heap.next, f arc.node⟩ },
        ⟨heap.next + 1⟩) := by
  unfold SnapshotBuilder.update
  rw [h]
  rfl

theorem records_local : records.Local where
  here e s s' x h he := by
    obtain ⟨b, heap⟩ := s
    obtain ⟨b', heap'⟩ := s'
    change recordStep (values b.records x) e = .done (values b'.records x)
    rw [(apply_effect e b b' heap heap' h).1]
    cases e with
    | put y n | updateIfLive y f | remove y =>
      cases he
      simp [recordStep, recorded]
    | update y f =>
      cases he
      obtain ⟨arc, harc, _, _⟩ := update_eq_done b b' heap heap' x f h
      have hheld : values b.records x = some arc.node := by simp [values, harc]
      simp [recordStep, recorded, hheld]
    | root y => rfl
    | resetPlacement | place y r | translate covers dx dy => cases he
  elsewhere e s s' x h he := by
    change values s'.1.records x = values s.1.records x
    rw [(apply_effect e s.1 s'.1 s.2 s'.2 h).1, recorded_elsewhere _ e x he]
  answers e s h := by
    obtain ⟨b, heap⟩ := s
    cases e with
    | update y f =>
      obtain ⟨v, hv⟩ := h y rfl
      cases harc : b.records.lookup y with
      | none => simp [records, recordStep, values, harc] at hv
      | some arc => exact ⟨_, update_live b heap y f arc harc⟩
    | updateIfLive y f =>
      change ∃ s', b.updateIfLive heap y f = .done s'
      unfold SnapshotBuilder.updateIfLive
      cases harc : b.records.lookup y with
      | none => exact ⟨_, rfl⟩
      | some arc => exact ⟨_, update_live b heap y f arc harc⟩
    | put _ _ | remove _ | root _ | resetPlacement | place _ _ | translate _ _ _ =>
      exact ⟨_, rfl⟩

theorem applyAll_eq_run (calls : List Edit) (b : SnapshotBuilder) (heap : Heap) :
    Edit.applyAll calls b heap = records.run calls (b, heap) := by
  induction calls generalizing b heap with
  | nil => rfl
  | cons e rest ih =>
    unfold Edit.applyAll Keyed.run
    rw [List.foldlM_cons]
    change e.apply b heap >>= _ = e.apply b heap >>= _
    congr 1
    funext s
    exact ih s.1 s.2

end Calls

section Roots

def rootOf : Edit → Option Address
  | .root x => some x
  | _ => none

def rootsAsked (calls : List Edit) : List Address := calls.filterMap rootOf

def removes (x : Address) : Edit → Bool
  | .remove y => y == x
  | _ => false

def removed (calls : List Edit) (x : Address) : Bool := calls.any (removes x)

/-- A call counted among those that made the address a root since it was last removed. -/
def recount (x : Address) (n : ℕ) : Edit → ℕ
  | .root y => if y = x then n + 1 else n
  | .remove y => if y = x then 0 else n
  | _ => n

def sinceRemoved (calls : List Edit) (x : Address) : ℕ := calls.foldl (recount x) 0

def survivors (k : Address → ℕ) : List Address → List Address
  | [] => []
  | x :: rest => if rest.count x < k x then x :: survivors k rest else survivors k rest

theorem survivors_snoc (k : Address → ℕ) (l : List Address) (y : Address) :
    survivors (Function.update k y (k y + 1)) (l ++ [y]) = survivors k l ++ [y] := by
  induction l with
  | nil => simp [survivors]
  | cons x rest ih =>
    have hcount : (rest ++ [y]).count x < Function.update k y (k y + 1) x ↔ rest.count x < k x := by
      by_cases hx : x = y
      · subst hx
        simp
      · simp [Function.update_of_ne hx, List.count_append, Ne.symm hx]
    rw [List.cons_append]
    unfold survivors
    simp only [hcount, ih]
    by_cases hkept : rest.count x < k x
    · rw [if_pos hkept, if_pos hkept, List.cons_append]
    · rw [if_neg hkept, if_neg hkept]

theorem survivors_removed (k : Address → ℕ) (l : List Address) (y : Address) :
    survivors (Function.update k y 0) l = (survivors k l).filter (fun r => r != y) := by
  induction l with
  | nil => rfl
  | cons x rest ih =>
    unfold survivors
    rw [ih]
    by_cases hx : x = y
    · subst hx
      by_cases hkept : rest.count x < k x <;> simp [hkept]
    · rw [Function.update_of_ne hx]
      by_cases hkept : rest.count x < k x <;> simp [hkept, hx]

theorem sinceRemoved_snoc (calls : List Edit) (e : Edit) (x : Address) :
    sinceRemoved (calls ++ [e]) x = recount x (sinceRemoved calls x) e := by
  unfold sinceRemoved
  rw [List.foldl_append]
  rfl

theorem sinceRemoved_root (calls : List Edit) (y : Address) :
    sinceRemoved (calls ++ [.root y]) =
      Function.update (sinceRemoved calls) y (sinceRemoved calls y + 1) := by
  funext x
  rw [sinceRemoved_snoc]
  by_cases hx : x = y
  · subst hx
    simp [recount]
  · simp [recount, Function.update_of_ne hx, Ne.symm hx]

theorem sinceRemoved_remove (calls : List Edit) (y : Address) :
    sinceRemoved (calls ++ [.remove y]) = Function.update (sinceRemoved calls) y 0 := by
  funext x
  rw [sinceRemoved_snoc]
  by_cases hx : x = y
  · subst hx
    simp [recount]
  · simp [recount, Function.update_of_ne hx, Ne.symm hx]

/-- The roots are those that were never removed, and behind them the root calls that no
later removal undid. -/
theorem foldl_rooted_eq (calls : List Edit) (roots : List Address) :
    calls.foldl rooted roots = roots.filter (fun x => !removed calls x) ++
      survivors (sinceRemoved calls) (rootsAsked calls) := by
  induction calls using List.reverseRecOn with
  | nil => simp [removed, rootsAsked, survivors]
  | append_singleton calls e ih =>
    rw [List.foldl_append, ih]
    have hcount := funext (sinceRemoved_snoc calls e)
    cases e with
    | root y =>
      have hasked : rootsAsked (calls ++ [.root y]) = rootsAsked calls ++ [y] := by
        simp [rootsAsked, rootOf]
      have hremoved : removed (calls ++ [.root y]) = removed calls := by
        funext x
        simp [removed, removes]
      rw [sinceRemoved_root, hasked, survivors_snoc, hremoved, ← List.append_assoc]
      rfl
    | remove y =>
      have hasked : rootsAsked (calls ++ [.remove y]) = rootsAsked calls := by
        simp [rootsAsked, rootOf]
      have hremoved : ∀ x, (!removed (calls ++ [.remove y]) x) =
          ((x != y) && !removed calls x) := by
        intro x
        have heq : (y == x) = (x == y) := by rw [Bool.eq_iff_iff, beq_iff_eq, beq_iff_eq, eq_comm]
        simp [removed, removes, bne, heq, Bool.and_comm]
      rw [sinceRemoved_remove, hasked, survivors_removed]
      simp only [hremoved, ← List.filter_filter, List.filter_append, List.foldl_cons,
        List.foldl_nil, rooted]
    | _ =>
      simp [hcount, recount, removed, rootsAsked, removes, rootOf, rooted, List.filterMap_cons]

end Roots

section Reordering

/-- The same calls: those about one address in the same order, whatever the address, the
root calls in the same order, and the placement calls. -/
structure SameCalls (calls calls' : List Edit) : Prop where
  onKey : ∀ x, records.onKey x calls' = records.onKey x calls
  roots : calls'.filter isRoot = calls.filter isRoot
  placement : calls'.filter isPlacement = calls.filter isPlacement

theorem SameCalls.symm {calls calls' : List Edit} (h : SameCalls calls calls') :
    SameCalls calls' calls :=
  ⟨fun x => (h.onKey x).symm, h.roots.symm, h.placement.symm⟩

variable {calls calls' : List Edit}

theorem rootsAsked_filter (calls : List Edit) :
    rootsAsked (calls.filter isRoot) = rootsAsked calls := by
  unfold rootsAsked
  rw [List.filterMap_filter]
  congr 1
  funext e
  cases e <;> rfl

theorem removed_onKey (calls : List Edit) (x : Address) :
    removed (records.onKey x calls) x = removed calls x := by
  unfold removed Keyed.onKey
  rw [List.any_filter]
  congr 1
  funext e
  cases e with
  | remove y => simp [removes, records, touched]
  | _ => simp [removes]

theorem sinceRemoved_onKey (calls : List Edit) (x : Address) :
    sinceRemoved (records.onKey x calls) x = sinceRemoved calls x := by
  unfold sinceRemoved Keyed.onKey
  rw [List.foldl_filter]
  congr 1
  funext n e
  cases e with
  | root y => by_cases hy : y = x <;> simp [recount, records, touched, hy]
  | remove y => by_cases hy : y = x <;> simp [recount, records, touched, hy]
  | _ => simp [recount]

theorem roots_same (h : SameCalls calls calls') (roots : List Address) :
    calls'.foldl rooted roots = calls.foldl rooted roots := by
  have hasked : rootsAsked calls' = rootsAsked calls := by
    rw [← rootsAsked_filter calls', h.roots, rootsAsked_filter]
  have hremoved : removed calls' = removed calls := by
    funext x
    rw [← removed_onKey calls', h.onKey, removed_onKey]
  have hcount : sinceRemoved calls' = sinceRemoved calls := by
    funext x
    rw [← sinceRemoved_onKey calls', h.onKey, sinceRemoved_onKey]
  rw [foldl_rooted_eq, foldl_rooted_eq, hasked, hremoved, hcount]

theorem foldl_placed_filter (calls : List Edit) (p : Placement) :
    (calls.filter isPlacement).foldl placed p = calls.foldl placed p := by
  rw [List.foldl_filter]
  congr 1
  funext q e
  cases e <;> rfl

theorem placement_same (h : SameCalls calls calls') (p : Placement) :
    calls'.foldl placed p = calls.foldl placed p := by
  rw [← foldl_placed_filter calls', h.placement, foldl_placed_filter]

end Reordering

section Sessions

structure BuildSame (b b' : SnapshotBuilder) : Prop where
  base : SameByValue b.base b'.base
  records : values b.records = values b'.records
  roots : b.roots = b'.roots
  placement : b.placement = b'.placement

theorem BuildSame.candidate {b b' : SnapshotBuilder} (h : BuildSame b b')
    (revision : Revision) : SameByValue (candidate b revision) (candidate b' revision) where
  version := by
    unfold Commits.candidate
    rw [h.base.version]
  records := h.records
  roots := h.roots
  placement := h.placement

/-- Two commits report one delta and leave snapshots equal by value. -/
def SameCommit (c c' : Commit) : Prop :=
  SameByValue c.snapshot c'.snapshot ∧ c.delta = c'.delta

theorem commit_same {b b' : SnapshotBuilder} (h : BuildSame b b') (fuel : ℕ) :
    (commit b fuel).Related SameCommit (commit b' fuel) := by
  unfold commit
  refine Outcome.Related.bind (Outcome.Related.of_eq (by rw [h.base.version])) ?_
  intro revision revision' hrev
  subst hrev
  have hcand := h.candidate revision
  have hdiffs := diffsBetween_congr h.base.showSame hcand.showSame
    (candidate_domain b revision) fuel
  refine Outcome.Related.bind (Outcome.Related.of_eq hdiffs) ?_
  intro diffs diffs' hsame
  subst hsame
  rw [hcand.placement, h.base.placement]
  by_cases hun : (diffs.isEmpty && (candidate b' revision).placement == b'.base.placement) = true
  · rw [if_pos hun, if_pos hun, h.base.version]
    exact ⟨h.base, rfl⟩
  · rw [if_neg hun, if_neg hun, h.base.version]
    refine ⟨hcand, ?_⟩
    rw [hcand.version]

/-- Calls fail in one way only. -/
theorem applyAll_trap (calls : List Edit) (b : SnapshotBuilder) (heap : Heap) :
    (∃ r, Edit.applyAll calls b heap = .done r) ∨
      Edit.applyAll calls b heap = .trap .noSuchAddress := by
  induction calls generalizing b heap with
  | nil => exact Or.inl ⟨_, rfl⟩
  | cons e rest ih =>
    have hone : (∃ r, e.apply b heap = .done r) ∨ e.apply b heap = .trap .noSuchAddress := by
      cases e with
      | update x f =>
        change (∃ r, b.update heap x f = .done r) ∨ b.update heap x f = .trap .noSuchAddress
        cases harc : b.records.lookup x with
        | none =>
          refine Or.inr ?_
          unfold SnapshotBuilder.update
          rw [harc]
        | some arc => exact Or.inl ⟨_, update_live b heap x f arc harc⟩
      | updateIfLive x f =>
        exact Or.inl (records_local.answers (.updateIfLive x f) (b, heap)
          (fun _ _ => ⟨_, rfl⟩))
      | _ => exact Or.inl ⟨_, rfl⟩
    unfold Edit.applyAll
    rcases hone with ⟨⟨b₁, heap₁⟩, hone⟩ | hone
    · rw [hone]
      exact ih b₁ heap₁
    · rw [hone]
      exact Or.inr rfl

variable {s s' : Snapshot} {calls calls' : List Edit}

theorem applyAll_answers (hs : SameByValue s s') (hsame : SameCalls calls calls') {heap : Heap}
    {r : SnapshotBuilder × Heap} (heap' : Heap) (h : Edit.applyAll calls s.edit heap = .done r) :
    ∃ r', Edit.applyAll calls' s'.edit heap' = .done r' ∧ BuildSame r.1 r'.1 := by
  obtain ⟨b, heap₁⟩ := r
  have hstart : ∀ x, records.view (s'.edit, heap') x = records.view (s.edit, heap) x :=
    fun x => (congrFun hs.records x).symm
  have hrun := h
  rw [applyAll_eq_run] at hrun
  obtain ⟨⟨b', heap₁'⟩, hrun', hview⟩ :=
    Keyed.run_reordered records_local hsame.onKey hstart hrun
  rw [← applyAll_eq_run] at hrun'
  have hrecords : values b'.records = values b.records := funext hview
  refine ⟨(b', heap₁'), hrun', ?_, hrecords.symm, ?_, ?_⟩
  · rw [applyAll_base calls s.edit b heap heap₁ h,
      applyAll_base calls' s'.edit b' heap' heap₁' hrun']
    exact hs
  · rw [(applyAll_effect calls s.edit b heap heap₁ h).2,
      (applyAll_effect calls' s'.edit b' heap' heap₁' hrun').2, roots_same hsame]
    exact congrArg (calls.foldl rooted) hs.roots
  · rw [applyAll_placement calls s.edit b heap heap₁ h,
      applyAll_placement calls' s'.edit b' heap' heap₁' hrun', placement_same hsame]
    exact congrArg (calls.foldl placed) hs.placement

theorem applyAll_same (hs : SameByValue s s') (hsame : SameCalls calls calls') (heap heap' : Heap) :
    (Edit.applyAll calls s.edit heap).Related (fun r r' => BuildSame r.1 r'.1)
      (Edit.applyAll calls' s'.edit heap') := by
  rcases applyAll_trap calls s.edit heap with ⟨r, h⟩ | h
  · obtain ⟨r', h', hbuild⟩ := applyAll_answers hs hsame heap' h
    rw [h, h']
    exact hbuild
  · rcases applyAll_trap calls' s'.edit heap' with ⟨r', h'⟩ | h'
    · obtain ⟨r, hr, _⟩ := applyAll_answers hs.symm hsame.symm heap h'
      rw [h] at hr
      cases hr
    · rw [h, h']
      exact rfl

theorem editAndCommit_same (hs : SameByValue s s') (hsame : SameCalls calls calls')
    (heap heap' : Heap) (fuel : ℕ) :
    (editAndCommit s calls heap fuel).Related SameCommit (editAndCommit s' calls' heap' fuel) := by
  unfold editAndCommit
  exact Outcome.Related.bind (applyAll_same hs hsame heap heap') (fun _ _ h => commit_same h fuel)

structure Stage where
  calls : List Edit
  heap : Heap
  fuel : ℕ

/-- Commit after commit: the deltas reported and the snapshot left. -/
def session (s : Snapshot) : List Stage → Eval (List Delta × Snapshot)
  | [] => return ([], s)
  | stage :: rest => do
    let c ← editAndCommit s stage.calls stage.heap stage.fuel
    let (deltas, t) ← session c.snapshot rest
    return (c.delta :: deltas, t)

def SameStage (stage stage' : Stage) : Prop :=
  SameCalls stage.calls stage'.calls ∧ stage'.fuel = stage.fuel

/-- Sessions that make the same calls address by address, their root calls in one order and
their placement calls in one order, report the same deltas and leave snapshots equal by value,
or fail in the same way, whatever the interleaving and the allocator. -/
theorem session_reordered (s s' : Snapshot) (stages stages' : List Stage) (hs : SameByValue s s')
    (hstages : List.Forall₂ SameStage stages stages') :
    (session s stages).Related (fun r r' => r.1 = r'.1 ∧ SameByValue r.2 r'.2)
      (session s' stages') := by
  induction hstages generalizing s s' with
  | nil => exact ⟨rfl, hs⟩
  | @cons stage stage' rest rest' hstage _ ih =>
    obtain ⟨hcalls, hfuel⟩ := hstage
    unfold session
    rw [hfuel]
    refine Outcome.Related.bind
      (editAndCommit_same hs hcalls stage.heap stage'.heap stage.fuel) ?_
    intro c c' hc
    refine Outcome.Related.bind (ih c.snapshot c'.snapshot hc.1) ?_
    intro r r' hr
    refine ⟨?_, hr.2⟩
    rw [hr.1, hc.2]

end Sessions

section Example

def inTurns : List Stage :=
  [⟨[.put (addr .node 1) {}, .put (addr .node 2) {}, .root (addr .node 1),
      .updateIfLive (addr .node 2) (fun n => { n with text := "b" }), .root (addr .node 2)],
      ⟨0⟩, 2⟩,
    ⟨[.remove (addr .node 1), .put (addr .node 2) { text := "c" }], ⟨3⟩, 2⟩]

def oneAfterOther : List Stage :=
  [⟨[.put (addr .node 1) {}, .root (addr .node 1), .put (addr .node 2) {},
      .updateIfLive (addr .node 2) (fun n => { n with text := "b" }), .root (addr .node 2)],
      ⟨7⟩, 2⟩,
    ⟨[.put (addr .node 2) { text := "c" }, .remove (addr .node 1)], ⟨1⟩, 2⟩]

theorem same_inTurns : List.Forall₂ SameStage inTurns oneAfterOther := by
  refine List.Forall₂.cons ⟨⟨fun x => ?_, rfl, rfl⟩, rfl⟩
    (List.Forall₂.cons ⟨⟨fun x => ?_, rfl, rfl⟩, rfl⟩ List.Forall₂.nil)
  all_goals
    by_cases h₁ : addr .node 1 = x
    · subst h₁
      rfl
    · by_cases h₂ : addr .node 2 = x
      · subst h₂
        rfl
      · simp [Keyed.onKey, records, touched, h₁, h₂]

theorem session_reordered_inTurns :
    ∃ r, session (Snapshot.empty dom (rev 1)) inTurns = .done r ∧
      (session (Snapshot.empty dom (rev 1)) inTurns).Related
        (fun r r' => r.1 = r'.1 ∧ SameByValue r.2 r'.2)
        (session (Snapshot.empty dom (rev 1)) oneAfterOther) :=
  ⟨_, rfl, session_reordered _ _ _ _ (SameByValue.refl _) same_inTurns⟩

end Example

end CompositionIr.CallOrder
