import CompositionIr.ExactBase
import CompositionIr.Handles

/-!
What a caller of the C boundary may rely on, whatever the process and the calls do in
between. A handle answers for the snapshot or the delta it was made from until it is
released, no matter which other handles are; and the boxes in memory are exactly those the
caller has not released.
-/

namespace CompositionIr.HandleRuns

open Outcomes Transitions Addresses Records Placements Snapshots Deltas Commits
open SharedBoxes Handles

section Steps

variable {h h' : Host} {a : Action}

theorem dropRaw_eq_done {α : Type} {st st' : Store α} {ptr : ℕ}
    (hcall : dropRaw st ptr = .done st') :
    (ptr = 0 ∧ st' = st) ∨ (ptr ≠ 0 ∧ st.release ptr = some st') := by
  unfold dropRaw at hcall
  split at hcall
  · rename_i hnull
    exact Or.inl ⟨hnull, (Outcome.done.inj hcall).symm⟩
  · rename_i hnull
    split at hcall
    · cases hcall
    · rename_i st₁ hrel
      rw [Outcome.done.injEq] at hcall
      rw [← hcall]
      exact Or.inr ⟨hnull, hrel⟩

theorem run_dropRaw {α : Type} {st st' : Store α} {ptr : ℕ} (hcall : dropRaw st ptr = .done st') :
    Run SharedBoxes.Step st (dropped ptr) st' := by
  unfold dropped
  rcases dropRaw_eq_done hcall with ⟨hnull, hst⟩ | ⟨hnull, hrel⟩
  · rw [if_pos hnull, hst]
    exact Run.nil _
  · rw [if_neg hnull]
    exact Run.single (SharedBoxes.Step.release hrel)

theorem not_mem_dropped {α : Type} (dead ptr : ℕ) (value : α) :
    Call.intoRaw ptr value ∉ dropped dead := by
  unfold dropped
  split <;> simp

theorem retain_eq_done {st st' : Store Snapshot} {ptr new : ℕ}
    (hcall : cirSnapshotRetain st ptr new = .done st') : st.retain ptr new = some st' := by
  unfold cirSnapshotRetain at hcall
  split at hcall
  · cases hcall
  · rename_i st₁ hretain
    rw [hretain, Outcome.done.inj hcall]

theorem step_snapshots (hstep : Step h a h') :
    Run SharedBoxes.Step h.snapshots a.onSnapshots h'.snapshots := by
  cases hstep with
  | process _ _ | drop _ | abandon _ | share _ _ | unshare _ => exact Run.nil _
  | snapshotIntoRaw _ hnull hfresh => exact Run.single (SharedBoxes.Step.intoRaw hnull hfresh)
  | snapshotRetain hnull hfresh hcall =>
    exact Run.single (SharedBoxes.Step.retain hnull hfresh (retain_eq_done hcall))
  | snapshotRelease hcall => exact run_dropRaw hcall
  | deltaIntoRaw _ _ _ | deltaRelease _ => exact Run.nil _

theorem step_deltas (hstep : Step h a h') :
    Run SharedBoxes.Step h.deltas a.onDeltas h'.deltas := by
  cases hstep with
  | process _ _ | drop _ | abandon _ | share _ _ | unshare _ | snapshotIntoRaw _ _ _
  | snapshotRetain _ _ _ | snapshotRelease _ => exact Run.nil _
  | deltaIntoRaw _ hnull hfresh => exact Run.single (SharedBoxes.Step.intoRaw hnull hfresh)
  | deltaRelease hcall => exact run_dropRaw hcall

/-- A step leaves the process alone, is one of its steps or drops a builder. -/
theorem step_process (hstep : Step h a h') :
    h'.process = h.process ∨ (∃ b, Processes.Step h.process b h'.process) ∨
      ∃ b left right, h.process.builders = left ++ b :: right ∧
        h'.process = { h.process with builders := left ++ right } := by
  cases hstep with
  | process _ hstep => exact Or.inr (Or.inl ⟨_, hstep⟩)
  | abandon hb => exact Or.inr (Or.inr ⟨_, _, _, hb, rfl⟩)
  | drop _ | share _ _ | unshare _ | snapshotIntoRaw _ _ _ | snapshotRetain _ _ _
  | snapshotRelease _ | deltaIntoRaw _ _ _ | deltaRelease _ => exact Or.inl rfl

/-- What the process published, and which commits it made, is not forgotten. -/
theorem step_published (hstep : Step h a h') :
    (∀ s ∈ h.process.snapshots, s ∈ h'.process.snapshots) ∧
      ∀ q ∈ h.process.commits, q ∈ h'.process.commits := by
  rcases step_process hstep with heq | ⟨b, hb⟩ | ⟨_, _, _, _, heq⟩
  · rw [heq]
    exact ⟨fun _ hs => hs, fun _ hq => hq⟩
  · generalize h'.process = p at hb
    cases hb with
    | edit _ | call _ _ => exact ⟨fun _ hs => hs, fun _ hq => hq⟩
    | commit _ _ =>
      exact ⟨fun _ hs => List.mem_append_left _ hs, fun _ hq => List.mem_append_left _ hq⟩
  · rw [heq]
    exact ⟨fun _ hs => hs, fun _ hq => hq⟩

theorem step_coherent (hstep : Step h a h') (hp : Processes.Coherent h.process) :
    Processes.Coherent h'.process := by
  rcases step_process hstep with heq | ⟨b, hb⟩ | ⟨_, _, _, hb, heq⟩
  · rwa [heq]
  · exact Processes.step_coherent hb hp
  · obtain ⟨value, hp⟩ := hp
    rw [heq]
    refine ⟨value, fun records hheld => hp records ?_⟩
    rcases hheld with hs | ⟨d, hd, hrec⟩
    · exact Or.inl hs
    · exact Or.inr ⟨d, Processes.mem_of_mem_others hb hd, hrec⟩

theorem step_history {first : Snapshot} (hstep : Step h a h')
    (hp : Processes.History first h.process) : Processes.History first h'.process := by
  rcases step_process hstep with heq | ⟨b, hb⟩ | ⟨_, _, _, hb, heq⟩
  · rwa [heq]
  · exact Processes.step_history hb hp
  · rw [heq]
    exact ⟨hp.kept, fun d hd => hp.bases d (Processes.mem_of_mem_others hb hd), hp.commits,
      hp.published⟩

end Steps

/-- What the ledgers of a run say of the memory and of the process behind it. -/
structure Sound (domain : Domain) (revision : Revision) (labels : List Action) (h : Host) :
    Prop where
  coherent : Processes.Coherent h.process
  history : Processes.History (Snapshot.empty domain revision) h.process
  kept : ∀ s ∈ h.kept, s ∈ h.process.snapshots
  arcs : ∀ arc ∈ h.arcs, ∃ s ∈ h.process.snapshots, arc ∈ arcsOf s.records
  snapshots : h.snapshots.Counted ∧ Agrees h.snapshots (snapshotLedger labels)
  deltas : h.deltas.Counted ∧ Agrees h.deltas (deltaLedger labels)
  published : ∀ ptr serial s, (snapshotLedger labels).held ptr = some (serial, s) →
    s ∈ h.process.snapshots
  committed : ∀ ptr serial d, (deltaLedger labels).held ptr = some (serial, d) →
    ∃ q ∈ h.process.commits, q.2.delta = d

theorem snapshotLedger_snoc (labels : List Action) (a : Action) :
    snapshotLedger (labels ++ [a]) = (snapshotLedger labels).recordAll a.onSnapshots := by
  unfold snapshotLedger Ledger.recordAll
  rw [List.flatMap_append, List.foldl_append, List.flatMap_singleton]

theorem deltaLedger_snoc (labels : List Action) (a : Action) :
    deltaLedger (labels ++ [a]) = (deltaLedger labels).recordAll a.onDeltas := by
  unfold deltaLedger Ledger.recordAll
  rw [List.flatMap_append, List.foldl_append, List.flatMap_singleton]

section Runs

variable {domain : Domain} {revision : Revision} {labels : List Action} {h h' : Host} {a : Action}

theorem mem_arcsOf (records : RecordMap) (arc : Arc) :
    arc ∈ arcsOf records ↔ ∃ x, records.lookup x = some arc := by
  unfold arcsOf
  rw [List.mem_map]
  constructor
  · intro hfound
    obtain ⟨⟨x, _⟩, hr, rfl⟩ := hfound
    exact ⟨x, AList.mem_lookup_iff.mpr hr⟩
  · intro hfound
    obtain ⟨x, harc⟩ := hfound
    exact ⟨⟨x, arc⟩, AList.mem_lookup_iff.mp harc, rfl⟩

/-- What a step returns to the code is published. -/
theorem returned_published {p p' : Processes.Process} {b : Processes.Action}
    (hstep : Processes.Step p b p') : ∀ s ∈ returned b, s ∈ p'.snapshots := by
  intro s hs
  cases hstep with
  | edit _ | call _ _ => cases hs
  | commit _ _ => exact List.mem_append_right _ hs

theorem step_kept (hh : Sound domain revision labels h) (hstep : Step h a h') :
    ∀ s ∈ h'.kept, s ∈ h'.process.snapshots := by
  have hkeep := (step_published hstep).1
  intro s hs
  cases hstep with
  | @process b p _ hstep =>
    rcases List.mem_append.mp hs with hs | hs
    · exact returned_published hstep s hs
    · exact hkeep s (hh.kept s hs)
  | drop hkept => exact hh.kept s (Processes.mem_of_mem_others hkept hs)
  | abandon _ | share _ _ | unshare _ | snapshotIntoRaw _ _ _ | snapshotRetain _ _ _
  | snapshotRelease _ | deltaIntoRaw _ _ _ | deltaRelease _ => exact hh.kept s hs

theorem step_arcs (hh : Sound domain revision labels h) (hstep : Step h a h') :
    ∀ arc ∈ h'.arcs, ∃ s ∈ h'.process.snapshots, arc ∈ arcsOf s.records := by
  have hold : ∀ arc ∈ h.arcs, ∃ s ∈ h'.process.snapshots, arc ∈ arcsOf s.records := by
    intro arc harc
    obtain ⟨s, hs, hmem⟩ := hh.arcs arc harc
    exact ⟨s, (step_published hstep).1 s hs, hmem⟩
  intro arc harc
  cases hstep with
  | @share s x _ hs hget =>
    rcases List.mem_cons.mp harc with rfl | harc
    · have hlookup := (SubtreeComparison.get_eq_done s x _ hget).2
      exact ⟨s, hh.kept s hs, (mem_arcsOf _ _).mpr ⟨x, hlookup⟩⟩
    · exact hold arc harc
  | unshare hshared => exact hold arc (Processes.mem_of_mem_others hshared harc)
  | process _ _ | drop _ | abandon _ | snapshotIntoRaw _ _ _ | snapshotRetain _ _ _
  | snapshotRelease _ | deltaIntoRaw _ _ _ | deltaRelease _ => exact hold arc harc

/-- A handle after a step was one before, or the step handed its snapshot over. -/
theorem step_handles (hh : Sound domain revision labels h) (hstep : Step h a h') (ptr serial : ℕ)
    (s : Snapshot) (hheld : (snapshotLedger (labels ++ [a])).held ptr = some (serial, s)) :
    s ∈ h'.process.snapshots := by
  have hkeep := (step_published hstep).1
  rw [snapshotLedger_snoc] at hheld
  rcases recordAll_held hheld with ⟨other, hold⟩ | ⟨other, hmem⟩
  · exact hkeep s (hh.published other serial s hold)
  · cases hstep with
    | snapshotIntoRaw hs _ _ =>
      injection List.mem_singleton.mp hmem with _ hst
      rw [hst]
      exact hh.kept _ hs
    | snapshotRetain _ _ _ => cases List.mem_singleton.mp hmem
    | snapshotRelease _ => exact absurd hmem (not_mem_dropped _ other s)
    | process _ _ | drop _ | abandon _ | share _ _ | unshare _ | deltaIntoRaw _ _ _
    | deltaRelease _ => cases hmem

theorem step_handed (hh : Sound domain revision labels h) (hstep : Step h a h') (ptr serial : ℕ)
    (d : Delta) (hheld : (deltaLedger (labels ++ [a])).held ptr = some (serial, d)) :
    ∃ q ∈ h'.process.commits, q.2.delta = d := by
  have hkeep := (step_published hstep).2
  rw [deltaLedger_snoc] at hheld
  rcases recordAll_held hheld with ⟨other, hold⟩ | ⟨other, hmem⟩
  · obtain ⟨q, hq, hqd⟩ := hh.committed other serial d hold
    exact ⟨q, hkeep q hq, hqd⟩
  · cases hstep with
    | @deltaIntoRaw _ q hq _ _ =>
      injection List.mem_singleton.mp hmem with _ hqd
      exact ⟨q, hq, hqd.symm⟩
    | deltaRelease _ => exact absurd hmem (not_mem_dropped _ other d)
    | process _ _ | drop _ | abandon _ | share _ _ | unshare _ | snapshotIntoRaw _ _ _
    | snapshotRetain _ _ _ | snapshotRelease _ => cases hmem

theorem step_sound (hh : Sound domain revision labels h) (hstep : Step h a h') :
    Sound domain revision (labels ++ [a]) h' where
  coherent := step_coherent hstep hh.coherent
  history := step_history hstep hh.history
  kept := step_kept hh hstep
  arcs := step_arcs hh hstep
  snapshots := by
    rw [snapshotLedger_snoc]
    exact run_agrees (step_snapshots hstep) hh.snapshots.1 hh.snapshots.2
  deltas := by
    rw [deltaLedger_snoc]
    exact run_agrees (step_deltas hstep) hh.deltas.1 hh.deltas.2
  published := step_handles hh hstep
  committed := step_handed hh hstep

theorem start_sound (domain : Domain) (revision : Revision) :
    Sound domain revision [] (start domain revision) where
  coherent := Processes.run_coherent (Run.nil (Processes.start domain revision))
  history := Processes.run_history (Run.nil (Processes.start domain revision))
  kept := fun _ hs => hs
  arcs := fun _ harc => absurd harc List.not_mem_nil
  snapshots := ⟨counted_empty, agrees_empty⟩
  deltas := ⟨counted_empty, agrees_empty⟩
  published := fun _ _ _ hheld => by cases hheld
  committed := fun _ _ _ hheld => by cases hheld

theorem run_sound (hrun : Reaches domain revision labels h) : Sound domain revision labels h := by
  induction hrun with
  | nil => exact start_sound domain revision
  | snoc _ hstep ih => exact step_sound ih hstep

end Runs

section Answers

structure Answers (st : Store Snapshot) (ptr : ℕ) (s : Snapshot) : Prop where
  version : cirSnapshotVersion st ptr = .done s.version
  contains : ∀ a, cirSnapshotContains st ptr a = .done (s.contains a)
  node : ∀ a, a.domain = s.version.domain →
    cirSnapshotNode st ptr a = .done ((s.records.lookup a).map Arc.serial)
  foreign : ∀ a, a.domain ≠ s.version.domain →
    cirSnapshotNode st ptr a = .trap (.panic .foreignDomain)
  roots : cirSnapshotRoots st ptr = .done s.roots
  len : cirSnapshotLen st ptr = .done s.len
  addresses : ∀ out cap, cirSnapshotAddresses st ptr out cap =
    .done (s.len, written (s.addresses.take cap) out)
  rect : ∀ a out, cirSnapshotRect st ptr a out =
    .done ((s.placement.rect a).isSome, (s.placement.rect a).getD out)
  retain : ∀ new, ∃ st', cirSnapshotRetain st ptr new = .done st'
  release : ∃ st', cirSnapshotRelease st ptr = .done st'

/-- Every call on the pointer reads freed memory, the release of null apart. -/
structure Dangling (st : Store Snapshot) (ptr : ℕ) : Prop where
  version : cirSnapshotVersion st ptr = .trap .dangling
  contains : ∀ a, cirSnapshotContains st ptr a = .trap .dangling
  node : ∀ a, cirSnapshotNode st ptr a = .trap .dangling
  roots : cirSnapshotRoots st ptr = .trap .dangling
  len : cirSnapshotLen st ptr = .trap .dangling
  addresses : ∀ out cap, cirSnapshotAddresses st ptr out cap = .trap .dangling
  rect : ∀ a out, cirSnapshotRect st ptr a out = .trap .dangling
  retain : ∀ new, cirSnapshotRetain st ptr new = .trap .dangling
  release : cirSnapshotRelease st ptr = if ptr = 0 then .done st else .trap .dangling

structure AnswersDelta (st : Store Delta) (ptr : ℕ) (d : Delta) : Prop where
  len : cirDeltaLen st ptr = .done d.diffs.length
  entries : cirDeltaEntries st ptr = .done d.diffs
  appliesTo : ∀ base, cirDeltaAppliesTo st ptr base = .done (d.before == base)
  release : ∃ st', cirDeltaRelease st ptr = .done st'

structure DanglingDelta (st : Store Delta) (ptr : ℕ) : Prop where
  len : cirDeltaLen st ptr = .trap .dangling
  entries : cirDeltaEntries st ptr = .trap .dangling
  appliesTo : ∀ base, cirDeltaAppliesTo st ptr base = .trap .dangling
  release : cirDeltaRelease st ptr = if ptr = 0 then .done st else .trap .dangling

variable {α : Type} {st : Store α} {l : Ledger α} {ptr serial : ℕ} {value : α}

theorem borrow_held (hag : Agrees st l) (hheld : l.held ptr = some (serial, value)) :
    borrow st ptr = .done value := by
  have hderef := deref_eq hag ptr
  rw [hheld, Option.map_some] at hderef
  unfold borrow
  rw [hderef]

theorem borrow_dangling (hag : Agrees st l) (hheld : l.held ptr = none) :
    borrow st ptr = .trap .dangling := by
  have hderef := deref_eq hag ptr
  rw [hheld, Option.map_none] at hderef
  unfold borrow
  rw [hderef]

theorem lookups_none (hst : st.Counted) (hag : Agrees st l) (hheld : l.held ptr = none) :
    st.boxes.lookup ptr = none :=
  AList.lookup_eq_none.mpr (notMem_of_held hst hag hheld)

theorem exists_dropRaw (hag : Agrees st l) (hheld : l.held ptr = some (serial, value)) :
    ∃ st', dropRaw st ptr = .done st' := by
  obtain ⟨held, hbox, hshared, _⟩ := lookup_of_held hag hheld
  obtain ⟨st', hst'⟩ := exists_release hbox hshared
  unfold dropRaw
  split
  · exact ⟨st, rfl⟩
  · exact ⟨st', by rw [hst']⟩

theorem dropRaw_dangling (hst : st.Counted) (hag : Agrees st l) (hheld : l.held ptr = none) :
    dropRaw st ptr = if ptr = 0 then .done st else .trap .dangling := by
  have hrel : st.release ptr = none := by
    unfold Store.release
    rw [lookups_none hst hag hheld]
  unfold dropRaw
  rw [hrel]

theorem answers_of_held {st : Store Snapshot} {l : Ledger Snapshot} {s : Snapshot}
    (hag : Agrees st l) (hheld : l.held ptr = some (serial, s)) : Answers st ptr s := by
  have hborrow := borrow_held hag hheld
  constructor
  · unfold cirSnapshotVersion
    rw [hborrow]
    rfl
  · intro a
    unfold cirSnapshotContains
    rw [hborrow]
    rfl
  · intro a ha
    unfold cirSnapshotNode
    rw [hborrow, Outcome.done_bind]
    unfold Snapshot.get
    rw [if_pos ha]
    rfl
  · intro a ha
    unfold cirSnapshotNode
    rw [hborrow, Outcome.done_bind]
    unfold Snapshot.get
    rw [if_neg ha]
    rfl
  · unfold cirSnapshotRoots
    rw [hborrow]
    rfl
  · unfold cirSnapshotLen
    rw [hborrow]
    rfl
  · intro out cap
    unfold cirSnapshotAddresses
    rw [hborrow]
    rfl
  · intro a out
    unfold cirSnapshotRect
    rw [hborrow, Outcome.done_bind]
    rcases s.placement.rect a with _ | r <;> rfl
  · intro new
    obtain ⟨held, hbox, hshared, _⟩ := lookup_of_held hag hheld
    obtain ⟨st', hst'⟩ := exists_retain new hbox hshared
    refine ⟨st', ?_⟩
    unfold cirSnapshotRetain
    rw [hst']
  · exact exists_dropRaw hag hheld

theorem dangling_of_not_held {st : Store Snapshot} {l : Ledger Snapshot} (hst : st.Counted)
    (hag : Agrees st l) (hheld : l.held ptr = none) : Dangling st ptr := by
  have hborrow := borrow_dangling hag hheld
  constructor
  · unfold cirSnapshotVersion
    rw [hborrow, Outcome.trap_bind]
  · intro a
    unfold cirSnapshotContains
    rw [hborrow, Outcome.trap_bind]
  · intro a
    unfold cirSnapshotNode
    rw [hborrow, Outcome.trap_bind]
  · unfold cirSnapshotRoots
    rw [hborrow, Outcome.trap_bind]
  · unfold cirSnapshotLen
    rw [hborrow, Outcome.trap_bind]
  · intro out cap
    unfold cirSnapshotAddresses
    rw [hborrow, Outcome.trap_bind]
  · intro a out
    unfold cirSnapshotRect
    rw [hborrow, Outcome.trap_bind]
  · intro new
    have hretain : st.retain ptr new = none := by
      unfold Store.retain
      rw [lookups_none hst hag hheld]
    unfold cirSnapshotRetain
    rw [hretain]
  · exact dropRaw_dangling hst hag hheld

theorem answersDelta_of_held {st : Store Delta} {l : Ledger Delta} {d : Delta}
    (hag : Agrees st l) (hheld : l.held ptr = some (serial, d)) : AnswersDelta st ptr d := by
  have hborrow := borrow_held hag hheld
  constructor
  · unfold cirDeltaLen
    rw [hborrow]
    rfl
  · unfold cirDeltaEntries
    rw [hborrow]
    rfl
  · intro base
    unfold cirDeltaAppliesTo
    rw [hborrow]
    rfl
  · exact exists_dropRaw hag hheld

theorem danglingDelta_of_not_held {st : Store Delta} {l : Ledger Delta} (hst : st.Counted)
    (hag : Agrees st l) (hheld : l.held ptr = none) : DanglingDelta st ptr := by
  have hborrow := borrow_dangling hag hheld
  constructor
  · unfold cirDeltaLen
    rw [hborrow, Outcome.trap_bind]
  · unfold cirDeltaEntries
    rw [hborrow, Outcome.trap_bind]
  · intro base
    unfold cirDeltaAppliesTo
    rw [hborrow, Outcome.trap_bind]
  · exact dropRaw_dangling hst hag hheld

end Answers

/-- Whatever was called before, a pointer the caller still holds answers every call for the
snapshot or the delta it was made from, one that the process published; on any other pointer
every call of either kind reads freed memory. -/
theorem handles_answer (domain : Domain) (revision : Revision) (labels : List Action) (h : Host)
    (hrun : Reaches domain revision labels h) (ptr : ℕ) :
    (∀ serial s, (snapshotLedger labels).held ptr = some (serial, s) →
      s ∈ h.process.snapshots ∧ Answers h.snapshots ptr s) ∧
    ((snapshotLedger labels).held ptr = none → Dangling h.snapshots ptr) ∧
    (∀ serial d, (deltaLedger labels).held ptr = some (serial, d) →
      (∃ q ∈ h.process.commits, q.2.delta = d) ∧ AnswersDelta h.deltas ptr d) ∧
    ((deltaLedger labels).held ptr = none → DanglingDelta h.deltas ptr) := by
  have hsound := run_sound hrun
  refine ⟨?_, ?_, ?_, ?_⟩
  · intro serial s hheld
    exact ⟨hsound.published ptr serial s hheld, answers_of_held hsound.snapshots.2 hheld⟩
  · exact dangling_of_not_held hsound.snapshots.1 hsound.snapshots.2
  · intro serial d hheld
    exact ⟨hsound.committed ptr serial d hheld, answersDelta_of_held hsound.deltas.2 hheld⟩
  · exact danglingDelta_of_not_held hsound.deltas.1 hsound.deltas.2

/-- A store holds what a ledger stands on, counts it right, and holds nothing else. -/
structure HoldsExactly {α : Type} (st : Store α) (l : Ledger α) : Prop where
  allocated : ∀ serial, (st.shared.lookup serial).isSome = true ↔
    ∃ ptr value, l.held ptr = some (serial, value)
  count : ∀ serial held, st.shared.lookup serial = some held →
    held.count = {ptr | ∃ value, l.held ptr = some (serial, value)}.ncard
  empty : (∀ ptr, l.held ptr = none) → st.shared = ∅ ∧ st.boxes = ∅

theorem holdsExactly {α : Type} {st : Store α} {l : Ledger α} (hst : st.Counted)
    (hag : Agrees st l) : HoldsExactly st l where
  allocated := allocated_iff hst hag
  count := fun _ _ hheld => count_eq_ncard hst hag hheld
  empty := nothing_left hst hag

/-- An allocation is in memory as long as the caller holds a pointer that was made from it:
none goes before its last release, and none stays when everything was released. -/
theorem memory_is_what_is_held (domain : Domain) (revision : Revision) (labels : List Action)
    (h : Host) (hrun : Reaches domain revision labels h) :
    HoldsExactly h.snapshots (snapshotLedger labels) ∧
      HoldsExactly h.deltas (deltaLedger labels) := by
  have hsound := run_sound hrun
  exact ⟨holdsExactly hsound.snapshots.1 hsound.snapshots.2,
    holdsExactly hsound.deltas.1 hsound.deltas.2⟩

section Progress

variable {domain : Domain} {revision : Revision} {labels : List Action} {h : Host}

/-- Retaining a handle the caller holds goes on, at any address not in use. -/
theorem exists_retain_step (hsound : Sound domain revision labels h) {ptr new serial : ℕ}
    {s : Snapshot} (hheld : (snapshotLedger labels).held ptr = some (serial, s)) (hnull : new ≠ 0)
    (hfresh : (snapshotLedger labels).held new = none) :
    ∃ st, Handles.Step h (.snapshotRetain ptr new) { h with snapshots := st } := by
  obtain ⟨st, hst⟩ := (answers_of_held hsound.snapshots.2 hheld).retain new
  have hnew := notMem_of_held hsound.snapshots.1 hsound.snapshots.2 hfresh
  exact ⟨st, Step.snapshotRetain hnull hnew hst⟩

theorem exists_release_step (hsound : Sound domain revision labels h) {ptr serial : ℕ}
    {s : Snapshot} (hheld : (snapshotLedger labels).held ptr = some (serial, s)) :
    ∃ st, Handles.Step h (.snapshotRelease ptr) { h with snapshots := st } := by
  obtain ⟨st, hst⟩ := (answers_of_held hsound.snapshots.2 hheld).release
  exact ⟨st, Step.snapshotRelease hst⟩

theorem exists_deltaRelease_step (hsound : Sound domain revision labels h) {ptr serial : ℕ}
    {d : Delta} (hheld : (deltaLedger labels).held ptr = some (serial, d)) :
    ∃ st, Handles.Step h (.deltaRelease ptr) { h with deltas := st } := by
  obtain ⟨st, hst⟩ := (answersDelta_of_held hsound.deltas.2 hheld).release
  exact ⟨st, Step.deltaRelease hst⟩

/-- The steps of a process are steps of its host, as long as the code drops nothing. -/
theorem run_process {p p' : Processes.Process} {steps : List Processes.Action}
    (hrun : Run Processes.Step p steps p') (h : Host) (hp : h.process = p)
    (hkept : ∀ s ∈ p.snapshots, s ∈ h.kept) :
    ∃ kept, (∀ s ∈ p'.snapshots, s ∈ kept) ∧
      Run Handles.Step h (steps.map .process) { h with process := p', kept := kept } := by
  induction hrun with
  | nil =>
    subst hp
    exact ⟨h.kept, hkept, Run.nil h⟩
  | @snoc t u steps b _ hstep ih =>
    obtain ⟨kept, hall, hrun⟩ := ih
    have hown : ∀ s, b = .edit s → s ∈ kept := by
      intro s hb
      subst hb
      cases hstep with
      | edit hs => exact hall s hs
    refine ⟨returned b ++ kept, fun s hs => ?_, ?_⟩
    · cases hstep with
      | edit _ | call _ _ => exact hall s hs
      | commit _ _ =>
        rcases List.mem_append.mp hs with hs | hs
        · exact List.mem_append_right _ (hall s hs)
        · exact List.mem_append_left _ hs
    · rw [List.map_append, List.map_singleton]
      exact hrun.snoc (Step.process hown hstep)

/-- Steps that neither make nor drop a handle leave no trace in the ledgers. -/
theorem ledgers_silent {silent : List Action}
    (hsilent : ∀ a ∈ silent, a.onSnapshots = [] ∧ a.onDeltas = []) (before after : List Action) :
    snapshotLedger (before ++ silent ++ after) = snapshotLedger (before ++ after) ∧
      deltaLedger (before ++ silent ++ after) = deltaLedger (before ++ after) := by
  have hsnapshots : silent.flatMap Action.onSnapshots = [] :=
    List.flatMap_eq_nil_iff.mpr (fun a ha => (hsilent a ha).1)
  have hdeltas : silent.flatMap Action.onDeltas = [] :=
    List.flatMap_eq_nil_iff.mpr (fun a ha => (hsilent a ha).2)
  unfold snapshotLedger deltaLedger
  simp only [List.flatMap_append, hsnapshots, hdeltas, List.append_nil, and_self]

theorem ledgers_process (steps : List Processes.Action) (calls : List Action) :
    snapshotLedger (steps.map .process ++ calls) = snapshotLedger calls ∧
      deltaLedger (steps.map .process ++ calls) = deltaLedger calls := by
  refine @ledgers_silent (steps.map .process) (fun a ha => ?_) [] calls
  obtain ⟨_, _, rfl⟩ := List.mem_map.mp ha
  exact ⟨rfl, rfl⟩

end Progress

section Example

/-- A snapshot and its delta handed over, the delta twice. The snapshot is retained once more;
its first handle and the second one on the delta are released. -/
def handedOver (d : Delta) : List Action :=
  [.snapshotIntoRaw 8 (ExactBase.written 0 "a"), .deltaIntoRaw 24 d, .deltaIntoRaw 32 d,
    .snapshotRetain 8 16, .snapshotRelease 8, .deltaRelease 32]

/-- What the caller holds after that. -/
theorem held_handedOver (d : Delta) :
    (∀ ptr, (snapshotLedger (handedOver d)).held ptr =
      if ptr = 16 then some (0, ExactBase.written 0 "a") else none) ∧
    ∀ ptr, (deltaLedger (handedOver d)).held ptr = if ptr = 24 then some (0, d) else none := by
  refine ⟨fun ptr => ?_, fun ptr => ?_⟩
  · show Function.update (Function.update (Function.update (fun _ : ℕ => none) 8
      (some (0, ExactBase.written 0 "a"))) 16 (some (0, ExactBase.written 0 "a"))) 8 none ptr = _
    simp only [Function.update_apply]
    split_ifs <;> first | rfl | omega
  · show Function.update (Function.update (Function.update (fun _ : ℕ => none) 24
      (some (0, d))) 32 (some (1, d))) 32 none ptr = _
    simp only [Function.update_apply]
    split_ifs <;> first | rfl | omega

theorem reaches_snoc {steps : List Processes.Action} {calls : List Action} {a : Action}
    {h h' : Host} (hrun : Reaches dom (rev 1) (steps.map .process ++ calls) h)
    (hstep : Handles.Step h a h') :
    Reaches dom (rev 1) (steps.map .process ++ (calls ++ [a])) h' := by
  rw [← List.append_assoc]
  exact hrun.snoc hstep

theorem reaches_handedOver : ∃ (steps : List Processes.Action) (d : Delta) (h : Host),
    Reaches dom (rev 1) (steps.map .process ++ handedOver d) h := by
  obtain ⟨steps, d, hprocess⟩ := ExactBase.reaches_written
  obtain ⟨kept, hkept, hrun⟩ := run_process hprocess (start dom (rev 1)) rfl (fun _ hs => hs)
  have hgive := hrun.snoc (@Step.snapshotIntoRaw _ 8 (ExactBase.written 0 "a")
    (hkept _ (by simp)) (by decide) (AList.notMem_empty 8))
  have hdelta := reaches_snoc hgive (@Step.deltaIntoRaw _ 24
    (ExactBase.writing 0 "a", ⟨ExactBase.written 0 "a", d⟩) (by simp) (by decide)
    (AList.notMem_empty 24))
  have hfresh : 32 ∉ (deltaIntoRaw Store.empty 24 d).boxes := by
    unfold deltaIntoRaw Store.intoRaw
    rw [AList.mem_insert]
    exact not_or.mpr ⟨by decide, AList.notMem_empty 32⟩
  have hagain := reaches_snoc hdelta (@Step.deltaIntoRaw _ 32
    (ExactBase.writing 0 "a", ⟨ExactBase.written 0 "a", d⟩) (by simp) (by decide) hfresh)
  have hledgers := ledgers_process steps
  obtain ⟨_, hstep⟩ := @exists_retain_step _ _ _ _ (run_sound hagain) 8 16 0
    (ExactBase.written 0 "a") (by rw [(hledgers _).1]; rfl) (by decide)
    (by rw [(hledgers _).1]; rfl)
  have hretain := reaches_snoc hagain hstep
  obtain ⟨_, hstep⟩ := @exists_release_step _ _ _ _ (run_sound hretain) 8 0
    (ExactBase.written 0 "a") (by rw [(hledgers _).1]; rfl)
  have hrelease := reaches_snoc hretain hstep
  obtain ⟨_, hstep⟩ := @exists_deltaRelease_step _ _ _ _ (run_sound hrelease) 32 1 d
    (by rw [(hledgers _).2]; rfl)
  exact ⟨steps, d, _, reaches_snoc hrelease hstep⟩

/-- The second handle on the snapshot answers and the first is not to be used again; of the
two on the delta it is the other way round. -/
theorem handles_answer_handedOver : ∃ labels h d, Reaches dom (rev 1) labels h ∧
    Answers h.snapshots 16 (ExactBase.written 0 "a") ∧ Dangling h.snapshots 8 ∧
    AnswersDelta h.deltas 24 d ∧ DanglingDelta h.deltas 32 := by
  obtain ⟨steps, d, h, hrun⟩ := reaches_handedOver
  have hans := handles_answer dom (rev 1) _ h hrun
  rw [(ledgers_process steps _).1, (ledgers_process steps _).2] at hans
  refine ⟨_, h, d, hrun, ?_, ?_, ?_, ?_⟩
  · exact ((hans 16).1 0 _ rfl).2
  · exact (hans 8).2.1 rfl
  · exact ((hans 24).2.2.1 0 d rfl).2
  · exact (hans 32).2.2.2 rfl

/-- Each allocation is in memory with the one handle left on it, or gone with its last; once
those two are released, nothing is left. -/
theorem nothing_left_handedOver : ∃ labels h, Reaches dom (rev 1) labels h ∧
    (h.snapshots.shared.lookup 0).map Shared.count = some 1 ∧
    (h.deltas.shared.lookup 0).isSome = true ∧ (h.deltas.shared.lookup 1).isSome = false ∧
    ∃ h', Run Handles.Step h [.snapshotRelease 16, .deltaRelease 24] h' ∧
      h'.snapshots.shared = ∅ ∧ h'.deltas.shared = ∅ := by
  obtain ⟨steps, d, h, hrun⟩ := reaches_handedOver
  have hledgers := ledgers_process steps
  obtain ⟨hheld, hheldDelta⟩ := held_handedOver d
  have hexact := memory_is_what_is_held dom (rev 1) _ h hrun
  rw [(hledgers _).1, (hledgers _).2] at hexact
  obtain ⟨st₁, hfirst⟩ := @exists_release_step _ _ _ _ (run_sound hrun) 16 0
    (ExactBase.written 0 "a") (by rw [(hledgers _).1]; rfl)
  obtain ⟨st₂, hsecond⟩ := @exists_deltaRelease_step _ _ _ _ (run_sound (reaches_snoc hrun hfirst))
    24 0 d (by rw [(hledgers _).2]; rfl)
  have hempty := memory_is_what_is_held dom (rev 1) _ _
    (reaches_snoc (reaches_snoc hrun hfirst) hsecond)
  rw [(hledgers _).1, (hledgers _).2] at hempty
  refine ⟨_, h, hrun, ?_, ?_, ?_, _, (Run.single hfirst).snoc hsecond, ?_, ?_⟩
  · obtain ⟨held, hlookup⟩ := Option.isSome_iff_exists.mp
      ((hexact.1.allocated 0).mpr ⟨16, _, hheld 16⟩)
    have hone : {ptr | ∃ value, (snapshotLedger (handedOver d)).held ptr = some (0, value)} =
        {16} := by
      ext ptr
      rw [Set.mem_ofPred_eq, Set.mem_singleton_iff, hheld]
      split_ifs <;> simp_all
    rw [hlookup, Option.map_some, hexact.1.count 0 held hlookup, hone, Set.ncard_singleton]
  · exact (hexact.2.allocated 0).mpr ⟨24, d, hheldDelta 24⟩
  · rw [Bool.eq_false_iff]
    intro hsome
    obtain ⟨ptr, value, hptr⟩ := (hexact.2.allocated 1).mp hsome
    rw [hheldDelta] at hptr
    split_ifs at hptr
    cases hptr
  · refine (hempty.1.empty (fun ptr => ?_)).1
    show Function.update (snapshotLedger (handedOver d)).held 16 none ptr = none
    rw [Function.update_apply, hheld]
    split_ifs <;> rfl
  · refine (hempty.2.empty (fun ptr => ?_)).1
    show Function.update (deltaLedger (handedOver d)).held 24 none ptr = none
    rw [Function.update_apply, hheldDelta]
    split_ifs <;> rfl

end Example

end CompositionIr.HandleRuns
