import CompositionIr.CommitTermination
import CompositionIr.PlacementReplay

/-!
Candidates that answer every query as their base does. The records are compared by
value, but the placement by the lists it is stored in: any placing or moving that is not
undone by a reset and the same calls over again is published, whatever it comes to. The
comparison itself answers only over own addresses and children graphs without cycles.
-/

namespace CompositionIr.CanonicalNoOps

open Outcomes ChildGraphs Transitions Addresses Records Placements Snapshots Deltas Commits
open PublishedStates SubtreeComparison DeltaSpec CommitSpec CommitTermination Streaming
open PlacementReplay

structure SameAnswers (s : Snapshot) (b : SnapshotBuilder) : Prop where
  records : ∀ x, (b.records.lookup x).map Arc.node = (s.records.lookup x).map Arc.node
  roots : b.roots = s.roots
  rect : ∀ x, b.placement.rect x = s.placement.rect x

def PublishesNothing (s : Snapshot) (b : SnapshotBuilder) : Prop :=
  ∃ fuel c, commit b fuel = .done c ∧ c.snapshot.version = s.version ∧
    c.delta = ⟨s.version, s.version, []⟩

/-- The calls leave the placement stored as it was: none resets, places or moves, or
after the last reset they place and move just what was stored. -/
def RestoresPlacement (p : Placement) (edits : List Edit) : Prop :=
  (∀ e ∈ edits, isReset e = false ∧ boxOf e = none ∧ moveOf e = none) ∨
    ((∃ e ∈ edits, isReset e = true) ∧ (sinceReset edits).filterMap boxOf = p.boxes ∧
      (sinceReset edits).filterMap moveOf = p.translations)

theorem foldl_placed_eq_iff (p : Placement) (edits : List Edit) :
    edits.foldl placed p = p ↔ RestoresPlacement p edits := by
  unfold RestoresPlacement
  rcases sinceReset_cases edits with ⟨hnone, _⟩ | ⟨before, hsplit⟩
  · have hno : ¬ ∃ e ∈ edits, isReset e = true := by
      rintro ⟨e, he, hreset⟩
      rw [hnone e he] at hreset
      cases hreset
    rw [foldl_placed edits hnone p, or_iff_left (fun h => hno h.1)]
    have hsame : (⟨p.boxes ++ edits.filterMap boxOf, p.translations ++ edits.filterMap moveOf⟩ :
        Placement) = p ↔ edits.filterMap boxOf = [] ∧ edits.filterMap moveOf = [] := by
      cases p
      simp
    rw [hsame, List.filterMap_eq_nil_iff, List.filterMap_eq_nil_iff, ← forall₂_and]
    exact forall₂_congr (fun e he => (and_iff_right (hnone e he)).symm)
  · have hreset : ∃ e ∈ edits, isReset e = true :=
      ⟨.resetPlacement, by rw [hsplit]; simp, rfl⟩
    have hsince : edits.foldl placed p = (sinceReset edits).foldl placed Placement.empty := by
      calc edits.foldl placed p
          = (before ++ .resetPlacement :: sinceReset edits).foldl placed p := by rw [← hsplit]
        _ = _ := by rw [List.foldl_append, List.foldl_cons, placed]
    have hquiet : ¬ ∀ e ∈ edits, isReset e = false ∧ boxOf e = none ∧ moveOf e = none := by
      intro hall
      obtain ⟨e, he, hreset⟩ := hreset
      rw [(hall e he).1] at hreset
      cases hreset
    rw [hsince, foldl_placed _ (not_isReset_of_mem edits), or_iff_right hquiet,
      and_iff_right hreset]
    cases p
    simp [Placement.empty]

section SameRecords

variable {s t : Snapshot}

/-- A comparison that lists nothing found every tree of the base equal. -/
theorem sub_true_of_diffsFrom_nil (sub : Address → Eval Bool) (l : List Address)
    (h : diffsFrom sub s t l = .done []) : ∀ x ∈ l, sub x = .done true := by
  induction l with
  | nil => simp
  | cons x rest ih =>
    obtain ⟨e, out, he, hout, hnil⟩ := diffsFrom_cons_eq_done x rest [] h
    obtain ⟨hnone, hrest⟩ := List.append_eq_nil_iff.mp hnil.symm
    rw [Option.toList_eq_nil_iff] at hnone
    rw [hnone] at he
    intro y hy
    rcases List.mem_cons.mp hy with hy | hy
    · rw [hy]
      unfold diffOf at he
      obtain ⟨q, hq, he⟩ := (Outcome.bind_eq_done _ _ _).mp he
      cases q with
      | true => exact hq
      | false =>
        exfalso
        obtain ⟨a, _, he⟩ := (Outcome.bind_eq_done _ _ _).mp he
        cases a with
        | none => cases he
        | some a =>
          obtain ⟨b, _, he⟩ := (Outcome.bind_eq_done _ _ _).mp he
          obtain ⟨d, _, he⟩ := (Outcome.bind_eq_done _ _ _).mp he
          cases d <;> cases he
    · rw [hrest] at hout
      exact ih hout y hy

theorem equal_acc {domain : Domain} {before after : RecordMap} {x : Address}
    (h : Equal domain before after x) :
    Acc (fun c x => Child kids (state before) x c) x := by
  induction h with
  | absent _ hb _ =>
    refine Acc.intro _ (fun c hc => ?_)
    obtain ⟨arc, harc, _⟩ := (child_iff _ _ _).mp hc
    rw [hb] at harc
    cases harc
  | live _ hb _ _ _ ih =>
    refine Acc.intro _ (fun c hc => ?_)
    obtain ⟨arc, harc, hmem⟩ := (child_iff _ _ _).mp hc
    rw [hb, Option.some.injEq] at harc
    rw [← harc] at hmem
    exact ih c hmem

/-- Where every record of the base is the root of a finite tree of own addresses, the base
holds own addresses only and has no cycle. -/
theorem own_acyclic_of_equal
    (h : ∀ x ∈ s.addresses, Equal s.version.domain s.records t.records x) :
    OwnAddresses s ∧ AcyclicChildren s := by
  refine ⟨⟨fun x hx => equal_own (h x hx), fun x arc harc c hc => ?_⟩, fun x hcycle => ?_⟩
  · have hx := h x ((mem_addresses s x).mpr ⟨arc, harc⟩)
    cases hx with
    | absent _ hb _ =>
      rw [hb] at harc
      cases harc
    | live _ hb _ _ hkids =>
      rw [hb, Option.some.injEq] at harc
      rw [← harc] at hc
      exact equal_own (hkids c hc)
  · have hlive : x ∈ s.addresses := by
      obtain ⟨c, hc, _⟩ := Relation.TransGen.head'_iff.mp hcycle
      obtain ⟨arc, harc, _⟩ := (child_iff _ _ _).mp hc
      exact (mem_addresses s x).mpr ⟨arc, harc⟩
    exact not_acc_of_cycle _ x hcycle (equal_acc (h x hlive))

/-- Between snapshots that show the same records the comparison comes to its end exactly
over own addresses without cycles. -/
theorem diffsBetween_nil_iff (h : state s.records = state t.records)
    (hdom : s.version.domain = t.version.domain) :
    (∃ fuel, diffsBetween s t fuel = .done []) ↔ OwnAddresses s ∧ AcyclicChildren s := by
  constructor
  · intro hnil
    obtain ⟨fuel, hnil⟩ := hnil
    refine own_acyclic_of_equal (t := t) (fun x hx => (equal_iff hdom x).mp ⟨fuel, ?_⟩)
    exact sub_true_of_diffsFrom_nil _ _ hnil x ((mem_scanned s t x).mpr (Or.inl hx))
  · intro hs
    obtain ⟨hown, hac⟩ := hs
    obtain ⟨diffs, hdiffs⟩ := diffsBetween_done hown (ownAddresses_congr h hdom hown) hac hdom
      (s.len + 1) (by omega)
    refine ⟨s.len + 1, ?_⟩
    rw [hdiffs, diffsBetween_nil h hdom _ diffs hdiffs]

end SameRecords

/-- A commit publishes nothing exactly when there is a next revision, the comparison of
the base with the candidate comes to its end with nothing listed, and the placement is
stored as in the base. -/
theorem publishesNothing_iff (b : SnapshotBuilder) :
    PublishesNothing b.base b ↔
      ∃ revision, nextRevision b.base.version.revision = .done revision ∧
        (∃ fuel, diffsBetween b.base (candidate b revision) fuel = .done []) ∧
        b.placement = b.base.placement := by
  constructor
  · intro h
    obtain ⟨fuel, c, hcommit, hversion, hdelta⟩ := h
    obtain ⟨revision, diffs, hnext, hdiffs, ⟨hun, hc⟩ | ⟨_, hc⟩⟩ := commit_cases b fuel c hcommit
    · exact ⟨revision, hnext, ⟨fuel, by rw [hdiffs, hun.1]⟩, hun.2⟩
    · exfalso
      rw [hc] at hversion
      exact nextRevision_ne _ _ hnext (congrArg SnapshotVersion.revision hversion)
  · intro h
    obtain ⟨revision, hnext, ⟨fuel, hdiffs⟩, hplacement⟩ := h
    refine ⟨fuel, ⟨b.base, ⟨b.base.version, b.base.version, []⟩⟩, ?_, rfl, rfl⟩
    unfold commit
    rw [hnext, Outcome.done_bind]
    change (diffsBetween b.base (candidate b revision) fuel >>= _) = _
    rw [hdiffs, Outcome.done_bind]
    exact if_pos (by simpa [candidate] using hplacement)

/-- Calls after which the candidate answers every query as the base publish nothing
exactly when they also leave the placement stored as it was, the base is not at the last
revision, and it holds own addresses only and no cycle. -/
theorem canonical_no_op_iff (s : Snapshot) (edits : List Edit) (heap heap' : Heap)
    (b : SnapshotBuilder) (hedits : Edit.applyAll edits s.edit heap = .done (b, heap'))
    (hsame : SameAnswers s b) :
    PublishesNothing s b ↔
      RestoresPlacement s.placement edits ∧ s.version.revision.value ≠ NonZeroU64.max ∧
        OwnAddresses s ∧ AcyclicChildren s := by
  have hbase : b.base = s := applyAll_base edits s.edit b heap heap' hedits
  have hplacement : b.placement = s.placement ↔ RestoresPlacement s.placement edits := by
    rw [applyAll_placement edits s.edit b heap heap' hedits]
    exact foldl_placed_eq_iff s.placement edits
  have hstate : state s.records = state b.records :=
    funext (fun x => graph_congr _ _ _ x (hsame.records x).symm)
  subst hbase
  rw [publishesNothing_iff, ← hplacement]
  constructor
  · intro h
    obtain ⟨revision, hnext, hnil, hstored⟩ := h
    refine ⟨hstored, fun hmax => ?_, ?_⟩
    · rw [(nextRevision_eq_trap_iff _ _).mpr ⟨hmax, rfl⟩] at hnext
      cases hnext
    · exact (diffsBetween_nil_iff (t := candidate b revision) hstate
        (candidate_domain b revision)).mp hnil
  · intro h
    obtain ⟨hstored, hmax, hown⟩ := h
    obtain ⟨revision, hnext⟩ := (nextRevision_cases _).resolve_right hmax
    exact ⟨revision, hnext, (diffsBetween_nil_iff (t := candidate b revision) hstate
      (candidate_domain b revision)).mpr hown, hstored⟩

section Example

def boxedDocument : Snapshot :=
  { holding (rev 1) 0 [(addr .node 1, { text := "a" })] with
    placement := ⟨[(addr .node 1, box 0)], []⟩ }

theorem acyclic_boxedDocument : AcyclicChildren boxedDocument :=
  acyclicChildren_of_rank _ (fun _ => 0) (by decide)

/-- The placement is reset and built again by the same call. -/
theorem canonical_no_op_rebuilt :
    ∃ b heap', Edit.applyAll [.resetPlacement, .place (addr .node 1) (box 0)]
        boxedDocument.edit ⟨1⟩ = .done (b, heap') ∧ PublishesNothing boxedDocument b := by
  refine ⟨_, _, rfl, ?_⟩
  refine (canonical_no_op_iff boxedDocument [.resetPlacement, .place (addr .node 1) (box 0)] ⟨1⟩
    _ _ rfl ⟨fun _ => rfl, rfl, fun _ => rfl⟩).mpr ?_
  exact ⟨Or.inr ⟨⟨.resetPlacement, by simp, rfl⟩, rfl, rfl⟩, by decide, by decide,
    acyclic_boxedDocument⟩

/-- A box placed where it is: every answer stays, and a revision is published. -/
theorem placed_again_publishes :
    ∃ b heap', Edit.applyAll [.place (addr .node 1) (box 0)] boxedDocument.edit ⟨1⟩ =
        .done (b, heap') ∧ SameAnswers boxedDocument b ∧ ¬ PublishesNothing boxedDocument b := by
  refine ⟨_, _, rfl, ⟨fun _ => rfl, rfl, fun x => ?_⟩, fun h => ?_⟩
  · by_cases hx : addr .node 1 = x
    · subst hx
      rfl
    · simp [Placement.rect, SnapshotBuilder.place, Placement.push, Snapshot.edit, boxedDocument,
        hx]
  · obtain ⟨_, _, _, hstored⟩ := (publishesNothing_iff _).mp h
    exact absurd hstored (by decide)

end Example

end CompositionIr.CanonicalNoOps
