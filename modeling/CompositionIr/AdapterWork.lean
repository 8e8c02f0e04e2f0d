import CompositionIr.AdapterRoutes
import CompositionIr.IncrementalBuilds

/-!
The work of the adapter. It counts every record it removes or writes. With the frontend's
own report that is one for each entry of the delta it publishes; a longer report and the
full route touch more records, for the same delta.
-/

namespace CompositionIr.AdapterWork

open Outcomes Transitions Addresses Records Placements Snapshots Deltas Commits
open PublishedStates CommitSpec ShownStates CallEffects Frontends Identities
open Adapters AdapterEffects AdapterRuns AdapterRoutes

section Loops

variable {domain : Domain} {d d' : Draft}

theorem removeRetired_touched {ids : List UInt64} (h : removeRetired domain ids d = .done d') :
    d'.touched = d.touched + ids.length := by
  induction ids generalizing d with
  | nil => exact congrArg Draft.touched (Outcome.done.inj h).symm
  | cons id rest ih =>
    rw [removeRetired] at h
    obtain ⟨a, _, hrest⟩ := (Outcome.bind_eq_done _ _ _).mp h
    rw [ih hrest, List.length_cons]
    simp only
    omega

/-- Only an id that some node of the tree has is written. -/
theorem putTouched_touched {ast : MdAst} {ids : List UInt64}
    (h : putTouched domain ast ids d = .done d') :
    d'.touched = d.touched + ids.countP (fun id => ast.nodes.any (fun n => n.id == id)) := by
  induction ids generalizing d with
  | nil => exact congrArg Draft.touched (Outcome.done.inj h).symm
  | cons id rest ih =>
    unfold putTouched at h
    rw [List.countP_cons]
    cases hfind : ast.nodes.find? (fun n => n.id == id) with
    | none =>
      have hany : ast.nodes.any (fun n => n.id == id) = false := by
        rw [List.any_eq_false]
        exact fun n hn => List.find?_eq_none.mp hfind n hn
      rw [hfind] at h
      rw [ih h, hany]
      rfl
    | some n =>
      have hany : ast.nodes.any (fun n => n.id == id) = true :=
        List.any_eq_true.mpr ⟨n, List.mem_of_find?_eq_some hfind, by
          simpa using List.find?_some hfind⟩
      rw [hfind] at h
      obtain ⟨a, _, hrest⟩ := (Outcome.bind_eq_done _ _ _).mp h
      rw [ih hrest, hany]
      simp only [if_true]
      omega

theorem placeAll_touched {nodes : List MdNode} (h : placeAll domain nodes d = .done d') :
    d'.touched = d.touched := by
  induction nodes generalizing d with
  | nil => exact congrArg Draft.touched (Outcome.done.inj h).symm
  | cons n rest ih =>
    rw [placeAll] at h
    obtain ⟨a, _, hrest⟩ := (Outcome.bind_eq_done _ _ _).mp h
    rw [ih hrest]

theorem rootFirst_touched {nodes : List MdNode} (h : rootFirst domain nodes d = .done d') :
    d'.touched = d.touched := by
  unfold rootFirst at h
  cases nodes with
  | nil => exact congrArg Draft.touched (Outcome.done.inj h).symm
  | cons n rest =>
    obtain ⟨a, _, hdone⟩ := (Outcome.bind_eq_done _ _ _).mp h
    rw [← Outcome.done.inj hdone]

theorem publish_touched {fuel : ℕ} {a : Adaptation} {heap : Heap}
    (h : publish d fuel = .done (a, heap)) : a.recordsTouched = d.touched := by
  unfold publish at h
  obtain ⟨c, _, hdone⟩ := (Outcome.bind_eq_done _ _ _).mp h
  exact congrArg (fun r => r.1.recordsTouched) (Outcome.done.inj hdone).symm

theorem removeStale_touched (live addresses : List Address) (d : Draft) :
    (removeStale live addresses d).touched =
      d.touched + (addresses.filter (fun a => !live.contains a)).length := by
  induction addresses generalizing d with
  | nil => rfl
  | cons a rest ih =>
    unfold removeStale
    by_cases hlive : live.contains a = true
    · rw [if_pos hlive, List.filter_cons_of_neg (by simpa using hlive), ih]
    · rw [if_neg hlive, List.filter_cons_of_pos (by simpa using hlive), ih, List.length_cons]
      simp only
      omega

theorem rewriteAll_touched {nodes : List MdNode} {i : ℕ}
    (h : rewriteAll domain nodes i d = .done d') : d'.touched = d.touched + nodes.length := by
  induction nodes generalizing i d with
  | nil => exact congrArg Draft.touched (Outcome.done.inj h).symm
  | cons n rest ih =>
    rw [rewriteAll] at h
    obtain ⟨a, _, hrest⟩ := (Outcome.bind_eq_done _ _ _).mp h
    rw [ih hrest, List.length_cons]
    simp only
    omega

end Loops

section Routes

variable {base : Snapshot} {ast : MdAst} {heap heap' : Heap} {fuel : ℕ} {a : Adaptation}

/-- The incremental route touches what the report retires, and what it touches of the tree. -/
theorem adapt_touched {report : MdDelta}
    (h : adapt base ast report heap fuel = .done (a, heap')) :
    a.recordsTouched = report.retired.length +
      report.touched.countP (fun id => ast.nodes.any (fun n => n.id == id)) := by
  unfold adapt at h
  obtain ⟨d₁, hremove, h⟩ := (Outcome.bind_eq_done _ _ _).mp h
  obtain ⟨d₂, hput, h⟩ := (Outcome.bind_eq_done _ _ _).mp h
  obtain ⟨d₃, hplace, h⟩ := (Outcome.bind_eq_done _ _ _).mp h
  obtain ⟨d₄, hroot, hpublish⟩ := (Outcome.bind_eq_done _ _ _).mp h
  rw [publish_touched hpublish, rootFirst_touched hroot, placeAll_touched hplace,
    putTouched_touched hput, removeRetired_touched hremove]
  simp only
  omega

/-- The full route touches every node, and every address that has none. -/
theorem adaptFull_touched (hast : ∀ n ∈ ast.nodes, 0 < n.id.toNat)
    (h : adaptFull base ast heap fuel = .done (a, heap')) :
    a.recordsTouched = (stale base ast.nodes).length + ast.nodes.length := by
  unfold adaptFull at h
  simp only at h
  rw [addressAll_eq base.version.domain ast.nodes hast, Outcome.done_bind] at h
  obtain ⟨d₁, hrewrite, hpublish⟩ := (Outcome.bind_eq_done _ _ _).mp h
  rw [publish_touched hpublish, rewriteAll_touched hrewrite, removeStale_touched]
  unfold stale
  simp only
  omega

end Routes

section Counts

variable {d : Domain} {q : Pipeline} {s' : MdSession} {call : Reparse}

/-- What is stale is what the call reported retired. -/
theorem length_stale (hq : Mirrors d q) (hstep : Step q.session call s') :
    (stale q.snapshot s'.ast.nodes).length = call.delta.retired.length := by
  have hs' := step_wellIdentified hq.session hstep
  have hreports := step_reports hq.session hstep
  have hpos : ∀ id ∈ call.delta.retired, 0 < id.toNat :=
    (enlarges_own hq.session hstep).positive
  have hperm : (stale q.snapshot s'.ast.nodes).Perm
      (call.delta.retired.map (nodeAddress d)) := by
    have haddresses : q.snapshot.addresses.Nodup := q.snapshot.records.keys_nodup
    unfold stale
    rw [List.perm_ext_iff_of_nodup (haddresses.filter _)
      (nodup_addresses_of_ids d hreports.retiredOnce hpos)]
    intro x
    rw [List.mem_filter, hq.domain, List.contains_eq_mem, Bool.not_eq_true',
      decide_eq_false_iff_not]
    constructor
    · rintro ⟨hx, hgone⟩
      obtain ⟨arc, harc⟩ := (mem_addresses q.snapshot x).mp hx
      obtain ⟨o, ho, rfl, _⟩ := node_of_lookup hq harc
      refine List.mem_map.mpr ⟨o.id, (hreports.retired o.id).mpr
        ⟨List.mem_map.mpr ⟨o, ho, rfl⟩, ?_⟩, rfl⟩
      intro hlive
      obtain ⟨n, hn, hid⟩ := List.mem_map.mp hlive
      exact hgone (List.mem_map.mpr ⟨n, hn, by rw [hid]⟩)
    · intro hx
      obtain ⟨id, hid, rfl⟩ := List.mem_map.mp hx
      obtain ⟨hold, hgone⟩ := (hreports.retired id).mp hid
      obtain ⟨o, ho, rfl⟩ := List.mem_map.mp hold
      obtain ⟨arc, harc, _⟩ := lookup_node hq ho
      refine ⟨(mem_addresses _ _).mpr ⟨arc, harc⟩, fun hlive => hgone ?_⟩
      obtain ⟨n, hn, haddress⟩ := List.mem_map.mp hlive
      exact (mem_ids_of_address d hs' (hpos o.id hid)).mpr ⟨n, hn, haddress⟩
  rw [hperm.length_eq, List.length_map]

/-- A builder of the new tree publishes one entry for each id the call reported. -/
theorem length_diffs (hq : Mirrors d q) (hstep : Step q.session call s')
    {boxes : List (Address × Rect)} {b : SnapshotBuilder} {fuel : ℕ} {c : Commit}
    (hb : Builds d q s'.ast.nodes boxes b) (hcommit : commit b fuel = .done c) :
    c.delta.diffs.length = call.delta.touched.length + call.delta.retired.length := by
  have hs' := step_wellIdentified hq.session hstep
  have hreports := step_reports hq.session hstep
  have hedited := edited_iff_reported hq.session hstep
  have hpos : ∀ id ∈ call.delta.touched ++ call.delta.retired, 0 < id.toNat := by
    intro id hid
    exact edited_positive hq.session hs' id ((hedited id).mpr (List.mem_append.mp hid))
  have hnodup : (call.delta.touched ++ call.delta.retired).Nodup := by
    rw [List.nodup_append]
    refine ⟨hreports.touchedOnce, hreports.retiredOnce, fun id hid id' hid' heq => ?_⟩
    obtain ⟨n, hn, hnid, _⟩ := (hreports.touched id).mp hid
    refine ((hreports.retired id').mp hid').2 ?_
    exact List.mem_map.mpr ⟨n, hn, hnid.trans heq⟩
  have hperm : (c.delta.diffs.map Diff.address).Perm
      ((call.delta.touched ++ call.delta.retired).map (nodeAddress d)) := by
    have hascending := (commit_describes b fuel c hcommit).ascending
    rw [List.perm_ext_iff_of_nodup (hascending.imp (fun hlt => ne_of_lt hlt))
      (nodup_addresses_of_ids d hnodup hpos)]
    intro x
    rw [builds_named hq hb hcommit, documentOf_ne_iff hq.session hstep, List.mem_map]
    constructor
    · rintro ⟨id, haddress, hone⟩
      obtain ⟨_, hx⟩ := address_eq_done d id x haddress
      exact ⟨id, List.mem_append.mpr ((hedited id).mp hone), hx.symm⟩
    · rintro ⟨id, hid, rfl⟩
      exact ⟨id, address_eq d id (hpos id hid), (hedited id).mpr (List.mem_append.mp hid)⟩
  have hlength := hperm.length_eq
  rwa [List.length_map, List.length_map, List.length_append] at hlength

/-- The ids the call reported touched are all in the tree, and a longer report has them. -/
theorem touched_le (hq : Mirrors d q) (hstep : Step q.session call s') {report : MdDelta}
    (hreport : Enlarges s'.ast call.delta report) :
    call.delta.touched.length ≤
        report.touched.countP (fun id => s'.ast.nodes.any (fun n => n.id == id)) ∧
      call.delta.touched.countP (fun id => s'.ast.nodes.any (fun n => n.id == id)) =
        call.delta.touched.length := by
  have hreports := step_reports hq.session hstep
  have hmem : ∀ id ∈ call.delta.touched, s'.ast.nodes.any (fun n => n.id == id) = true := by
    intro id hid
    obtain ⟨n, hn, hnid, _⟩ := (hreports.touched id).mp hid
    exact List.any_eq_true.mpr ⟨n, hn, by simpa using hnid⟩
  refine ⟨?_, List.countP_eq_length.mpr hmem⟩
  rw [List.countP_eq_length_filter]
  refine (hreports.touchedOnce.subperm (fun id hid => ?_)).length_le
  exact List.mem_filter.mpr ⟨hreport.touched id hid, hmem id hid⟩

end Counts

/-- After any run the incremental route touches, with the frontend's own report of the next
reparse, exactly as many records as its delta has entries. A longer report makes it touch
no fewer and publish the same delta, and the full route touches every node and every
retired record, for the same entries. -/
theorem adaptation_is_proportional (domain : Domain) (revision : Revision) (passes : List Pass)
    (q : Pipeline) (hrun : Run Adapts (opened domain revision) passes q) (call : Reparse)
    (s' : MdSession) (hstep : Step q.session call s') (heap heap' : Heap) (fuel : ℕ)
    (a : Adaptation)
    (hadapt : adapt q.snapshot s'.ast call.delta heap fuel = .done (a, heap')) :
    a.recordsTouched = a.commit.delta.diffs.length ∧
    a.recordsTouched = call.delta.touched.length + call.delta.retired.length ∧
    (∀ report, Enlarges s'.ast call.delta report → ∀ heap heap' fuel a',
      adapt q.snapshot s'.ast report heap fuel = .done (a', heap') →
        a.recordsTouched ≤ a'.recordsTouched ∧ a'.commit.delta = a.commit.delta) ∧
    ∀ heap heap' fuel a', adaptFull q.snapshot s'.ast heap fuel = .done (a', heap') →
      a'.recordsTouched = s'.ast.nodes.length + call.delta.retired.length ∧
        a'.commit.delta.diffs = a.commit.delta.diffs := by
  have hq := run_mirrors hrun
  have hown := enlarges_own hq.session hstep
  obtain ⟨draft, hb, hpublish⟩ := adapt_builds hq hstep hown heap
  have hpublished := hadapt
  rw [hpublish] at hpublished
  have hcommit := publish_eq_done draft fuel a heap' hpublished
  have htouched : a.recordsTouched = call.delta.touched.length + call.delta.retired.length := by
    rw [adapt_touched hadapt, (touched_le hq hstep hown).2]
    omega
  refine ⟨htouched.trans (length_diffs hq hstep hb hcommit).symm, htouched, ?_, ?_⟩
  · intro report hreport heap₁ heap₂ fuel' a' hadapt'
    obtain ⟨draft', hb', hpublish'⟩ := adapt_builds hq hstep hreport heap₁
    have hretired : call.delta.retired.length ≤ report.retired.length :=
      ((step_reports hq.session hstep).retiredOnce.subperm hreport.retired).length_le
    have hle := (touched_le hq hstep hreport).1
    refine ⟨?_, ?_⟩
    · rw [htouched, adapt_touched hadapt']
      omega
    · rw [hpublish'] at hadapt'
      refine (commit_sameByValue ?_ ?_ ?_ ?_ _ _ _ _
        (publish_eq_done draft' fuel' a' heap₂ hadapt') hcommit).2
      · rw [hb'.base, hb.base]
        exact SameByValue.refl _
      · rw [hb'.records, hb.records]
      · rw [hb'.roots, hb.roots]
      · rw [hb'.placement, hb.placement]
  · intro heap₁ heap₂ fuel' a' hfull
    have hs' := step_wellIdentified hq.session hstep
    obtain ⟨draft', hb', hpublish'⟩ := adaptFull_builds hq hstep heap₁
    refine ⟨?_, ?_⟩
    · rw [adaptFull_touched hs'.positive hfull, length_stale hq hstep]
      omega
    · rw [hpublish'] at hfull
      refine commit_diffs_congr ?_ (state_of_values (by rw [hb'.records, hb.records])) _ _ _ _
        (publish_eq_done draft' fuel' a' heap₂ hfull) hcommit
      rw [hb'.base, hb.base]
      exact ShowSame.refl _

section Example

/-- One line is edited: one record, one entry. -/
theorem adaptation_is_proportional_edited :
    ∃ a heap, adapt drafted.snapshot ⟨[IncrementalBuilds.lineB], "b\n"⟩ ⟨[1], []⟩ ⟨1⟩ 2 =
        .done (a, heap) ∧ a.recordsTouched = a.commit.delta.diffs.length ∧
      a.recordsTouched = 1 := by
  have hstep : Step drafted.session ⟨"b\n", ⟨[1], []⟩⟩
      (paragraphs 1 "b\n" [IncrementalBuilds.lineB]) := by
    unfold Step
    decide
  have hadapt : adapt drafted.snapshot ⟨[IncrementalBuilds.lineB], "b\n"⟩ ⟨[1], []⟩ ⟨1⟩ 2 =
      .done (⟨publishing (shown 3 1 [IncrementalBuilds.lineB] [1, 1]) 2
        [⟨nodeAddress dom 1, ⟨0x00a⟩⟩], 1⟩, ⟨2⟩) := rfl
  obtain ⟨hentries, htouched, _⟩ := adaptation_is_proportional dom (rev 1) _ _
    (Run.single drafting_adapts) _ _ hstep _ _ _ _ hadapt
  exact ⟨_, _, hadapt, hentries, htouched⟩

end Example

end CompositionIr.AdapterWork
