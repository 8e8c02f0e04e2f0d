import CompositionIr.AdapterEffects

/-!
A session and the snapshot its trees are adapted onto, reparse after reparse. Whatever
the reports say beyond the frontend's own, the snapshot mirrors the tree.
-/

namespace CompositionIr.AdapterRuns

open Outcomes Transitions Addresses Records Placements Snapshots Deltas Commits
open PublishedStates DeltaSpec CommitSpec ShownStates CallEffects PlacementReplay Frontends
open Identities Adapters AdapterEffects

structure Pipeline where
  session : MdSession
  snapshot : Snapshot

structure Pass where
  call : Reparse
  ast : MdAst
  report : MdDelta
  commit : Commit

/-- A report that says no less than the frontend's own. Further ids to touch are free;
further ids to retire are positive and not in the tree. -/
structure Enlarges (ast : MdAst) (own report : MdDelta) : Prop where
  touched : ∀ id ∈ own.touched, id ∈ report.touched
  retired : ∀ id ∈ own.retired, id ∈ report.retired
  positive : ∀ id ∈ report.retired, 0 < id.toNat
  gone : ∀ id ∈ report.retired, id ∉ ast.ids

/-- The session reparses, and the adapter builds the tree onto the last snapshot. -/
structure Adapts (q : Pipeline) (pass : Pass) (q' : Pipeline) : Prop where
  reparsed : Step q.session pass.call q'.session
  ast : pass.ast = q'.session.ast
  enlarged : Enlarges pass.ast pass.call.delta pass.report
  adapted : ∃ heap fuel touched heap',
    adapt q.snapshot pass.ast pass.report heap fuel = .done (⟨pass.commit, touched⟩, heap')
  published : q'.snapshot = pass.commit.snapshot

def opened (domain : Domain) (revision : Revision) : Pipeline :=
  ⟨MdSession.new, Snapshot.empty domain revision⟩

/-- The snapshot holds the records and the boxes of the tree, and roots none but its
nodes. -/
structure Mirrors (d : Domain) (q : Pipeline) : Prop where
  session : WellIdentified q.session
  domain : q.snapshot.version.domain = d
  records : values q.snapshot.records = documentOf d q.session.ast.nodes
  placement : q.snapshot.placement = ⟨placedAt d q.session.ast.nodes, []⟩
  roots : ∀ r ∈ q.snapshot.roots, ∃ n ∈ q.session.ast.nodes, nodeAddress d n.id = r

theorem identified (s : MdSession) (hs : WellIdentified s) : Identified s.ast.nodes :=
  ⟨hs.positive, hs.distinct⟩

theorem mirrors_opened (domain : Domain) (revision : Revision) :
    Mirrors domain (opened domain revision) where
  session := run_wellIdentified (Run.nil _)
  domain := rfl
  records := rfl
  placement := rfl
  roots := by
    intro r hr
    cases hr

section Documents

variable {d : Domain} {s s' : MdSession} {call : Reparse} {report : MdDelta}

/-- The report of a call is the least of its enlargements. -/
theorem enlarges_own (hs : WellIdentified s) (hstep : Step s call s') :
    Enlarges s'.ast call.delta call.delta := by
  have hreports := step_reports hs hstep
  refine ⟨fun _ h => h, fun _ h => h, fun id hid => ?_, fun id hid => ?_⟩
  · obtain ⟨o, ho, hone⟩ := List.mem_map.mp ((hreports.retired id).mp hid).1
    rw [← hone]
    exact hs.positive o ho
  · exact ((hreports.retired id).mp hid).2

theorem project_congr {o n : MdNode} (hid : o.id = n.id) (hkind : o.kind = n.kind)
    (htext : o.text = n.text) : project o = project n := by
  unfold project MdSession.embedReference MdSession.formulaSource
  rw [hid, hkind, htext]

theorem find_old (hs : WellIdentified s) {o : MdNode} (ho : o ∈ s.ast.nodes) :
    s.ast.nodes.find? (fun m => m.id == o.id) = some o := by
  cases hfind : s.ast.nodes.find? (fun m => m.id == o.id) with
  | none => exact absurd (beq_self_eq_true _) (List.find?_eq_none.mp hfind o ho)
  | some m =>
    have hid : m.id = o.id := by simpa using List.find?_some hfind
    rw [List.inj_on_of_nodup_map hs.distinct (List.mem_of_find?_eq_some hfind) ho hid]

theorem find_new {id : UInt64} (hnew : ∀ o ∈ s.ast.nodes, o.id ≠ id) :
    s.ast.nodes.find? (fun m => m.id == id) = none :=
  List.find?_eq_none.mpr (fun o ho => by simpa using hnew o ho)

/-- Positive ids that are distinct have distinct addresses. -/
theorem nodup_addresses_of_ids (d : Domain) {ids : List UInt64} (hids : ids.Nodup)
    (hpos : ∀ id ∈ ids, 0 < id.toNat) : (ids.map (nodeAddress d)).Nodup :=
  hids.map_on (fun id hid id' hid' h => nodeAddress_inj d (hpos id hid) (hpos id' hid') h)

/-- A node of the tree at the address of a positive id has that id. -/
theorem mem_ids_of_address (d : Domain) (hs : WellIdentified s) {id : UInt64} (hid : 0 < id.toNat) :
    id ∈ s.ast.ids ↔ ∃ n ∈ s.ast.nodes, nodeAddress d n.id = nodeAddress d id := by
  unfold MdAst.ids
  rw [List.mem_map]
  refine exists_congr (fun n => and_congr_right (fun hn => ?_))
  exact ⟨fun h => by rw [h], fun h => nodeAddress_inj d (hs.positive n hn) hid h⟩

theorem documentOf_none_iff (hs : WellIdentified s) {id : UInt64} (hid : 0 < id.toNat) :
    documentOf d s.ast.nodes (nodeAddress d id) = none ↔ id ∉ s.ast.ids := by
  rw [documentOf_eq_none, mem_ids_of_address d hs hid]
  simp only [not_exists, not_and]

theorem documentOf_id (hs : WellIdentified s) {n : MdNode} (hn : n ∈ s.ast.nodes) {id : UInt64}
    (hid : n.id = id) : documentOf d s.ast.nodes (nodeAddress d id) = some (project n) := by
  rw [← hid]
  exact documentOf_node (identified s hs) n hn

/-- Between the trees of one step, the records of a positive id differ exactly where it
was edited. -/
theorem documentOf_ne_iff_edited (hs : WellIdentified s) (hstep : Step s call s') {id : UInt64}
    (hid : 0 < id.toNat) :
    documentOf d s.ast.nodes (nodeAddress d id) ≠ documentOf d s'.ast.nodes (nodeAddress d id) ↔
      Edited s.ast s'.ast id := by
  have hs' := step_wellIdentified hs hstep
  by_cases hold : id ∈ s.ast.ids
  · obtain ⟨o, ho, hoid⟩ := List.mem_map.mp hold
    rw [documentOf_id hs ho hoid]
    by_cases hnew : id ∈ s'.ast.ids
    · obtain ⟨n, hn, hnid⟩ := List.mem_map.mp hnew
      rw [documentOf_id hs' hn hnid]
      constructor
      · intro hne
        refine Or.inr (Or.inr ⟨o, ho, n, hn, hoid, hnid, fun htext => hne ?_⟩)
        have hkind := kind_eq hs (Run.single hstep) o ho n hn (hnid.trans hoid.symm)
        rw [project_congr (hoid.trans hnid.symm) hkind.symm htext]
      · intro h hsame
        rcases h with ⟨hfresh, _⟩ | ⟨_, hgone⟩ | ⟨o', ho', n', hn', hoid', hnid', htext⟩
        · exact hfresh hold
        · exact hgone hnew
        · rw [List.inj_on_of_nodup_map hs.distinct ho' ho (hoid'.trans hoid.symm),
            List.inj_on_of_nodup_map hs'.distinct hn' hn (hnid'.trans hnid.symm)] at htext
          exact htext (congrArg Node.text (Option.some.inj hsame))
    · rw [(documentOf_none_iff hs' hid).mpr hnew]
      exact iff_of_true (by simp) (Or.inr (Or.inl ⟨hold, hnew⟩))
  · rw [(documentOf_none_iff hs hid).mpr hold]
    by_cases hnew : id ∈ s'.ast.ids
    · obtain ⟨n, hn, hnid⟩ := List.mem_map.mp hnew
      rw [documentOf_id hs' hn hnid]
      exact iff_of_true (by simp) (Or.inl ⟨hold, hnew⟩)
    · rw [(documentOf_none_iff hs' hid).mpr hnew]
      refine iff_of_false (fun hne => hne rfl) (fun h => ?_)
      rcases h with ⟨_, hmem⟩ | ⟨hmem, _⟩ | ⟨o, ho, _, _, hoid, _, _⟩
      · exact hnew hmem
      · exact hold hmem
      · exact hold (List.mem_map.mpr ⟨o, ho, hoid⟩)

/-- Between the trees of one step, the records differ exactly at the addresses of the
edited ids. -/
theorem documentOf_ne_iff (hs : WellIdentified s) (hstep : Step s call s') (x : Address) :
    documentOf d s.ast.nodes x ≠ documentOf d s'.ast.nodes x ↔
      ∃ id, address d id = .done x ∧ Edited s.ast s'.ast id := by
  have hs' := step_wellIdentified hs hstep
  constructor
  · intro hne
    have hid : ∃ id : UInt64, 0 < id.toNat ∧ nodeAddress d id = x := by
      by_contra hnone
      have hold : documentOf d s.ast.nodes x = none := (documentOf_eq_none x).mpr
        (fun o ho haddress => hnone ⟨o.id, hs.positive o ho, haddress⟩)
      have hnew : documentOf d s'.ast.nodes x = none := (documentOf_eq_none x).mpr
        (fun n hn haddress => hnone ⟨n.id, hs'.positive n hn, haddress⟩)
      exact hne (hold.trans hnew.symm)
    obtain ⟨id, hpos, haddress⟩ := hid
    rw [← haddress] at hne
    exact ⟨id, by rw [address_eq d id hpos, haddress],
      (documentOf_ne_iff_edited hs hstep hpos).mp hne⟩
  · intro h
    obtain ⟨id, haddress, hedited⟩ := h
    obtain ⟨hpos, hx⟩ := address_eq_done d id x haddress
    rw [hx]
    exact (documentOf_ne_iff_edited hs hstep hpos).mpr hedited

/-- What the incremental route puts, what it removes and what it leaves alone come to the
records of the new tree. -/
theorem documentOf_step (hs : WellIdentified s) (hstep : Step s call s')
    (hreport : Enlarges s'.ast call.delta report) (x : Address) :
    (if WrittenAt d s'.ast report.touched x then documentOf d s'.ast.nodes x
      else if x ∈ report.retired.map (nodeAddress d) then none
      else documentOf d s.ast.nodes x) = documentOf d s'.ast.nodes x := by
  have hs' := step_wellIdentified hs hstep
  by_cases hwritten : WrittenAt d s'.ast report.touched x
  · rw [if_pos hwritten]
  · rw [if_neg hwritten]
    by_cases hretired : x ∈ report.retired.map (nodeAddress d)
    · rw [if_pos hretired]
      obtain ⟨id, hid, haddress⟩ := List.mem_map.mp hretired
      rw [← haddress]
      exact ((documentOf_none_iff hs' (hreport.positive id hid)).mpr (hreport.gone id hid)).symm
    · rw [if_neg hretired]
      -- what was edited was reported, and so written or removed
      by_contra hne
      obtain ⟨id, haddress, hedited⟩ := (documentOf_ne_iff hs hstep x).mp hne
      obtain ⟨_, hx⟩ := address_eq_done d id x haddress
      rcases (edited_iff_reported hs hstep id).mp hedited with htouched | hgone
      · obtain ⟨n, hn, hid, _⟩ := ((step_reports hs hstep).touched id).mp htouched
        refine hwritten ⟨n, hn, ?_, by rw [hid, hx]⟩
        rw [hid]
        exact hreport.touched id htouched
      · exact hretired (List.mem_map.mpr ⟨id, hreport.retired id hgone, hx.symm⟩)

def keptRoots (d : Domain) (nodes : List MdNode) (roots : List Address) : List Address :=
  roots.filter (fun r => (nodes.map (fun n => nodeAddress d n.id)).contains r)

theorem keptRoots_of_retired (hs : WellIdentified s) (hstep : Step s call s')
    (hreport : Enlarges s'.ast call.delta report) (roots : List Address)
    (hroots : ∀ r ∈ roots, ∃ n ∈ s.ast.nodes, nodeAddress d n.id = r) :
    roots.filter (fun r => !(report.retired.map (nodeAddress d)).contains r) =
      keptRoots d s'.ast.nodes roots := by
  have hs' := step_wellIdentified hs hstep
  refine List.filter_congr (fun r hr => ?_)
  obtain ⟨o, ho, haddress⟩ := hroots r hr
  have hlive := mem_ids_of_address d hs' (hs.positive o ho)
  rw [Bool.eq_iff_iff, Bool.not_eq_true', ← Bool.not_eq_true, List.contains_iff_mem,
    List.contains_iff_mem, List.mem_map, List.mem_map, ← haddress, ← hlive]
  constructor
  · intro hkept
    by_contra hgone
    have hown := ((step_reports hs hstep).retired o.id).mpr
      ⟨List.mem_map.mpr ⟨o, ho, rfl⟩, hgone⟩
    exact hkept ⟨o.id, hreport.retired _ hown, rfl⟩
  · intro hmem hretired
    obtain ⟨id, hid, hone⟩ := hretired
    have hsame := nodeAddress_inj d (hreport.positive id hid) (hs.positive o ho) hone
    exact hreport.gone id hid (by rw [hsame]; exact hmem)

end Documents

section Builders

variable {d : Domain} {q : Pipeline} {nodes : List MdNode} {boxes : List (Address × Rect)}
variable {b : SnapshotBuilder} {fuel : ℕ} {c : Commit}

structure Builds (d : Domain) (q : Pipeline) (nodes : List MdNode)
    (boxes : List (Address × Rect)) (b : SnapshotBuilder) : Prop where
  base : b.base = q.snapshot
  records : values b.records = documentOf d nodes
  roots : b.roots = keptRoots d nodes q.snapshot.roots ++ firstOf d nodes
  placement : b.placement = ⟨boxes, []⟩

/-- The incremental route has the new tree in the builder, with the boxes of the tree. -/
theorem adapt_builds {s' : MdSession} {call : Reparse} {report : MdDelta} (hq : Mirrors d q)
    (hstep : Step q.session call s') (hreport : Enlarges s'.ast call.delta report)
    (heap : Heap) :
    ∃ draft, Builds d q s'.ast.nodes (placedAt d s'.ast.nodes) draft.edit ∧
      ∀ fuel, adapt q.snapshot s'.ast report heap fuel = publish draft fuel := by
  have hs' := step_wellIdentified hq.session hstep
  obtain ⟨draft, hcalls, hadapt⟩ :=
    adapt_calls q.snapshot s'.ast report heap hs'.positive hreport.positive
  rw [hq.domain] at hcalls
  obtain ⟨hbase, hrecords, hroots, hplacement⟩ :=
    adaptCalls_effect q.snapshot report (identified s' hs') heap draft hcalls
  refine ⟨draft, ⟨hbase, ?_, ?_, hplacement⟩, hadapt⟩
  · funext x
    rw [hrecords, hq.records]
    exact documentOf_step hq.session hstep hreport x
  · rw [hroots, keptRoots_of_retired hq.session hstep hreport _ hq.roots]

theorem Builds.base_records (hb : Builds d q nodes boxes b) (hq : Mirrors d q) :
    values b.base.records = documentOf d q.session.ast.nodes := by
  rw [hb.base, hq.records]

theorem publish_eq_done (draft : Draft) (fuel : ℕ) (a : Adaptation) (heap' : Heap)
    (h : publish draft fuel = .done (a, heap')) : commit draft.edit fuel = .done a.commit := by
  unfold publish at h
  obtain ⟨c, hc, h⟩ := (Outcome.bind_eq_done _ _ _).mp h
  rw [← (Prod.mk.inj (Outcome.done.inj h)).1]
  exact (lift_eq_done _ _).mp hc

theorem ownAddresses_of_values {s : Snapshot} (hdomain : s.version.domain = d)
    (hrecords : values s.records = documentOf d nodes) : OwnAddresses s := by
  refine (ownAddresses_iff s).mpr (fun x hx => ⟨?_, fun c hc => ?_⟩)
  · obtain ⟨arc, harc⟩ := (mem_addresses s x).mp hx
    have hvalue : values s.records x = some arc.node := by
      unfold values
      rw [harc, Option.map_some]
    rw [hrecords] at hvalue
    obtain ⟨n, _, haddress, _⟩ := documentOf_project hvalue
    rw [hdomain, ← haddress]
    rfl
  · rw [childrenOf_eq_nil (withoutChildren hrecords)] at hc
    cases hc

theorem acyclicChildren_of_values {s : Snapshot}
    (hrecords : values s.records = documentOf d nodes) : AcyclicChildren s := by
  refine acyclicChildren_of_rank s (fun _ => 0) (fun x _ c hc => ?_)
  rw [childrenOf_eq_nil (withoutChildren hrecords)] at hc
  cases hc

/-- A builder of a tree commits unless the revisions have run out. -/
theorem builds_returns (hq : Mirrors d q) (hb : Builds d q nodes boxes b)
    (hrevision : q.snapshot.version.revision.value.val + 1 < 2 ^ 64)
    (hfuel : q.snapshot.len < fuel) : ∃ c, commit b fuel = .done c := by
  have hown := ownAddresses_of_values hq.domain hq.records
  have hacyclic := acyclicChildren_of_values hq.records
  rw [← hb.base] at hown hacyclic hrevision hfuel
  refine commit_done b hown hacyclic (fun revision => ?_) hrevision fuel hfuel
  refine ownAddresses_of_values ?_ hb.records
  change b.base.version.domain = d
  rw [hb.base, hq.domain]

theorem publish_returns {draft : Draft} (hc : ∃ c, commit draft.edit fuel = .done c) :
    ∃ a heap', publish draft fuel = .done (a, heap') := by
  obtain ⟨c, hc⟩ := hc
  refine ⟨⟨c, draft.touched⟩, draft.heap, ?_⟩
  unfold publish
  rw [hc]
  rfl

/-- What is published has the records and the boxes of the builder. -/
theorem builds_published (hq : Mirrors d q) (hb : Builds d q nodes boxes b)
    (h : commit b fuel = .done c) :
    c.snapshot.version.domain = d ∧ values c.snapshot.records = documentOf d nodes ∧
      c.snapshot.placement = ⟨boxes, []⟩ := by
  refine ⟨?_, ?_, ?_⟩
  · rw [commit_domain b fuel c h, hb.base, hq.domain]
  · rw [← hb.records]
    exact commit_values b fuel c h (withoutResources (hb.base_records hq))
      (withoutResources hb.records)
  · rw [commit_placement b fuel c h, hb.placement]

/-- The builder holds what was last published, but perhaps for the roots. -/
theorem builds_unchanged (hq : Mirrors d q) (hb : Builds d q nodes boxes b) :
    Unchanged b ↔
      documentOf d q.session.ast.nodes = documentOf d nodes ∧
        boxes = placedAt d q.session.ast.nodes := by
  have hbase := hb.base_records hq
  unfold Unchanged
  rw [← hbase, ← hb.records, hb.placement, hb.base, hq.placement, Placement.mk.injEq, ← hb.base]
  refine and_congr ⟨fun h => ?_, state_of_values⟩ (and_iff_left rfl)
  funext x
  exact (values_eq_iff (withoutResources hbase) (withoutResources hb.records) x).mpr
    (congrFun h x)

/-- The roots stay where the builder holds what was last published, and are the kept
ones and the first node otherwise. -/
theorem builds_roots (hb : Builds d q nodes boxes b) (h : commit b fuel = .done c) :
    (Unchanged b ∧ c.snapshot.roots = q.snapshot.roots) ∨
      (¬ Unchanged b ∧
        c.snapshot.roots = keptRoots d nodes q.snapshot.roots ++ firstOf d nodes) := by
  rcases commit_result b fuel c h with ⟨hun, hc⟩ | ⟨revision, hun, _, hc⟩
  · exact Or.inl ⟨hun, by rw [hc, hb.base]⟩
  · refine Or.inr ⟨hun, ?_⟩
    rw [hc, ← hb.roots]
    rfl

/-- The diffs of a commit name the addresses at which the two trees have other records. -/
theorem builds_named (hq : Mirrors d q) (hb : Builds d q nodes boxes b)
    (h : commit b fuel = .done c) (x : Address) :
    x ∈ c.delta.diffs.map Diff.address ↔
      documentOf d q.session.ast.nodes x ≠ documentOf d nodes x := by
  have hafter := (builds_published hq hb h).2.1
  have hbefore := hb.base_records hq
  rw [(commit_describes b fuel c h).named,
    differsAt_iff (withoutChildren hbefore) (withoutChildren hafter), ne_eq,
    ← values_eq_iff (withoutResources hbefore) (withoutResources hafter), hbefore, hafter]

end Builders

section Runs

variable {d : Domain} {q q' : Pipeline} {pass : Pass}

/-- The commit of a pass is that of a builder of its tree. -/
theorem pass_builds (hq : Mirrors d q) (hstep : Adapts q pass q') :
    ∃ b fuel, Builds d q pass.ast.nodes (placedAt d pass.ast.nodes) b ∧
      commit b fuel = .done pass.commit := by
  obtain ⟨hreparsed, hast, henlarged, ⟨heap, fuel, touched, heap', hadapt⟩, _⟩ := hstep
  rw [hast] at henlarged hadapt ⊢
  obtain ⟨draft, hb, hpublish⟩ := adapt_builds hq hreparsed henlarged heap
  rw [hpublish] at hadapt
  exact ⟨draft.edit, fuel, hb, publish_eq_done draft fuel _ heap' hadapt⟩

theorem pass_mirrors (hq : Mirrors d q) (hstep : Adapts q pass q') : Mirrors d q' := by
  obtain ⟨b, fuel, hb, hcommit⟩ := pass_builds hq hstep
  obtain ⟨hdomain, hrecords, hplacement⟩ := builds_published hq hb hcommit
  have hroots := builds_roots hb hcommit
  rw [← hstep.published] at hdomain hrecords hplacement hroots
  rw [hstep.ast] at hb hrecords hplacement hroots
  refine ⟨step_wellIdentified hq.session hstep.reparsed, hdomain, hrecords, hplacement, ?_⟩
  intro r hr
  rcases hroots with ⟨hun, hsame⟩ | ⟨_, hnew⟩
  · rw [hsame] at hr
    obtain ⟨o, ho, haddress⟩ := hq.roots r hr
    obtain ⟨n, hn, hone⟩ := mem_of_documentOf_eq ((builds_unchanged hq hb).mp hun).1 o ho
    exact ⟨n, hn, hone.trans haddress⟩
  · rw [hnew] at hr
    rcases List.mem_append.mp hr with hkept | hfirst
    · simpa using (List.mem_filter.mp hkept).2
    · unfold firstOf at hfirst
      obtain ⟨n, hhead, haddress⟩ := Option.map_eq_some_iff.mp (Option.mem_toList.mp hfirst)
      exact ⟨n, List.mem_of_head? hhead, haddress⟩

/-- A pass names the addresses at which the trees show different records. -/
theorem pass_named (hq : Mirrors d q) (hstep : Adapts q pass q') (x : Address) :
    Named pass.commit.delta.diffs x ↔
      documentOf d q.session.ast.nodes x ≠ documentOf d q'.session.ast.nodes x := by
  obtain ⟨b, fuel, hb, hcommit⟩ := pass_builds hq hstep
  have hnamed := builds_named hq hb hcommit x
  rw [hstep.ast, List.mem_map] at hnamed
  exact hnamed

theorem run_mirrors {domain : Domain} {revision : Revision} {passes : List Pass}
    (hrun : Run Adapts (opened domain revision) passes q) : Mirrors domain q :=
  Run.preserves (Mirrors domain) hrun (fun _ _ _ hu hstep => pass_mirrors hu hstep)
    (mirrors_opened domain revision)

/-- The record of a node of the tree. -/
theorem lookup_node (hq : Mirrors d q) {n : MdNode} (hn : n ∈ q.session.ast.nodes) :
    ∃ arc, q.snapshot.records.lookup (nodeAddress d n.id) = some arc ∧ arc.node = project n := by
  have hvalue : values q.snapshot.records (nodeAddress d n.id) = some (project n) := by
    rw [hq.records]
    exact documentOf_node (identified q.session hq.session) n hn
  obtain ⟨arc, harc, hproject⟩ := Option.map_eq_some_iff.mp hvalue
  exact ⟨arc, harc, hproject⟩

/-- A record is that of a node of the tree. -/
theorem node_of_lookup (hq : Mirrors d q) {x : Address} {arc : Arc}
    (harc : q.snapshot.records.lookup x = some arc) :
    ∃ n ∈ q.session.ast.nodes, nodeAddress d n.id = x ∧ project n = arc.node := by
  have hvalue : values q.snapshot.records x = some arc.node := congrArg (Option.map Arc.node) harc
  rw [hq.records] at hvalue
  exact documentOf_project hvalue

/-- There is no record of an id no node has. -/
theorem lookup_new (hq : Mirrors d q) {id : UInt64} (hid : 0 < id.toNat)
    (hnew : ∀ o ∈ q.session.ast.nodes, o.id ≠ id) :
    q.snapshot.records.lookup (nodeAddress d id) = none := by
  have hvalue : values q.snapshot.records (nodeAddress d id) = none := by
    rw [hq.records]
    refine (documentOf_none_iff hq.session hid).mpr (fun hmem => ?_)
    obtain ⟨o, ho, hone⟩ := List.mem_map.mp hmem
    exact hnew o ho hone
  exact Option.map_eq_none_iff.mp hvalue

end Runs

section Quiet

variable {d : Domain} {s s' : MdSession} {call : Reparse}

/-- Two lists of nodes with the same ids agree on what an id determines. -/
theorem map_eq_of_ids {β : Type} (f : MdNode → β) {old nodes : List MdNode}
    (hids : old.map MdNode.id = nodes.map MdNode.id)
    (hf : ∀ o ∈ old, ∀ n ∈ nodes, o.id = n.id → f o = f n) : old.map f = nodes.map f := by
  induction old generalizing nodes with
  | nil =>
    rw [List.map_eq_nil_iff.mp hids.symm]
  | cons o rest ih =>
    cases nodes with
    | nil => cases hids
    | cons n nodes =>
      rw [List.map_cons, List.map_cons, List.cons.injEq] at hids
      rw [List.map_cons, List.map_cons,
        hf o (List.mem_cons_self ..) n (List.mem_cons_self ..) hids.1]
      refine congrArg _ (ih hids.2 (fun o' ho' n' hn' => ?_))
      exact hf o' (List.mem_cons_of_mem _ ho') n' (List.mem_cons_of_mem _ hn')

/-- A reparse that reports nothing keeps every id, in order. -/
theorem ids_of_quiet (hs : WellIdentified s) (hstep : Step s call s')
    (hquiet : ∀ id, ¬ Edited s.ast s'.ast id) : s'.ast.ids = s.ast.ids := by
  have hkept : ∀ n ∈ s'.ast.nodes, n.id ∈ s.ast.ids := by
    intro n hn
    by_contra hfresh
    exact hquiet n.id (Or.inl ⟨hfresh, List.mem_map.mpr ⟨n, hn, rfl⟩⟩)
  have hlive : s.ast.ids ⊆ s'.ast.ids := by
    intro id hid
    by_contra hgone
    exact hquiet id (Or.inr (Or.inl ⟨hid, hgone⟩))
  have hsub := parse_sublist _ _ _ _ _ _ _ hs.bounded hkept ((step_iff _ _ _).mp hstep).1
  exact hsub.eq_of_length_le (hs.distinct.subperm hlive).length_le

/-- The trees of a step have the same records exactly when the call reported nothing. -/
theorem documentOf_eq_iff (hs : WellIdentified s) (hstep : Step s call s') :
    documentOf d s.ast.nodes = documentOf d s'.ast.nodes ↔
      call.delta.touched = [] ∧ call.delta.retired = [] := by
  rw [quiet_iff hs hstep]
  constructor
  · intro hsame id hedited
    have hid := edited_positive hs (step_wellIdentified hs hstep) id hedited
    exact (documentOf_ne_iff_edited hs hstep hid).mpr hedited (congrFun hsame _)
  · intro hquiet
    funext x
    by_contra hne
    obtain ⟨id, _, hedited⟩ := (documentOf_ne_iff hs hstep x).mp hne
    exact hquiet id hedited

/-- A call that reports nothing also leaves the boxes as they were. -/
theorem placedAt_of_quiet (hs : WellIdentified s) (hstep : Step s call s')
    (hquiet : ∀ id, ¬ Edited s.ast s'.ast id) :
    placedAt d s'.ast.nodes = placedAt d s.ast.nodes := by
  refine map_eq_of_ids _ (ids_of_quiet hs hstep hquiet) (fun n hn o ho hid => ?_)
  have htext : o.text = n.text := by
    by_contra hne
    exact hquiet n.id (Or.inr (Or.inr ⟨o, ho, n, hn, hid.symm, rfl, hne⟩))
  unfold rectOf
  rw [hid, htext]

/-- The incremental route publishes nothing exactly when nothing was reported. -/
theorem builds_unchanged_iff {q : Pipeline} {b : SnapshotBuilder} (hq : Mirrors d q)
    (hstep : Step q.session call s')
    (hb : Builds d q s'.ast.nodes (placedAt d s'.ast.nodes) b) :
    Unchanged b ↔ call.delta.touched = [] ∧ call.delta.retired = [] := by
  rw [builds_unchanged hq hb, documentOf_eq_iff hq.session hstep]
  exact and_iff_left_of_imp
    (fun h => placedAt_of_quiet hq.session hstep ((quiet_iff hq.session hstep).mp h))

end Quiet

section Example

def shown (revision start : ℕ) (nodes : List MdNode) (roots : List UInt64) : Snapshot :=
  { holding (rev revision) start (nodes.map (fun n => (nodeAddress dom n.id, project n))) with
    roots := roots.map (nodeAddress dom)
    placement := ⟨placedAt dom nodes, []⟩ }

def publishing (s : Snapshot) (revision : ℕ) (diffs : List Diff) : Commit :=
  ⟨s, ⟨⟨dom, rev revision⟩, s.version, diffs⟩⟩

def lineA : MdNode := ⟨1, .para, "a", (0, 1)⟩

def drafted : Pipeline := ⟨paragraphs 1 "a\n" [lineA], shown 2 0 [lineA] [1]⟩

def drafting : Pass where
  call := ⟨"a\n", ⟨[1], []⟩⟩
  ast := drafted.session.ast
  report := ⟨[1], []⟩
  commit := publishing drafted.snapshot 1 [⟨nodeAddress dom 1, ⟨0x7ff⟩⟩]

theorem drafting_adapts : Adapts (opened dom (rev 1)) drafting drafted := by
  have hstep : Step MdSession.new drafting.call drafted.session := by
    unfold Step
    decide
  exact ⟨hstep, rfl, enlarges_own (run_wellIdentified (Run.nil _)) hstep,
    ⟨⟨0⟩, 1, _, _, rfl⟩, rfl⟩

theorem drafted_wellIdentified : WellIdentified drafted.session :=
  (run_mirrors (Run.single drafting_adapts)).session

end Example

end CompositionIr.AdapterRuns
