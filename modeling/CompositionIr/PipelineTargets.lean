import CompositionIr.IncrementalBuilds
import CompositionIr.Targets

/-!
The whole chain, from the source to the targets. A session reparses, the adapter publishes,
and two targets follow the deltas. The draw list is always the fresh render. The retained
target is it but for the nodes it cut: those whose text was last replaced by another of as
many bytes, which the adapter reports without geometry.
-/

namespace CompositionIr.PipelineTargets

open Outcomes ChildGraphs Transitions Addresses Records Placements Snapshots Deltas Commits
open PublishedStates DeltaSpec CommitSpec CallEffects ShownStates DebugText Sorting Backends
open Renders Rasters SvgPatching Targets Frontends Identities Adapters AdapterEffects AdapterRuns
open IncrementalBuilds

section Cuts

/-- A node is cut when its text was replaced by one of as many bytes, and stays cut as long
as its text stays. -/
def isCut (old : List MdNode) (cut : List UInt64) (n : MdNode) : Bool :=
  match old.find? (fun o => o.id == n.id) with
  | none => false
  | some o =>
    if o.text = n.text then cut.contains n.id else o.text.utf8ByteSize == n.text.utf8ByteSize

def cutBy (old new : MdAst) (cut : List UInt64) : List UInt64 :=
  (new.nodes.filter (isCut old.nodes cut)).map MdNode.id

def cutting (passes : List Pass) : MdAst × List UInt64 :=
  passes.foldl (fun last pass => (pass.ast, cutBy last.1 pass.ast last.2)) ({}, [])

variable {s s' : MdSession} {call : Reparse} {cut : List UInt64}

theorem contains_cutBy (hs' : WellIdentified s') {n : MdNode} (hn : n ∈ s'.ast.nodes) :
    (cutBy s.ast s'.ast cut).contains n.id = isCut s.ast.nodes cut n := by
  unfold cutBy
  rw [Bool.eq_iff_iff, List.contains_iff_mem, List.mem_map]
  constructor
  · rintro ⟨m, hm, hid⟩
    obtain ⟨hm, hcut⟩ := List.mem_filter.mp hm
    rwa [List.inj_on_of_nodup_map hs'.distinct hm hn hid] at hcut
  · exact fun hcut => ⟨n, List.mem_filter.mpr ⟨hn, hcut⟩, rfl⟩

/-- A node that is new is not cut. -/
theorem isCut_new {n : MdNode} (hnew : ∀ o ∈ s.ast.nodes, o.id ≠ n.id) :
    isCut s.ast.nodes cut n = false := by
  unfold isCut
  rw [find_new hnew]

theorem isCut_kept (hs : WellIdentified s) {o n : MdNode} (ho : o ∈ s.ast.nodes)
    (hid : o.id = n.id) (htext : o.text = n.text) :
    isCut s.ast.nodes cut n = cut.contains n.id := by
  unfold isCut
  rw [← hid, find_old hs ho]
  simp only [htext, if_true, hid]

theorem isCut_edited (hs : WellIdentified s) {o n : MdNode} (ho : o ∈ s.ast.nodes)
    (hid : o.id = n.id) (htext : o.text ≠ n.text) :
    isCut s.ast.nodes cut n = (o.text.utf8ByteSize == n.text.utf8ByteSize) := by
  unfold isCut
  rw [← hid, find_old hs ho]
  simp only [htext, if_false]

/-- The nodes reported touched are those whose text no old node of the id has. -/
theorem touched_iff (hs : WellIdentified s) (hstep : Step s call s') {n : MdNode}
    (hn : n ∈ s'.ast.nodes) :
    n.id ∈ call.delta.touched ↔ ∀ o ∈ s.ast.nodes, o.id = n.id → o.text ≠ n.text := by
  have hs' := step_wellIdentified hs hstep
  rw [(step_reports hs hstep).touched]
  constructor
  · rintro ⟨m, hm, hmid, hfresh | ⟨o', ho', hoid', htext⟩⟩ o ho hid
    · exact absurd (List.mem_map.mpr ⟨o, ho, hid⟩) hfresh
    · rw [List.inj_on_of_nodup_map hs.distinct ho ho' (hid.trans hoid'.symm),
        List.inj_on_of_nodup_map hs'.distinct hn hm hmid.symm]
      exact htext
  · intro h
    refine ⟨n, hn, rfl, ?_⟩
    by_cases hold : n.id ∈ s.ast.ids
    · obtain ⟨o, ho, hid⟩ := List.mem_map.mp hold
      exact Or.inr ⟨o, ho, hid, h o ho hid⟩
    · exact Or.inl hold

end Cuts

section Passes

variable {d : Domain} {q q' : Pipeline} {pass : Pass}

/-- A pass is one commit of calls on a builder of the last snapshot. -/
theorem pass_committed (hq : Mirrors d q) (hstep : Adapts q pass q') :
    Committed q.snapshot pass.commit q'.snapshot := by
  obtain ⟨hreparsed, hast, henlarged, ⟨heap, fuel, touched, heap', hadapt⟩, hpublished⟩ := hstep
  have hs' := step_wellIdentified hq.session hreparsed
  rw [hast] at henlarged hadapt
  obtain ⟨draft, hcalls, hpublish⟩ := adapt_calls q.snapshot q'.session.ast pass.report heap
    hs'.positive henlarged.positive
  rw [hpublish] at hadapt
  rw [hpublished]
  exact Committed.of hcalls (publish_eq_done draft fuel _ heap' hadapt)

/-- An entry names a node of the new tree exactly where the call reported it touched. -/
theorem named_node (hq : Mirrors d q) (hstep : Adapts q pass q') {n : MdNode}
    (hn : n ∈ q'.session.ast.nodes) :
    Named pass.commit.delta.diffs (nodeAddress d n.id) ↔ n.id ∈ pass.call.delta.touched := by
  have hs' := step_wellIdentified hq.session hstep.reparsed
  rw [pass_named hq hstep,
    documentOf_ne_iff_edited hq.session hstep.reparsed (hs'.positive n hn),
    edited_iff_reported hq.session hstep.reparsed,
    (step_reports hq.session hstep.reparsed).retired]
  refine or_iff_left (fun h => h.2 ?_)
  exact List.mem_map.mpr ⟨n, hn, rfl⟩

theorem rect_node (hq : Mirrors d q) {n : MdNode} (hn : n ∈ q.session.ast.nodes) :
    q.snapshot.placement.rect (nodeAddress d n.id) = some (rectOf n) := by
  rw [hq.placement, rect_placedAt, find_node (identified q.session hq.session) n hn]
  rfl

theorem rect_elsewhere (hq : Mirrors d q) {x : Address}
    (hx : documentOf d q.session.ast.nodes x = none) : q.snapshot.placement.rect x = none := by
  rw [hq.placement, rect_placedAt, Option.map_eq_none_iff, List.find?_eq_none]
  intro n hn haddress
  exact (documentOf_eq_none x).mp hx n hn (by simpa using haddress)

/-- A box follows from the text of its node, so that none moves without an entry. -/
theorem pass_keepsUnnamed (hq : Mirrors d q) (hstep : Adapts q pass q') :
    KeepsUnnamed q.snapshot pass.commit := by
  intro x hx
  have hq' := pass_mirrors hq hstep
  rw [pass_named hq hstep, not_not] at hx
  rw [← hstep.published]
  cases hdoc : documentOf d q.session.ast.nodes x with
  | none => rw [rect_elsewhere hq hdoc, rect_elsewhere hq' (hx ▸ hdoc)]
  | some r =>
    obtain ⟨o, ho, haddress, hold⟩ := documentOf_project hdoc
    obtain ⟨n, hn, haddress', hnew⟩ := documentOf_project (hx ▸ hdoc)
    have htext : n.text = o.text := by
      have htexts := congrArg Node.text (hnew.trans hold.symm)
      exact htexts
    have holdRect := rect_node hq ho
    have hnewRect := rect_node hq' hn
    rw [haddress] at holdRect
    rw [haddress'] at hnewRect
    rw [holdRect, hnewRect]
    unfold rectOf
    rw [htext]

end Passes

section Elements

variable {d : Domain} {q q' : Pipeline} {pass : Pass} {cut : List UInt64} {svg : Svg}

def drawnElement (d : Domain) (n : MdNode) : List Char :=
  elementText (nodeAddress d n.id) (rectOf n) (hex (project n).paint) n.text.toList

def cutElement (d : Domain) (n : MdNode) : List Char :=
  opening (nodeAddress d n.id) (rectOf n) (hex (project n).paint) ++
    ("<text fill=\"".toList ++ hex (project n).paint)

def heldElement (d : Domain) (cut : List UInt64) (n : MdNode) : List Char :=
  if cut.contains n.id then cutElement d n else drawnElement d n

theorem heldElement_none (n : MdNode) : heldElement d [] n = drawnElement d n := by
  unfold heldElement
  rw [List.contains_nil, if_neg Bool.false_ne_true]

theorem opening_same {o n : MdNode} (hid : o.id = n.id) (hkind : o.kind = n.kind)
    (fill : List Char) :
    opening (nodeAddress d o.id) (rectOf o) fill = opening (nodeAddress d n.id) (rectOf n) fill ∧
      (project o).paint = (project n).paint := by
  unfold project
  rw [hid, hkind]
  exact ⟨rfl, rfl⟩

/-- Cut again or for the first time, with the paint of its kind an element of the node
becomes the one element. -/
theorem rewriteFill_held {o n : MdNode} (hid : o.id = n.id) (hkind : o.kind = n.kind) :
    rewriteFill (heldElement d cut o) (hex (project n).paint) = cutElement d n := by
  obtain ⟨hopening, hpaint⟩ := opening_same (d := d) hid hkind (hex (project n).paint)
  have hbegins : ∃ rest, heldElement d cut o =
      opening (nodeAddress d o.id) (rectOf o) (hex (project o).paint) ++ rest := by
    unfold heldElement
    split
    · exact ⟨_, rfl⟩
    · exact ⟨_, elementText_eq _ _ _ _⟩
  obtain ⟨rest, hrest⟩ := hbegins
  rw [hrest, rewriteFill_opening, hopening, hpaint]
  rfl

theorem cutElement_ne (n : MdNode) : cutElement d n ≠ drawnElement d n := by
  intro h
  have hcut : rewriteFill (heldElement d [] n) (hex (project n).paint) = cutElement d n :=
    rewriteFill_held rfl rfl
  rw [← hcut, heldElement_none] at h
  exact rewriteFill_ne _ _ _ _ _ _ _ _ _ h

structure Retains (d : Domain) (ast : MdAst) (cut : List UInt64) (svg : Svg) : Prop where
  held : ∀ n ∈ ast.nodes,
    svg.elements.lookup (debugAddress (nodeAddress d n.id)) = some (heldElement d cut n)
  other : ∀ key, (∀ n ∈ ast.nodes, key ≠ debugAddress (nodeAddress d n.id)) →
    svg.elements.lookup key = none

theorem elementAt_node (hq : Mirrors d q) {n : MdNode} (hn : n ∈ q.session.ast.nodes) :
    elementAt q.snapshot (nodeAddress d n.id) = some (drawnElement d n) := by
  obtain ⟨arc, harc, hproject⟩ := lookup_node hq hn
  unfold elementAt drawnElement
  rw [harc, rect_node hq hn, Option.map_some, hproject]
  rfl

/-- Apart from its cuts the retained target has what one without cuts has. -/
theorem Retains.lookup_eq_iff {ast : MdAst} {fresh : Svg} (h : Retains d ast cut svg)
    (hfresh : Retains d ast [] fresh) {n : MdNode} (hn : n ∈ ast.nodes) :
    svg.elements.lookup (debugAddress (nodeAddress d n.id)) =
        fresh.elements.lookup (debugAddress (nodeAddress d n.id)) ↔ n.id ∉ cut := by
  rw [h.held n hn, hfresh.held n hn, heldElement_none, Option.some.injEq]
  unfold heldElement
  by_cases hcut : n.id ∈ cut
  · rw [if_pos (List.contains_iff_mem.mpr hcut)]
    exact iff_of_false (cutElement_ne n) (fun h => h hcut)
  · rw [if_neg (fun h => hcut (List.contains_iff_mem.mp h))]
    exact iff_of_true rfl hcut

theorem Retains.eq {ast : MdAst} {svg' : Svg} (h : Retains d ast cut svg)
    (h' : Retains d ast cut svg') : svg.elements = svg'.elements := by
  refine Finmap.ext_lookup (fun key => ?_)
  by_cases hkey : ∃ n ∈ ast.nodes, key = debugAddress (nodeAddress d n.id)
  · obtain ⟨n, hn, rfl⟩ := hkey
    rw [h.held n hn, h'.held n hn]
  · push Not at hkey
    rw [h.other key hkey, h'.other key hkey]

theorem ownKeys (hq : Mirrors d q) : OwnKeys q.snapshot := by
  intro x hx
  obtain ⟨arc, harc⟩ := (mem_addresses q.snapshot x).mp hx
  obtain ⟨n, _, haddress, _⟩ := node_of_lookup hq harc
  rw [hq.domain, ← haddress]
  rfl

/-- A fresh render has no cuts. -/
theorem render_retains (hq : Mirrors d q) :
    ∃ fresh work, Svg.render q.snapshot = .done (fresh, work) ∧
      Retains d q.session.ast [] fresh := by
  obtain ⟨elements, hrender, hholds⟩ := svg_own q.snapshot (ownKeys hq)
  refine ⟨_, _, hrender, fun n hn => ?_, fun key hkey => ?_⟩
  · rw [hholds.lookup_debug, elementAt_node hq hn, heldElement_none]
  · rw [Option.eq_none_iff_forall_ne_some]
    intro text htext
    obtain ⟨a, ha, hat⟩ := (hholds key text).mp htext
    have hlive := (elementAt_isSome_iff q.snapshot a).mp ⟨text, hat⟩
    obtain ⟨arc, harc⟩ := (mem_addresses q.snapshot a).mp hlive
    obtain ⟨n, hn, haddress, _⟩ := node_of_lookup hq harc
    exact hkey n hn (by rw [ha, haddress])

/-- Of what the adapter projects only the size of the text is geometry. -/
theorem reshaped_iff (o n : MdNode) :
    Reshaped (project o) (project n) ↔ o.text.utf8ByteSize ≠ n.text.utf8ByteSize := by
  have hintrinsic : ∀ m : MdNode, (project m).intrinsic = m.text.utf8ByteSize := fun _ => rfl
  have hchildren : ∀ m : MdNode, (project m).children = [] := fun _ => rfl
  have hlines : (project o).lines = (project n).lines := rfl
  have hfragments : ∀ m : MdNode, (project m).fragments = [] := fun _ => rfl
  unfold Reshaped
  simp only [hintrinsic, hchildren, hlines, hfragments, ne_eq, not_true_eq_false, false_or,
    or_false, Nat.cast_inj]

/-- The entry of a node that was touched draws it afresh, or cuts it when its text has as
many bytes as the one before. -/
theorem patched_node (hq : Mirrors d q) (hstep : Adapts q pass q')
    (hsvg : Retains d q.session.ast cut svg) {n : MdNode} (hn : n ∈ q'.session.ast.nodes)
    {entry : Diff} (hentry : entry ∈ pass.commit.delta.diffs)
    (haddress : entry.address = nodeAddress d n.id) :
    patched pass.commit.snapshot entry
        (svg.elements.lookup (debugAddress (nodeAddress d n.id))) =
      some (heldElement d (cutBy q.session.ast q'.session.ast cut) n) := by
  have hq' := pass_mirrors hq hstep
  have hs' := hq'.session
  obtain ⟨_, hreported⟩ := committed_reported (pass_committed hq hstep)
  obtain ⟨arc, harc, hproject⟩ := lookup_node hq' hn
  have htouched := (named_node hq hstep hn).mp ⟨entry, hentry, haddress⟩
  have hdrawn := elementAt_node hq' hn
  rw [hstep.published] at harc hdrawn
  have hgeometry := needsGeometry_iff (hreported.describes.entry entry hentry)
    (haddress ▸ harc)
  unfold patched heldElement
  rw [haddress, harc, contains_cutBy hs' hn]
  simp only [hproject] at hgeometry ⊢
  by_cases hold : ∃ o ∈ q.session.ast.nodes, o.id = n.id
  · obtain ⟨o, ho, hid⟩ := hold
    have htext := (touched_iff hq.session hstep.reparsed hn).mp htouched o ho hid
    obtain ⟨before, hbefore, hbeforeNode⟩ := lookup_node hq ho
    rw [haddress, ← hid, hbefore] at hgeometry
    simp only [Option.some.injEq, forall_eq', hbeforeNode, reshaped_iff] at hgeometry
    rw [isCut_edited hq.session ho hid htext]
    by_cases hsize : o.text.utf8ByteSize = n.text.utf8ByteSize
    · have hkind := kind_eq hq.session (Run.single hstep.reparsed) o ho n hn hid.symm
      rw [if_neg (fun h => hgeometry.mp h hsize), if_pos (by simpa using hsize), ← hid,
        hsvg.held o ho, Option.map_some, rewriteFill_held hid hkind.symm]
    · rw [if_pos (hgeometry.mpr hsize), if_neg (by simpa using hsize), hdrawn]
  · have hnew : ∀ o ∈ q.session.ast.nodes, o.id ≠ n.id := fun o ho hid => hold ⟨o, ho, hid⟩
    have hgone := lookup_new hq (hs'.positive n hn) hnew
    rw [haddress] at hgeometry
    rw [hgone] at hgeometry
    rw [if_pos (hgeometry.mpr (fun b hb => by cases hb)), isCut_new hnew,
      if_neg Bool.false_ne_true, hdrawn]

/-- A node that was not touched is an old node with its text, and keeps its element. -/
theorem held_kept (hq : Mirrors d q) (hstep : Adapts q pass q')
    (hsvg : Retains d q.session.ast cut svg) {n : MdNode} (hn : n ∈ q'.session.ast.nodes)
    (huntouched : n.id ∉ pass.call.delta.touched) :
    svg.elements.lookup (debugAddress (nodeAddress d n.id)) =
      some (heldElement d (cutBy q.session.ast q'.session.ast cut) n) := by
  rw [touched_iff hq.session hstep.reparsed hn] at huntouched
  push Not at huntouched
  obtain ⟨o, ho, hid, htext⟩ := huntouched
  have hkind := kind_eq hq.session (Run.single hstep.reparsed) o ho n hn hid.symm
  have hs' := step_wellIdentified hq.session hstep.reparsed
  rw [← hid, hsvg.held o ho]
  unfold heldElement
  rw [contains_cutBy hs' hn, isCut_kept hq.session ho hid htext, hid]
  unfold cutElement drawnElement project rectOf
  rw [hid, htext, hkind]

/-- Nothing is held under an address that no node has any more. -/
theorem patched_gone (hq : Mirrors d q) (hstep : Adapts q pass q') {entry : Diff}
    (hgone : documentOf d q'.session.ast.nodes entry.address = none) (old : Option (List Char)) :
    patched pass.commit.snapshot entry old = none := by
  have hnone : pass.commit.snapshot.records.lookup entry.address = none := by
    rw [← hstep.published]
    have hvalue := congrFun (pass_mirrors hq hstep).records entry.address
    rw [hgone] at hvalue
    exact Option.map_eq_none_iff.mp hvalue
  unfold patched
  rw [hnone]

/-- What one pass leaves of the retained target. -/
theorem patch_retains (hq : Mirrors d q) (hstep : Adapts q pass q')
    (hsvg : Retains d q.session.ast cut svg) :
    ∃ out, svg.patch pass.commit.snapshot pass.commit.delta = .done out ∧
      Retains d q'.session.ast (cutBy q.session.ast q'.session.ast cut) out.1 := by
  obtain ⟨_, hreported⟩ := committed_reported (pass_committed hq hstep)
  obtain ⟨out, hloop, hnamed, hunnamed⟩ := patch_loop pass.commit.snapshot
    pass.commit.delta.diffs hreported.nodup hreported.own (svg, {})
  have hunnamedAt : ∀ x, ¬ Named pass.commit.delta.diffs x →
      out.1.elements.lookup (debugAddress x) = svg.elements.lookup (debugAddress x) := by
    intro x hx
    exact hunnamed _ (fun entry hentry heq =>
      hx ⟨entry, hentry, (debugAddress_injective heq).symm⟩)
  refine ⟨out, hloop, fun n hn => ?_, fun key hkey => ?_⟩
  · by_cases ha : Named pass.commit.delta.diffs (nodeAddress d n.id)
    · obtain ⟨entry, hentry, haddress⟩ := ha
      have hat := hnamed entry hentry
      rw [haddress] at hat
      rw [hat]
      exact patched_node hq hstep hsvg hn hentry haddress
    · rw [hunnamedAt _ ha]
      exact held_kept hq hstep hsvg hn (fun h => ha ((named_node hq hstep hn).mpr h))
  · by_cases hx : ∃ x, key = debugAddress x
    · obtain ⟨x, rfl⟩ := hx
      have hgone : documentOf d q'.session.ast.nodes x = none :=
        (documentOf_eq_none x).mpr (fun n hn haddress => hkey n hn (by rw [haddress]))
      by_cases ha : Named pass.commit.delta.diffs x
      · obtain ⟨entry, hentry, rfl⟩ := ha
        rw [hnamed entry hentry]
        exact patched_gone hq hstep hgone _
      · rw [hunnamedAt _ ha]
        rw [pass_named hq hstep, not_not, hgone, documentOf_eq_none] at ha
        exact hsvg.other _ (fun o ho heq => ha o ho (debugAddress_injective heq).symm)
    · rw [hunnamed key (fun entry _ heq => hx ⟨_, heq⟩)]
      exact hsvg.other key (fun o _ heq => hx ⟨_, heq⟩)

end Elements

section Runs

variable {domain : Domain} {revision : Revision} {passes : List Pass} {pass : Pass}
variable {q q' : Pipeline}

/-- What is redrawn is what the call reported touched. -/
theorem ncard_redrawn (hq : Mirrors domain q) (hstep : Adapts q pass q') :
    (redrawn q.snapshot pass.commit.snapshot).ncard = pass.call.delta.touched.length := by
  have hq' := pass_mirrors hq hstep
  have hreports := step_reports hq.session hstep.reparsed
  obtain ⟨_, hreported⟩ := committed_reported (pass_committed hq hstep)
  have hset : redrawn q.snapshot pass.commit.snapshot =
      (pass.call.delta.touched.map (nodeAddress domain)).toFinset := by
    ext a
    unfold redrawn
    rw [Set.mem_ofPred_eq, ← named_iff_below hreported, Finset.mem_coe, List.mem_toFinset,
      List.mem_map, ← hstep.published, contains_iff]
    constructor
    · rintro ⟨⟨arc, harc⟩, hnamed⟩
      obtain ⟨n, hn, haddress, _⟩ := node_of_lookup hq' harc
      rw [← haddress] at hnamed ⊢
      exact ⟨n.id, (named_node hq hstep hn).mp hnamed, rfl⟩
    · rintro ⟨id, hid, haddress⟩
      obtain ⟨n, hn, hnid, _⟩ := (hreports.touched id).mp hid
      rw [← haddress, ← hnid]
      obtain ⟨arc, harc, _⟩ := lookup_node hq' hn
      exact ⟨⟨arc, harc⟩, (named_node hq hstep hn).mpr (by rw [hnid]; exact hid)⟩
  have hpositive : ∀ id ∈ pass.call.delta.touched, 0 < id.toNat := by
    intro id hid
    obtain ⟨n, hn, hnid, _⟩ := (hreports.touched id).mp hid
    rw [← hnid]
    exact hq'.session.positive n hn
  have hnodup := nodup_addresses_of_ids domain hreports.touchedOnce hpositive
  rw [hset, Set.ncard_coe_finset, List.toFinset_card_of_nodup hnodup, List.length_map]

/-- The fold over the passes ends at the tree of the run, and cuts none but its nodes. -/
theorem run_cutting (hrun : Run Adapts (opened domain revision) passes q) :
    (cutting passes).1 = q.session.ast ∧ ∀ id ∈ (cutting passes).2, id ∈ q.session.ast.ids := by
  rcases hrun.inv with ⟨rfl, rfl⟩ | ⟨left, pass, u, rfl, _, hstep⟩
  · exact ⟨rfl, fun id hid => absurd hid List.not_mem_nil⟩
  · unfold cutting
    rw [List.foldl_append]
    refine ⟨hstep.ast, fun id hid => ?_⟩
    rw [← hstep.ast]
    exact (List.filter_sublist.map MdNode.id).subset hid

theorem cutting_snoc (hrun : Run Adapts (opened domain revision) passes q)
    (hstep : Adapts q pass q') : (cutting (passes ++ [pass])).2 =
      cutBy q.session.ast q'.session.ast (cutting passes).2 := by
  rw [← (run_cutting hrun).1, ← hstep.ast]
  unfold cutting
  rw [List.foldl_append]
  rfl

/-- One pass patches what it cuts, and emits once for each node reported touched. -/
theorem pass_patches (hq : Mirrors domain q) (hstep : Adapts q pass q') {cut : List UInt64}
    {svg : Svg} (hsvg : Retains domain q.session.ast cut svg) :
    ∃ out, svg.patch pass.commit.snapshot pass.commit.delta = .done out ∧
      Retains domain q'.session.ast (cutBy q.session.ast q'.session.ast cut) out.1 ∧
      out.2.emitted = pass.call.delta.touched.length := by
  obtain ⟨_, hreported⟩ := committed_reported (pass_committed hq hstep)
  obtain ⟨out, hpatch, hretains⟩ := patch_retains hq hstep hsvg
  obtain ⟨_, hwork⟩ := patch_work pass.commit.snapshot pass.commit.delta.diffs
    hreported.own (svg, {})
  have hout := hpatch.symm.trans hwork
  rw [countP_live hreported, ncard_redrawn hq hstep, Outcome.done.injEq] at hout
  refine ⟨out, hpatch, hretains, ?_⟩
  rw [hout]
  exact Nat.zero_add _

/-- One pass repaints the draw list to the next render, and emits as much. -/
theorem pass_repaints (hq : Mirrors domain q) (hstep : Adapts q pass q') :
    ∃ work region, (⟨sortByKey paintKey (drawn q.snapshot)⟩ : Raster).repaint
        pass.commit.snapshot pass.commit.delta =
          .done (work, region, ⟨sortByKey paintKey (drawn q'.snapshot)⟩) ∧
      work.emitted = pass.call.delta.touched.length := by
  have hcommitted := pass_committed hq hstep
  obtain ⟨_, hreported⟩ := committed_reported hcommitted
  obtain ⟨work, region, hrepaint⟩ :=
    repaint_rendered pass.commit hcommitted (pass_keepsUnnamed hq hstep)
  obtain ⟨r, hloop, hwork⟩ := repaint_work pass.commit.snapshot pass.commit.delta.diffs
    hreported.own { ops := sortByKey paintKey (drawn q.snapshot) }
  have hone : r.work = work :=
    congrArg Prod.fst (Outcome.done.inj ((repaint_eq hloop).symm.trans hrepaint))
  rw [countP_live hreported, ncard_redrawn hq hstep, hone] at hwork
  refine ⟨work, region, ?_, ?_⟩
  · rw [hrepaint, hstep.published]
  · rw [hwork]
    exact Nat.zero_add _

/-- What both targets hold after a run, and what they emitted on the way. -/
theorem run_targets (hrun : Run Adapts (opened domain revision) passes q) :
    ∃ patched painted, patchAll (⟨∅⟩, {}) (passes.map Pass.commit) = .done patched ∧
      paintAll (⟨[]⟩, {}) (passes.map Pass.commit) = .done painted ∧
      Retains domain q.session.ast (cutting passes).2 patched.1 ∧
      painted.1 = ⟨sortByKey paintKey (drawn q.snapshot)⟩ ∧
      patched.2.emitted = (passes.map (fun pass => pass.call.delta.touched.length)).sum ∧
      painted.2.emitted = patched.2.emitted := by
  induction hrun with
  | nil =>
    refine ⟨_, _, rfl, rfl, ⟨fun n hn => absurd hn List.not_mem_nil, fun key _ => ?_⟩,
      rfl, rfl, rfl⟩
    exact Finmap.lookup_empty _
  | @snoc u v passes pass hrun hstep ih =>
    obtain ⟨patched, painted, hpatched, hpainted, hretains, hdraws, hemitted, hsame⟩ := ih
    obtain ⟨out, hpatch, hnext, hout⟩ := pass_patches (run_mirrors hrun) hstep hretains
    obtain ⟨work, region, hrepaint, hwork⟩ := pass_repaints (run_mirrors hrun) hstep
    rw [← hdraws] at hrepaint
    refine ⟨(out.1, add patched.2 out.2), (⟨sortByKey paintKey (drawn v.snapshot)⟩,
      add painted.2 work), ?_, ?_, ?_, rfl, ?_, ?_⟩
    · rw [List.map_append, List.map_singleton]
      exact patchAll_snoc hpatched hpatch
    · rw [List.map_append, List.map_singleton]
      exact paintAll_snoc hpainted hrepaint
    · rw [cutting_snoc hrun hstep]
      exact hnext
    · rw [List.map_append, List.sum_append, ← hemitted, List.map_singleton, List.sum_singleton,
        ← hout]
      rfl
    · change painted.2.emitted + work.emitted = patched.2.emitted + out.2.emitted
      rw [hsame, hwork, hout]

end Runs

/-- From the source to the targets, over every run of reparses: the draw list that follows
the deltas is the render of the last snapshot; the retained target has the render's element
for every node but those it cut, and is the render when it cut none; and both emitted as
many nodes as the frontend reported touched. -/
theorem targets_show_source (domain : Domain) (revision : Revision) (passes : List Pass)
    (q : Pipeline) (hrun : Run Adapts (opened domain revision) passes q) :
    ∃ patched painted fresh work work',
      patchAll (⟨∅⟩, {}) (passes.map Pass.commit) = .done patched ∧
      paintAll (⟨[]⟩, {}) (passes.map Pass.commit) = .done painted ∧
      Svg.render q.snapshot = .done (fresh, work) ∧
      Raster.render q.snapshot = .done (painted.1, work') ∧
      (∀ n ∈ q.session.ast.nodes,
        patched.1.elements.lookup (debugAddress (nodeAddress domain n.id)) =
            fresh.elements.lookup (debugAddress (nodeAddress domain n.id)) ↔
          n.id ∉ (cutting passes).2) ∧
      (patched.1.elements = fresh.elements ↔ (cutting passes).2 = []) ∧
      patched.2.emitted = (passes.map (fun pass => pass.call.delta.touched.length)).sum ∧
      painted.2.emitted = patched.2.emitted := by
  obtain ⟨patched, painted, hpatched, hpainted, hretains, hdraws, hemitted, hsame⟩ :=
    run_targets hrun
  have hq := run_mirrors hrun
  obtain ⟨fresh, work, hsvg, hfresh⟩ := render_retains hq
  have hraster := raster_own q.snapshot (ownKeys hq)
  rw [← hdraws] at hraster
  refine ⟨patched, painted, fresh, work, _, hpatched, hpainted, hsvg, hraster,
    fun n hn => hretains.lookup_eq_iff hfresh hn, ⟨fun heq => ?_, fun hnone => ?_⟩,
    hemitted, hsame⟩
  · rw [List.eq_nil_iff_forall_not_mem]
    intro id hid
    obtain ⟨n, hn, hone⟩ := List.mem_map.mp ((run_cutting hrun).2 id hid)
    rw [← hone] at hid
    exact (hretains.lookup_eq_iff hfresh hn).mp (by rw [heq]) hid
  · rw [hnone] at hretains
    exact hretains.eq hfresh

section Example

/-- One letter for another: the draw list has the new one, and the element has none. -/
theorem targets_show_source_edited :
    ∃ q patched painted fresh work work', patchAll (⟨∅⟩, {}) [drafting.commit, editing.commit] =
        .done patched ∧
      paintAll (⟨[]⟩, {}) [drafting.commit, editing.commit] = .done painted ∧
      Svg.render q = .done (fresh, work) ∧ Raster.render q = .done (painted.1, work') ∧
      patched.1.elements ≠ fresh.elements ∧ painted.2.emitted = 2 := by
  have hstep : Step drafted.session editing.call (paragraphs 1 "b\n" [lineB]) := by
    unfold Step
    decide
  have hreport : Enlarges editing.ast editing.call.delta editing.report :=
    ⟨List.forall_mem_singleton.mpr (by decide), List.forall_mem_nil _,
      List.forall_mem_singleton.mpr (by decide), List.forall_mem_singleton.mpr (by decide)⟩
  have hediting : Adapts drafted editing ⟨paragraphs 1 "b\n" [lineB], editing.commit.snapshot⟩ :=
    ⟨hstep, rfl, hreport, ⟨⟨1⟩, 2, _, _, rfl⟩, rfl⟩
  obtain ⟨patched, painted, fresh, work, work', hpatched, hpainted, hsvg, hraster, _, hiff,
    hemitted, hsame⟩ := targets_show_source dom (rev 1) _ _
      ((Run.single drafting_adapts).snoc hediting)
  have hcut : (cutting [drafting, editing]).2 ≠ [] := by decide
  exact ⟨_, patched, painted, fresh, work, work', hpatched, hpainted, hsvg, hraster,
    fun heq => hcut (hiff.mp heq), hsame.trans hemitted⟩

end Example

end CompositionIr.PipelineTargets
