import Mathlib.Data.Set.Card
import CompositionIr.DroppedEntries
import CompositionIr.Pages
import CompositionIr.SvgPatching

/-!
The three targets over a run of commits. Which records each of them holds is decided by the
published state alone, wherever boxes move and whatever became of the elements that were cut
at their fill. The two that follow deltas do the same work, and it is that of the changes.
-/

namespace CompositionIr.Targets

open Outcomes ChildGraphs Transitions Addresses Records Placements Snapshots Deltas Commits
open PublishedStates DeltaSpec DebugText KeyedMaps Sorting Backends Renders Rasters
open DroppedEntries SvgPatching

section Following

def add (w w' : Work) : Work := ⟨w.emitted + w'.emitted, w.relaidOut + w'.relaidOut⟩

def patchAll (out : Svg × Work) (commits : List Commit) : Eval (Svg × Work) :=
  commits.foldlM (fun out c => do
    let (svg, work) ← out.1.patch c.snapshot c.delta
    return (svg, add out.2 work)) out

def paintAll (out : Raster × Work) (commits : List Commit) : Eval (Raster × Work) :=
  commits.foldlM (fun out c => do
    let (work, _, raster) ← out.1.repaint c.snapshot c.delta
    return (raster, add out.2 work)) out

variable {commits : List Commit} {c : Commit}

theorem patchAll_cons {out : Svg × Work} {svg : Svg} {work : Work}
    (hpatch : out.1.patch c.snapshot c.delta = .done (svg, work)) :
    patchAll out (c :: commits) = patchAll (svg, add out.2 work) commits := by
  unfold patchAll
  rw [List.foldlM_cons, hpatch]
  rfl

theorem patchAll_snoc {out out' : Svg × Work} {svg : Svg} {work : Work}
    (hcommits : patchAll out commits = .done out')
    (hpatch : out'.1.patch c.snapshot c.delta = .done (svg, work)) :
    patchAll out (commits ++ [c]) = .done (svg, add out'.2 work) := by
  unfold patchAll at hcommits ⊢
  rw [List.foldlM_append, hcommits, Outcome.done_bind, List.foldlM_cons, hpatch]
  rfl

theorem paintAll_cons {out : Raster × Work} {raster : Raster} {work : Work} {region : Region}
    (hrepaint : out.1.repaint c.snapshot c.delta = .done (work, region, raster)) :
    paintAll out (c :: commits) = paintAll (raster, add out.2 work) commits := by
  unfold paintAll
  rw [List.foldlM_cons, hrepaint]
  rfl

theorem paintAll_snoc {out out' : Raster × Work} {raster : Raster} {work : Work} {region : Region}
    (hcommits : paintAll out commits = .done out')
    (hrepaint : out'.1.repaint c.snapshot c.delta = .done (work, region, raster)) :
    paintAll out (commits ++ [c]) = .done (raster, add out'.2 work) := by
  unfold paintAll at hcommits ⊢
  rw [List.foldlM_append, hcommits, Outcome.done_bind, List.foldlM_cons, hrepaint]
  rfl

end Following

section Existence

variable {s t : Snapshot} {diffs : List Diff}

def HoldsKeys (s : Snapshot) (svg : Svg) : Prop :=
  ∀ key, (svg.elements.lookup key).isSome = true ↔
    ∃ a, s.contains a = true ∧ key = debugAddress a

def HoldsOps (s : Snapshot) (raster : Raster) : Prop :=
  ∃ f, Draws f raster.ops ∧ (∀ a o, f a = some o → o.address = a) ∧
    ∀ a, (f a).isSome = s.contains a

theorem isSome_elementAt (s : Snapshot) (a : Address) :
    (elementAt s a).isSome = s.contains a := by
  unfold elementAt Snapshot.contains
  rw [Option.isSome_map]

theorem isSome_opAt (s : Snapshot) (a : Address) : (opAt s a).isSome = s.contains a := by
  unfold opAt Snapshot.contains
  rw [Option.isSome_map]

/-- Without an entry an address is live on both sides or on neither. -/
theorem contains_of_unnamed (h : Reported s t diffs) {a : Address} (ha : ¬ Named diffs a) :
    t.contains a = s.contains a := by
  have hstate := congrArg Option.isSome (h.state_eq ha)
  unfold Snapshot.contains
  simpa [graph] using hstate.symm

/-- An entry leaves an element exactly where its address is live. -/
theorem isSome_patched (h : Reported s t diffs) {d : Diff} (hd : d ∈ diffs)
    (existing : Option (List Char)) (hex : existing.isSome = s.contains d.address) :
    (SvgPatching.patched t d existing).isSome = t.contains d.address := by
  unfold SvgPatching.patched
  cases hn : t.records.lookup d.address with
  | none => exact ((contains_eq_false_iff t _).mpr hn).symm
  | some n =>
    have hlive : t.contains d.address = true := (contains_iff t _).mpr ⟨n, hn⟩
    by_cases hgeometry : needsGeometry d.parts = true
    · simp only [hgeometry, if_true, isSome_elementAt]
    · -- an element is cut only where the record was live before
      have hnot := hgeometry
      rw [needsGeometry_iff (h.describes.entry d hd) hn] at hnot
      push Not at hnot
      obtain ⟨b, hb, _⟩ := hnot
      have hbefore : s.contains d.address = true := (contains_iff s _).mpr ⟨b, hb⟩
      simp only [hgeometry, Bool.false_eq_true, if_false, Option.isSome_map, hex, hbefore, hlive]

theorem HoldsKeys.isSome_lookup {svg : Svg} (hsvg : HoldsKeys s svg) (a : Address) :
    (svg.elements.lookup (debugAddress a)).isSome = s.contains a := by
  rw [Bool.eq_iff_iff, hsvg]
  constructor
  · rintro ⟨b, hb, heq⟩
    rwa [debugAddress_injective heq]
  · exact fun ha => ⟨a, ha, rfl⟩

/-- A target holds the keys of the live addresses when it does so address by address, and
nothing under any other key. -/
theorem holdsKeys_of_lookup {svg : Svg}
    (haddress : ∀ a, (svg.elements.lookup (debugAddress a)).isSome = s.contains a)
    (hother : ∀ key, (¬ ∃ a, key = debugAddress a) → svg.elements.lookup key = none) :
    HoldsKeys s svg := by
  intro key
  constructor
  · intro hkey
    by_cases ha : ∃ a, key = debugAddress a
    · obtain ⟨a, rfl⟩ := ha
      exact ⟨a, by rw [← haddress, hkey], rfl⟩
    · rw [hother key ha] at hkey
      cases hkey
  · rintro ⟨a, ha, rfl⟩
    rw [haddress, ha]

theorem HoldsKeys.lookup_none {svg : Svg} (hsvg : HoldsKeys s svg) {key : List Char}
    (hkey : ¬ ∃ a, key = debugAddress a) : svg.elements.lookup key = none := by
  rw [← Option.not_isSome_iff_eq_none, hsvg]
  rintro ⟨a, _, rfl⟩
  exact hkey ⟨a, rfl⟩

theorem render_holdsKeys {elements : KeyedMap (List Char) (List Char)}
    (h : HoldsElements s elements) : HoldsKeys s ⟨elements⟩ := by
  refine holdsKeys_of_lookup (fun a => ?_) (fun key hkey => h.lookup_none hkey)
  rw [h.lookup_debug, isSome_elementAt]

theorem patch_holdsKeys (h : Reported s t diffs) (svg : Svg) (hsvg : HoldsKeys s svg)
    (work : Work) : ∃ out, diffs.foldlM (Svg.patchOne t) (svg, work) = .done out ∧
      HoldsKeys t out.1 := by
  obtain ⟨out, hloop, hnamed, hunnamed⟩ := patch_loop t diffs h.nodup h.own (svg, work)
  refine ⟨out, hloop, holdsKeys_of_lookup (fun a => ?_) (fun key hkey => ?_)⟩
  · by_cases ha : Named diffs a
    · obtain ⟨d, hd, rfl⟩ := ha
      rw [hnamed d hd, isSome_patched h hd _ (hsvg.isSome_lookup d.address)]
    · have hother : ∀ d ∈ diffs, debugAddress a ≠ debugAddress d.address :=
        fun d hd heq => ha ⟨d, hd, (debugAddress_injective heq).symm⟩
      rw [hunnamed _ hother, hsvg.isSome_lookup, contains_of_unnamed h ha]
  · rw [hunnamed key (fun d _ heq => hkey ⟨_, heq⟩), hsvg.lookup_none hkey]

theorem render_holdsOps (s : Snapshot) : HoldsOps s ⟨sortByKey paintKey (drawn s)⟩ :=
  ⟨opAt s, draws_render s, fun _ _ => address_of_opAt, isSome_opAt s⟩

/-- The draw list has each live address once, and no other. -/
theorem HoldsOps.addresses {raster : Raster} (h : HoldsOps s raster) :
    (raster.ops.map DrawOp.address).Nodup ∧
      ∀ a, a ∈ raster.ops.map DrawOp.address ↔ s.contains a = true := by
  obtain ⟨f, hdraws, haddress, hlive⟩ := h
  refine ⟨hdraws.nodup, fun a => ?_⟩
  rw [← hlive, Option.isSome_iff_exists, List.mem_map]
  constructor
  · rintro ⟨o, ho, rfl⟩
    exact ⟨o, (hdraws.mem o).mp ho⟩
  · rintro ⟨o, ho⟩
    have ha := haddress a o ho
    exact ⟨o, (hdraws.mem o).mpr (by rw [ha, ho]), ha⟩

theorem repaint_holdsOps {c : Commit} (h : Reported s c.snapshot c.delta.diffs) (raster : Raster)
    (hraster : HoldsOps s raster) :
    ∃ work region next, raster.repaint c.snapshot c.delta = .done (work, region, next) ∧
      HoldsOps c.snapshot next := by
  obtain ⟨f, hdraws, haddress, hlive⟩ := hraster
  obtain ⟨work, region, ops, hrepaint, hafter⟩ :=
    repaint_draws c.snapshot c.delta raster h.nodup h.own haddress hdraws
  refine ⟨work, region, _, hrepaint, _, hafter.of_perm (perm_sortByKey paintKey ops), ?_, ?_⟩
  · intro a o ho
    unfold followed at ho
    split at ho
    · exact address_of_opAt ho
    · exact haddress a o ho
  · intro a
    unfold followed
    split
    · exact isSome_opAt c.snapshot a
    · rename_i hnot
      have hun : ¬ Named c.delta.diffs a := fun ⟨d, hd, hda⟩ =>
        hnot (List.mem_map.mpr ⟨d, hd, hda⟩)
      rw [hlive, contains_of_unnamed h hun]

end Existence

section Work

variable {s t : Snapshot} {diffs : List Diff}

/-- The live addresses at or below which something changed. -/
def redrawn (s t : Snapshot) : Set Address :=
  {a | t.contains a = true ∧ ChangedBelow s.records t.records a}

/-- The live addresses whose record is new or changed its shape. -/
def relaid (s t : Snapshot) : Set Address :=
  {a | ∃ n, t.records.lookup a = some n ∧
    ∀ b, s.records.lookup a = some b → Reshaped b.node n.node}

theorem countP_eq_ncard (hnodup : (diffs.map Diff.address).Nodup) (p : Diff → Bool) :
    diffs.countP p = {a | ∃ d ∈ diffs, p d = true ∧ d.address = a}.ncard := by
  have hset : {a | ∃ d ∈ diffs, p d = true ∧ d.address = a} =
      ((diffs.filter p).map Diff.address).toFinset := by
    ext a
    simp only [Set.mem_ofPred_eq, Finset.mem_coe, List.mem_toFinset, List.mem_map,
      List.mem_filter, and_assoc]
  have hsub : ((diffs.filter p).map Diff.address).Sublist (diffs.map Diff.address) :=
    List.filter_sublist.map _
  rw [hset, Set.ncard_coe_finset, List.toFinset_card_of_nodup (hsub.nodup hnodup),
    List.length_map, List.countP_eq_length_filter]

theorem named_iff_below (h : Reported s t diffs) (a : Address) :
    Named diffs a ↔ ChangedBelow s.records t.records a := by
  rw [named_iff h.describes, ← differs_iff_changedBelow]

theorem countP_live (h : Reported s t diffs) :
    diffs.countP (fun d => t.contains d.address) = (redrawn s t).ncard := by
  rw [countP_eq_ncard h.nodup]
  congr 1
  ext a
  unfold redrawn
  rw [Set.mem_ofPred_eq, Set.mem_ofPred_eq, ← named_iff_below h]
  constructor
  · rintro ⟨d, hd, hlive, rfl⟩
    exact ⟨hlive, d, hd, rfl⟩
  · rintro ⟨hlive, d, hd, rfl⟩
    exact ⟨d, hd, hlive, rfl⟩

theorem changedBelow_of_relaid {a : Address} (ha : a ∈ relaid s t) :
    ChangedBelow s.records t.records a := by
  obtain ⟨n, hn, hshape⟩ := ha
  refine ⟨a, Relation.ReflTransGen.refl, ?_⟩
  rw [← state_ne_iff, state_of_lookup hn]
  intro hstate
  obtain ⟨b, hb, hproj⟩ := (state_eq_some _ _ _).mp hstate
  have hsame : ∀ q, b.node.projection q = n.node.projection q := fun q => congrFun hproj q
  rcases hshape b hb with h | h | h | h
  · exact h (hsame Part.structure)
  · exact h (hsame Part.intrinsicLayout)
  · exact h (hsame Part.lineLayout)
  · exact h (hsame Part.fragmentation)

theorem countP_relaid (h : Reported s t diffs) :
    diffs.countP (fun d => t.contains d.address && needsGeometry d.parts) =
      (relaid s t).ncard := by
  rw [countP_eq_ncard h.nodup]
  congr 1
  ext a
  rw [Set.mem_ofPred_eq]
  constructor
  · rintro ⟨d, hd, hboth, rfl⟩
    rw [Bool.and_eq_true] at hboth
    obtain ⟨n, hn⟩ := (contains_iff t _).mp hboth.1
    exact ⟨n, hn, (needsGeometry_iff (h.describes.entry d hd) hn).mp hboth.2⟩
  · intro ha
    obtain ⟨d, hd, rfl⟩ := (named_iff_below h a).mpr (changedBelow_of_relaid ha)
    obtain ⟨n, hn, hshape⟩ := ha
    refine ⟨d, hd, ?_, rfl⟩
    rw [Bool.and_eq_true]
    exact ⟨(contains_iff t _).mpr ⟨n, hn⟩,
      (needsGeometry_iff (h.describes.entry d hd) hn).mpr hshape⟩

/-- An entry of a live address is emitted, and laid out when it names geometry. -/
theorem patchOne_work (t : Snapshot) (d : Diff) (hown : d.address.domain = t.version.domain)
    (out : Svg × Work) :
    ∃ svg, Svg.patchOne t out d = .done (svg,
      ⟨out.2.emitted + (if t.contains d.address then 1 else 0),
        out.2.relaidOut + (if t.contains d.address && needsGeometry d.parts then 1 else 0)⟩) := by
  obtain ⟨svg, work⟩ := out
  unfold Svg.patchOne Snapshot.contains
  simp only [SubtreeComparison.get_own t _ hown, Outcome.done_bind]
  cases hn : t.records.lookup d.address with
  | none => exact ⟨_, rfl⟩
  | some n =>
    obtain ⟨text, htext⟩ := (elementAt_isSome_iff t d.address).mpr
      ((mem_addresses t d.address).mpr ⟨n, hn⟩)
    by_cases hgeometry : needsGeometry d.parts = true
    · simp only [hgeometry, if_true, element_own t _ hown text htext, Outcome.done_bind]
      exact ⟨_, rfl⟩
    · simp only [hgeometry, Bool.false_eq_true, if_false, Bool.and_false]
      cases svg.elements.lookup (debugAddress d.address) with
      | none => exact ⟨_, rfl⟩
      | some existing => exact ⟨_, rfl⟩

theorem repaintOne_work (t : Snapshot) (d : Diff) (hown : d.address.domain = t.version.domain)
    (r : Raster.Repainting) :
    ∃ r', Raster.repaintOne t r d = .done r' ∧
      r'.work = ⟨r.work.emitted + (if t.contains d.address then 1 else 0), r.work.relaidOut⟩ := by
  unfold Raster.repaintOne
  simp only [op_own t _ hown, Outcome.done_bind]
  rw [← isSome_opAt]
  cases hfind : r.ops.findIdx? (fun o => o.address == d.address) with
  | none =>
    cases opAt t d.address with
    | none => exact ⟨_, rfl, rfl⟩
    | some next => exact ⟨_, rfl, rfl⟩
  | some pos =>
    cases opAt t d.address with
    | none => exact ⟨_, rfl, rfl⟩
    | some next => exact ⟨_, rfl, rfl⟩

/-- The loops over the entries, from whatever the targets held. -/
theorem patch_work (t : Snapshot) (diffs : List Diff)
    (hown : ∀ d ∈ diffs, d.address.domain = t.version.domain) (out : Svg × Work) :
    ∃ svg, diffs.foldlM (Svg.patchOne t) out = .done (svg,
      ⟨out.2.emitted + diffs.countP (fun d => t.contains d.address), out.2.relaidOut +
        diffs.countP (fun d => t.contains d.address && needsGeometry d.parts)⟩) := by
  induction diffs generalizing out with
  | nil => exact ⟨out.1, rfl⟩
  | cons d rest ih =>
    obtain ⟨svg, hone⟩ := patchOne_work t d (hown d (List.mem_cons_self ..)) out
    obtain ⟨svg', hrest⟩ := ih (fun d' hd' => hown d' (List.mem_cons_of_mem _ hd')) _
    refine ⟨svg', ?_⟩
    rw [List.foldlM_cons, hone, Outcome.done_bind, hrest, List.countP_cons, List.countP_cons]
    simp only [Outcome.done.injEq, Prod.mk.injEq, Work.mk.injEq, true_and]
    omega

/-- What a repaint returns, from its loop. -/
theorem repaint_eq {raster : Raster} {t : Snapshot} {delta : Delta} {r : Raster.Repainting}
    (hloop : delta.diffs.foldlM (Raster.repaintOne t) { ops := raster.ops } = .done r) :
    raster.repaint t delta = .done (r.work, r.region, ⟨sortByKey paintKey r.ops⟩) := by
  unfold Raster.repaint
  rw [hloop]
  rfl

theorem repaint_work (t : Snapshot) (diffs : List Diff)
    (hown : ∀ d ∈ diffs, d.address.domain = t.version.domain) (r : Raster.Repainting) :
    ∃ r', diffs.foldlM (Raster.repaintOne t) r = .done r' ∧
      r'.work = ⟨r.work.emitted + diffs.countP (fun d => t.contains d.address),
        r.work.relaidOut⟩ := by
  induction diffs generalizing r with
  | nil => exact ⟨r, rfl, rfl⟩
  | cons d rest ih =>
    obtain ⟨r₁, hone, hwork₁⟩ := repaintOne_work t d (hown d (List.mem_cons_self ..)) r
    obtain ⟨r', hrest, hwork⟩ := ih (fun d' hd' => hown d' (List.mem_cons_of_mem _ hd')) r₁
    refine ⟨r', ?_, ?_⟩
    · rw [List.foldlM_cons, hone]
      exact hrest
    · rw [hwork, hwork₁, List.countP_cons]
      simp only [Work.mk.injEq, and_true]
      omega

end Work

section Runs

variable {s t : Snapshot} {commits : List Commit}

/-- Whatever happened to boxes and elements, a run leaves what exists as published. -/
theorem run_holds (hrun : Run Committed s commits t) (hs : OwnKeys s) {svg : Svg}
    (hsvg : HoldsKeys s svg) {raster : Raster} (hraster : HoldsOps s raster) :
    OwnKeys t ∧ (∃ out, patchAll (svg, {}) commits = .done out ∧ HoldsKeys t out.1) ∧
      ∃ out, paintAll (raster, {}) commits = .done out ∧ HoldsOps t out.1 := by
  induction hrun with
  | nil => exact ⟨hs, ⟨_, rfl, hsvg⟩, _, rfl, hraster⟩
  | @snoc u v commits c hrun hstep ih =>
    obtain ⟨_, ⟨out, hpatched, hkeys⟩, out', hpainted, hops⟩ := ih
    obtain ⟨heq, hreported⟩ := committed_reported hstep
    obtain ⟨next, hpatch, hkeys'⟩ := patch_holdsKeys hreported out.1 hkeys {}
    obtain ⟨work, region, next', hrepaint, hops'⟩ := repaint_holdsOps hreported out'.1 hops
    rw [heq]
    exact ⟨hreported.keys, ⟨_, patchAll_snoc hpatched hpatch, hkeys'⟩,
      _, paintAll_snoc hpainted hrepaint, hops'⟩

def total (count : Snapshot → Snapshot → ℕ) : Snapshot → List Commit → ℕ
  | _, [] => 0
  | s, c :: rest => count s c.snapshot + total count c.snapshot rest

theorem run_work (hrun : Run Committed s commits t) (out : Svg × Work) (out' : Raster × Work) :
    (∃ svg, patchAll out commits = .done (svg,
      ⟨out.2.emitted + total (fun s t => (redrawn s t).ncard) s commits,
        out.2.relaidOut + total (fun s t => (relaid s t).ncard) s commits⟩)) ∧
    ∃ raster, paintAll out' commits = .done (raster,
      ⟨out'.2.emitted + total (fun s t => (redrawn s t).ncard) s commits, out'.2.relaidOut⟩) := by
  induction commits generalizing s out out' with
  | nil => exact ⟨⟨out.1, rfl⟩, out'.1, rfl⟩
  | cons c rest ih =>
    obtain ⟨u, hstep, hrest⟩ := Run.cons_iff.mp hrun
    obtain ⟨heq, hreported⟩ := committed_reported hstep
    rw [heq] at hrest
    obtain ⟨next, hpatch⟩ := patch_work c.snapshot c.delta.diffs hreported.own (out.1, {})
    obtain ⟨r, hloop, hwork⟩ :=
      repaint_work c.snapshot c.delta.diffs hreported.own { ops := out'.1.ops }
    rw [countP_live hreported, countP_relaid hreported] at hpatch
    rw [countP_live hreported] at hwork
    have hrepaint := repaint_eq hloop
    obtain ⟨⟨svg, hsvg⟩, raster, hraster⟩ := ih hrest (next, add out.2 _)
      (⟨sortByKey paintKey r.ops⟩, add out'.2 r.work)
    refine ⟨⟨svg, ?_⟩, raster, ?_⟩
    · rw [patchAll_cons hpatch]
      refine hsvg.trans ?_
      simp only [add, total, Nat.zero_add, Nat.add_assoc]
    · rw [paintAll_cons hrepaint]
      refine hraster.trans ?_
      simp only [add, hwork, total, Nat.zero_add, Nat.add_zero, Nat.add_assoc]

theorem total_le (hrun : Run Committed s commits t) :
    total (fun s t => (redrawn s t).ncard) s commits ≤
      (commits.map (fun c => c.delta.diffs.length)).sum := by
  induction commits generalizing s with
  | nil => exact Nat.le_refl 0
  | cons c rest ih =>
    obtain ⟨u, hstep, hrest⟩ := Run.cons_iff.mp hrun
    obtain ⟨heq, hreported⟩ := committed_reported hstep
    rw [heq] at hrest
    have hone : (redrawn s c.snapshot).ncard ≤ c.delta.diffs.length := by
      rw [← countP_live hreported]
      exact List.countP_le_length
    have hsum := ih hrest
    rw [List.map_cons, List.sum_cons]
    unfold total
    omega

end Runs

/-- Over every run of commits, whatever moves and whatever an element lost when it was cut,
the retained target holds an element for each live address and no other, the draw list one
operation, and the paginated target a resource or a place on the fragments of the record. -/
theorem targets_agree {s t : Snapshot} {commits : List Commit} {svg : Svg} {raster : Raster}
    {work work' : Work} (hrun : Run Committed s commits t)
    (hsvg : Svg.render s = .done (svg, work))
    (hraster : Raster.render s = .done (raster, work')) :
    ∃ patched painted paged, patchAll (svg, {}) commits = .done patched ∧
      paintAll (raster, {}) commits = .done painted ∧ Paged.render t = .done paged ∧
      (painted.1.ops.map DrawOp.address).Nodup ∧
      (∀ a, a ∈ painted.1.ops.map DrawOp.address ↔ t.contains a = true) ∧
      (∀ key, (patched.1.elements.lookup key).isSome = true ↔
        ∃ a, t.contains a = true ∧ key = debugAddress a) ∧
      (∀ a, a ∈ paged.1.resources ↔ t.contains a = true ∧ a.space = Space.resource) ∧
      ∀ a f, a ∈ listed paged.1.pages f ↔
        t.contains a = true ∧ a.space ≠ Space.resource ∧ f ∈ fragmentsOf t a := by
  have hs : OwnKeys s := ownKeys_of_done svg_foreign hsvg
  obtain ⟨elements, hrendered, helements⟩ := svg_own s hs
  rw [hrendered] at hsvg
  rw [raster_own s hs] at hraster
  obtain ⟨hsvg, _⟩ := Prod.mk.inj (Outcome.done.inj hsvg)
  obtain ⟨hraster, _⟩ := Prod.mk.inj (Outcome.done.inj hraster)
  have hkeys : HoldsKeys s svg := by
    rw [← hsvg]
    exact render_holdsKeys helements
  have hops : HoldsOps s raster := by
    rw [← hraster]
    exact render_holdsOps s
  obtain ⟨ht, ⟨patched, hpatched, hkeys'⟩, painted, hpainted, hops'⟩ :=
    run_holds hrun hs hkeys hops
  obtain ⟨paged, hpaged, hholds⟩ := paged_own t ht
  obtain ⟨hnodup, hdrawn⟩ := hops'.addresses
  refine ⟨patched, painted, _, hpatched, hpainted, hpaged, hnodup, hdrawn, hkeys', ?_, ?_⟩
  · intro a
    rw [hholds.resources, mem_addresses, contains_iff]
  · intro a f
    rw [hholds.listed, mem_sortByKey, ← List.count_pos_iff, Pages.count_landing, contains_iff,
      ← mem_addresses]
    unfold Pages.times
    by_cases ha : a ∈ t.addresses
    · by_cases hspace : a.space = Space.resource
      · simp [ha, hspace]
      · simp [ha, hspace, List.count_pos_iff]
    · simp [ha]

section Example

/-- The record that moved and was cut is still one element and one operation. -/
theorem targets_agree_swapped :
    ∃ svg raster work work' patched painted, Svg.render column = .done (svg, work) ∧
      Raster.render column = .done (raster, work') ∧
      patchAll (svg, {}) [swap] = .done patched ∧ paintAll (raster, {}) [swap] = .done painted ∧
      addr .node 1 ∈ painted.1.ops.map DrawOp.address ∧
      (patched.1.elements.lookup (debugAddress (addr .node 1))).isSome = true := by
  have hsvg : Svg.render column = .done _ := rfl
  have hraster : Raster.render column = .done _ := rfl
  obtain ⟨patched, painted, _, hpatched, hpainted, _, _, hops, hkeys, _⟩ :=
    targets_agree (Run.single committed_swap) hsvg hraster
  have hlive : swapped.contains (addr .node 1) = true := by decide
  exact ⟨_, _, _, _, patched, painted, hsvg, hraster, hpatched, hpainted,
    (hops _).mpr hlive, (hkeys _).mpr ⟨_, hlive, rfl⟩⟩

end Example

/-- The work of following deltas is that of the changes, whatever the targets held: both
emit once for each live address at or below which a commit changed something, never more
often than there are entries; the retained target lays out the records that are new or
changed shape, and the draw list nothing. -/
theorem work_is_change {s t : Snapshot} {commits : List Commit} (hrun : Run Committed s commits t)
    (svg : Svg) (raster : Raster) :
    ∃ patched painted, patchAll (svg, {}) commits = .done patched ∧
      paintAll (raster, {}) commits = .done painted ∧
      patched.2.emitted = total (fun s t => (redrawn s t).ncard) s commits ∧
      painted.2.emitted = patched.2.emitted ∧
      patched.2.relaidOut = total (fun s t => (relaid s t).ncard) s commits ∧
      painted.2.relaidOut = 0 ∧
      patched.2.emitted ≤ (commits.map (fun c => c.delta.diffs.length)).sum := by
  obtain ⟨⟨svg', hpatched⟩, raster', hpainted⟩ := run_work hrun (svg, {}) (raster, {})
  refine ⟨_, _, hpatched, hpainted, Nat.zero_add _, rfl, Nat.zero_add _, rfl, ?_⟩
  have hle := total_le hrun
  rw [Nat.zero_add]
  exact hle

section Example

/-- One of two records was written anew and moved: one emission, and nothing is laid out. -/
theorem work_is_change_swapped :
    ∃ patched painted, patchAll (⟨∅⟩, {}) [swap] = .done patched ∧
      paintAll (⟨[]⟩, {}) [swap] = .done painted ∧ patched.2.emitted = 1 ∧
      painted.2.emitted = 1 ∧ patched.2.relaidOut = 0 ∧ painted.2.relaidOut = 0 ∧
      (redrawn column swapped).ncard = 1 ∧ (relaid column swapped).ncard = 0 := by
  obtain ⟨patched, painted, hpatched, hpainted, hemitted, hsame, hrelaid, hnone, _⟩ :=
    work_is_change (Run.single committed_swap) ⟨∅⟩ ⟨[]⟩
  obtain ⟨svg, hwork⟩ : ∃ svg, patchAll (⟨∅⟩, {}) [swap] = .done (svg, ⟨1, 0⟩) := ⟨_, rfl⟩
  rw [hwork, Outcome.done.injEq] at hpatched
  subst hpatched
  exact ⟨_, painted, hwork, hpainted, rfl, hsame, rfl, hnone, hemitted.symm, hrelaid.symm⟩

end Example

end CompositionIr.Targets
