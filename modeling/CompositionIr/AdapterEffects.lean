import CompositionIr.Adapters
import CompositionIr.Identities

/-!
What the two routes leave in the builder. Over distinct positive ids both leave the
records of the tree; they leave different roots and different placements.
-/

namespace CompositionIr.AdapterEffects

open Outcomes ChildGraphs Addresses Records Placements Snapshots Deltas Commits
open PublishedStates CommitSpec ShownStates CallEffects PlacementReplay Frontends Adapters

structure Identified (nodes : List MdNode) : Prop where
  positive : ∀ n ∈ nodes, 0 < n.id.toNat
  distinct : (nodes.map MdNode.id).Nodup

theorem Identified.tail {n : MdNode} {rest : List MdNode} (h : Identified (n :: rest)) :
    Identified rest :=
  ⟨fun m hm => h.positive m (List.mem_cons_of_mem _ hm), (List.nodup_cons.mp h.distinct).2⟩

section Documents

variable (domain : Domain)

def documentOf (nodes : List MdNode) : Address → Option Node :=
  fun x => (nodes.find? (fun n => nodeAddress domain n.id == x)).map project

def placedAt (nodes : List MdNode) : List (Address × Rect) :=
  nodes.map (fun n => (nodeAddress domain n.id, rectOf n))

variable {domain} {nodes : List MdNode}

theorem find_node (h : Identified nodes) (n : MdNode) (hn : n ∈ nodes) :
    nodes.find? (fun m => nodeAddress domain m.id == nodeAddress domain n.id) = some n := by
  cases hfind : nodes.find? (fun m => nodeAddress domain m.id == nodeAddress domain n.id) with
  | none => exact absurd (beq_self_eq_true _) (List.find?_eq_none.mp hfind n hn)
  | some m =>
    have hm := List.mem_of_find?_eq_some hfind
    have haddress : nodeAddress domain m.id = nodeAddress domain n.id := by
      simpa using List.find?_some hfind
    have hid := nodeAddress_inj domain (h.positive m hm) (h.positive n hn) haddress
    rw [List.inj_on_of_nodup_map h.distinct hm hn hid]

theorem documentOf_node (h : Identified nodes) (n : MdNode) (hn : n ∈ nodes) :
    documentOf domain nodes (nodeAddress domain n.id) = some (project n) := by
  unfold documentOf
  rw [find_node h n hn, Option.map_some]

theorem documentOf_eq_none (x : Address) :
    documentOf domain nodes x = none ↔ ∀ n ∈ nodes, nodeAddress domain n.id ≠ x := by
  unfold documentOf
  rw [Option.map_eq_none_iff, List.find?_eq_none]
  simp only [beq_iff_eq]

theorem documentOf_project {x : Address} {r : Node} (h : documentOf domain nodes x = some r) :
    ∃ n ∈ nodes, nodeAddress domain n.id = x ∧ project n = r := by
  unfold documentOf at h
  obtain ⟨n, hfind, hr⟩ := Option.map_eq_some_iff.mp h
  exact ⟨n, List.mem_of_find?_eq_some hfind, by simpa using List.find?_some hfind, hr⟩

/-- Trees with the same records have nodes at the same addresses. -/
theorem mem_of_documentOf_eq {nodes' : List MdNode}
    (h : documentOf domain nodes = documentOf domain nodes') (n : MdNode) (hn : n ∈ nodes) :
    ∃ n' ∈ nodes', nodeAddress domain n'.id = nodeAddress domain n.id := by
  by_contra hnone
  have hgone : documentOf domain nodes' (nodeAddress domain n.id) = none :=
    (documentOf_eq_none _).mpr (fun n' hn' haddress => hnone ⟨n', hn', haddress⟩)
  rw [← h] at hgone
  exact (documentOf_eq_none _).mp hgone n hn rfl

theorem withoutResources {records : RecordMap} (h : values records = documentOf domain nodes) :
    WithoutResources (values records) := by
  intro x r hr
  rw [h] at hr
  obtain ⟨n, _, _, hproject⟩ := documentOf_project hr
  rw [← hproject]
  rfl

theorem withoutChildren {records : RecordMap} (h : values records = documentOf domain nodes) :
    WithoutChildren (values records) := by
  intro x r hr
  rw [h] at hr
  obtain ⟨n, _, _, hproject⟩ := documentOf_project hr
  rw [← hproject]
  rfl

/-- The box of a node of the tree, among boxes pushed for the tree. -/
theorem find_placedAt (x : Address) :
    (placedAt domain nodes).find? (fun placed => placed.1 == x) =
      (nodes.find? (fun n => nodeAddress domain n.id == x)).map
        (fun n => (nodeAddress domain n.id, rectOf n)) := by
  unfold placedAt
  rw [List.find?_map]
  rfl

theorem rect_placed (boxes : List (Address × Rect)) (x : Address) :
    (⟨boxes, []⟩ : Placement).rect x =
      (boxes.find? (fun placed => placed.1 == x)).map Prod.snd := by
  unfold Placement.rect
  simp only [List.foldl_nil]
  cases boxes.find? (fun placed => placed.1 == x) <;> rfl

theorem rect_placedAt (x : Address) :
    (⟨placedAt domain nodes, []⟩ : Placement).rect x =
      (nodes.find? (fun n => nodeAddress domain n.id == x)).map rectOf := by
  rw [rect_placed, find_placedAt, Option.map_map]
  rfl

end Documents

section Incremental

variable {domain : Domain} {ast : MdAst}

def WrittenAt (domain : Domain) (ast : MdAst) (ids : List UInt64) (x : Address) : Prop :=
  ∃ n ∈ ast.nodes, n.id ∈ ids ∧ nodeAddress domain n.id = x

instance (ids : List UInt64) (x : Address) : Decidable (WrittenAt domain ast ids x) :=
  inferInstanceAs (Decidable (∃ n ∈ ast.nodes, _))

theorem writtenAt_cons (id : UInt64) (rest : List UInt64) (x : Address) :
    WrittenAt domain ast (id :: rest) x ↔
      (∃ n ∈ ast.nodes, n.id = id ∧ nodeAddress domain n.id = x) ∨
        WrittenAt domain ast rest x := by
  unfold WrittenAt
  constructor
  · intro h
    obtain ⟨n, hn, hmem, haddress⟩ := h
    rcases List.mem_cons.mp hmem with hid | hmem
    · exact Or.inl ⟨n, hn, hid, haddress⟩
    · exact Or.inr ⟨n, hn, hmem, haddress⟩
  · intro h
    rcases h with ⟨n, hn, hid, haddress⟩ | ⟨n, hn, hmem, haddress⟩
    · exact ⟨n, hn, by rw [hid]; exact List.mem_cons_self .., haddress⟩
    · exact ⟨n, hn, List.mem_cons_of_mem _ hmem, haddress⟩

/-- The ids to write that are in the tree get its records. -/
theorem foldl_putCalls (h : Identified ast.nodes) (ids : List UInt64)
    (m : Address → Option Node) (x : Address) :
    (putCalls domain ast ids).foldl recorded m x =
      if WrittenAt domain ast ids x then documentOf domain ast.nodes x else m x := by
  induction ids generalizing m with
  | nil => simp [putCalls, WrittenAt]
  | cons id rest ih =>
    unfold putCalls at ih ⊢
    rw [List.filterMap_cons]
    cases hfind : ast.nodes.find? (fun n => n.id == id) with
    | none =>
      have hnone : ¬ ∃ n ∈ ast.nodes, n.id = id ∧ nodeAddress domain n.id = x := by
        rintro ⟨n, hn, hid, _⟩
        exact List.find?_eq_none.mp hfind n hn (by simpa using hid)
      simp only [writtenAt_cons, hnone, false_or]
      exact ih m
    | some n =>
      have hn := List.mem_of_find?_eq_some hfind
      have hid : n.id = id := by simpa using List.find?_some hfind
      rw [Option.map_some, List.foldl_cons, ih]
      by_cases hrest : WrittenAt domain ast rest x
      · rw [if_pos hrest, if_pos ((writtenAt_cons id rest x).mpr (Or.inr hrest))]
      · rw [if_neg hrest]
        change Function.update m (nodeAddress domain id) (some (project n)) x = _
        by_cases hx : x = nodeAddress domain id
        · have hwritten : WrittenAt domain ast (id :: rest) x :=
            (writtenAt_cons id rest x).mpr (Or.inl ⟨n, hn, hid, by rw [hid, hx]⟩)
          rw [if_pos hwritten, hx, Function.update_self, ← hid, documentOf_node h n hn]
        · have hnot : ¬ WrittenAt domain ast (id :: rest) x := by
            rw [writtenAt_cons]
            rintro (⟨n', _, hid', haddress⟩ | hwritten)
            · exact hx (by rw [← haddress, hid'])
            · exact hrest hwritten
          rw [if_neg hnot, Function.update_of_ne hx]

theorem putCalls_roots (ids : List UInt64) (roots : List Address) :
    (putCalls domain ast ids).foldl rooted roots = roots := by
  unfold putCalls
  induction ids with
  | nil => rfl
  | cons id rest ih =>
    rw [List.filterMap_cons]
    cases ast.nodes.find? (fun n => n.id == id) with
    | none => exact ih
    | some n => exact ih

theorem placeCalls_still (nodes : List MdNode) (m : Address → Option Node)
    (roots : List Address) :
    (placeCalls domain nodes).foldl recorded m = m ∧
      (placeCalls domain nodes).foldl rooted roots = roots := by
  refine foldl_still _ (fun e he m r => ?_) m roots
  obtain ⟨n, _, hone⟩ := List.mem_map.mp he
  rw [← hone]
  exact ⟨rfl, rfl⟩

def firstOf (domain : Domain) (nodes : List MdNode) : List Address :=
  (nodes.head?.map (fun n => nodeAddress domain n.id)).toList

theorem rootCalls_effect (nodes : List MdNode) (m : Address → Option Node)
    (roots : List Address) :
    (rootCalls domain nodes).foldl recorded m = m ∧
      (rootCalls domain nodes).foldl rooted roots = roots ++ firstOf domain nodes := by
  cases nodes with
  | nil => exact ⟨rfl, by simp [rootCalls, firstOf]⟩
  | cons n rest => exact ⟨rfl, rfl⟩

theorem foldl_placed_places (nodes : List MdNode) (p : Placement) (tail : List Edit)
    (htail : ∀ e ∈ tail, isReset e = false ∧ boxOf e = none ∧ moveOf e = none) :
    (placeCalls domain nodes ++ tail).foldl placed p =
      ⟨p.boxes ++ placedAt domain nodes, p.translations⟩ := by
  have hbox : tail.filterMap boxOf = [] :=
    List.filterMap_eq_nil_iff.mpr (fun e he => (htail e he).2.1)
  have hmove : tail.filterMap moveOf = [] :=
    List.filterMap_eq_nil_iff.mpr (fun e he => (htail e he).2.2)
  rw [foldl_placed _ (fun e he => ?_)]
  · rw [List.filterMap_append, List.filterMap_append, hbox, hmove]
    unfold placeCalls placedAt
    rw [List.filterMap_map, List.filterMap_map]
    have hsome : (boxOf ∘ fun n : MdNode => Edit.place (nodeAddress domain n.id) (rectOf n)) =
        fun n => some (nodeAddress domain n.id, rectOf n) := rfl
    have hnone : (moveOf ∘ fun n : MdNode => Edit.place (nodeAddress domain n.id) (rectOf n)) =
        fun _ => none := rfl
    rw [hsome, hnone]
    simp [List.filterMap_eq_map']
  · rcases List.mem_append.mp he with he | he
    · obtain ⟨n, _, hone⟩ := List.mem_map.mp he
      rw [← hone]
      rfl
    · exact (htail e he).1

/-- Of the calls of the incremental route only those that put and remove touch records. -/
theorem foldl_adaptCalls (h : Identified ast.nodes) (delta : MdDelta)
    (m : Address → Option Node) (x : Address) :
    (adaptCalls domain ast delta).foldl recorded m x =
      if WrittenAt domain ast delta.touched x then documentOf domain ast.nodes x
      else if x ∈ delta.retired.map (nodeAddress domain) then none
      else m x := by
  unfold adaptCalls removeCalls
  rw [List.foldl_append, List.foldl_append, List.foldl_cons, List.foldl_append,
    (rootCalls_effect ast.nodes _ []).1, (placeCalls_still ast.nodes _ []).1]
  change (putCalls domain ast delta.touched).foldl recorded _ x = _
  rw [foldl_putCalls h, foldl_remove]

theorem adaptCalls_roots (delta : MdDelta) (roots : List Address) :
    (adaptCalls domain ast delta).foldl rooted roots =
      roots.filter (fun r => !(delta.retired.map (nodeAddress domain)).contains r) ++
        firstOf domain ast.nodes := by
  unfold adaptCalls removeCalls
  rw [List.foldl_append, List.foldl_append, List.foldl_cons, List.foldl_append, putCalls_roots,
    (rootCalls_effect ast.nodes (fun _ => none) _).2,
    (placeCalls_still ast.nodes (fun _ => none) _).2]
  change ((delta.retired.map (nodeAddress domain)).map Edit.remove).foldl rooted roots ++ _ = _
  rw [foldl_remove_roots]

/-- Whatever boxes there were, those of the tree are the only ones afterwards. -/
theorem adaptCalls_placement (delta : MdDelta) (p : Placement) :
    (adaptCalls domain ast delta).foldl placed p = ⟨placedAt domain ast.nodes, []⟩ := by
  unfold adaptCalls
  rw [List.foldl_append, List.foldl_append, List.foldl_cons]
  change (placeCalls domain ast.nodes ++ rootCalls domain ast.nodes).foldl placed
    Placement.empty = _
  refine foldl_placed_places ast.nodes Placement.empty _ (fun e he => ?_)
  unfold rootCalls at he
  obtain ⟨n, _, hone⟩ := Option.map_eq_some_iff.mp (Option.mem_toList.mp he)
  rw [← hone]
  exact ⟨rfl, rfl, rfl⟩

/-- What the incremental route leaves: the nodes it was told of, none of those it was told
to retire, and the base's records otherwise; the boxes of the tree and no others; and the
first node rooted behind the roots it did not retire. -/
theorem adaptCalls_effect (base : Snapshot) (delta : MdDelta) (h : Identified ast.nodes)
    (heap : Heap) (d : Draft)
    (hcalls : Follows ⟨base.edit, heap, 0⟩ (adaptCalls domain ast delta) d) :
    d.edit.base = base ∧
    (∀ x, values d.edit.records x =
      if WrittenAt domain ast delta.touched x then documentOf domain ast.nodes x
      else if x ∈ delta.retired.map (nodeAddress domain) then none
      else values base.records x) ∧
    d.edit.roots =
      base.roots.filter (fun r => !(delta.retired.map (nodeAddress domain)).contains r) ++
        firstOf domain ast.nodes ∧
    d.edit.placement = ⟨placedAt domain ast.nodes, []⟩ := by
  obtain ⟨hvalues, hroots⟩ := applyAll_effect _ _ _ _ _ hcalls
  refine ⟨applyAll_base _ _ _ _ _ hcalls, fun x => ?_, ?_, ?_⟩
  · rw [hvalues]
    exact foldl_adaptCalls h delta _ x
  · rw [hroots]
    exact adaptCalls_roots delta base.roots
  · rw [applyAll_placement _ _ _ _ _ hcalls]
    exact adaptCalls_placement delta base.placement

end Incremental

section Full

variable {domain : Domain}

theorem documentOf_cons (n : MdNode) (rest : List MdNode) (x : Address) :
    documentOf domain (n :: rest) x =
      if nodeAddress domain n.id = x then some (project n) else documentOf domain rest x := by
  unfold documentOf
  rw [List.find?_cons]
  by_cases hx : nodeAddress domain n.id = x
  · simp [hx]
  · simp [hx, beq_eq_false_iff_ne.mpr hx]

theorem foldl_rewriteCalls (nodes : List MdNode) (h : Identified nodes) (i : ℕ)
    (m : Address → Option Node) (x : Address) :
    (rewriteCalls domain nodes i).foldl recorded m x = (documentOf domain nodes x).or (m x) := by
  induction nodes generalizing i m with
  | nil => rfl
  | cons n rest ih =>
    unfold rewriteCalls
    have hroot : ∀ m : Address → Option Node,
        (if i = 0 then [Edit.root (nodeAddress domain n.id)] else []).foldl recorded m = m := by
      intro m
      by_cases hi : i = 0 <;> simp [hi, recorded]
    rw [List.foldl_cons, List.foldl_cons, List.foldl_append, hroot, ih h.tail, documentOf_cons]
    by_cases hx : nodeAddress domain n.id = x
    · have hnone : documentOf domain rest x = none := by
        refine (documentOf_eq_none x).mpr (fun m' hm' haddress => ?_)
        have hid : m'.id = n.id := nodeAddress_inj domain
          (h.positive m' (List.mem_cons_of_mem _ hm')) (h.positive n (List.mem_cons_self ..))
          (haddress.trans hx.symm)
        exact (List.nodup_cons.mp h.distinct).1 (List.mem_map.mpr ⟨m', hm', hid⟩)
      rw [if_pos hx, hnone, ← hx]
      simp [recorded]
    · rw [if_neg hx]
      simp [recorded, Function.update_of_ne (Ne.symm hx)]

theorem rewriteCalls_roots (nodes : List MdNode) (i : ℕ) (roots : List Address) :
    (rewriteCalls domain nodes i).foldl rooted roots =
      roots ++ if i = 0 then firstOf domain nodes else [] := by
  induction nodes generalizing i roots with
  | nil => by_cases hi : i = 0 <;> simp [rewriteCalls, firstOf, hi]
  | cons n rest ih =>
    unfold rewriteCalls
    rw [List.foldl_cons, List.foldl_cons, List.foldl_append, ih, if_neg (Nat.succ_ne_zero i)]
    by_cases hi : i = 0 <;> simp [hi, rooted, firstOf]

theorem rewriteCalls_placement (nodes : List MdNode) (i : ℕ) (p : Placement) :
    (rewriteCalls domain nodes i).foldl placed p =
      ⟨p.boxes ++ placedAt domain nodes, p.translations⟩ := by
  induction nodes generalizing i p with
  | nil => simp [rewriteCalls, placedAt]
  | cons n rest ih =>
    unfold rewriteCalls
    rw [List.foldl_cons, List.foldl_cons, List.foldl_append, ih]
    by_cases hi : i = 0 <;> simp [hi, placed, Placement.push, placedAt]

theorem removals_placement (l : List Address) (p : Placement) :
    (l.map Edit.remove).foldl placed p = p := by
  induction l with
  | nil => rfl
  | cons _ _ ih => exact ih

def stale (base : Snapshot) (nodes : List MdNode) : List Address :=
  base.addresses.filter
    (fun a => !(nodes.map (fun n => nodeAddress base.version.domain n.id)).contains a)

/-- The calls of the full route leave the records of the tree only. -/
theorem foldl_fullCalls (base : Snapshot) (ast : MdAst) (h : Identified ast.nodes) :
    (fullCalls base ast).foldl recorded (values base.records) =
      documentOf base.version.domain ast.nodes := by
  funext x
  unfold fullCalls staleCalls
  rw [List.foldl_append, foldl_rewriteCalls ast.nodes h, foldl_remove]
  change (documentOf base.version.domain ast.nodes x).or
    (if x ∈ stale base ast.nodes then none else values base.records x) = _
  cases hx : documentOf base.version.domain ast.nodes x with
  | some r => rfl
  | none =>
    rw [Option.none_or]
    by_cases hstale : x ∈ stale base ast.nodes
    · rw [if_pos hstale]
    · -- an address that is neither in the tree nor stale is not in the base
      rw [if_neg hstale]
      have hgone := (documentOf_eq_none x).mp hx
      by_contra hlive
      refine hstale (List.mem_filter.mpr ⟨(mem_addresses_iff_values base x).mpr hlive, ?_⟩)
      simpa [List.contains_eq_mem] using hgone

/-- What the full route leaves: the records of the tree; the boxes of the tree behind
those of the base; and the first node rooted behind the roots it did not remove. -/
theorem fullCalls_effect (base : Snapshot) (ast : MdAst) (h : Identified ast.nodes)
    (heap : Heap) (d : Draft) (hcalls : Follows ⟨base.edit, heap, 0⟩ (fullCalls base ast) d) :
    d.edit.base = base ∧
    values d.edit.records = documentOf base.version.domain ast.nodes ∧
    d.edit.roots = base.roots.filter (fun r => !(stale base ast.nodes).contains r) ++
      firstOf base.version.domain ast.nodes ∧
    d.edit.placement =
      ⟨base.placement.boxes ++ placedAt base.version.domain ast.nodes,
        base.placement.translations⟩ := by
  obtain ⟨hvalues, hroots⟩ := applyAll_effect _ _ _ _ _ hcalls
  refine ⟨applyAll_base _ _ _ _ _ hcalls, ?_, ?_, ?_⟩
  · rw [hvalues]
    exact foldl_fullCalls base ast h
  · rw [hroots]
    unfold fullCalls staleCalls
    rw [List.foldl_append, rewriteCalls_roots, foldl_remove_roots, if_pos rfl]
    rfl
  · rw [applyAll_placement _ _ _ _ _ hcalls]
    unfold fullCalls staleCalls
    rw [List.foldl_append, rewriteCalls_placement, removals_placement]
    rfl

end Full

end CompositionIr.AdapterEffects
