import CompositionIr.EnumerationOrder
import CompositionIr.Transitions

/-!
Repainting is rendering. A draw list is followed as a function from addresses to operations:
an entry of a delta updates the function at one address, and what has no entry draws as
before. The sort at the end of a repaint and of a render leaves one list.
-/

namespace CompositionIr.Rasters

open Outcomes ChildGraphs Transitions Addresses Records Placements Snapshots Deltas Commits
open PublishedStates DeltaSpec Sorting Backends Renders EnumerationOrder

structure Draws (f : Address → Option DrawOp) (ops : List DrawOp) : Prop where
  nodup : (ops.map DrawOp.address).Nodup
  mem : ∀ o, o ∈ ops ↔ f o.address = some o

namespace Draws

variable {f : Address → Option DrawOp} {ops ops' : List DrawOp}

theorem nodup_ops (h : Draws f ops) : ops.Nodup := h.nodup.of_map

theorem perm (h : Draws f ops) (h' : Draws f ops') : ops.Perm ops' := by
  rw [List.perm_ext_iff_of_nodup h.nodup_ops h'.nodup_ops]
  intro o
  rw [h.mem, h'.mem]

theorem of_perm (h : Draws f ops) (hperm : ops'.Perm ops) : Draws f ops' where
  nodup := (hperm.map DrawOp.address).nodup_iff.mpr h.nodup
  mem o := by rw [hperm.mem_iff, h.mem]

/-- Draw lists of one function are sorted into one list. -/
theorem sorted_eq (h : Draws f ops) (h' : Draws f ops') :
    sortByKey paintKey ops = sortByKey paintKey ops' := by
  refine sortByKey_eq_of_perm paintKey (h.perm h') (fun o ho o' ho' hkey => ?_)
  have hf := (h.mem o).mp ho
  rw [address_of_paintKey hkey, (h.mem o').mp ho'] at hf
  exact (Option.some.inj hf).symm

/-- What stands beside one operation is what the function gives elsewhere. -/
theorem beside {left right : List DrawOp} {o : DrawOp} (h : Draws f (left ++ o :: right))
    (x : DrawOp) : x ∈ left ++ right ↔ x.address ≠ o.address ∧ f x.address = some x := by
  have hnodup := (List.perm_middle.map DrawOp.address).nodup_iff.mp h.nodup
  rw [List.map_cons, List.nodup_cons] at hnodup
  constructor
  · intro hx
    refine ⟨fun heq => hnodup.1 ?_, (h.mem x).mp ?_⟩
    · rw [← heq]
      exact List.mem_map_of_mem hx
    · exact List.perm_middle.mem_iff.mpr (List.mem_cons_of_mem _ hx)
  · intro hx
    have hmem := List.perm_middle.mem_iff.mp ((h.mem x).mpr hx.2)
    rcases List.mem_cons.mp hmem with heq | hmem
    · exact absurd (by rw [heq]) hx.1
    · exact hmem

end Draws

theorem nodup_drawn (s : Snapshot) : ((drawn s).map DrawOp.address).Nodup := by
  have hsub : ((drawn s).map DrawOp.address).Sublist s.addresses := by
    unfold drawn
    induction s.addresses with
    | nil => exact List.Sublist.refl _
    | cons a rest ih =>
      rw [List.filterMap_cons]
      cases ho : opAt s a with
      | none => exact ih.cons a
      | some o =>
        rw [List.map_cons, address_of_opAt ho]
        exact ih.cons_cons a
  exact hsub.nodup (nodup_addresses s)

theorem draws_drawn (s : Snapshot) : Draws (opAt s) (drawn s) := ⟨nodup_drawn s, mem_drawn s⟩

section OneEntry

variable {f : Address → Option DrawOp} {ops : List DrawOp}

theorem split_of_findIdx? {p : DrawOp → Bool} {pos : ℕ} (h : ops.findIdx? p = some pos) :
    ∃ left o right, ops = left ++ o :: right ∧ left.length = pos ∧ p o = true := by
  obtain ⟨hlt, hp, _⟩ := List.findIdx?_eq_some_iff_getElem.mp h
  refine ⟨ops.take pos, ops[pos], ops.drop (pos + 1), ?_, ?_, hp⟩
  · rw [← List.drop_eq_getElem_cons hlt, List.take_append_drop]
  · rw [List.length_take]
    omega

def cover (region : Region) (o : Option DrawOp) : Region :=
  match o with
  | some o => region.union o.bounds
  | none => region

def followed (s : Snapshot) (named : List Address) (f : Address → Option DrawOp) :
    Address → Option DrawOp :=
  fun a => if a ∈ named then opAt s a else f a

theorem Draws.erase {left right : List DrawOp} {o : DrawOp} (s : Snapshot)
    (h : Draws f (left ++ o :: right)) (hgone : opAt s o.address = none) :
    Draws (followed s [o.address] f) (left ++ right) where
  nodup := by
    have hnodup := (List.perm_middle.map DrawOp.address).nodup_iff.mp h.nodup
    exact (List.nodup_cons.mp hnodup).2
  mem x := by
    rw [h.beside]
    unfold followed
    by_cases hx : x.address = o.address
    · simp [hx, hgone]
    · simp [hx]

theorem Draws.replace {left right : List DrawOp} {o next : DrawOp} (s : Snapshot)
    (h : Draws f (left ++ o :: right)) (hnext : opAt s o.address = some next) :
    Draws (followed s [o.address] f) (left ++ next :: right) where
  nodup := by
    have haddress := address_of_opAt hnext
    have hsame : (left ++ next :: right).map DrawOp.address =
        (left ++ o :: right).map DrawOp.address := by simp [haddress]
    rw [hsame]
    exact h.nodup
  mem x := by
    rw [List.perm_middle.mem_iff, List.mem_cons, h.beside]
    unfold followed
    by_cases hx : x.address = o.address
    · simp only [hx, List.mem_singleton, if_true, hnext, Option.some.injEq, ne_eq,
        not_true_eq_false, false_and, or_false]
      exact eq_comm
    · have hne : x ≠ next := fun heq => hx (by rw [heq, address_of_opAt hnext])
      simp [hx, hne]

theorem Draws.append {a : Address} {next : DrawOp} (s : Snapshot) (h : Draws f ops)
    (hfree : f a = none) (hnext : opAt s a = some next) :
    Draws (followed s [a] f) (ops ++ [next]) where
  nodup := by
    have haddress := address_of_opAt hnext
    rw [List.map_append, List.map_cons, List.map_nil, List.nodup_append]
    refine ⟨h.nodup, List.nodup_singleton _, fun x hx y hy heq => ?_⟩
    obtain ⟨o, ho, hox⟩ := List.mem_map.mp hx
    have hf := (h.mem o).mp ho
    rw [hox, heq, List.mem_singleton.mp hy, haddress, hfree] at hf
    cases hf
  mem x := by
    rw [List.mem_append, h.mem, List.mem_singleton]
    unfold followed
    by_cases hx : x.address = a
    · simp only [hx, hfree, reduceCtorEq, false_or, List.mem_singleton, if_true, hnext,
        Option.some.injEq]
      exact eq_comm
    · have hne : x ≠ next := fun heq => hx (by rw [heq, address_of_opAt hnext])
      simp [hx, hne]

theorem Draws.skip {a : Address} (s : Snapshot) (h : Draws f ops) (hfree : f a = none)
    (hgone : opAt s a = none) : Draws (followed s [a] f) ops where
  nodup := h.nodup
  mem x := by
    rw [h.mem]
    unfold followed
    by_cases hx : x.address = a
    · simp [hx, hfree, hgone]
    · simp [hx]

/-- One entry updates the draw list at its address and adds what is drawn there before and
after to the region. -/
theorem repaintOne_spec (s : Snapshot) (r : Raster.Repainting) (d : Diff)
    (hown : d.address.domain = s.version.domain) (hdraws : Draws f r.ops)
    (haddress : ∀ a o, f a = some o → o.address = a) :
    ∃ r', Raster.repaintOne s r d = .done r' ∧ Draws (followed s [d.address] f) r'.ops ∧
      r'.region = cover (cover r.region (f d.address)) (opAt s d.address) := by
  unfold Raster.repaintOne
  simp only [op_own s _ hown, Outcome.done_bind]
  cases hfind : r.ops.findIdx? (fun o => o.address == d.address) with
  | none =>
    have hfree : f d.address = none := by
      cases hf : f d.address with
      | none => rfl
      | some o =>
        exfalso
        have ho := haddress _ _ hf
        rw [List.findIdx?_eq_none_iff] at hfind
        have hmem : o ∈ r.ops := (hdraws.mem o).mpr (by rw [ho, hf])
        have hno := hfind o hmem
        rw [ho] at hno
        simp at hno
    rw [hfree]
    cases hnext : opAt s d.address with
    | none => exact ⟨_, rfl, hdraws.skip s hfree hnext, rfl⟩
    | some next => exact ⟨_, rfl, hdraws.append s hfree hnext, rfl⟩
  | some pos =>
    obtain ⟨left, o, right, hops, hlen, ho⟩ := split_of_findIdx? hfind
    have haddr : o.address = d.address := eq_of_beq ho
    rw [hops] at hdraws ⊢
    have hf : f d.address = some o := by
      rw [← haddr]
      exact (hdraws.mem o).mp (by simp)
    have hget : (left ++ o :: right)[pos]? = some o := by rw [← hlen]; simp
    have herase : (left ++ o :: right).eraseIdx pos = left ++ right := by
      rw [← hlen, List.eraseIdx_append_of_length_le (Nat.le_refl _)]
      simp
    have hset : ∀ next, (left ++ o :: right).set pos next = left ++ next :: right := by
      intro next
      rw [← hlen, List.set_append_right _ _ (Nat.le_refl _)]
      simp
    simp only [Option.bind_some, hget, hf]
    cases hnext : opAt s d.address with
    | none =>
      refine ⟨_, rfl, ?_, rfl⟩
      rw [herase, ← haddr]
      exact hdraws.erase s (by rw [haddr, hnext])
    | some next =>
      refine ⟨_, rfl, ?_, rfl⟩
      rw [hset, ← haddr]
      exact hdraws.replace s (by rw [haddr, hnext])

end OneEntry

/-- The whole list of entries updates the draw list at each of their addresses. -/
theorem repaint_loop (s : Snapshot) (diffs : List Diff)
    (hnodup : (diffs.map Diff.address).Nodup)
    (hown : ∀ d ∈ diffs, d.address.domain = s.version.domain) (f : Address → Option DrawOp)
    (haddress : ∀ a o, f a = some o → o.address = a) (r : Raster.Repainting)
    (hdraws : Draws f r.ops) :
    ∃ r', diffs.foldlM (Raster.repaintOne s) r = .done r' ∧
      Draws (followed s (diffs.map Diff.address) f) r'.ops ∧
      r'.region = diffs.foldl
        (fun region d => cover (cover region (f d.address)) (opAt s d.address)) r.region := by
  induction diffs generalizing f r with
  | nil =>
    have hsame : followed s [] f = f := by
      funext a
      simp [followed]
    exact ⟨r, rfl, by rwa [List.map_nil, hsame], rfl⟩
  | cons d rest ih =>
    rw [List.map_cons, List.nodup_cons] at hnodup
    obtain ⟨hd, hrest⟩ := hnodup
    obtain ⟨r₁, hone, hdraws₁, hregion₁⟩ :=
      repaintOne_spec s r d (hown d (List.mem_cons_self ..)) hdraws haddress
    have haddress₁ : ∀ a o, followed s [d.address] f a = some o → o.address = a := by
      intro a o ho
      unfold followed at ho
      split at ho
      · exact address_of_opAt ho
      · exact haddress a o ho
    obtain ⟨r', hloop, hdraws', hregion'⟩ :=
      ih hrest (fun d' hd' => hown d' (List.mem_cons_of_mem _ hd')) _ haddress₁ r₁ hdraws₁
    refine ⟨r', ?_, ?_, ?_⟩
    · rw [List.foldlM_cons, hone]
      exact hloop
    · have hsame : followed s (rest.map Diff.address) (followed s [d.address] f) =
          followed s ((d :: rest).map Diff.address) f := by
        funext a
        unfold followed
        by_cases ha : a = d.address
        · simp [ha]
        · simp [ha]
      rwa [hsame] at hdraws'
    · rw [hregion', hregion₁, List.foldl_cons]
      -- the entries that follow are for other addresses
      refine List.foldl_ext _ _ _ (fun region d' hd' => ?_)
      have hne : d'.address ≠ d.address := fun heq => hd (heq ▸ List.mem_map_of_mem hd')
      simp [followed, hne]

/-- The list a render returns, before and after its sort, draws what the snapshot shows. -/
theorem draws_render (s : Snapshot) : Draws (opAt s) (sortByKey paintKey (drawn s)) :=
  (draws_drawn s).of_perm (perm_sortByKey paintKey (drawn s))

section Commits

variable {s t : Snapshot} {diffs : List Diff}

def KeepsUnnamed (s : Snapshot) (c : Commit) : Prop :=
  ∀ a, ¬ Named c.delta.diffs a → c.snapshot.placement.rect a = s.placement.rect a

theorem opAt_congr (a : Address) (hstate : state s.records a = state t.records a)
    (hrect : t.placement.rect a = s.placement.rect a) : opAt t a = opAt s a := by
  unfold opAt
  rw [hrect]
  cases hs : s.records.lookup a with
  | none =>
    rw [(state_eq_none _ _).mpr hs] at hstate
    rw [(state_eq_none _ _).mp hstate.symm]
  | some n =>
    rw [state_of_lookup hs] at hstate
    obtain ⟨m, hm, hproj⟩ := (state_eq_some _ _ _).mp hstate.symm
    have hpaint : m.node.paint = n.node.paint := congrArg Prod.fst (congrFun hproj Part.paint)
    have htext : m.node.text = n.node.text := congrFun hproj Part.text
    rw [hm, Option.map_some, Option.map_some, hpaint, htext]

/-- Following every entry from what the first snapshot draws gives what the second does. -/
theorem followed_eq (h : Reported s t diffs)
    (hrect : ∀ a, ¬ Named diffs a → t.placement.rect a = s.placement.rect a) :
    followed t (diffs.map Diff.address) (opAt s) = opAt t := by
  funext a
  unfold followed
  by_cases ha : a ∈ diffs.map Diff.address
  · rw [if_pos ha]
  · rw [if_neg ha]
    have hun : ¬ Named diffs a := by
      intro hnamed
      obtain ⟨d, hd, hda⟩ := hnamed
      exact ha (List.mem_map.mpr ⟨d, hd, hda⟩)
    exact (opAt_congr a (h.state_eq hun) (hrect a hun)).symm

/-- A repaint of a rendered list leaves the list rendered. -/
theorem repaint_rendered (c : Commit) (hcommit : Committed s c t) (hkeeps : KeepsUnnamed s c) :
    ∃ work region, Raster.repaint ⟨sortByKey paintKey (drawn s)⟩ c.snapshot c.delta =
      .done (work, region, ⟨sortByKey paintKey (drawn c.snapshot)⟩) := by
  obtain ⟨_, hreported⟩ := committed_reported hcommit
  obtain ⟨r, hloop, hdraws, _⟩ := repaint_loop c.snapshot c.delta.diffs hreported.nodup
    hreported.own (opAt s) (fun a o ho => address_of_opAt ho)
    { ops := sortByKey paintKey (drawn s) } (draws_render s)
  rw [followed_eq hreported hkeeps] at hdraws
  refine ⟨r.work, r.region, ?_⟩
  unfold Raster.repaint
  rw [hloop, Outcome.done_bind, hdraws.sorted_eq (draws_drawn c.snapshot)]
  rfl

end Commits

def repaintAll (raster : Raster) (commits : List Commit) : Eval Raster :=
  commits.foldlM (fun raster c => do
    let (_, _, next) ← raster.repaint c.snapshot c.delta
    return next) raster

/-- What a run of commits leaves of a rendered list is the rendered list. -/
theorem run_repaints {s t : Snapshot} {commits : List Commit} (hs : OwnKeys s)
    (hrun : Run (Meeting KeepsUnnamed Committed) s commits t) :
    OwnKeys t ∧ repaintAll ⟨sortByKey paintKey (drawn s)⟩ commits =
      .done ⟨sortByKey paintKey (drawn t)⟩ := by
  induction hrun with
  | nil => exact ⟨hs, rfl⟩
  | @snoc u v commits c hrun hstep ih =>
    obtain ⟨hkeeps, hcommit⟩ := hstep
    obtain ⟨heq, hreported⟩ := committed_reported hcommit
    obtain ⟨work, region, hrepaint⟩ := repaint_rendered c hcommit hkeeps
    rw [heq]
    refine ⟨hreported.keys, ?_⟩
    unfold repaintAll at ih ⊢
    rw [List.foldlM_append, ih.2, Outcome.done_bind, List.foldlM_cons, hrepaint]
    rfl

/-- Incremental raster output is the full render: over every run of commits that keep the
boxes of the addresses they do not name, repainting with each delta leaves the operations
that a render of the current snapshot lists, however its records are enumerated. -/
theorem repaints_eq_render {s t : Snapshot} {commits : List Commit} {raster : Raster}
    {work : Work} (hrun : Run (Meeting KeepsUnnamed Committed) s commits t)
    (hrender : Raster.render s = .done (raster, work)) :
    ∃ painted, repaintAll raster commits = .done painted ∧
      ∀ t', Reenumerated t t' → ∃ work', Raster.render t' = .done (painted, work') := by
  have hs : OwnKeys s := ownKeys_of_done raster_foreign hrender
  rw [raster_own s hs] at hrender
  obtain ⟨hraster, _⟩ := Prod.mk.inj (Outcome.done.inj hrender)
  obtain ⟨ht, hpainted⟩ := run_repaints hs hrun
  refine ⟨_, by rw [← hraster]; exact hpainted, fun t' ht' => ⟨⟨t.len, t.len⟩, ?_⟩⟩
  rw [← raster_reenumerated ht']
  exact raster_own t ht

section Example

def column : Snapshot :=
  { holding (rev 1) 0 [(addr .node 1, { text := "a" }), (addr .node 2, { text := "b" })] with
    placement := ⟨[(addr .node 1, ⟨0, 0, 10, 10⟩), (addr .node 2, ⟨0, 20, 10, 10⟩)], []⟩ }

def swapping : List Edit :=
  [.update (addr .node 1) (fun n => { n with text := "c" }), .translate [addr .node 1] 0 30]

def swapped : Snapshot where
  version := ⟨dom, rev 2⟩
  records := column.records.insert (addr .node 1) ⟨2, { text := "c" }⟩
  roots := []
  placement := column.placement.translate [addr .node 1] 0 30

def swap : Commit :=
  ⟨swapped, ⟨column.version, swapped.version,
    [⟨addr .node 1, (Parts.of Part.text).insert Part.shaping⟩]⟩⟩

theorem committed_swap : Committed column swap swapped :=
  @Committed.of column swapping ⟨2⟩ _ _ 2 swap rfl rfl

theorem keepsUnnamed_swap : KeepsUnnamed column swap := by
  intro a ha
  have hne : a ≠ addr .node 1 :=
    fun heq => ha ⟨_, List.mem_singleton.mpr rfl, heq.symm⟩
  have hcovers : [addr .node 1].contains a = false := by simpa using hne
  have hmoves : swapped.placement.translations = [⟨[addr .node 1], 0, 30⟩] := rfl
  have hboxes : swapped.placement.boxes = column.placement.boxes := rfl
  have hnone : column.placement.translations = [] := rfl
  change swapped.placement.rect a = column.placement.rect a
  unfold Placement.rect
  simp only [hmoves, hboxes, hnone, List.foldl_cons, List.foldl_nil, hcovers,
    Bool.false_eq_true, if_false]

/-- The repainted list is the one a render of the second snapshot lists. -/
theorem repaints_eq_render_column :
    ∃ raster work painted,
      Run (Meeting KeepsUnnamed Committed) column [swap] swapped ∧
      Raster.render column = .done (raster, work) ∧ repaintAll raster [swap] = .done painted ∧
      ∃ work', Raster.render swapped = .done (painted, work') := by
  have hstep : Meeting KeepsUnnamed Committed column swap swapped :=
    ⟨keepsUnnamed_swap, committed_swap⟩
  have hrun := Run.single hstep
  have hrender : Raster.render column = .done _ := rfl
  obtain ⟨painted, hpainted, hall⟩ := repaints_eq_render hrun hrender
  exact ⟨_, _, painted, hrun, hrender, hpainted, hall _ (Reenumerated.refl _)⟩

end Example

end CompositionIr.Rasters
