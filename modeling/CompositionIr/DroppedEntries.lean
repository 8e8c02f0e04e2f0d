import CompositionIr.Rasters

/-!
A consumer that keeps the whole draw list and follows only a part of each delta. At every
address it shows what the snapshot showed whose entry it followed last, moves or not. So it
is stale at the addresses that changed since, and nowhere else.
-/

namespace CompositionIr.DroppedEntries

open Outcomes ChildGraphs Transitions Addresses Records Placements Snapshots Deltas Commits
open PublishedStates DeltaSpec Sorting Backends Renders Rasters

/-- A commit, and the addresses whose entries the consumer follows. -/
abbrev Heard := Commit × (Address → Bool)

def followedDelta (h : Heard) : Delta :=
  { h.1.delta with diffs := h.1.delta.diffs.filter (fun d => h.2 d.address) }

def repaintFollowed (raster : Raster) (commits : List Heard) : Eval Raster :=
  commits.foldlM (fun raster h => do
    let (_, _, next) ← raster.repaint h.1.snapshot (followedDelta h)
    return next) raster

def Step (s : Snapshot) (h : Heard) (t : Snapshot) : Prop := Committed s h.1 t

def lastRead (s : Snapshot) (commits : List Heard) (a : Address) : Snapshot :=
  commits.foldl (fun last h =>
    if a ∈ (followedDelta h).diffs.map Diff.address then h.1.snapshot else last) s

theorem lastRead_snoc (s : Snapshot) (commits : List Heard) (h : Heard) (a : Address) :
    lastRead s (commits ++ [h]) a =
      if a ∈ (followedDelta h).diffs.map Diff.address then h.1.snapshot
      else lastRead s commits a := by
  unfold lastRead
  rw [List.foldl_append]
  rfl

theorem mem_followed_iff (h : Heard) (a : Address) :
    a ∈ (followedDelta h).diffs.map Diff.address ↔ Named h.1.delta.diffs a ∧ h.2 a = true := by
  unfold followedDelta Named
  simp only [List.mem_map, List.mem_filter]
  constructor
  · rintro ⟨d, ⟨hd, hkeep⟩, rfl⟩
    exact ⟨⟨d, hd, rfl⟩, hkeep⟩
  · rintro ⟨⟨d, hd, rfl⟩, hkeep⟩
    exact ⟨d, ⟨hd, hkeep⟩, rfl⟩

def shown (s : Snapshot) (commits : List Heard) (a : Address) : Option DrawOp :=
  opAt (lastRead s commits a) a

theorem address_of_shown {s : Snapshot} {commits : List Heard} {a : Address} {o : DrawOp}
    (h : shown s commits a = some o) : o.address = a := address_of_opAt h

section Repaints

variable {f : Address → Option DrawOp}

/-- A repaint with any entries of one's own domain follows them and paints in order. -/
theorem repaint_draws (s : Snapshot) (delta : Delta) (raster : Raster)
    (hnodup : (delta.diffs.map Diff.address).Nodup)
    (hown : ∀ d ∈ delta.diffs, d.address.domain = s.version.domain)
    (haddress : ∀ a o, f a = some o → o.address = a) (hdraws : Draws f raster.ops) :
    ∃ work region ops, raster.repaint s delta = .done (work, region, ⟨sortByKey paintKey ops⟩) ∧
      Draws (followed s (delta.diffs.map Diff.address) f) ops := by
  obtain ⟨r, hloop, hafter, _⟩ :=
    repaint_loop s delta.diffs hnodup hown f haddress { ops := raster.ops } hdraws
  refine ⟨r.work, r.region, r.ops, ?_, hafter⟩
  unfold Raster.repaint
  rw [hloop]
  rfl

/-- Draw lists in painting order are equal exactly when they draw the same. -/
theorem sorted_eq_iff {g : Address → Option DrawOp} {ops ops' : List DrawOp}
    (hf : ∀ a o, f a = some o → o.address = a) (hg : ∀ a o, g a = some o → o.address = a)
    (h : Draws f ops) (h' : Draws g ops') :
    sortByKey paintKey ops = sortByKey paintKey ops' ↔ ∀ a, f a = g a := by
  constructor
  · intro heq a
    have hmem : ∀ o, o ∈ ops ↔ o ∈ ops' := by
      intro o
      rw [← mem_sortByKey paintKey ops o, heq, mem_sortByKey]
    apply Option.ext
    intro o
    constructor
    · intro ho
      have ha := hf a o ho
      rw [← ha, ← h.mem, hmem, h'.mem, ha] at ho
      exact ho
    · intro ho
      have ha := hg a o ho
      rw [← ha, ← h'.mem, ← hmem, h.mem, ha] at ho
      exact ho
  · intro hall
    have hfg : f = g := funext hall
    rw [← hfg] at h'
    exact h.sorted_eq h'

theorem followed_shown (s : Snapshot) (commits : List Heard) (h : Heard) :
    followed h.1.snapshot ((followedDelta h).diffs.map Diff.address) (shown s commits) =
      shown s (commits ++ [h]) := by
  funext a
  unfold followed shown
  rw [lastRead_snoc]
  by_cases ha : a ∈ (followedDelta h).diffs.map Diff.address
  · rw [if_pos ha, if_pos ha]
  · rw [if_neg ha, if_neg ha]

end Repaints

section Runs

variable {s t : Snapshot} {commits : List Heard}

/-- Along a run the consumer draws each address as the snapshot it was last read from. -/
theorem run_shown (hs : OwnKeys s) (hrun : Run Step s commits t) :
    OwnKeys t ∧ ∃ ops, repaintFollowed ⟨sortByKey paintKey (drawn s)⟩ commits =
      .done ⟨sortByKey paintKey ops⟩ ∧ Draws (shown s commits) ops := by
  induction hrun with
  | nil => exact ⟨hs, drawn s, rfl, draws_drawn s⟩
  | @snoc u v commits h hrun hstep ih =>
    obtain ⟨_, ops, hpainted, hdraws⟩ := ih
    obtain ⟨heq, hreported⟩ := committed_reported hstep
    have hsub : ((followedDelta h).diffs.map Diff.address).Sublist
        (h.1.delta.diffs.map Diff.address) := List.filter_sublist.map _
    have hnodup := hsub.nodup hreported.nodup
    have hown : ∀ d ∈ (followedDelta h).diffs, d.address.domain = h.1.snapshot.version.domain :=
      fun d hd => hreported.own d (List.mem_of_mem_filter hd)
    have hsorted : Draws (shown s commits) (sortByKey paintKey ops) :=
      hdraws.of_perm (perm_sortByKey paintKey ops)
    obtain ⟨work, region, next, hrepaint, hnext⟩ := repaint_draws h.1.snapshot (followedDelta h)
      ⟨sortByKey paintKey ops⟩ hnodup hown (fun a o => address_of_shown) hsorted
    rw [followed_shown] at hnext
    rw [heq]
    refine ⟨hreported.keys, next, ?_, hnext⟩
    unfold repaintFollowed at hpainted ⊢
    rw [List.foldlM_append, hpainted, Outcome.done_bind, List.foldlM_cons, hrepaint]
    rfl

/-- Where nothing was dropped and nothing moved, what was read last is still shown. -/
theorem run_current
    (hkeeps : Run (Meeting (fun s h => KeepsUnnamed s h.1) Step) s commits t) (a : Address)
    (hkept : ∀ h ∈ commits, Named h.1.delta.diffs a → h.2 a = true) :
    shown s commits a = opAt t a := by
  induction hkeeps with
  | nil => rfl
  | @snoc u v commits h hrun hstep ih =>
    obtain ⟨hkeep, hcommit⟩ := hstep
    obtain ⟨heq, hreported⟩ := committed_reported hcommit
    have hone := ih (fun h' hh' => hkept h' (List.mem_append_left _ hh'))
    unfold shown
    rw [lastRead_snoc, heq]
    by_cases ha : a ∈ (followedDelta h).diffs.map Diff.address
    · rw [if_pos ha]
    · rw [if_neg ha]
      have hun : ¬ Named h.1.delta.diffs a := fun hnamed =>
        ha ((mem_followed_iff h a).mpr ⟨hnamed, hkept h (by simp) hnamed⟩)
      unfold shown at hone
      rw [hone]
      exact (opAt_congr a (hreported.state_eq hun) (hkeep a hun)).symm

end Runs

/-- The consumer paints every address once, in order, as the snapshot showed it whose entry
it followed last. That is the fresh render exactly when no address has changed since; and
while nothing moves without an entry, it is stale only where it dropped one. -/
theorem repaintFollowed_shows {s t : Snapshot} {commits : List Heard} {raster : Raster}
    {work : Work} (hrun : Run Step s commits t) (hrender : Raster.render s = .done (raster, work)) :
    ∃ painted, repaintFollowed raster commits = .done painted ∧
      painted.ops.Pairwise (fun o o' => paintKey o ≤ paintKey o') ∧
      (painted.ops.map DrawOp.address).Nodup ∧
      (∀ o, o ∈ painted.ops ↔ shown s commits o.address = some o) ∧
      ((∃ work', Raster.render t = .done (painted, work')) ↔
        ∀ a, shown s commits a = opAt t a) ∧
      (Run (Meeting (fun s h => KeepsUnnamed s h.1) Step) s commits t →
        ∀ a, shown s commits a ≠ opAt t a →
          ∃ h ∈ commits, Named h.1.delta.diffs a ∧ h.2 a = false) := by
  have hs : OwnKeys s := ownKeys_of_done raster_foreign hrender
  rw [raster_own s hs] at hrender
  obtain ⟨hraster, _⟩ := Prod.mk.inj (Outcome.done.inj hrender)
  obtain ⟨ht, ops, hpainted, hdraws⟩ := run_shown hs hrun
  rw [← hraster]
  have hsorted := hdraws.of_perm (perm_sortByKey paintKey ops)
  refine ⟨_, hpainted, pairwise_sortByKey paintKey ops, hsorted.nodup, hsorted.mem, ?_, ?_⟩
  · rw [raster_own t ht, ← sorted_eq_iff (fun _ _ => address_of_shown)
      (fun _ _ => address_of_opAt) hdraws (draws_drawn t)]
    constructor
    · rintro ⟨work', heq⟩
      have hfst := congrArg Prod.fst (Outcome.done.inj heq)
      exact (congrArg Raster.ops hfst).symm
    · intro heq
      exact ⟨_, by rw [heq]⟩
  · intro hkeeps a hstale
    by_contra hnone
    refine hstale (run_current hkeeps a (fun h hh hnamed => ?_))
    by_contra hdropped
    exact hnone ⟨h, hh, hnamed, by simpa using hdropped⟩

section Example

/-- A consumer that drops the one entry keeps the old text in the old place. -/
theorem repaintFollowed_shows_dropped :
    ∃ raster work painted, Raster.render column = .done (raster, work) ∧
      repaintFollowed raster [(swap, fun _ => false)] = .done painted ∧
      ¬ ∃ work', Raster.render swapped = .done (painted, work') := by
  have hstep : Step column (swap, fun _ => false) swapped := committed_swap
  have hrender : Raster.render column = .done _ := rfl
  obtain ⟨painted, hpainted, _, _, _, hfresh, _⟩ :=
    repaintFollowed_shows (Run.single hstep) hrender
  refine ⟨_, _, painted, hrender, hpainted, fun h => ?_⟩
  have hone := hfresh.mp h (addr .node 1)
  revert hone
  decide

end Example

end CompositionIr.DroppedEntries
