import CompositionIr.CommitSpec
import CompositionIr.DerivedCells
import CompositionIr.Transitions

/-!
Which cells an invalidation keeps, and when it keeps one it should not. A receipt is
intersected with the parts of the entries, and a retired address has none: whoever read
a part of it is not told. Neither is a reader of what is below an address, when the
address is created and nothing below it differs.
-/

namespace CompositionIr.Invalidation

open Outcomes ChildGraphs Transitions Addresses Records Snapshots Deltas Commits
open PublishedStates SubtreeComparison DeltaSpec CommitSpec DerivedCells

/-- An observation that an invalidation sees disturbed: a part of an address live
afterwards, that is new or differs; something below it; or liveness turned over. -/
def Noticed (before after : RecordMap) : Obs → Prop
  | .read a p => (after.lookup a).isSome = true ∧
      ((p ∈ ownParts ∧ ∀ b n, before.lookup a = some b → after.lookup a = some n →
          b.node.partEq n.node p = false) ∨
        (p = Part.descendant ∧ ∃ c, Lists before after a c ∧ ChangedBelow before after c))
  | .liveness a wasAbsent => (after.lookup a).isNone ≠ wasAbsent

/-- A read that a commit falsifies without an invalidation seeing it: of an address the
commit retires, or of what is below an address it creates when nothing there changed. -/
def Unnoticed (before after : RecordMap) : Obs → Prop
  | .read a p =>
      ((before.lookup a).isSome = true ∧ after.lookup a = none) ∨
        (p = Part.descendant ∧ before.lookup a = none ∧ (after.lookup a).isSome = true ∧
          ∀ c, Lists before after a c → ¬ ChangedBelow before after c)
  | .liveness _ _ => False

theorem noticed_liveness_iff (before after : RecordMap) (a : Address) (wasAbsent : Bool) :
    Noticed before after (.liveness a wasAbsent) ↔ (after.lookup a).isNone ≠ wasAbsent :=
  Iff.rfl

section Survival

variable {before after : Snapshot} {delta : Delta}

theorem namedPart_of_differs
    (hs : Describes (DiffersAt before after) before.records after.records delta.diffs)
    (a : Address) (p : Part) (hD : DiffersAt before after a)
    (hentry : ∀ d, Entry (DiffersAt before after) before.records after.records d →
      d.address = a → d.parts.contains p = true) : NamedPart delta.diffs a p := by
  obtain ⟨d, hd, hda⟩ := (named_iff hs a).mpr hD
  exact ⟨d, hd, hda, hentry d (hs.entry d hd) hda⟩

/-- The entries carry a part exactly where a read of it is noticed. -/
theorem namedPart_iff_noticed
    (hs : Describes (DiffersAt before after) before.records after.records delta.diffs)
    (a : Address) (p : Part) :
    NamedPart delta.diffs a p ↔ Noticed before.records after.records (.read a p) := by
  constructor
  · intro h
    obtain ⟨d, hd, hda, hp⟩ := h
    subst hda
    have hentry := hs.entry d hd
    cases hn : after.records.lookup d.address with
    | none =>
      rw [hentry.retired hn, Parts.contains_empty] at hp
      cases hp
    | some n =>
      refine ⟨by rw [hn]; rfl, ?_⟩
      by_cases hown : p ∈ ownParts
      · refine Or.inl ⟨hown, fun b n' hb hn' => ?_⟩
        exact (hentry.own n' hn' p hown).mp hp b hb
      · have hdesc := eq_descendant_of_not_own hown
        subst hdesc
        obtain ⟨c, hc, hDc⟩ := (hentry.descendant n hn).mp hp
        exact Or.inr ⟨rfl, c, hc, (differs_iff_changedBelow _ _ c).mp hDc⟩
  · intro h
    obtain ⟨hlive, h⟩ := h
    obtain ⟨n, hn⟩ := Option.isSome_iff_exists.mp hlive
    rcases h with ⟨hown, hne⟩ | ⟨hdesc, c, hc, hbelow⟩
    · have hD : DiffersAt before after a := by
        refine Differs.seed (fun heq => ?_)
        rw [state_of_lookup hn] at heq
        obtain ⟨b, hb, hproj⟩ := (state_eq_some _ _ _).mp heq
        have hunequal := hne b n hb hn
        rw [(Node.partEq_iff b.node n.node p).mpr (congrFun hproj p)] at hunequal
        cases hunequal
      refine namedPart_of_differs hs a p hD (fun d hentry hda => ?_)
      subst hda
      exact (hentry.own n hn p hown).mpr (fun b hb => hne b n hb hn)
    · have hDc : DiffersAt before after c := (differs_iff_changedBelow _ _ c).mpr hbelow
      have hD : DiffersAt before after a := by
        rcases List.mem_append.mp hc with hc | hc
        · exact Differs.before ((child_iff_mem _ _ _).mpr hc) hDc
        · exact Differs.after ((child_iff_mem _ _ _).mpr hc) hDc
      refine namedPart_of_differs hs a p hD (fun d hentry hda => ?_)
      subst hda
      subst hdesc
      exact (hentry.descendant n hn).mpr ⟨c, hc, hDc⟩

/-- A receipt survives exactly when none of its observations is noticed. -/
theorem survives_iff
    (hs : Describes (DiffersAt before after) before.records after.records delta.diffs)
    (receipt : Receipt) :
    receipt.survives delta after = true ↔
      ∀ o ∈ receipt.obs, ¬ Noticed before.records after.records o := by
  unfold Receipt.survives
  rw [Bool.not_eq_true', List.any_eq_false]
  refine forall_congr' (fun o => imp_congr_right (fun _ => not_congr ?_))
  cases o with
  | read a p =>
    rw [← namedPart_iff_noticed hs]
    simp [NamedPart]
  | liveness a wasAbsent =>
    rw [noticed_liveness_iff, ← not_contains_eq]
    exact bne_iff_ne

end Survival

section Recipes

variable {V : Type}

/-- A recipe that looks at a record read for a part only through what the part compares:
records that agree on the part are answered alike. -/
inductive Honest : Recipe V → Prop
  | ret (value : V) : Honest (.ret value)
  | part {address : Address} {p : Part} {next : Option Node → Recipe V}
      (hnext : ∀ o, Honest (next o))
      (hpart : ∀ n m : Node, n.partEq m p = true → next (some n) = next (some m)) :
      Honest (.part address p next)
  | isAbsent {address : Address} {next : Bool → Recipe V} (hnext : ∀ o, Honest (next o)) :
      Honest (.isAbsent address next)

/-- A run that reads a part goes on from the record there, with the read on its receipt. -/
theorem run_part_eq_done (address : Address) (p : Part) (next : Option Node → Recipe V)
    (r r' : Reader) (v : V) :
    (Recipe.part address p next).run r = .done (v, r') ↔
      ∃ arc, r.snapshot.get address = .done arc ∧
        (next (arc.map Arc.node)).run (r.push (.read address p)) = .done (v, r') := by
  have hrun : (Recipe.part address p next).run r = r.snapshot.get address >>= fun arc =>
      (next (arc.map Arc.node)).run (r.push (.read address p)) := by
    rw [Recipe.run, Reader.part]
    change (r.snapshot.get address >>= _) >>= _ = _
    cases r.snapshot.get address <;> rfl
  rw [hrun, Outcome.bind_eq_done]

/-- A run keeps its snapshot and only adds to its receipt. -/
theorem run_grows (recipe : Recipe V) (r r' : Reader) (v : V)
    (h : recipe.run r = .done (v, r')) :
    r'.snapshot = r.snapshot ∧ ∃ more, r'.receipt.obs = r.receipt.obs ++ more := by
  induction recipe generalizing r with
  | ret value =>
    obtain ⟨_, hr⟩ := Prod.mk.inj (Outcome.done.inj h)
    rw [← hr]
    exact ⟨rfl, [], by simp⟩
  | part address p next ih =>
    obtain ⟨arc, _, hrest⟩ := (run_part_eq_done address p next r r' v).mp h
    obtain ⟨hsnap, more, hmore⟩ := ih _ _ hrest
    exact ⟨hsnap, .read address p :: more, by simp [hmore, Reader.push]⟩
  | isAbsent address next ih =>
    unfold Recipe.run at h
    obtain ⟨hsnap, more, hmore⟩ := ih _ _ h
    exact ⟨hsnap, .liveness address (!r.snapshot.contains address) :: more,
      by simp [hmore, Reader.push]⟩

section Steady

variable {before after : Snapshot}

/-- A read that no commit disturbed, seen or unseen, answers the same. -/
theorem steady_read (a : Address) (p : Part)
    (hseen : ¬ Noticed before.records after.records (.read a p))
    (hunseen : ¬ Unnoticed before.records after.records (.read a p)) :
    (before.records.lookup a = none ∧ after.records.lookup a = none) ∨
      ∃ b n, before.records.lookup a = some b ∧ after.records.lookup a = some n ∧
        b.node.partEq n.node p = true := by
  unfold Noticed at hseen
  unfold Unnoticed at hunseen
  rw [not_or] at hunseen
  cases hb : before.records.lookup a with
  | none =>
    cases hn : after.records.lookup a with
    | none => exact Or.inl ⟨rfl, rfl⟩
    | some n =>
      exfalso
      apply hseen
      refine ⟨by rw [hn]; rfl, ?_⟩
      by_cases hown : p ∈ ownParts
      · exact Or.inl ⟨hown, fun b n' hb' _ => by rw [hb] at hb'; cases hb'⟩
      · have hdesc := eq_descendant_of_not_own hown
        have hchild : ∃ c, Lists before.records after.records a c ∧
            ChangedBelow before.records after.records c := by
          by_contra hnone
          push Not at hnone
          exact hunseen.2 ⟨hdesc, hb, by rw [hn]; rfl, hnone⟩
        exact Or.inr ⟨hdesc, hchild⟩
  | some b =>
    cases hn : after.records.lookup a with
    | none => exact absurd ⟨by rw [hb]; rfl, hn⟩ hunseen.1
    | some n =>
      refine Or.inr ⟨b, n, rfl, rfl, ?_⟩
      by_cases hown : p ∈ ownParts
      · by_contra hne
        refine hseen ⟨by rw [hn]; rfl, Or.inl ⟨hown, fun b' n' hb' hn' => ?_⟩⟩
        rw [hb, Option.some.injEq] at hb'
        rw [hn, Option.some.injEq] at hn'
        rw [← hb', ← hn']
        simpa using hne
      · rw [eq_descendant_of_not_own hown]
        rfl

/-- An honest recipe whose observations are steady runs the same on both snapshots. -/
theorem run_congr (hdom : before.version.domain = after.version.domain) (recipe : Recipe V)
    (hrecipe : Honest recipe) (receipt receipt' : Receipt) (v : V)
    (h : recipe.run ⟨before, receipt⟩ = .done (v, ⟨before, receipt'⟩))
    (hsteady : ∀ o ∈ receipt'.obs, ¬ Noticed before.records after.records o ∧
      ¬ Unnoticed before.records after.records o) :
    recipe.run ⟨after, receipt⟩ = .done (v, ⟨after, receipt'⟩) := by
  induction hrecipe generalizing receipt with
  | ret value =>
    obtain ⟨hv, hr⟩ := Prod.mk.inj (Outcome.done.inj h)
    injection hr with _ hr
    rw [← hv, ← hr]
    rfl
  | @part address p next _ hpart ih =>
    obtain ⟨arc, hget, hrest⟩ := (run_part_eq_done address p next _ _ v).mp h
    obtain ⟨hown, harc⟩ := get_eq_done before address arc hget
    have hmem : Obs.read address p ∈ receipt'.obs := by
      obtain ⟨_, more, hmore⟩ := run_grows _ _ _ _ hrest
      rw [hmore]
      simp [Reader.push]
    obtain ⟨hseen, hunseen⟩ := hsteady _ hmem
    -- the recipe goes on alike from the answer of either snapshot
    have hnext : next ((after.records.lookup address).map Arc.node) =
        next (arc.map Arc.node) := by
      rw [← harc]
      rcases steady_read address p hseen hunseen with ⟨hb, hn⟩ | ⟨b, n, hb, hn, heq⟩
      · rw [hb, hn]
      · rw [hb, hn]
        exact (hpart b.node n.node heq).symm
    refine (run_part_eq_done address p next _ _ v).mpr
      ⟨after.records.lookup address, get_own after address (hown.trans hdom), ?_⟩
    rw [hnext]
    exact ih _ _ hrest
  | @isAbsent address next _ ih =>
    unfold Recipe.run at h ⊢
    simp only [Reader.isAbsent, Reader.push] at h ⊢
    have hmem : Obs.liveness address (!before.contains address) ∈ receipt'.obs := by
      obtain ⟨_, more, hmore⟩ := run_grows _ _ _ _ h
      rw [hmore]
      simp
    have hsame : (!after.contains address) = !before.contains address := by
      have hseen := (hsteady _ hmem).1
      rw [noticed_liveness_iff, ne_eq, not_not] at hseen
      rw [← hseen, not_contains_eq]
    rw [hsame]
    exact ih _ _ h

end Steady

end Recipes

section Cells

variable {V : Type}

theorem lookup_foldl_erase (l : List String) (cells : AList (fun _ : String => V × Receipt))
    (key : String) :
    (l.foldl (fun cells k => cells.erase k) cells).lookup key =
      if key ∈ l then none else cells.lookup key := by
  induction l generalizing cells with
  | nil => rfl
  | cons k rest ih =>
    rw [List.foldl_cons, ih]
    by_cases hk : key = k
    · subst hk
      simp
    · rw [AList.lookup_erase_ne hk]
      simp [hk]

/-- The cells an invalidation leaves are those whose receipts survive. -/
theorem invalidate_lookup (e : Engine V) (delta : Delta) (after : Snapshot) (key : String)
    (cell : V × Receipt) :
    (e.invalidate delta after).2.cells.lookup key = some cell ↔
      e.cells.lookup key = some cell ∧ cell.2.survives delta after = true := by
  have hdoomed : key ∈ (e.cells.entries.filter
      (fun cell => !cell.2.2.survives delta after)).map Sigma.fst ↔
      ∃ cell, e.cells.lookup key = some cell ∧ cell.2.survives delta after = false := by
    rw [List.mem_map]
    constructor
    · intro h
      obtain ⟨⟨k, cell⟩, hmem, hk⟩ := h
      obtain ⟨hentry, hdies⟩ := List.mem_filter.mp hmem
      simp only at hk
      subst hk
      exact ⟨cell, AList.mem_lookup_iff.mpr hentry, by simpa using hdies⟩
    · intro h
      obtain ⟨cell, hcell, hdies⟩ := h
      refine ⟨⟨key, cell⟩, List.mem_filter.mpr ⟨AList.mem_lookup_iff.mp hcell, ?_⟩, rfl⟩
      simpa using hdies
  unfold Engine.invalidate
  simp only
  rw [lookup_foldl_erase]
  by_cases hin : ∃ cell, e.cells.lookup key = some cell ∧ cell.2.survives delta after = false
  · rw [if_pos (hdoomed.mpr hin)]
    obtain ⟨doomed, hcell, hdies⟩ := hin
    refine iff_of_false (by simp) (fun h => ?_)
    rw [hcell, Option.some.injEq] at h
    rw [h.1, h.2] at hdies
    cases hdies
  · rw [if_neg (fun hmem => hin (hdoomed.mp hmem))]
    refine (and_iff_left_of_imp (fun hcell => ?_)).symm
    by_contra hdies
    exact hin ⟨cell, hcell, by simpa using hdies⟩

end Cells

section Sessions

variable {V : Type}

structure Session (V : Type) where
  engine : Engine V
  current : Snapshot

inductive Action where
  | get (key : String)
  | commit (c : Commit)

/-- The engine is asked for a cell of the current snapshot, or the snapshot is committed
on and the cells are invalidated with what the commit returned. -/
inductive Step : Session V → Action → Session V → Prop
  | get {q : Session V} {key : String} {v : V} {e : Engine V}
      (hget : q.engine.get key q.current = .done (v, e)) :
      Step q (.get key) { q with engine := e }
  | commit {q : Session V} {edits : List Edit} {heap heap' : Heap} {b : SnapshotBuilder}
      {fuel : ℕ} {c : Commit} (hedits : Edit.applyAll edits q.current.edit heap = .done (b, heap'))
      (hcommit : commit b fuel = .done c) :
      Step q (.commit c) ⟨(q.engine.invalidate c.delta c.snapshot).2, c.snapshot⟩

def opened (recipes : AList (fun _ : String => Recipe V)) (s : Snapshot) : Session V :=
  ⟨{ Engine.new with recipes := recipes }, s⟩

/-- A commit leaves no cached cell with a read it falsified unnoticed, unless the cell
also holds an observation it disturbed noticeably. -/
def Watched (q : Session V) : Action → Prop
  | .get _ => True
  | .commit c => ∀ key cell, q.engine.cells.lookup key = some cell →
      (∃ o ∈ cell.2.obs, Unnoticed q.current.records c.snapshot.records o) →
      ∃ o ∈ cell.2.obs, Noticed q.current.records c.snapshot.records o

def Sound (q : Session V) : Prop :=
  ∀ key cell, q.engine.cells.lookup key = some cell →
    ∃ recipe, q.engine.recipes.lookup key = some recipe ∧
      recipe.run (Reader.new q.current) = .done (cell.1, ⟨q.current, cell.2⟩)

/-- What asking for a cell does: a cached value is returned, and otherwise the recipe is
run and its value and receipt are kept. -/
theorem get_cases (e e' : Engine V) (key : String) (s : Snapshot) (v : V)
    (h : e.get key s = .done (v, e')) :
    (e' = e ∧ ∃ receipt, e.cells.lookup key = some (v, receipt)) ∨
      ∃ recipe receipt, e.recipes.lookup key = some recipe ∧
        recipe.run (Reader.new s) = .done (v, ⟨s, receipt⟩) ∧
        e'.recipes = e.recipes ∧ e'.cells = e.cells.insert key (v, receipt) := by
  unfold Engine.get at h
  cases hcell : e.cells.lookup key with
  | some cell =>
    obtain ⟨value, receipt⟩ := cell
    rw [hcell] at h
    obtain ⟨hv, he⟩ := Prod.mk.inj (Outcome.done.inj h)
    exact Or.inl ⟨he.symm, receipt, by rw [← hv]⟩
  | none =>
    rw [hcell] at h
    change e.recompute key s = _ at h
    unfold Engine.recompute at h
    cases hrecipe : e.recipes.lookup key with
    | none =>
      rw [hrecipe] at h
      cases h
    | some recipe =>
      rw [hrecipe] at h
      obtain ⟨⟨value, r⟩, hrun, h⟩ := (Outcome.bind_eq_done _ _ _).mp h
      obtain ⟨hv, he⟩ := Prod.mk.inj (Outcome.done.inj h)
      have hsnap := (run_grows recipe (Reader.new s) r value hrun).1
      obtain ⟨snapshot, receipt⟩ := r
      change snapshot = s at hsnap
      subst hsnap
      subst hv
      exact Or.inr ⟨recipe, receipt, rfl, hrun, by rw [← he], by rw [← he]⟩

theorem step_recipes {q q' : Session V} {a : Action} (hstep : Step q a q') :
    q'.engine.recipes = q.engine.recipes := by
  cases hstep with
  | get hget =>
    rcases get_cases _ _ _ _ _ hget with ⟨he, _⟩ | ⟨_, _, _, _, he, _⟩
    · rw [he]
    · exact he
  | commit _ _ => rfl

/-- A step that is watched keeps the cells sound when the recipes are honest. -/
theorem step_sound {q q' : Session V} {a : Action}
    (hhonest : ∀ key recipe, q.engine.recipes.lookup key = some recipe → Honest recipe)
    (hq : Sound q) (hstep : Meeting Watched Step q a q') : Sound q' := by
  obtain ⟨hwatched, hstep⟩ := hstep
  have hrecipes := step_recipes hstep
  cases hstep with
  | @get key v e hget =>
    rcases get_cases q.engine e key q.current v hget with
      ⟨he, _⟩ | ⟨recipe, receipt, hrec, hrun, _, hcells⟩
    · rw [he]
      exact hq
    · intro k cell hcell
      change e.recipes = q.engine.recipes at hrecipes
      change e.cells.lookup k = some cell at hcell
      change ∃ r, e.recipes.lookup k = some r ∧ _
      rw [hcells] at hcell
      rw [hrecipes]
      by_cases hk : k = key
      · subst hk
        rw [AList.lookup_insert, Option.some.injEq] at hcell
        rw [← hcell]
        exact ⟨recipe, hrec, hrun⟩
      · rw [AList.lookup_insert_ne hk] at hcell
        exact hq k cell hcell
  | @commit edits heap heap' b fuel c hedits hcommit =>
    intro key cell hcell
    have hbase : b.base = q.current := applyAll_base edits q.current.edit b heap heap' hedits
    have hdesc := commit_describes b fuel c hcommit
    have hdom := commit_domain b fuel c hcommit
    rw [hbase] at hdesc hdom
    obtain ⟨hold, hsurvives⟩ := (invalidate_lookup q.engine c.delta c.snapshot key cell).mp hcell
    obtain ⟨recipe, hrecipe, hrun⟩ := hq key cell hold
    have hunnoticed := (survives_iff hdesc cell.2).mp hsurvives
    refine ⟨recipe, hrecipe, ?_⟩
    refine run_congr hdom.symm recipe (hhonest key recipe hrecipe) {} cell.2 cell.1 hrun ?_
    intro o ho
    refine ⟨hunnoticed o ho, fun hflip => ?_⟩
    obtain ⟨o', ho', hnoticed⟩ := hwatched key cell hold ⟨o, ho, hflip⟩
    exact hunnoticed o' ho' hnoticed

theorem run_sound (recipes : AList (fun _ : String => Recipe V)) (s : Snapshot)
    (hhonest : ∀ key recipe, recipes.lookup key = some recipe → Honest recipe)
    (labels : List Action) (q : Session V)
    (hrun : Run (Meeting Watched Step) (opened recipes s) labels q) :
    q.engine.recipes = recipes ∧ Sound q := by
  refine Run.preserves (fun q => q.engine.recipes = recipes ∧ Sound q) hrun ?_ ?_
  · intro u a v hu hstep
    obtain ⟨hrecipes, hsound⟩ := hu
    refine ⟨(step_recipes hstep.2).trans hrecipes, step_sound ?_ hsound hstep⟩
    rw [hrecipes]
    exact hhonest
  · refine ⟨rfl, fun key cell hcell => ?_⟩
    change (∅ : AList (fun _ : String => V × Receipt)).lookup key = some cell at hcell
    rw [AList.lookup_empty] at hcell
    cases hcell

/-- Derivation has no false negatives over watched commits: whatever is asked of the
current snapshot is what the recipe gives from scratch. -/
theorem get_eq_fresh (recipes : AList (fun _ : String => Recipe V)) (s : Snapshot)
    (hhonest : ∀ key recipe, recipes.lookup key = some recipe → Honest recipe)
    (labels : List Action) (q : Session V)
    (hrun : Run (Meeting Watched Step) (opened recipes s) labels q) (key : String)
    (recipe : Recipe V) (hrecipe : recipes.lookup key = some recipe) :
    (q.engine.get key q.current >>= fun answer => .done answer.1) = fresh recipe q.current := by
  obtain ⟨hrecipes, hsound⟩ := run_sound recipes s hhonest labels q hrun
  unfold Engine.get fresh
  cases hcell : q.engine.cells.lookup key with
  | some cell =>
    obtain ⟨recipe', hrecipe', hone⟩ := hsound key cell hcell
    rw [hrecipes, hrecipe, Option.some.injEq] at hrecipe'
    rw [hrecipe', hone]
    rfl
  | none =>
    change (q.engine.recompute key q.current >>= _) = _
    unfold Engine.recompute
    rw [hrecipes, hrecipe]
    simp only
    cases recipe.run (Reader.new q.current) with
    | done answer => rfl
    | trap e => rfl
    | starved => rfl

end Sessions

section Example

def width : Recipe ℤ :=
  .part (addr .node 1) Part.intrinsicLayout (fun o => .ret ((o.map Node.intrinsic).getD 0))

def measuring : AList (fun _ : String => Recipe ℤ) := (Engine.new.define "width" width).recipes

def measured : Snapshot := holding (rev 1) 0 [(addr .node 1, { intrinsic := 5 })]

theorem honest_width : Honest width := by
  refine Honest.part (fun o => Honest.ret _) (fun n m h => ?_)
  have heq : n.intrinsic = m.intrinsic := (Node.partEq_iff n m Part.intrinsicLayout).mp h
  simp only [Option.map_some, heq]

theorem honest_measuring (key : String) (recipe : Recipe ℤ)
    (h : measuring.lookup key = some recipe) : Honest recipe := by
  have hmem : (⟨key, recipe⟩ : Sigma (fun _ : String => Recipe ℤ)) ∈ [⟨"width", width⟩] :=
    AList.mem_lookup_iff.mp h
  rw [List.mem_singleton] at hmem
  injection hmem with _ hrecipe
  rw [hrecipe]
  exact honest_width

def asked : Session ℤ :=
  ⟨⟨measuring, AList.singleton "width" (5, ⟨[.read (addr .node 1) Part.intrinsicLayout]⟩), 1⟩,
    measured⟩

theorem step_asked : Step (opened measuring measured) (.get "width") asked :=
  Step.get (v := 5) rfl

def remeasured : Snapshot := holding (rev 2) 1 [(addr .node 1, { intrinsic := 7 })]

/-- The record is written anew, the cell that read it is dropped, and the width follows. -/
theorem get_eq_fresh_measuring :
    ∃ labels q, Run (Meeting Watched Step) (opened measuring measured) labels q ∧
      (q.engine.get "width" q.current >>= fun answer => .done answer.1) =
        fresh width q.current ∧ fresh width q.current = .done 7 := by
  let c : Commit := ⟨remeasured, ⟨measured.version, remeasured.version,
    [⟨addr .node 1, Parts.of Part.intrinsicLayout⟩]⟩⟩
  have hstep : Step asked (.commit c)
      ⟨(asked.engine.invalidate c.delta remeasured).2, remeasured⟩ :=
    @Step.commit _ _ [.put (addr .node 1) { intrinsic := 7 }] ⟨1⟩ _ _ 2 _ rfl rfl
  have hwatched : Watched asked (.commit c) := by
    intro key cell hcell hmissed
    exfalso
    obtain ⟨o, ho, hmissed⟩ := hmissed
    have hmem := AList.mem_lookup_iff.mp hcell
    unfold asked AList.singleton at hmem
    rw [List.mem_singleton] at hmem
    injection hmem with _ hcell
    subst hcell
    rw [List.mem_singleton] at ho
    subst ho
    rcases hmissed with ⟨_, hretired⟩ | ⟨hdesc, _⟩
    · cases hretired
    · cases hdesc
  have hgot : Meeting Watched Step (opened measuring measured) (.get "width") asked :=
    ⟨trivial, step_asked⟩
  have hrun := (Run.single hgot).snoc ⟨hwatched, hstep⟩
  exact ⟨_, _, hrun, get_eq_fresh measuring measured honest_measuring _ _ hrun "width" width rfl,
    rfl⟩

/-- The record is removed, the cell that read it is kept, and its value stays. -/
theorem retired_read_stays_cached :
    ∃ labels q, Run Step (opened measuring measured) labels q ∧
      (∀ key recipe, measuring.lookup key = some recipe → Honest recipe) ∧
      q.engine.isCached "width" = true ∧
      (q.engine.get "width" q.current >>= fun answer => .done answer.1) = .done 5 ∧
      fresh width q.current = .done 0 :=
  ⟨_, _, (Run.single step_asked).snoc
    (@Step.commit _ _ [.remove (addr .node 1)] ⟨1⟩ _ _ 2 _ rfl rfl),
    honest_measuring, rfl, rfl, rfl⟩

end Example

end CompositionIr.Invalidation
