import CompositionIr.Invalidation

/-!
What an engine has done, kept in a book beside it: each run of a recipe and each cell an
invalidation dropped, with the receipt. Under every key runs and drops take turns, each
drop of the receipt the run before it left, and a run without a drop is a cached cell. So
no recipe is run again before a commit disturbed what its last run observed, and the
engine's own counter is the drops and the cached cells together.
-/

namespace CompositionIr.EngineAccounts

open Outcomes Transitions Addresses Records Snapshots Deltas DerivedCells Invalidation

variable {V : Type}

inductive Op (V : Type) where
  | define (key : String) (recipe : Recipe V)
  | get (key : String) (snapshot : Snapshot)
  | invalidate (delta : Delta) (after : Snapshot)

inductive Event where
  | ran (key : String) (receipt : Receipt)
  | dropped (key : String) (receipt : Receipt)

def Event.key : Event → String
  | .ran key _ | .dropped key _ => key

def Event.isRun : Event → Bool
  | .ran _ _ => true
  | .dropped _ _ => false

/-- A call on the engine, with what happened to its cells and the count that an invalidation
returns. -/
structure Entry (V : Type) where
  op : Op V
  events : List Event
  count : ℕ

def doomedCells (e : Engine V) (delta : Delta) (after : Snapshot) :
    List (Sigma (fun _ : String => V × Receipt)) :=
  e.cells.entries.filter (fun cell => !cell.2.2.survives delta after)

def runsOf (e e' : Engine V) (key : String) : List Event :=
  if e.isCached key then [] else ((e'.cells.lookup key).map (fun cell => .ran key cell.2)).toList

inductive Step : Engine V → Entry V → Engine V → Prop
  | define (e : Engine V) (key : String) (recipe : Recipe V) :
      Step e ⟨.define key recipe, [], 0⟩ (e.define key recipe)
  | get (e e' : Engine V) (key : String) (snapshot : Snapshot) (v : V)
      (hget : e.get key snapshot = .done (v, e')) :
      Step e ⟨.get key snapshot, runsOf e e' key, 0⟩ e'
  | invalidate (e : Engine V) (delta : Delta) (after : Snapshot) :
      Step e ⟨.invalidate delta after,
          (doomedCells e delta after).map (fun cell => .dropped cell.1 cell.2.2),
          (e.invalidate delta after).1⟩
        (e.invalidate delta after).2

def book (labels : List (Entry V)) : List Event := labels.flatMap Entry.events

theorem book_snoc (labels : List (Entry V)) (entry : Entry V) :
    book (labels ++ [entry]) = book labels ++ entry.events := by
  simp [book]

def reported (labels : List (Entry V)) : ℕ := (labels.map Entry.count).sum

theorem reported_snoc (labels : List (Entry V)) (entry : Entry V) :
    reported (labels ++ [entry]) = reported labels + entry.count := by
  simp [reported]

def onKey (key : String) (events : List Event) : List Event :=
  events.filter (fun event => event.key == key)

theorem onKey_append (key : String) (left right : List Event) :
    onKey key (left ++ right) = onKey key left ++ onKey key right :=
  List.filter_append left right

/-- Runs that were dropped again. -/
def turns (key : String) (receipts : List Receipt) : List Event :=
  receipts.flatMap (fun receipt => [.ran key receipt, .dropped key receipt])

/-- The run that a cached cell is left from. -/
def pending (e : Engine V) (key : String) : List Event :=
  ((e.cells.lookup key).map (fun cell => .ran key cell.2)).toList

/-- Under every key runs and drops take turns, up to the run of the cached cell. -/
def TakesTurns (events : List Event) (e : Engine V) : Prop :=
  ∀ key, ∃ receipts, onKey key events = turns key receipts ++ pending e key

section Gets

/-- What a get does to the engine: nothing, or one run that leaves one more cell. -/
theorem get_effect {e e' : Engine V} {key : String} {s : Snapshot} {v : V}
    (h : e.get key s = .done (v, e')) :
    (e' = e ∧ ∃ cell, e.cells.lookup key = some cell) ∨
      ∃ receipt, e.cells.lookup key = none ∧ e'.recomputations = e.recomputations + 1 ∧
        e'.cells = e.cells.insert key (v, receipt) := by
  unfold Engine.get at h
  cases hcell : e.cells.lookup key with
  | some cell =>
    rw [hcell] at h
    exact Or.inl ⟨(Prod.mk.inj (Outcome.done.inj h)).2.symm, cell, rfl⟩
  | none =>
    rw [hcell] at h
    change e.recompute key s = _ at h
    unfold Engine.recompute at h
    cases hrecipe : e.recipes.lookup key with
    | none =>
      rw [hrecipe] at h
      cases h
    | some recipe =>
      rw [hrecipe] at h
      obtain ⟨⟨value, r⟩, _, h⟩ := (Outcome.bind_eq_done _ _ _).mp h
      obtain ⟨hv, he⟩ := Prod.mk.inj (Outcome.done.inj h)
      rw [← he, ← hv]
      exact Or.inr ⟨r.receipt, rfl, rfl, rfl⟩

theorem runsOf_hit {e : Engine V} {key : String} {cell : V × Receipt}
    (hcell : e.cells.lookup key = some cell) : runsOf e e key = [] := by
  unfold runsOf Engine.isCached
  rw [hcell]
  rfl

theorem runsOf_miss {e e' : Engine V} {key : String} {v : V} {receipt : Receipt}
    (hnone : e.cells.lookup key = none) (hcells : e'.cells = e.cells.insert key (v, receipt)) :
    runsOf e e' key = [.ran key receipt] := by
  unfold runsOf Engine.isCached
  rw [hnone, hcells, AList.lookup_insert]
  rfl

end Gets

section Drops

theorem mem_doomed {e : Engine V} {delta : Delta} {after : Snapshot} {key : String}
    {cell : V × Receipt} : (⟨key, cell⟩ : Sigma (fun _ : String => V × Receipt)) ∈
        doomedCells e delta after ↔
      e.cells.lookup key = some cell ∧ cell.2.survives delta after = false := by
  unfold doomedCells
  rw [List.mem_filter, ← AList.mem_lookup_iff, Option.mem_def, Bool.not_eq_true']

/-- The drops under one key: of its cell, when that does not survive. -/
theorem onKey_dropped (e : Engine V) (delta : Delta) (after : Snapshot) (key : String) :
    onKey key ((doomedCells e delta after).map (fun cell => .dropped cell.1 cell.2.2)) =
      ((e.cells.lookup key).filter (fun cell => !cell.2.survives delta after)).toList.map
        (fun cell => .dropped key cell.2) := by
  unfold onKey doomedCells AList.lookup
  have hnodup : e.cells.entries.NodupKeys := e.cells.nodupKeys
  generalize e.cells.entries = entries at hnodup ⊢
  induction entries with
  | nil => rfl
  | cons entry rest ih =>
    obtain ⟨k, cell⟩ := entry
    obtain ⟨hfresh, hrest⟩ := List.nodupKeys_cons.mp hnodup
    by_cases hk : key = k
    · subst hk
      have hnone : List.dlookup key rest = none := List.dlookup_eq_none.mpr hfresh
      have hlater := ih hrest
      rw [hnone] at hlater
      change _ = [] at hlater
      rw [List.dlookup_cons_eq, List.filter_cons, Option.filter_some]
      by_cases hdies : cell.2.survives delta after = true
      · simp only [hdies, Bool.not_true, Bool.false_eq_true, if_false]
        exact hlater
      · simp only [hdies, Bool.not_false, if_true, List.map_cons, List.filter_cons, Event.key,
          beq_self_eq_true]
        exact congrArg _ hlater
    · rw [List.dlookup_cons_ne _ _ hk, List.filter_cons, ← ih hrest]
      by_cases hdies : cell.2.survives delta after = true
      · simp [hdies]
      · simp [hdies, Event.key, Ne.symm hk]

theorem pending_invalidate (e : Engine V) (delta : Delta) (after : Snapshot) (key : String) :
    pending (e.invalidate delta after).2 key =
      ((e.cells.lookup key).filter (fun cell => cell.2.survives delta after)).toList.map
        (fun cell => .ran key cell.2) := by
  have hkept : (e.invalidate delta after).2.cells.lookup key =
      (e.cells.lookup key).filter (fun cell => cell.2.survives delta after) := by
    refine Option.ext (fun cell => ?_)
    rw [Option.filter_eq_some_iff]
    exact invalidate_lookup e delta after key cell
  unfold pending
  rw [hkept]
  cases (e.cells.lookup key).filter (fun cell => cell.2.survives delta after) <;> rfl

/-- Erasing cells that are there leaves as many fewer. -/
theorem length_foldl_erase (keys : List String) (cells : AList (fun _ : String => V × Receipt))
    (hnodup : keys.Nodup) (hmem : ∀ k ∈ keys, k ∈ cells.keys) :
    (keys.foldl (fun cells k => cells.erase k) cells).keys.length + keys.length =
      cells.keys.length := by
  induction keys generalizing cells with
  | nil => rfl
  | cons k rest ih =>
    obtain ⟨hfresh, hrest⟩ := List.nodup_cons.mp hnodup
    have hk := hmem k (List.mem_cons_self ..)
    have hlater : ∀ k' ∈ rest, k' ∈ (cells.erase k).keys := by
      intro k' hk'
      rw [AList.keys_erase, List.Nodup.mem_erase_iff cells.keys_nodup]
      exact ⟨fun heq => hfresh (heq ▸ hk'), hmem k' (List.mem_cons_of_mem _ hk')⟩
    have hone : (cells.erase k).keys.length + 1 = cells.keys.length := by
      rw [AList.keys_erase, List.length_erase_of_mem hk]
      have hpos := List.length_pos_of_mem hk
      omega
    have hmore := ih (cells.erase k) hrest hlater
    rw [List.foldl_cons, List.length_cons]
    omega

theorem length_invalidate (e : Engine V) (delta : Delta) (after : Snapshot) :
    (e.invalidate delta after).2.cells.keys.length + (doomedCells e delta after).length =
      e.cells.keys.length := by
  have hsub : List.Sublist ((doomedCells e delta after).map Sigma.fst) e.cells.keys :=
    List.Sublist.map _ List.filter_sublist
  have hcount := length_foldl_erase ((doomedCells e delta after).map Sigma.fst) e.cells
    (hsub.nodup e.cells.keys_nodup) (fun k hk => hsub.subset hk)
  rw [List.length_map] at hcount
  exact hcount

end Drops

section Books

theorem TakesTurns.get {events : List Event} {e e' : Engine V} {key : String} {s : Snapshot}
    {v : V} (h : TakesTurns events e) (hget : e.get key s = .done (v, e')) :
    TakesTurns (events ++ runsOf e e' key) e' := by
  rcases get_effect hget with ⟨he, cell, hcell⟩ | ⟨receipt, hnone, _, hcells⟩
  · rw [he, runsOf_hit hcell, List.append_nil]
    exact h
  · rw [runsOf_miss hnone hcells]
    intro k
    obtain ⟨receipts, hk⟩ := h k
    refine ⟨receipts, ?_⟩
    rw [onKey_append, hk]
    unfold pending
    rw [hcells]
    by_cases hkey : k = key
    · subst hkey
      rw [hnone, AList.lookup_insert]
      simp [onKey, Event.key]
    · rw [AList.lookup_insert_ne hkey]
      simp [onKey, Event.key, Ne.symm hkey]

theorem TakesTurns.invalidate {events : List Event} {e : Engine V} (h : TakesTurns events e)
    (delta : Delta) (after : Snapshot) :
    TakesTurns (events ++ (doomedCells e delta after).map (fun cell => .dropped cell.1 cell.2.2))
      (e.invalidate delta after).2 := by
  intro key
  obtain ⟨receipts, hkey⟩ := h key
  rw [onKey_append, hkey, onKey_dropped, pending_invalidate]
  unfold pending
  cases hcell : e.cells.lookup key with
  | none => exact ⟨receipts, by simp⟩
  | some cell =>
    by_cases hkept : cell.2.survives delta after = true
    · exact ⟨receipts, by simp [Option.filter, hkept]⟩
    · refine ⟨receipts ++ [cell.2], ?_⟩
      simp [Option.filter, hkept, turns]

structure Balanced (labels : List (Entry V)) (e : Engine V) : Prop where
  turns : TakesTurns (book labels) e
  runs : e.recomputations = (book labels).countP Event.isRun
  drops : reported labels + e.cells.keys.length = (book labels).countP Event.isRun

theorem step_balanced {labels : List (Entry V)} {entry : Entry V} {e e' : Engine V}
    (h : Balanced labels e) (hstep : Step e entry e') : Balanced (labels ++ [entry]) e' := by
  obtain ⟨hturns, hruns, hdrops⟩ := h
  refine ⟨?_, ?_, ?_⟩ <;> rw [book_snoc]
  · cases hstep with
    | define key recipe =>
      rw [List.append_nil]
      exact hturns
    | get _ key s v hget => exact hturns.get hget
    | invalidate delta after => exact hturns.invalidate delta after
  · rw [List.countP_append, ← hruns]
    cases hstep with
    | define key recipe => rfl
    | get _ key s v hget =>
      rcases get_effect hget with ⟨he, cell, hcell⟩ | ⟨receipt, hnone, hcount, hcells⟩
      · rw [he, runsOf_hit hcell]
        rfl
      · rw [runsOf_miss hnone hcells, hcount]
        rfl
    | invalidate delta after =>
      have hnone : ((doomedCells e delta after).map
          (fun cell => Event.dropped cell.1 cell.2.2)).countP Event.isRun = 0 := by
        rw [List.countP_map]
        exact List.countP_eq_zero.mpr (fun _ _ => by simp [Event.isRun])
      rw [hnone]
      rfl
  · rw [List.countP_append, reported_snoc, ← hdrops]
    cases hstep with
    | define key recipe => rfl
    | get _ key s v hget =>
      rcases get_effect hget with ⟨he, cell, hcell⟩ | ⟨receipt, hnone, _, hcells⟩
      · rw [he, runsOf_hit hcell]
        rfl
      · have hlen : e'.cells.keys.length = e.cells.keys.length + 1 := by
          have hfresh : key ∉ e.cells.keys := by
            rw [← AList.mem_keys]
            exact AList.lookup_eq_none.mp hnone
          rw [hcells, AList.keys_insert, List.length_cons, List.erase_of_not_mem hfresh]
        rw [runsOf_miss hnone hcells, hlen]
        rfl
    | invalidate delta after =>
      have hlen := length_invalidate e delta after
      have hcount : (e.invalidate delta after).1 = (doomedCells e delta after).length := by
        simp [Engine.invalidate, doomedCells]
      rw [List.countP_map]
      have hnone : (doomedCells e delta after).countP
          (Event.isRun ∘ fun cell => .dropped cell.1 cell.2.2) = 0 :=
        List.countP_eq_zero.mpr (fun _ _ => by simp [Event.isRun])
      rw [hnone]
      change reported labels + (e.invalidate delta after).1 + _ = _
      rw [hcount]
      omega

end Books

/-- Every drop in a run is of a receipt that the commit at hand disturbed. -/
theorem step_drops {entry : Entry V} {e e' : Engine V} (hstep : Step e entry e')
    {key : String} {receipt : Receipt} (h : .dropped key receipt ∈ entry.events) :
    ∃ delta after, entry.op = .invalidate delta after ∧
      receipt.survives delta after = false := by
  cases hstep with
  | define key recipe => cases h
  | get _ key' s v hget =>
    change _ ∈ runsOf e e' key' at h
    rcases get_effect hget with ⟨he, cell, hcell⟩ | ⟨receipt, hnone, _, hcells⟩
    · rw [he, runsOf_hit hcell] at h
      cases h
    · rw [runsOf_miss hnone hcells, List.mem_singleton] at h
      cases h
  | invalidate delta after =>
    obtain ⟨⟨k, cell⟩, hcell, heq⟩ := List.mem_map.mp h
    cases heq
    exact ⟨delta, after, rfl, (mem_doomed.mp hcell).2⟩

/-- In every run of an engine, defined and asked and invalidated in any order, runs and drops
take turns under every key, each drop of what the run before it observed and that a commit
disturbed; a run without a drop is a cached cell. The counter is the number of runs, and
what the invalidations reported together with the cells cached. -/
theorem accounts_balance (labels : List (Entry V)) (e : Engine V)
    (hrun : Run Step Engine.new labels e) :
    (∀ key, ∃ receipts, onKey key (book labels) = turns key receipts ++ pending e key) ∧
      (∀ key receipt, .dropped key receipt ∈ book labels → ∃ delta after events count,
        ⟨.invalidate delta after, events, count⟩ ∈ labels ∧
          .dropped key receipt ∈ events ∧ receipt.survives delta after = false) ∧
      e.recomputations = (book labels).countP Event.isRun ∧
      e.recomputations = reported labels + e.cells.keys.length := by
  have hbalanced : Balanced labels e := by
    induction hrun with
    | nil => exact ⟨fun key => ⟨[], rfl⟩, rfl, rfl⟩
    | snoc _ hstep ih => exact step_balanced ih hstep
  refine ⟨hbalanced.turns, ?_, hbalanced.runs, hbalanced.runs.trans hbalanced.drops.symm⟩
  intro key receipt hmem
  obtain ⟨entry, hentry, hevent⟩ := List.mem_flatMap.mp hmem
  obtain ⟨u, v, hstep⟩ := hrun.exists_step hentry
  obtain ⟨delta, after, hop, hdies⟩ := step_drops hstep hevent
  refine ⟨delta, after, entry.events, entry.count, ?_, hevent, hdies⟩
  rw [← hop]
  exact hentry

section Example

def reshaped : Delta :=
  ⟨measured.version, remeasured.version, [⟨addr .node 1, Parts.of Part.intrinsicLayout⟩]⟩

/-- A width asked for twice, invalidated and asked for again. -/
theorem accounts_balance_measuring :
    ∃ labels, ∃ e : Engine ℤ, Run Step Engine.new labels e ∧ e.recomputations = 2 ∧
      (∀ key, ∃ receipts, onKey key (book labels) = turns key receipts ++ pending e key) ∧
      e.recomputations = reported labels + e.cells.keys.length := by
  have hdefined := Run.single (Step.define Engine.new "width" width)
  have hasked := (hdefined.snoc (Step.get _ _ "width" measured 5 rfl)).snoc
    (Step.get _ _ "width" measured 5 rfl)
  have hrun := (hasked.snoc (Step.invalidate _ reshaped remeasured)).snoc
    (Step.get _ _ "width" remeasured 7 rfl)
  obtain ⟨hturns, _, _, htotal⟩ := accounts_balance _ _ hrun
  exact ⟨_, _, hrun, rfl, hturns, htotal⟩

end Example

end CompositionIr.EngineAccounts
