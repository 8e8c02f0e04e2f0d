import Mathlib.Data.List.DropRight
import CompositionIr.Streaming

/-!
Placement against the moves that made it. The stored form keeps the boxes and the
translations since the last reset in two lists and loses the order between them; the
first box pushed for an address is the one that answers, moved by every translation
that covers the address, also by those made before it was placed.
-/

namespace CompositionIr.PlacementReplay

open Outcomes Transitions Addresses Records Placements Snapshots Deltas Commits
open PublishedStates DeltaSpec CommitSpec Streaming

def placed (p : Placement) : Edit → Placement
  | .resetPlacement => Placement.empty
  | .place x r => p.push x r
  | .translate covers dx dy => p.translate covers dx dy
  | .put _ _ | .update _ _ | .updateIfLive _ _ | .remove _ | .root _ => p

theorem apply_placement (e : Edit) (b b' : SnapshotBuilder) (heap heap' : Heap)
    (h : e.apply b heap = .done (b', heap')) : b'.placement = placed b.placement e := by
  cases e with
  | update x f =>
    obtain ⟨_, _, _, hb⟩ := update_eq_done b b' heap heap' x f h
    rw [hb]
    rfl
  | updateIfLive x f =>
    rcases updateIfLive_eq_done b b' heap heap' x f h with hone | ⟨_, hb, _⟩
    · obtain ⟨_, _, _, hb⟩ := update_eq_done b b' heap heap' x f hone
      rw [hb]
      rfl
    · rw [hb]
      rfl
  | put _ _ | remove _ | root _ | resetPlacement | place _ _ | translate _ _ _ =>
    exact (congrArg SnapshotBuilder.placement (Prod.mk.inj (Outcome.done.inj h)).1).symm

theorem applyAll_placement (edits : List Edit) (b b' : SnapshotBuilder) (heap heap' : Heap)
    (h : Edit.applyAll edits b heap = .done (b', heap')) :
    b'.placement = edits.foldl placed b.placement := by
  induction edits generalizing b heap with
  | nil => rw [(Prod.mk.inj (Outcome.done.inj h)).1, List.foldl_nil]
  | cons e rest ih =>
    obtain ⟨b₁, heap₁, hone, hrest⟩ := applyAll_cons_eq_done e rest b b' heap heap' h
    rw [ih b₁ heap₁ hrest, apply_placement e b b₁ heap heap₁ hone, List.foldl_cons]

/-- However a sequence of calls is cut into commits, it leaves the same placement. -/
theorem run_placement (s t : Snapshot) (chunks : List (List Edit))
    (hrun : Run Chunk s chunks t) : t.placement = chunks.flatten.foldl placed s.placement := by
  induction hrun with
  | nil => rfl
  | @snoc t u chunks edits hrun hstep ih =>
    obtain ⟨heap, b, heap', fuel, delta, happly, hcommit⟩ := hstep
    rw [List.flatten_append, List.flatten_singleton, List.foldl_append, ← ih,
      commit_placement b fuel _ hcommit, applyAll_placement edits t.edit b heap heap' happly]
    rfl

section Resets

def isReset : Edit → Bool
  | .resetPlacement => true
  | _ => false

def sinceReset (calls : List Edit) : List Edit := calls.rtakeWhile (fun e => !isReset e)

theorem not_isReset_of_mem (calls : List Edit) (e : Edit) (he : e ∈ sinceReset calls) :
    isReset e = false := by
  have hkept := List.mem_rtakeWhile_imp he
  simpa using hkept

/-- A sequence of calls is what follows its last reset, with everything up to that reset
before it when there is one. -/
theorem sinceReset_cases (calls : List Edit) :
    ((∀ e ∈ calls, isReset e = false) ∧ sinceReset calls = calls) ∨
      ∃ before, calls = before ++ .resetPlacement :: sinceReset calls := by
  induction calls using List.reverseRecOn with
  | nil => exact Or.inl ⟨by simp, rfl⟩
  | append_singleton calls e ih =>
    unfold sinceReset at ih ⊢
    by_cases he : isReset e = true
    · cases e with
      | resetPlacement =>
        refine Or.inr ⟨calls, ?_⟩
        rw [List.rtakeWhile_concat_neg _ _ _ (by simp [isReset])]
      | _ => cases he
    · rw [List.rtakeWhile_concat_pos _ _ _ (by simpa using he)]
      rcases ih with ⟨hnone, hall⟩ | ⟨before, hsplit⟩
      · refine Or.inl ⟨fun e' he' => ?_, by rw [hall]⟩
        rcases List.mem_append.mp he' with he' | he'
        · exact hnone e' he'
        · rw [List.mem_singleton.mp he']
          simpa using he
      · refine Or.inr ⟨before, ?_⟩
        rw [← List.cons_append, ← List.append_assoc, ← hsplit]

/-- What a sequence of calls leaves depends on what follows the last reset only. -/
theorem foldl_sinceReset {β : Type} (step : β → Edit → β) (cleared : β)
    (hreset : ∀ m, step m .resetPlacement = cleared) (calls : List Edit) :
    calls.foldl step cleared = (sinceReset calls).foldl step cleared := by
  rcases sinceReset_cases calls with ⟨_, hall⟩ | ⟨before, hsplit⟩
  · rw [hall]
  · calc calls.foldl step cleared
        = (before ++ .resetPlacement :: sinceReset calls).foldl step cleared := by rw [← hsplit]
      _ = (sinceReset calls).foldl step cleared := by
          rw [List.foldl_append, List.foldl_cons, hreset]

end Resets

section Stored

def boxOf : Edit → Option (Address × Rect)
  | .place x r => some (x, r)
  | _ => none

def moveOf : Edit → Option Translation
  | .translate covers dx dy => some ⟨covers, dx, dy⟩
  | _ => none

/-- Without a reset the boxes and the translations are appended to those stored. -/
theorem foldl_placed (calls : List Edit) (hcalls : ∀ e ∈ calls, isReset e = false)
    (p : Placement) :
    calls.foldl placed p =
      ⟨p.boxes ++ calls.filterMap boxOf, p.translations ++ calls.filterMap moveOf⟩ := by
  induction calls generalizing p with
  | nil => simp
  | cons e rest ih =>
    rw [List.foldl_cons, ih (fun e' he' => hcalls e' (List.mem_cons_of_mem _ he'))]
    have he := hcalls e (List.mem_cons_self ..)
    cases e with
    | resetPlacement => cases he
    | place x r => simp [placed, Placement.push, List.filterMap_cons, boxOf, moveOf]
    | translate covers dx dy =>
      simp [placed, Placement.translate, List.filterMap_cons, boxOf, moveOf]
    | _ => simp [placed, List.filterMap_cons, boxOf, moveOf]

def boxAt (a : Address) : Edit → Option Rect
  | .place x r => if x = a then some r else none
  | _ => none

def boxesAt (a : Address) (calls : List Edit) : List Rect := calls.filterMap (boxAt a)

def carry (a : Address) (r : Rect) : Edit → Rect
  | .translate covers dx dy =>
    if covers.contains a then { r with x := r.x + dx, y := r.y + dy } else r
  | _ => r

theorem carry_injective (a : Address) (e : Edit) (r r' : Rect)
    (h : carry a r e = carry a r' e) : r = r' := by
  cases e with
  | translate covers dx dy =>
    unfold carry at h
    by_cases hc : covers.contains a = true
    · simp only [hc, if_true, Rect.mk.injEq] at h
      obtain ⟨hx, hy, hw, hh⟩ := h
      cases r
      cases r'
      simp only [Rect.mk.injEq]
      simp only at hx hy hw hh
      exact ⟨by omega, by omega, hw, hh⟩
    · simpa only [hc, if_false, Bool.false_eq_true] using h
  | _ => exact h

theorem foldl_carry_injective (a : Address) (calls : List Edit) (r r' : Rect)
    (h : calls.foldl (carry a) r = calls.foldl (carry a) r') : r = r' := by
  induction calls generalizing r r' with
  | nil => exact h
  | cons e rest ih => exact carry_injective a e r r' (ih _ _ h)

theorem find_boxOf (a : Address) (calls : List Edit) :
    ((calls.filterMap boxOf).find? (fun placed => placed.1 == a)).map Prod.snd =
      (boxesAt a calls).head? := by
  unfold boxesAt
  induction calls with
  | nil => rfl
  | cons e rest ih =>
    cases e with
    | place x r =>
      by_cases hx : x = a
      · simp [boxOf, boxAt, hx]
      · simpa [List.filterMap_cons, boxOf, boxAt, hx] using ih
    | _ => simpa [List.filterMap_cons, boxOf, boxAt] using ih

theorem foldl_moveOf (a : Address) (calls : List Edit) (r : Rect) :
    (calls.filterMap moveOf).foldl (fun r t =>
        if t.covers.contains a then { r with x := r.x + t.dx, y := r.y + t.dy } else r) r =
      calls.foldl (carry a) r := by
  induction calls generalizing r with
  | nil => rfl
  | cons e rest ih =>
    cases e with
    | translate covers dx dy => simpa [List.filterMap_cons, moveOf, carry] using ih _
    | _ => simpa [List.filterMap_cons, moveOf, carry] using ih r

/-- The first box answers, carried along by all the translations of the sequence. -/
theorem rect_foldl_placed (calls : List Edit) (hcalls : ∀ e ∈ calls, isReset e = false)
    (a : Address) :
    (calls.foldl placed Placement.empty).rect a =
      (boxesAt a calls).head?.map (fun r => calls.foldl (carry a) r) := by
  rw [foldl_placed calls hcalls, ← find_boxOf]
  unfold Placement.rect
  simp only [Placement.empty, List.nil_append, foldl_moveOf]
  cases (calls.filterMap boxOf).find? (fun placed => placed.1 == a) <;> rfl

end Stored

section Replay

/-- A consumer's own map, one call replayed on it. -/
def replayed (m : Address → Option Rect) : Edit → Address → Option Rect
  | .resetPlacement => fun _ => none
  | .place x r => Function.update m x (some r)
  | .translate covers dx dy => fun a =>
    if covers.contains a then
      (m a).map (fun r => { r with x := r.x + dx, y := r.y + dy })
    else m a
  | .put _ _ | .update _ _ | .updateIfLive _ _ | .remove _ | .root _ => m

/-- While an address is not placed anew, its box is carried along. -/
theorem foldl_replayed (calls : List Edit) (hcalls : ∀ e ∈ calls, isReset e = false)
    (a : Address) (hplaced : boxesAt a calls = []) (m : Address → Option Rect) :
    calls.foldl replayed m a = (m a).map (fun r => calls.foldl (carry a) r) := by
  induction calls generalizing m with
  | nil => simp
  | cons e rest ih =>
    have he := hcalls e (List.mem_cons_self ..)
    unfold boxesAt at hplaced ih
    have hnone : boxAt a e = none := by
      cases hbox : boxAt a e with
      | none => rfl
      | some r => simp [hbox] at hplaced
    rw [List.filterMap_cons, hnone] at hplaced
    rw [List.foldl_cons, ih (fun e' he' => hcalls e' (List.mem_cons_of_mem _ he')) hplaced]
    have hone : replayed m e a = (m a).map (fun r => carry a r e) := by
      cases e with
      | resetPlacement => cases he
      | place x r =>
        have hx : x ≠ a := fun hx => by simp [boxAt, hx] at hnone
        simp [replayed, carry, Function.update_of_ne (Ne.symm hx)]
      | translate covers dx dy =>
        unfold replayed carry
        by_cases hc : covers.contains a = true
        · simp only [hc, if_true]
        · simp only [hc, Bool.false_eq_true, if_false, Option.map_id']
      | _ => simp [replayed, carry]
    rw [hone, Option.map_map]
    rfl

/-- A placed address has a last placing. -/
theorem last_box (a : Address) (calls : List Edit) (hplaced : boxesAt a calls ≠ []) :
    ∃ left r right, calls = left ++ .place a r :: right ∧ boxesAt a right = [] := by
  unfold boxesAt at hplaced ⊢
  induction calls with
  | nil => exact absurd rfl hplaced
  | cons e rest ih =>
    by_cases hrest : rest.filterMap (boxAt a) = []
    · have hbox : ∃ r, boxAt a e = some r := by
        cases hbox : boxAt a e with
        | some r => exact ⟨r, rfl⟩
        | none => simp [hbox, hrest] at hplaced
      obtain ⟨r, hbox⟩ := hbox
      cases e with
      | place x r' =>
        by_cases hx : x = a
        · exact ⟨[], r', rest, by rw [hx]; rfl, hrest⟩
        · simp [boxAt, hx] at hbox
      | _ => cases hbox
    · obtain ⟨left, r, right, hsplit, hright⟩ := ih hrest
      exact ⟨e :: left, r, right, by rw [hsplit]; rfl, hright⟩

/-- Where the last placing of an address since the last reset puts its box: where the
first one has come to by then, carried by every translation since the reset that covers
the address, those before the first placing included. -/
def PlacesWhereItIs (calls : List Edit) : Prop :=
  ∀ a left r right, sinceReset calls = left ++ .place a r :: right → boxesAt a right = [] →
    ∀ first, (boxesAt a left ++ [r]).head? = some first → r = left.foldl (carry a) first

theorem boxesAt_split (a : Address) (r : Rect) (left right : List Edit)
    (hright : boxesAt a right = []) :
    boxesAt a (left ++ .place a r :: right) = boxesAt a left ++ [r] := by
  unfold boxesAt at hright ⊢
  rw [List.filterMap_append, List.filterMap_cons, hright]
  simp [boxAt]

/-- At the last placing of one address, query and replay agree on the address exactly
when the placing puts the box where the first box has come to. -/
theorem rect_eq_replayed_iff (a : Address) (r : Rect) (left right : List Edit)
    (hcalls : ∀ e ∈ left ++ .place a r :: right, isReset e = false)
    (hright : boxesAt a right = []) :
    ((left ++ .place a r :: right).foldl placed Placement.empty).rect a =
        (left ++ .place a r :: right).foldl replayed (fun _ => none) a ↔
      ∀ first, (boxesAt a left ++ [r]).head? = some first → r = left.foldl (carry a) first := by
  have hafter : ∀ e ∈ right, isReset e = false :=
    fun e he => hcalls e (List.mem_append_right _ (List.mem_cons_of_mem _ he))
  have hreplay : (left ++ .place a r :: right).foldl replayed (fun _ => none) a =
      some (right.foldl (carry a) r) := by
    rw [List.foldl_append, List.foldl_cons, foldl_replayed right hafter a hright]
    simp [replayed]
  obtain ⟨first, hfirst⟩ : ∃ first, (boxesAt a left ++ [r]).head? = some first :=
    ⟨_, List.head?_eq_some_head (by simp)⟩
  rw [hreplay, rect_foldl_placed _ hcalls, boxesAt_split a r left right hright, hfirst]
  rw [Option.map_some, Option.some.injEq, List.foldl_append, List.foldl_cons]
  change right.foldl (carry a) (left.foldl (carry a) first) = right.foldl (carry a) r ↔ _
  constructor
  · intro h first' hfirst'
    rw [← Option.some.inj hfirst']
    exact (foldl_carry_injective a right _ _ h).symm
  · intro h
    rw [← h first rfl]

end Replay

/-- A placement answers what the replay of its calls answers exactly when the last placing
of every address since the last reset puts the box where the first one has come to. -/
theorem placement_is_replay_iff (domain : Domain) (revision : Revision) (t : Snapshot)
    (chunks : List (List Edit)) (hrun : Run Chunk (Snapshot.empty domain revision) chunks t) :
    (∀ a, t.placement.rect a = chunks.flatten.foldl replayed (fun _ => none) a) ↔
      PlacesWhereItIs chunks.flatten := by
  rw [run_placement _ t chunks hrun]
  change (∀ a, (chunks.flatten.foldl placed Placement.empty).rect a = _) ↔ _
  generalize chunks.flatten = calls
  have hquiet := not_isReset_of_mem calls
  unfold PlacesWhereItIs
  rw [foldl_sinceReset placed Placement.empty (fun _ => rfl) calls,
    foldl_sinceReset replayed (fun _ => none) (fun _ => rfl) calls]
  constructor
  · intro h a left r right hsplit hright
    have ha := h a
    rw [hsplit] at ha hquiet
    exact (rect_eq_replayed_iff a r left right hquiet hright).mp ha
  · intro h a
    by_cases hplaced : boxesAt a (sinceReset calls) = []
    · rw [rect_foldl_placed _ hquiet, hplaced, foldl_replayed _ hquiet a hplaced]
      rfl
    · obtain ⟨left, r, right, hsplit, hright⟩ := last_box a (sinceReset calls) hplaced
      have hlast := h a left r right hsplit hright
      rw [hsplit] at hquiet ⊢
      exact (rect_eq_replayed_iff a r left right hquiet hright).mpr hlast

section Example

def box (x : ℤ) : Rect := { x := x, width := 10, height := 16 }

def boxed (n : ℕ) (boxes : List (Address × Rect)) (translations : List Translation) : Snapshot :=
  { Snapshot.empty dom (rev n) with placement := ⟨boxes, translations⟩ }

/-- A box is placed, moved by another commit and placed where it has come to. -/
theorem placement_is_replay_moved :
    ∃ t, Run Chunk (Snapshot.empty dom (rev 1)) [[.place (addr .node 1) (box 0)],
        [.translate [addr .node 1] 5 0, .place (addr .node 1) (box 5)]] t ∧
      ∀ a, t.placement.rect a = [Edit.place (addr .node 1) (box 0),
        .translate [addr .node 1] 5 0, .place (addr .node 1) (box 5)].foldl replayed
          (fun _ => none) a := by
  have hfirst : Chunk (Snapshot.empty dom (rev 1)) [.place (addr .node 1) (box 0)]
      (boxed 2 [(addr .node 1, box 0)] []) := ⟨⟨0⟩, _, _, 1, _, rfl, rfl⟩
  have hsecond : Chunk (boxed 2 [(addr .node 1, box 0)] [])
      [.translate [addr .node 1] 5 0, .place (addr .node 1) (box 5)]
      (boxed 3 [(addr .node 1, box 0), (addr .node 1, box 5)] [⟨[addr .node 1], 5, 0⟩]) :=
    ⟨⟨0⟩, _, _, 1, _, rfl, rfl⟩
  have hrun := (Run.single hfirst).snoc hsecond
  refine ⟨_, hrun, (placement_is_replay_iff dom (rev 1) _ _ hrun).mpr ?_⟩
  intro a left r right hsplit hright first hfirst
  change [Edit.place (addr .node 1) (box 0), .translate [addr .node 1] 5 0,
    .place (addr .node 1) (box 5)] = left ++ .place a r :: right at hsplit
  match left, hsplit with
  | [], hsplit =>
    injection hsplit with hcall hrest
    injection hcall with ha _
    rw [← hrest, ← ha] at hright
    simp [boxesAt, boxAt] at hright
  | [_], hsplit => simp at hsplit
  | [_, _], hsplit =>
    injection hsplit with hone hsplit
    injection hsplit with htwo hsplit
    injection hsplit with hcall _
    injection hcall with ha hr
    subst hone htwo ha hr
    simp only [boxesAt, boxAt, List.filterMap_cons, if_true, List.filterMap_nil,
      List.cons_append, List.head?_cons, Option.some.injEq] at hfirst
    rw [← hfirst]
    rfl
  | _ :: _ :: _ :: _, hsplit => simp at hsplit

/-- A box is placed anew: the query stays at the first box. -/
theorem replaced_box_answers_first :
    ∃ t, Run Chunk (Snapshot.empty dom (rev 1))
        [[.place (addr .node 1) (box 0)], [.place (addr .node 1) (box 7)]] t ∧
      t.placement.rect (addr .node 1) = some (box 0) ∧
      [Edit.place (addr .node 1) (box 0), .place (addr .node 1) (box 7)].foldl replayed
        (fun _ => none) (addr .node 1) = some (box 7) := by
  have hfirst : Chunk (Snapshot.empty dom (rev 1)) [.place (addr .node 1) (box 0)]
      (boxed 2 [(addr .node 1, box 0)] []) := ⟨⟨0⟩, _, _, 1, _, rfl, rfl⟩
  have hsecond : Chunk (boxed 2 [(addr .node 1, box 0)] []) [.place (addr .node 1) (box 7)]
      (boxed 3 [(addr .node 1, box 0), (addr .node 1, box 7)] []) :=
    ⟨⟨0⟩, _, _, 1, _, rfl, rfl⟩
  exact ⟨_, (Run.single hfirst).snoc hsecond, by decide, by decide⟩

end Example

end CompositionIr.PlacementReplay
