import Mathlib.Data.List.Nodup
import CompositionIr.Frontends

/-!
The identities of a session. An id comes from the counter once and is kept from one
tree to the next by at most one line, of the same kind; an id the counter has passed
that is in no tree now is in no tree later.
-/

namespace CompositionIr.Identities

open Transitions Texts Frontends MdSession
open String (utf8Len ofList)

section Parsing

/-- One id stands at one index. -/
theorem index_eq_of_id {old : List MdNode} (hold : (old.map MdNode.id).Nodup) {i j : ℕ}
    {p q : MdNode} (hp : old[i]? = some p) (hq : old[j]? = some q) (hid : p.id = q.id) :
    i = j := by
  have hlt : i < (old.map MdNode.id).length := by
    rw [List.length_map]
    exact (List.getElem?_eq_some_iff.mp hp).1
  refine (List.getElem?_inj hlt hold).mp ?_
  rw [List.getElem?_map, List.getElem?_map, hp, hq, Option.map_some, Option.map_some, hid]

/-- Where the id of a new node comes from: the old node at a line index from `i` on, of
the same kind, or the counter. -/
def From (old : List MdNode) (i : ℕ) (nextId last : UInt64) (n : MdNode) : Prop :=
  (∃ j prev, i ≤ j ∧ old[j]? = some prev ∧ prev.id = n.id ∧ prev.kind = n.kind) ∨
    (nextId.toNat < n.id.toNat ∧ n.id.toNat ≤ last.toNat)

theorem From.mono {old : List MdNode} {i j : ℕ} {nextId mid last : UInt64} {n : MdNode}
    (h : From old j mid last n) (hij : i ≤ j) (hmid : nextId.toNat ≤ mid.toNat) :
    From old i nextId last n := by
  rcases h with ⟨k, prev, hk, hprev⟩ | ⟨hlow, hhigh⟩
  · exact Or.inl ⟨k, prev, by omega, hprev⟩
  · exact Or.inr ⟨by omega, hhigh⟩

theorem parse_from (old : List MdNode) (text : List (List Char)) (i start : ℕ)
    (nextId last : UInt64) (nodes : List MdNode)
    (h : parse old text i start nextId = some (nodes, last)) :
    nextId.toNat ≤ last.toNat ∧ ∀ n ∈ nodes, From old i nextId last n := by
  induction text generalizing i start nextId nodes with
  | nil =>
    obtain ⟨hnodes, hlast⟩ := Prod.mk.inj (Option.some.inj h)
    subst hnodes hlast
    exact ⟨le_refl _, by simp⟩
  | cons line rest ih =>
    rcases parse_cons old line rest i start nextId last nodes h with
      ⟨_, hrest⟩ | ⟨id, mid, tail, _, hassign, hrest, hnodes⟩
    · obtain ⟨hle, hfrom⟩ := ih _ _ _ _ hrest
      exact ⟨hle, fun n hn => (hfrom n hn).mono (by omega) (le_refl _)⟩
    · obtain ⟨hle, hfrom⟩ := ih _ _ _ _ hrest
      have hmid : nextId.toNat ≤ mid.toNat := by
        rcases assign_cases _ _ _ _ _ _ hassign with ⟨_, _, _, _, hmid⟩ | ⟨_, hmid, hid⟩
        · rw [hmid]
        · rw [hmid]
          omega
      refine ⟨by omega, fun n hn => ?_⟩
      rw [hnodes] at hn
      rcases List.mem_cons.mp hn with hn | hn
      · rw [hn]
        rcases assign_cases _ _ _ _ _ _ hassign with ⟨prev, hprev, hkind, hid, _⟩ | ⟨_, hmid', hid⟩
        · exact Or.inl ⟨i, prev, le_refl _, hprev, hid.symm, hkind⟩
        · rw [hmid'] at hle
          exact Or.inr ⟨by simp only; omega, hle⟩
      · exact (hfrom n hn).mono (by omega) hmid

/-- Lines take different ids: an old node gives its id to the line at its own index only,
and the counter gives each id once. -/
theorem parse_nodup (old : List MdNode) (hold : (old.map MdNode.id).Nodup)
    (text : List (List Char)) (i start : ℕ) (nextId last : UInt64) (nodes : List MdNode)
    (hbound : ∀ o ∈ old, o.id.toNat ≤ nextId.toNat)
    (h : parse old text i start nextId = some (nodes, last)) :
    (nodes.map MdNode.id).Nodup := by
  induction text generalizing i start nextId nodes with
  | nil =>
    obtain ⟨hnodes, _⟩ := Prod.mk.inj (Option.some.inj h)
    subst hnodes
    exact List.nodup_nil
  | cons line rest ih =>
    rcases parse_cons old line rest i start nextId last nodes h with
      ⟨_, hrest⟩ | ⟨id, mid, tail, _, hassign, hrest, hnodes⟩
    · exact ih _ _ _ _ hbound hrest
    · have hfrom := (parse_from _ _ _ _ _ _ _ hrest).2
      rw [hnodes, List.map_cons, List.nodup_cons]
      have hsplit := assign_cases _ _ _ _ _ _ hassign
      constructor
      · intro hmem
        obtain ⟨n, hn, hid⟩ := List.mem_map.mp hmem
        simp only at hid
        rcases hsplit with ⟨prev, hprev, _, hkept, hmid⟩ | ⟨_, hmid, hfresh⟩
        · rcases hfrom n hn with ⟨j, prev', hj, hprev', hsame, _⟩ | ⟨hlow, _⟩
          · -- one id at two indices of the old list
            have hij := index_eq_of_id hold hprev hprev' (by rw [hsame, hid, hkept])
            omega
          · have hle := hbound prev (List.mem_of_getElem? hprev)
            rw [hid, hkept, hmid] at hlow
            omega
        · rcases hfrom n hn with ⟨j, prev', _, hprev', hsame, _⟩ | ⟨hlow, _⟩
          · have hle := hbound prev' (List.mem_of_getElem? hprev')
            rw [hsame, hid] at hle
            omega
          · rw [hid, hmid] at hlow
            omega
      · refine ih _ _ _ _ (fun o ho => ?_) hrest
        have hle := hbound o ho
        rcases hsplit with ⟨_, _, _, _, hmid⟩ | ⟨_, hmid, hfresh⟩
        · rw [hmid]
          exact hle
        · rw [hmid]
          omega

/-- Where no line takes a new id, the ids kept stand in their old order. -/
theorem parse_sublist (old : List MdNode) (text : List (List Char)) (i start : ℕ)
    (nextId last : UInt64) (nodes : List MdNode)
    (hbound : ∀ o ∈ old, o.id.toNat ≤ nextId.toNat)
    (hkept : ∀ n ∈ nodes, n.id ∈ old.map MdNode.id)
    (h : parse old text i start nextId = some (nodes, last)) :
    (nodes.map MdNode.id).Sublist ((old.drop i).map MdNode.id) := by
  induction text generalizing i start nextId nodes with
  | nil =>
    obtain ⟨hnodes, _⟩ := Prod.mk.inj (Option.some.inj h)
    subst hnodes
    exact List.nil_sublist _
  | cons line rest ih =>
    have hdrop : ((old.drop (i + 1)).map MdNode.id).Sublist ((old.drop i).map MdNode.id) :=
      (List.drop_sublist_drop_left old (by omega)).map MdNode.id
    rcases parse_cons old line rest i start nextId last nodes h with
      ⟨_, hrest⟩ | ⟨id, mid, tail, _, hassign, hrest, hnodes⟩
    · exact (ih _ _ _ _ hbound hkept hrest).trans hdrop
    · rw [hnodes] at hkept ⊢
      rcases assign_cases _ _ _ _ _ _ hassign with ⟨prev, hprev, _, hid, hmid⟩ | ⟨_, _, hfresh⟩
      · rw [hmid] at hrest
        have htail := ih _ _ _ _ hbound (fun n hn => hkept n (List.mem_cons_of_mem _ hn)) hrest
        obtain ⟨hlt, hget⟩ := List.getElem?_eq_some_iff.mp hprev
        rw [List.drop_eq_getElem_cons hlt, hget, List.map_cons, List.map_cons, ← hid]
        exact htail.cons_cons id
      · obtain ⟨o, ho, hone⟩ := List.mem_map.mp (hkept _ (List.mem_cons_self ..))
        have hle := hbound o ho
        simp only at hone
        rw [hone] at hle
        omega

end Parsing

section Reports

theorem mem_retired (old nodes : List MdNode) (id : UInt64) :
    id ∈ retired old nodes ↔ id ∈ old.map MdNode.id ∧ id ∉ nodes.map MdNode.id := by
  unfold retired
  simp only [List.mem_map, List.mem_filter, Bool.not_eq_true', List.any_eq_false, beq_iff_eq]
  constructor
  · intro h
    obtain ⟨o, ⟨ho, hgone⟩, hid⟩ := h
    refine ⟨⟨o, ho, hid⟩, fun hlive => ?_⟩
    obtain ⟨n, hn, hsame⟩ := hlive
    exact hgone n hn (hsame.trans hid.symm)
  · intro h
    obtain ⟨⟨o, ho, hid⟩, hgone⟩ := h
    exact ⟨o, ⟨ho, fun n hn hsame => hgone ⟨n, hn, hsame.trans hid⟩⟩, hid⟩

theorem nodup_retired (old nodes : List MdNode) (hold : (old.map MdNode.id).Nodup) :
    (retired old nodes).Nodup :=
  hold.sublist (List.filter_sublist.map MdNode.id)

theorem nodup_touched (old nodes : List MdNode) (hnodes : (nodes.map MdNode.id).Nodup) :
    (touched old nodes).Nodup := by
  have hsub : (touched old nodes).Sublist (nodes.map MdNode.id) := by
    unfold touched
    induction nodes with
    | nil => exact List.Sublist.refl _
    | cons n rest ih =>
      have hrest := ih (List.nodup_cons.mp hnodes).2
      rw [List.filterMap_cons, List.map_cons]
      split
      · exact hrest.cons _
      · rename_i id hid
        have hsame : id = n.id := by
          split at hid
          · split at hid
            · cases hid
            · exact (Option.some.inj hid).symm
          · exact (Option.some.inj hid).symm
        rw [hsame]
        exact hrest.cons_cons _
  exact hnodes.sublist hsub

/-- Over distinct old ids, the nodes reported touched are those that no old node of the
same id shows. -/
theorem mem_touched (old nodes : List MdNode) (hold : (old.map MdNode.id).Nodup) (id : UInt64) :
    id ∈ touched old nodes ↔
      ∃ n ∈ nodes, n.id = id ∧ ∀ o ∈ old, o.id = id → ¬ (o.text = n.text ∧ o.kind = n.kind) := by
  unfold touched
  rw [List.mem_filterMap]
  refine exists_congr (fun n => and_congr_right (fun _ => ?_))
  cases hfind : old.find? (fun o => o.id == n.id) with
  | none =>
    have hnone := List.find?_eq_none.mp hfind
    simp only [Option.some.injEq]
    refine ⟨fun hid => ⟨hid, fun o ho hoid => ?_⟩, fun h => h.1⟩
    exact absurd (by rw [hoid, hid]; exact beq_self_eq_true id) (hnone o ho)
  | some prev =>
    have hmem := List.mem_of_find?_eq_some hfind
    have hprev : prev.id = n.id := by simpa using List.find?_some hfind
    simp only
    by_cases hsame : prev.text = n.text ∧ prev.kind = n.kind
    · rw [if_pos (by simpa using hsame)]
      refine iff_of_false (by simp) (fun h => ?_)
      exact h.2 prev hmem (hprev.trans h.1) hsame
    · rw [if_neg (by simpa using hsame), Option.some.injEq]
      refine ⟨fun hid => ⟨hid, fun o ho hoid => ?_⟩, fun h => h.1⟩
      have hone : o = prev :=
        List.inj_on_of_nodup_map hold ho hmem (hoid.trans (hid.symm.trans hprev.symm))
      rw [hone]
      exact hsame

end Reports

section Sessions

structure WellIdentified (s : MdSession) : Prop where
  positive : ∀ n ∈ s.ast.nodes, 0 < n.id.toNat
  bounded : ∀ n ∈ s.ast.nodes, n.id.toNat ≤ s.nextId.toNat
  distinct : s.ast.ids.Nodup

variable {s s' s'' : MdSession} {call : Reparse} {calls calls' : List Reparse}

/-- A node of the next tree has the id of an old node of its kind, or an id the counter
had not reached. -/
theorem step_from (hstep : Step s call s') :
    s.nextId.toNat ≤ s'.nextId.toNat ∧ ∀ n ∈ s'.ast.nodes,
      (∃ o ∈ s.ast.nodes, o.id = n.id ∧ o.kind = n.kind) ∨
        (s.nextId.toNat < n.id.toNat ∧ n.id.toNat ≤ s'.nextId.toNat) := by
  obtain ⟨hparse, _⟩ := (step_iff _ _ _).mp hstep
  obtain ⟨hle, hfrom⟩ := parse_from _ _ _ _ _ _ _ hparse
  refine ⟨hle, fun n hn => ?_⟩
  rcases hfrom n hn with ⟨_, prev, _, hprev, hid, hkind⟩ | hfresh
  · exact Or.inl ⟨prev, List.mem_of_getElem? hprev, hid, hkind⟩
  · exact Or.inr hfresh

theorem step_wellIdentified (hs : WellIdentified s) (hstep : Step s call s') :
    WellIdentified s' := by
  obtain ⟨hle, hfrom⟩ := step_from hstep
  obtain ⟨hparse, _⟩ := (step_iff _ _ _).mp hstep
  refine ⟨fun n hn => ?_, fun n hn => ?_, ?_⟩
  · rcases hfrom n hn with ⟨o, ho, hid, _⟩ | ⟨hlow, _⟩
    · rw [← hid]
      exact hs.positive o ho
    · omega
  · rcases hfrom n hn with ⟨o, ho, hid, _⟩ | ⟨_, hhigh⟩
    · rw [← hid]
      exact (hs.bounded o ho).trans hle
    · exact hhigh
  · exact parse_nodup _ hs.distinct _ _ _ _ _ _ hs.bounded hparse

theorem run_wellIdentified (hrun : Run Step MdSession.new calls s) : WellIdentified s := by
  refine Run.preserves WellIdentified hrun (fun u a v hu hstep => step_wellIdentified hu hstep) ?_
  exact ⟨by simp [MdSession.new], by simp [MdSession.new], List.nodup_nil⟩

/-- An id that the counter had passed before a run and that is live after it was live
before it, with the same kind. -/
theorem run_from (hrun : Run Step s calls s') :
    s.nextId.toNat ≤ s'.nextId.toNat ∧ ∀ n ∈ s'.ast.nodes, n.id.toNat ≤ s.nextId.toNat →
      ∃ o ∈ s.ast.nodes, o.id = n.id ∧ o.kind = n.kind := by
  induction hrun with
  | nil => exact ⟨le_refl _, fun n hn _ => ⟨n, hn, rfl, rfl⟩⟩
  | snoc _ hstep ih =>
    obtain ⟨hle, hkept⟩ := ih
    obtain ⟨hgrows, hfrom⟩ := step_from hstep
    refine ⟨hle.trans hgrows, fun n hn hold => ?_⟩
    rcases hfrom n hn with ⟨m, hm, hid, hkind⟩ | ⟨hlow, _⟩
    · obtain ⟨o, ho, hoid, hokind⟩ := hkept m hm (by rw [hid]; exact hold)
      exact ⟨o, ho, hoid.trans hid, hokind.trans hkind⟩
    · omega

/-- The reports of a call are exact: nothing is named twice, what is retired is what the
new tree lacks, and what is touched is new or has another text. -/
structure ReportsExactly (s : MdSession) (delta : MdDelta) (s' : MdSession) : Prop where
  touchedOnce : delta.touched.Nodup
  retiredOnce : delta.retired.Nodup
  retired : ∀ id, id ∈ delta.retired ↔ id ∈ s.ast.ids ∧ id ∉ s'.ast.ids
  touched : ∀ id, id ∈ delta.touched ↔ ∃ n ∈ s'.ast.nodes, n.id = id ∧
    (id ∉ s.ast.ids ∨ ∃ o ∈ s.ast.nodes, o.id = id ∧ o.text ≠ n.text)

/-- Between two trees of a run one id has one kind. -/
theorem kind_eq (hs : WellIdentified s) (hrun : Run Step s calls s') (n : MdNode)
    (hn : n ∈ s.ast.nodes) (n' : MdNode) (hn' : n' ∈ s'.ast.nodes) (hid : n'.id = n.id) :
    n'.kind = n.kind := by
  obtain ⟨o, ho, hoid, hokind⟩ := (run_from hrun).2 n' hn' (by rw [hid]; exact hs.bounded n hn)
  have hsame : o = n := List.inj_on_of_nodup_map hs.distinct ho hn (hoid.trans hid)
  rw [← hokind, hsame]

theorem step_reports (hs : WellIdentified s) (hstep : Step s call s') :
    ReportsExactly s call.delta s' := by
  have hs' := step_wellIdentified hs hstep
  obtain ⟨_, _, hdelta⟩ := (step_iff _ _ _).mp hstep
  rw [hdelta]
  refine ⟨nodup_touched _ _ hs'.distinct, nodup_retired _ _ hs.distinct, mem_retired _ _,
    fun id => ?_⟩
  rw [mem_touched _ _ hs.distinct]
  refine exists_congr (fun n => and_congr_right (fun hn => and_congr_right (fun hid => ?_)))
  constructor
  · intro hother
    by_cases hold : id ∈ s.ast.ids
    · obtain ⟨o, ho, hoid⟩ := List.mem_map.mp hold
      refine Or.inr ⟨o, ho, hoid, fun htext => hother o ho hoid ⟨htext, ?_⟩⟩
      exact (kind_eq hs (Run.single hstep) o ho n hn (hid.trans hoid.symm)).symm
    · exact Or.inl hold
  · intro h o ho hoid hsame
    rcases h with hfresh | ⟨o', ho', hoid', htext⟩
    · exact hfresh (List.mem_map.mpr ⟨o, ho, hoid⟩)
    · have hone : o' = o := List.inj_on_of_nodup_map hs.distinct ho' ho (hoid'.trans hoid.symm)
      rw [hone] at htext
      exact htext hsame.1

/-- Nothing is retired exactly when every old id is still there. -/
theorem retired_nil_iff (hs : WellIdentified s) (hstep : Step s call s') :
    call.delta.retired = [] ↔ ∀ o ∈ s.ast.nodes, o.id ∈ s'.ast.ids := by
  have hretired := (step_reports hs hstep).retired
  rw [List.eq_nil_iff_forall_not_mem]
  constructor
  · intro h o ho
    by_contra hgone
    exact h o.id ((hretired o.id).mpr ⟨List.mem_map.mpr ⟨o, ho, rfl⟩, hgone⟩)
  · intro h id hid
    obtain ⟨hold, hgone⟩ := (hretired id).mp hid
    obtain ⟨o, ho, hone⟩ := List.mem_map.mp hold
    rw [← hone] at hgone
    exact hgone (h o ho)

/-- An id that appeared, disappeared, or was kept with another text. -/
def Edited (old new : MdAst) (id : UInt64) : Prop :=
  (id ∉ old.ids ∧ id ∈ new.ids) ∨ (id ∈ old.ids ∧ id ∉ new.ids) ∨
    ∃ o ∈ old.nodes, ∃ n ∈ new.nodes, o.id = id ∧ n.id = id ∧ o.text ≠ n.text

/-- A call reports exactly the edited ids. -/
theorem edited_iff_reported (hs : WellIdentified s) (hstep : Step s call s') (id : UInt64) :
    Edited s.ast s'.ast id ↔ id ∈ call.delta.touched ∨ id ∈ call.delta.retired := by
  have hreports := step_reports hs hstep
  rw [hreports.touched, hreports.retired]
  constructor
  · intro h
    rcases h with ⟨hfresh, hnew⟩ | hgone | ⟨o, ho, n, hn, hoid, hnid, htext⟩
    · obtain ⟨n, hn, hid⟩ := List.mem_map.mp hnew
      exact Or.inl ⟨n, hn, hid, Or.inl hfresh⟩
    · exact Or.inr hgone
    · exact Or.inl ⟨n, hn, hnid, Or.inr ⟨o, ho, hoid, htext⟩⟩
  · intro h
    rcases h with ⟨n, hn, hid, hfresh | ⟨o, ho, hoid, htext⟩⟩ | hgone
    · exact Or.inl ⟨hfresh, List.mem_map.mpr ⟨n, hn, hid⟩⟩
    · exact Or.inr (Or.inr ⟨o, ho, n, hn, hoid, hid, htext⟩)
    · exact Or.inr (Or.inl hgone)

theorem edited_positive (hs : WellIdentified s) (hs' : WellIdentified s') (id : UInt64)
    (h : Edited s.ast s'.ast id) : 0 < id.toNat := by
  have hpos : ∀ n : MdNode, n ∈ s.ast.nodes ∨ n ∈ s'.ast.nodes → n.id = id → 0 < id.toNat := by
    intro n hn hid
    rw [← hid]
    exact hn.elim (hs.positive n) (hs'.positive n)
  rcases h with ⟨_, hnew⟩ | ⟨hold, _⟩ | ⟨o, ho, _, _, hid, _, _⟩
  · obtain ⟨n, hn, hid⟩ := List.mem_map.mp hnew
    exact hpos n (Or.inr hn) hid
  · obtain ⟨o, ho, hid⟩ := List.mem_map.mp hold
    exact hpos o (Or.inl ho) hid
  · exact hpos o (Or.inl ho) hid

/-- A call reports nothing exactly when no id is edited. -/
theorem quiet_iff (hs : WellIdentified s) (hstep : Step s call s') :
    (call.delta.touched = [] ∧ call.delta.retired = []) ↔ ∀ id, ¬ Edited s.ast s'.ast id := by
  simp only [edited_iff_reported hs hstep, not_or, List.eq_nil_iff_forall_not_mem]
  exact forall_and.symm

end Sessions

/-- Identities over every run of a session: distinct and positive in every tree, of one
kind for life, never used again once gone, and reported exactly. -/
theorem identities_stable (s : MdSession) (calls : List Reparse)
    (hrun : Run Step MdSession.new calls s) :
    (s.ast.ids.Nodup ∧ ∀ id ∈ s.ast.ids, 0 < id) ∧
    (∀ call s', Step s call s' → ReportsExactly s call.delta s') ∧
    ∀ calls' s', Run Step s calls' s' →
      (∀ n ∈ s.ast.nodes, ∀ n' ∈ s'.ast.nodes, n'.id = n.id → n'.kind = n.kind) ∧
      ∀ id ∈ s.ast.ids, id ∉ s'.ast.ids →
        ∀ calls'' s'', Run Step s' calls'' s'' → id ∉ s''.ast.ids := by
  have hs := run_wellIdentified hrun
  refine ⟨⟨hs.distinct, fun id hid => ?_⟩, fun call s' hstep => step_reports hs hstep, ?_⟩
  · obtain ⟨n, hn, hsame⟩ := List.mem_map.mp hid
    rw [← hsame, UInt64.lt_iff_toNat_lt]
    exact hs.positive n hn
  · intro calls' s' hrun'
    refine ⟨kind_eq hs hrun', fun id hid hgone calls'' s'' hrun'' hback => ?_⟩
    obtain ⟨n, hn, hnid⟩ := List.mem_map.mp hid
    obtain ⟨m, hm, hmid⟩ := List.mem_map.mp hback
    have hle : m.id.toNat ≤ s'.nextId.toNat := by
      rw [hmid, ← hnid]
      exact (hs.bounded n hn).trans (run_from hrun').1
    obtain ⟨o, ho, hoid, _⟩ := (run_from hrun'').2 m hm hle
    exact hgone (List.mem_map.mpr ⟨o, ho, hoid.trans hmid⟩)

section Example

/-- The last id goes with its line; an equal line that returns gets another one. -/
def goneAndBack : List Reparse :=
  [⟨"a\nb\n", ⟨[1, 2], []⟩⟩, ⟨"a\n", ⟨[], [2]⟩⟩, ⟨"a\nb\n", ⟨[3], []⟩⟩]

def paragraphs (nextId : UInt64) (source : String) (nodes : List MdNode) : MdSession :=
  ⟨nextId, ⟨nodes, source⟩⟩

/-- Nor does the lost id return with any later call. -/
theorem identities_stable_goneAndBack :
    ∃ s, Run Step MdSession.new goneAndBack s ∧ s.ast.ids = [1, 3] ∧
      ∀ calls s', Run Step s calls s' → 2 ∉ s'.ast.ids := by
  have hfirst : Step MdSession.new ⟨"a\nb\n", ⟨[1, 2], []⟩⟩ (paragraphs 2 "a\nb\n"
      [⟨1, .para, "a", (0, 1)⟩, ⟨2, .para, "b", (2, 3)⟩]) := by
    unfold Step
    decide
  have hsecond : Step (paragraphs 2 "a\nb\n"
      [⟨1, .para, "a", (0, 1)⟩, ⟨2, .para, "b", (2, 3)⟩]) ⟨"a\n", ⟨[], [2]⟩⟩
      (paragraphs 2 "a\n" [⟨1, .para, "a", (0, 1)⟩]) := by
    unfold Step
    decide
  have hthird : Step (paragraphs 2 "a\n" [⟨1, .para, "a", (0, 1)⟩])
      ⟨"a\nb\n", ⟨[3], []⟩⟩ (paragraphs 3 "a\nb\n"
      [⟨1, .para, "a", (0, 1)⟩, ⟨3, .para, "b", (2, 3)⟩]) := by
    unfold Step
    decide
  obtain ⟨_, _, hlater⟩ := identities_stable _ _ (Run.single hfirst)
  obtain ⟨_, hgone⟩ := hlater _ _ (Run.single hsecond)
  refine ⟨_, ((Run.single hfirst).snoc hsecond).snoc hthird, rfl, fun calls s' hrun => ?_⟩
  exact hgone 2 (by decide) (by decide) _ _ ((Run.single hthird).trans hrun)

end Example

end CompositionIr.Identities
