import CompositionIr.AdapterRuns

/-!
The incremental route against the full one, over the same reparse. Records and diffs
always agree. The full route places the tree behind the boxes that are there already,
so that the old boxes answer; and it publishes the roots also where the incremental
route finds nothing to publish.
-/

namespace CompositionIr.AdapterRoutes

open Outcomes Transitions Addresses Records Placements Snapshots Deltas Commits
open PublishedStates CommitSpec ShownStates CallEffects Frontends Identities
open Adapters AdapterEffects AdapterRuns

structure SameState (c c' : Commit) : Prop where
  live : ∀ x, x ∈ c.snapshot.addresses ↔ x ∈ c'.snapshot.addresses
  records : values c.snapshot.records = values c'.snapshot.records
  roots : c.snapshot.roots = c'.snapshot.roots
  rect : ∀ x, c.snapshot.placement.rect x = c'.snapshot.placement.rect x
  diffs : c.delta.diffs = c'.delta.diffs

structure SameDocument (c c' : Commit) : Prop where
  live : ∀ x, x ∈ c.snapshot.addresses ↔ x ∈ c'.snapshot.addresses
  records : values c.snapshot.records = values c'.snapshot.records
  diffs : c.delta.diffs = c'.delta.diffs

/-- The reparse retires nothing, keeps the byte length of every line it keeps, and
touches a line unless the new tree has none. -/
structure OnlyGrows (old new : MdAst) (delta : MdDelta) : Prop where
  retired : delta.retired = []
  lengths : ∀ o ∈ old.nodes, ∀ n ∈ new.nodes, o.id = n.id →
    o.text.utf8ByteSize = n.text.utf8ByteSize
  touched : delta.touched ≠ [] ∨ new.nodes = []

section Full

variable {d : Domain} {q : Pipeline} {s' : MdSession} {call : Reparse}

theorem mem_stale_iff (hq : Mirrors d q) (nodes : List MdNode) (r : Address)
    (hr : r ∈ q.snapshot.roots) :
    r ∈ stale q.snapshot nodes ↔ r ∉ nodes.map (fun n => nodeAddress d n.id) := by
  obtain ⟨o, ho, haddress⟩ := hq.roots r hr
  have hvalue : documentOf d q.session.ast.nodes (nodeAddress d o.id) = some (project o) :=
    documentOf_node (identified q.session hq.session) o ho
  rw [← hq.records, haddress] at hvalue
  obtain ⟨arc, harc, _⟩ := Option.map_eq_some_iff.mp hvalue
  unfold stale
  rw [List.mem_filter, hq.domain, List.contains_eq_mem, Bool.not_eq_true', decide_eq_false_iff_not]
  exact and_iff_right ((mem_addresses q.snapshot r).mpr ⟨arc, harc⟩)

/-- The full route has the new tree in the builder too, with the boxes of the tree behind
those of the last one. -/
theorem adaptFull_builds (hq : Mirrors d q) (hstep : Step q.session call s') (heap : Heap) :
    ∃ draft, Builds d q s'.ast.nodes
        (placedAt d q.session.ast.nodes ++ placedAt d s'.ast.nodes) draft.edit ∧
      ∀ fuel, adaptFull q.snapshot s'.ast heap fuel = publish draft fuel := by
  have hs' := step_wellIdentified hq.session hstep
  obtain ⟨draft, hcalls, hfull⟩ := adaptFull_calls q.snapshot s'.ast heap hs'.positive
  obtain ⟨hbase, hrecords, hroots, hplacement⟩ :=
    fullCalls_effect q.snapshot s'.ast (identified s' hs') heap draft hcalls
  rw [hq.domain] at hrecords hroots hplacement
  refine ⟨draft, ⟨hbase, hrecords, ?_, ?_⟩, hfull⟩
  · rw [hroots]
    refine congrArg (fun kept => kept ++ firstOf d s'.ast.nodes) ?_
    refine List.filter_congr (fun r hr => ?_)
    rw [Bool.eq_iff_iff, Bool.not_eq_true', ← Bool.not_eq_true, List.contains_iff_mem,
      List.contains_iff_mem, mem_stale_iff hq _ r hr, not_not]
  · rw [hplacement, hq.placement]

end Full

section Boxes

variable {d : Domain} {s s' : MdSession} {call : Reparse}

/-- Behind the boxes of one tree, those of another answer where the first has none. -/
theorem rect_behind (old nodes : List MdNode) (x : Address) :
    (⟨placedAt d old ++ placedAt d nodes, []⟩ : Placement).rect x =
      ((⟨placedAt d old, []⟩ : Placement).rect x).or
        ((⟨placedAt d nodes, []⟩ : Placement).rect x) := by
  rw [rect_placed, rect_placed, rect_placed, List.find?_append]
  cases (placedAt d old).find? (fun placed => placed.1 == x) <;> rfl

theorem rect_node (hs : WellIdentified s) (n : MdNode) (hn : n ∈ s.ast.nodes) :
    (⟨placedAt d s.ast.nodes, []⟩ : Placement).rect (nodeAddress d n.id) =
      some (rectOf n) := by
  rw [rect_placedAt, find_node (identified s hs) n hn, Option.map_some]

/-- The old boxes are out of the way exactly when every old line is there with the byte
length it had. -/
theorem rect_eq_iff (hs : WellIdentified s) (hstep : Step s call s') :
    (∀ x, (⟨placedAt d s'.ast.nodes, []⟩ : Placement).rect x =
        (⟨placedAt d s.ast.nodes ++ placedAt d s'.ast.nodes, []⟩ : Placement).rect x) ↔
      call.delta.retired = [] ∧ ∀ o ∈ s.ast.nodes, ∀ n ∈ s'.ast.nodes, o.id = n.id →
        o.text.utf8ByteSize = n.text.utf8ByteSize := by
  have hs' := step_wellIdentified hs hstep
  simp only [rect_behind]
  rw [retired_nil_iff hs hstep]
  constructor
  · intro h
    have hold : ∀ o ∈ s.ast.nodes,
        (⟨placedAt d s'.ast.nodes, []⟩ : Placement).rect (nodeAddress d o.id) =
          some (rectOf o) := by
      intro o ho
      rw [h, rect_node hs o ho, Option.some_or]
    constructor
    · intro o ho
      have hbox := hold o ho
      rw [rect_placedAt] at hbox
      obtain ⟨n, hfind, _⟩ := Option.map_eq_some_iff.mp hbox
      rw [mem_ids_of_address d hs' (hs.positive o ho)]
      exact ⟨n, List.mem_of_find?_eq_some hfind, by simpa using List.find?_some hfind⟩
    · intro o ho n hn hid
      have hbox := hold o ho
      rw [hid, rect_node hs' n hn] at hbox
      have hwidth := congrArg Rect.width (Option.some.inj hbox)
      exact (Int.ofNat.inj hwidth).symm
  · intro h x
    obtain ⟨hlive, hlengths⟩ := h
    cases hfind : s.ast.nodes.find? (fun o => nodeAddress d o.id == x) with
    | none =>
      have hnone : (⟨placedAt d s.ast.nodes, []⟩ : Placement).rect x = none := by
        rw [rect_placedAt, hfind, Option.map_none]
      rw [hnone, Option.none_or]
    | some o =>
      have ho := List.mem_of_find?_eq_some hfind
      have haddress : nodeAddress d o.id = x := by simpa using List.find?_some hfind
      obtain ⟨n, hn, hid⟩ := List.mem_map.mp (hlive o ho)
      have hrect : rectOf n = rectOf o := by
        unfold rectOf
        rw [hlengths o ho n hn hid.symm]
      rw [← haddress, rect_node hs o ho, ← hid, rect_node hs' n hn, hrect, Option.some_or]

end Boxes

section Roots

variable {d : Domain}

/-- Rooting the first node again changes the roots. -/
theorem kept_append_ne (nodes : List MdNode) (hnodes : nodes ≠ []) (roots : List Address) :
    keptRoots d nodes roots ++ firstOf d nodes ≠ roots := by
  cases nodes with
  | nil => exact absurd rfl hnodes
  | cons n rest =>
    intro h
    have hcount := congrArg (List.count (nodeAddress d n.id)) h
    have hkept : List.count (nodeAddress d n.id) (keptRoots d (n :: rest) roots) =
        List.count (nodeAddress d n.id) roots := List.count_filter (by simp)
    rw [List.count_append, hkept] at hcount
    simp [firstOf] at hcount

end Roots

section Routes

variable {d : Domain} {q : Pipeline} {s' : MdSession} {call : Reparse}
variable {b b' : SnapshotBuilder} {fuel fuel' : ℕ} {c c' : Commit}

theorem roots_of_empty (hq : Mirrors d q) (hnodes : q.session.ast.nodes = []) :
    q.snapshot.roots = [] := by
  rw [List.eq_nil_iff_forall_not_mem]
  intro r hr
  obtain ⟨o, ho, _⟩ := hq.roots r hr
  rw [hnodes] at ho
  cases ho

/-- A tree that was empty and stays so is published without roots. -/
theorem published_roots_of_empty (hq : Mirrors d q) (hold : q.session.ast.nodes = [])
    {nodes : List MdNode} {boxes : List (Address × Rect)} (hnodes : nodes = [])
    (hb : Builds d q nodes boxes b) (hc : commit b fuel = .done c) : c.snapshot.roots = [] := by
  have hroots := builds_roots hb hc
  rw [hnodes, roots_of_empty hq hold] at hroots
  rcases hroots with ⟨_, hnone⟩ | ⟨_, hnone⟩
  · exact hnone
  · exact hnone

/-- The full route always has something to publish for a tree that is not empty: the
boxes are more than there were. -/
theorem full_changed (hq : Mirrors d q) {nodes : List MdNode} (hnodes : nodes ≠ [])
    (hb : Builds d q nodes (placedAt d q.session.ast.nodes ++ placedAt d nodes) b) :
    ¬ Unchanged b := by
  rw [builds_unchanged hq hb]
  intro h
  exact hnodes (List.map_eq_nil_iff.mp (List.append_right_eq_self.mp h.2))

/-- Where nothing is retired, the routes publish the same roots exactly when something is
touched or the tree is empty. -/
theorem roots_eq_iff (hq : Mirrors d q) (hstep : Step q.session call s')
    (hb : Builds d q s'.ast.nodes (placedAt d s'.ast.nodes) b)
    (hb' : Builds d q s'.ast.nodes
      (placedAt d q.session.ast.nodes ++ placedAt d s'.ast.nodes) b')
    (hc : commit b fuel = .done c) (hc' : commit b' fuel' = .done c')
    (hretired : call.delta.retired = []) :
    c.snapshot.roots = c'.snapshot.roots ↔ call.delta.touched ≠ [] ∨ s'.ast.nodes = [] := by
  by_cases hnodes : s'.ast.nodes = []
  · have hold : q.session.ast.nodes = [] := by
      rw [List.eq_nil_iff_forall_not_mem]
      intro o ho
      have hlive := (retired_nil_iff hq.session hstep).mp hretired o ho
      unfold MdAst.ids at hlive
      rw [hnodes] at hlive
      cases hlive
    refine iff_of_true ?_ (Or.inr hnodes)
    rw [published_roots_of_empty hq hold hnodes hb hc,
      published_roots_of_empty hq hold hnodes hb' hc']
  · have hquiet := builds_unchanged_iff hq hstep hb
    have hfull : c'.snapshot.roots =
        keptRoots d s'.ast.nodes q.snapshot.roots ++ firstOf d s'.ast.nodes :=
      ((builds_roots hb' hc').resolve_left (fun h => full_changed hq hnodes hb' h.1)).2
    rw [or_iff_left hnodes, hfull]
    rcases builds_roots hb hc with ⟨hun, hroots⟩ | ⟨hun, hroots⟩
    · rw [hroots]
      refine iff_of_false ?_ (fun h => h (hquiet.mp hun).1)
      exact fun h => kept_append_ne s'.ast.nodes hnodes q.snapshot.roots h.symm
    · exact iff_of_true hroots (fun htouched => hun (hquiet.mpr ⟨htouched, hretired⟩))

theorem sameDocument (hq : Mirrors d q) {boxes boxes' : List (Address × Rect)}
    (hb : Builds d q s'.ast.nodes boxes b) (hb' : Builds d q s'.ast.nodes boxes' b')
    (hc : commit b fuel = .done c) (hc' : commit b' fuel' = .done c') : SameDocument c c' := by
  have hsame : values c.snapshot.records = values c'.snapshot.records := by
    rw [(builds_published hq hb hc).2.1, (builds_published hq hb' hc').2.1]
  have hshown : ShowSame b.base b'.base := by
    rw [hb.base, hb'.base]
    exact ShowSame.refl _
  refine ⟨fun x => ?_, hsame, ?_⟩
  · rw [mem_addresses_iff_values, mem_addresses_iff_values, hsame]
  · exact commit_diffs_congr hshown (state_of_values (by rw [hb.records, hb'.records])) fuel
      fuel' c c' hc hc'

theorem sameState_iff (hq : Mirrors d q) (hstep : Step q.session call s')
    (hb : Builds d q s'.ast.nodes (placedAt d s'.ast.nodes) b)
    (hb' : Builds d q s'.ast.nodes
      (placedAt d q.session.ast.nodes ++ placedAt d s'.ast.nodes) b')
    (hc : commit b fuel = .done c) (hc' : commit b' fuel' = .done c') :
    SameState c c' ↔ OnlyGrows q.session.ast s'.ast call.delta := by
  obtain ⟨_, _, hplacement⟩ := builds_published hq hb hc
  obtain ⟨_, _, hplacement'⟩ := builds_published hq hb' hc'
  have hboxes := rect_eq_iff (d := d) hq.session hstep
  rw [← hplacement, ← hplacement'] at hboxes
  constructor
  · intro h
    obtain ⟨hretired, hlengths⟩ := hboxes.mp h.rect
    exact ⟨hretired, hlengths, (roots_eq_iff hq hstep hb hb' hc hc' hretired).mp h.roots⟩
  · intro h
    have hsame := sameDocument hq hb hb' hc hc'
    exact ⟨hsame.live, hsame.records,
      (roots_eq_iff hq hstep hb hb' hc hc' h.retired).mpr h.touched,
      hboxes.mpr ⟨h.retired, h.lengths⟩, hsame.diffs⟩

end Routes

/-- After any run both routes return unless the revisions have run out. They publish the same
records of the next reparse with the same diffs, and the same state exactly when it only grows
the document. -/
theorem routes_agree_iff (domain : Domain) (revision : Revision) (passes : List Pass)
    (q : Pipeline) (hrun : Run Adapts (opened domain revision) passes q) (call : Reparse)
    (s' : MdSession) (hstep : Step q.session call s') (heap heap' : Heap) :
    (q.snapshot.version.revision.value.val + 1 < 2 ^ 64 → ∀ fuel, q.snapshot.len < fuel →
      (∃ a after, adapt q.snapshot s'.ast call.delta heap fuel = .done (a, after)) ∧
        ∃ a' after', adaptFull q.snapshot s'.ast heap' fuel = .done (a', after')) ∧
    ∀ fuel fuel' a a' after after',
      adapt q.snapshot s'.ast call.delta heap fuel = .done (a, after) →
      adaptFull q.snapshot s'.ast heap' fuel' = .done (a', after') →
      SameDocument a.commit a'.commit ∧
        (SameState a.commit a'.commit ↔ OnlyGrows q.session.ast s'.ast call.delta) := by
  have hq := run_mirrors hrun
  obtain ⟨draft, hb, hpublish⟩ := adapt_builds hq hstep (enlarges_own hq.session hstep) heap
  obtain ⟨draft', hb', hpublish'⟩ := adaptFull_builds hq hstep heap'
  simp only [hpublish, hpublish']
  constructor
  · intro hrevision fuel hfuel
    exact ⟨publish_returns (builds_returns hq hb hrevision hfuel),
      publish_returns (builds_returns hq hb' hrevision hfuel)⟩
  · intro fuel fuel' a a' after after' hadapt hfull
    have hc := publish_eq_done _ _ _ _ hadapt
    have hc' := publish_eq_done _ _ _ _ hfull
    exact ⟨sameDocument hq hb hb' hc hc', sameState_iff hq hstep hb hb' hc hc'⟩

section Example

def line (text : String) : MdNode := ⟨1, .para, text, (0, text.utf8ByteSize)⟩

/-- The line is written again with as many bytes. -/
theorem routes_agree_rewritten :
    ∃ a a' after after', adapt drafted.snapshot ⟨[line "b"], "b\n"⟩ ⟨[1], []⟩ ⟨1⟩ 2 =
        .done (a, after) ∧
      adaptFull drafted.snapshot ⟨[line "b"], "b\n"⟩ ⟨1⟩ 2 = .done (a', after') ∧
      SameState a.commit a'.commit := by
  have hstep : Step drafted.session ⟨"b\n", ⟨[1], []⟩⟩ (paragraphs 1 "b\n" [line "b"]) := by
    unfold Step
    decide
  refine ⟨_, _, _, _, rfl, rfl, ?_⟩
  have hroutes := routes_agree_iff dom (rev 1) _ _ (Run.single drafting_adapts) _ _ hstep ⟨1⟩ ⟨1⟩
  refine (hroutes.2 2 2 _ _ _ _ rfl rfl).2.mpr ⟨rfl, ?_, Or.inl (by decide)⟩
  decide

/-- The line is written again with one byte more: after the full route the old box still
answers. -/
theorem longer_line_keeps_old_box :
    Run Adapts (opened dom (rev 1)) [drafting] drafted ∧
    Step drafted.session ⟨"ab\n", ⟨[1], []⟩⟩ (paragraphs 1 "ab\n" [line "ab"]) ∧
    ∃ a a' after after', adapt drafted.snapshot ⟨[line "ab"], "ab\n"⟩ ⟨[1], []⟩ ⟨1⟩ 2 =
        .done (a, after) ∧
      adaptFull drafted.snapshot ⟨[line "ab"], "ab\n"⟩ ⟨1⟩ 2 = .done (a', after') ∧
      a.commit.snapshot.placement.rect (nodeAddress dom 1) = some { width := 2, height := 16 } ∧
      a'.commit.snapshot.placement.rect (nodeAddress dom 1) = some { width := 1, height := 16 } ∧
      ¬ SameState a.commit a'.commit := by
  refine ⟨Run.single drafting_adapts, ?_, _, _, _, _, rfl, rfl, rfl, rfl, fun h => ?_⟩
  · unfold Step
    decide
  · have hbox := h.rect (nodeAddress dom 1)
    have hwidth := congrArg Rect.width (Option.some.inj hbox)
    exact absurd hwidth (by decide)

end Example

end CompositionIr.AdapterRoutes
