import CompositionIr.AdapterRuns
import CompositionIr.Invalidation

/-!
An edit of the source crosses the boundary as parts. What a pass reports of a node follows
from its old and its new text alone, part by part; a span in another grammar is named, with
the part that carries its bytes, exactly when the bytes change.
-/

namespace CompositionIr.EditParts

open Outcomes ChildGraphs Transitions Addresses Records Placements Snapshots Deltas Commits
open PublishedStates DeltaSpec CommitSpec CallEffects Texts Frontends MdSession Identities
open Adapters AdapterEffects AdapterRuns
open Invalidation (Noticed namedPart_iff_noticed)
open String (ofList)

section Units

/-- The other unit a node refers to, by name or by its own bytes. -/
def unitOf (n : MdNode) : Option String := (embedReference n).or (formulaSource n)

theorem of_wrapped {text before after : List Char} {u : String}
    (h : (do
      let rest ← text.dropPrefix? before
      let within ← rest.dropSuffix? after
      return ofList within) = some u) : text = before ++ (u.toList ++ after) := by
  obtain ⟨rest, hrest, h⟩ := Option.bind_eq_some_iff.mp h
  obtain ⟨within, hwithin, h⟩ := Option.bind_eq_some_iff.mp h
  obtain ⟨left, htext, hleft⟩ := List.dropPrefix?_eq_some_iff.mp hrest
  obtain ⟨right, hsplit, hright⟩ := List.dropSuffix?_eq_some_iff.mp hwithin
  rw [htext, hsplit, eq_of_beq hleft, eq_of_beq hright, ← Option.some.inj h,
    String.toList_ofList]

theorem embed_text {n : MdNode} {u : String} (h : embedReference n = some u) :
    n.text.toList = "![[".toList ++ (u.toList ++ "]]".toList) :=
  of_wrapped h

theorem formula_text {n : MdNode} {u : String} (h : formulaSource n = some u) :
    n.text.toList = "$$".toList ++ (u.toList ++ "$$".toList) :=
  of_wrapped h

def Classified (s : MdSession) : Prop :=
  ∀ n ∈ s.ast.nodes, n.kind = classify n.text.toList

theorem parse_classified (old : List MdNode) (text : List (List Char)) (i start : ℕ)
    (nextId last : UInt64) (nodes : List MdNode)
    (h : parse old text i start nextId = some (nodes, last)) :
    ∀ n ∈ nodes, n.kind = classify n.text.toList := by
  induction text generalizing i start nextId nodes with
  | nil =>
    obtain ⟨hnodes, _⟩ := Prod.mk.inj (Option.some.inj h)
    subst hnodes
    exact List.forall_mem_nil _
  | cons line rest ih =>
    rcases parse_cons old line rest i start nextId last nodes h with
      ⟨_, hrest⟩ | ⟨id, mid, tail, _, _, hrest, hnodes⟩
    · exact ih _ _ _ _ hrest
    · rw [hnodes]
      refine List.forall_mem_cons.mpr ⟨?_, ih _ _ _ _ hrest⟩
      rw [String.toList_ofList]

theorem run_classified {domain : Domain} {revision : Revision} {passes : List Pass}
    {q : Pipeline} (hrun : Run Adapts (opened domain revision) passes q) :
    Classified q.session := by
  refine Run.preserves (fun q => Classified q.session) hrun (fun u pass v _ hstep => ?_)
    (fun n hn => absurd hn List.not_mem_nil)
  exact parse_classified _ _ _ _ _ _ _ ((step_iff _ _ _).mp hstep.reparsed).1

/-- Between nodes of one kind the unit changes exactly with the text. -/
theorem unit_eq_iff {o n : MdNode} (ho : o.kind = classify o.text.toList)
    (hn : n.kind = classify n.text.toList) (hkind : o.kind = n.kind) {u u' : String}
    (hu : unitOf o = some u) (hu' : unitOf n = some u') : u = u' ↔ o.text = n.text := by
  have hshape : ∀ (m : MdNode) (v : String), unitOf m = some v →
      (classify m.text.toList = .embed ∧
          m.text.toList = "![[".toList ++ (v.toList ++ "]]".toList)) ∨
        (classify m.text.toList = .formula ∧
          m.text.toList = "$$".toList ++ (v.toList ++ "$$".toList)) := by
    intro m v hv
    unfold unitOf at hv
    rcases Option.or_eq_some_iff.mp hv with hembed | ⟨_, hformula⟩
    · have htext := embed_text hembed
      refine Or.inl ⟨?_, htext⟩
      rw [htext]
      rfl
    · have htext := formula_text hformula
      refine Or.inr ⟨?_, htext⟩
      rw [htext]
      rfl
  constructor
  · intro heq
    subst heq
    apply String.toList_inj.mp
    rcases hshape o u hu with ⟨hclass, htext⟩ | ⟨hclass, htext⟩ <;>
      rcases hshape n u hu' with ⟨hclass', htext'⟩ | ⟨hclass', htext'⟩
    · rw [htext, htext']
    · rw [ho, hn, hclass, hclass'] at hkind
      cases hkind
    · rw [ho, hn, hclass, hclass'] at hkind
      cases hkind
    · rw [htext, htext']
  · intro htext
    have hsame : unitOf o = unitOf n := by
      unfold unitOf embedReference formulaSource
      rw [htext]
    rw [hu, hu'] at hsame
    exact Option.some.inj hsame

end Units

section Parts

def partsBetween (o n : MdNode) : List Part :=
  if o.text = n.text then []
  else [Part.text, Part.shaping] ++
    (if o.text.utf8ByteSize = n.text.utf8ByteSize then [] else [Part.intrinsicLayout]) ++
    (if (unitOf o).getD "" = (unitOf n).getD "" then [] else [Part.interaction])

/-- What is reported of a node: every part of its own when it is new. -/
def editParts (old : MdAst) (n : MdNode) : List Part :=
  match old.nodes.find? (fun o => o.id == n.id) with
  | none => ownParts
  | some o => partsBetween o n

theorem partEq_project {o n : MdNode} (hid : o.id = n.id) (hkind : o.kind = n.kind) {p : Part}
    (hp : p ∈ ownParts) : (project o).partEq (project n) p = false ↔ p ∈ partsBetween o n := by
  have hpaint : (project o).paint = (project n).paint := by
    unfold project
    rw [hkind]
  have hlink : (project o).sourceLink = (project n).sourceLink := by
    unfold project
    rw [hid]
  have hunit : ∀ m : MdNode, (project m).interaction = (unitOf m).getD "" := fun _ => rfl
  have hsize : ∀ m : MdNode, (project m).intrinsic = m.text.utf8ByteSize := fun _ => rfl
  have htexts : ∀ m : MdNode, (project m).text = m.text := fun _ => rfl
  unfold partsBetween
  by_cases htext : o.text = n.text
  · rw [project_congr hid hkind htext, if_pos htext, ← Bool.not_eq_true, Node.partEq_iff]
    simp
  · rw [if_neg htext]
    cases p with
    | text => simp [Node.partEq, htexts, htext]
    | shaping => simp [Node.partEq, htexts, htext]
    | intrinsicLayout => simp [Node.partEq, hsize]
    | interaction => simp [Node.partEq, hunit]
    | paint =>
      have hresources : (project o).resourcesFor Part.paint =
          (project n).resourcesFor Part.paint := rfl
      simp [Node.partEq, hpaint, hresources]
    | sourceLink => simp [Node.partEq, hlink]
    | descendant => exact absurd hp (by decide)
    | «structure» | textMap | lineLayout | fragmentation | validation =>
      simp [Node.partEq, project]

end Parts

section Passes

variable {d : Domain} {q q' : Pipeline} {pass : Pass}

theorem pass_describes (hq : Mirrors d q) (hstep : Adapts q pass q') :
    Describes (DiffersAt q.snapshot q'.snapshot) q.snapshot.records q'.snapshot.records
      pass.commit.delta.diffs := by
  obtain ⟨b, fuel, hb, hcommit⟩ := pass_builds hq hstep
  have hdesc := commit_describes b fuel _ hcommit
  rwa [hb.base, ← hstep.published] at hdesc

/-- A part is reported only of nodes of the new tree. -/
theorem node_of_namedPart (hq : Mirrors d q) (hstep : Adapts q pass q') {x : Address} {p : Part}
    (h : NamedPart pass.commit.delta.diffs x p) :
    ∃ n ∈ q'.session.ast.nodes, nodeAddress d n.id = x := by
  have hq' := pass_mirrors hq hstep
  obtain ⟨hlive, _⟩ := (namedPart_iff_noticed (pass_describes hq hstep) x p).mp h
  obtain ⟨arc, harc⟩ := Option.isSome_iff_exists.mp hlive
  obtain ⟨n, hn, haddress, _⟩ := node_of_lookup hq' harc
  exact ⟨n, hn, haddress⟩

/-- What is reported of a node, part by part. -/
theorem namedPart_node (hq : Mirrors d q) (hstep : Adapts q pass q') {n : MdNode}
    (hn : n ∈ q'.session.ast.nodes) (p : Part) :
    NamedPart pass.commit.delta.diffs (nodeAddress d n.id) p ↔
      p ∈ editParts q.session.ast n := by
  have hq' := pass_mirrors hq hstep
  obtain ⟨arc, harc, hproject⟩ := lookup_node hq' hn
  have hchildless : ∀ c, ¬ Lists q.snapshot.records q'.snapshot.records (nodeAddress d n.id) c := by
    intro c hc
    unfold PublishedStates.Lists at hc
    simp only [childrenOf_eq_nil (withoutChildren hq.records),
      childrenOf_eq_nil (withoutChildren hq'.records)] at hc
    simp at hc
  rw [namedPart_iff_noticed (pass_describes hq hstep)]
  simp only [Noticed, harc, Option.isSome_some, true_and, hchildless, false_and, exists_false,
    and_false, or_false, Option.some.injEq]
  unfold editParts
  by_cases hold : ∃ o ∈ q.session.ast.nodes, o.id = n.id
  · obtain ⟨o, ho, hid⟩ := hold
    obtain ⟨before, hbefore, hbeforeNode⟩ := lookup_node hq ho
    have hkind := kind_eq hq.session (Run.single hstep.reparsed) o ho n hn hid.symm
    have hsub : ∀ p ∈ partsBetween o n, p ∈ ownParts := by
      intro p hmem
      rw [mem_ownParts]
      rintro rfl
      unfold partsBetween at hmem
      split at hmem
      · exact List.not_mem_nil hmem
      · split at hmem <;> split at hmem <;> simp at hmem
    rw [← hid, find_old hq.session ho, hbefore]
    have hpart : p ∈ ownParts →
        (before.node.partEq arc.node p = false ↔ p ∈ partsBetween o n) := by
      intro hp
      rw [hbeforeNode, hproject]
      exact partEq_project hid hkind.symm hp
    constructor
    · intro hboth
      obtain ⟨hp, hunequal⟩ := hboth
      exact (hpart hp).mp (hunequal before arc rfl rfl)
    · intro hmem
      refine ⟨hsub p hmem, ?_⟩
      rintro _ _ ⟨⟩ ⟨⟩
      exact (hpart (hsub p hmem)).mpr hmem
  · have hnew : ∀ o ∈ q.session.ast.nodes, o.id ≠ n.id := fun o ho hid => hold ⟨o, ho, hid⟩
    rw [find_new hnew, lookup_new hq (hq'.session.positive n hn) hnew]
    simp

/-- Every entry of a node of the new tree carries its text. -/
theorem text_named (hq : Mirrors d q) (hstep : Adapts q pass q') {n : MdNode}
    (hn : n ∈ q'.session.ast.nodes) (h : Named pass.commit.delta.diffs (nodeAddress d n.id)) :
    NamedPart pass.commit.delta.diffs (nodeAddress d n.id) Part.text := by
  rw [pass_named hq hstep, documentOf_id (pass_mirrors hq hstep).session hn rfl] at h
  rw [namedPart_node hq hstep hn]
  unfold editParts
  cases hfind : q.session.ast.nodes.find? (fun o => o.id == n.id) with
  | none => exact (mem_ownParts Part.text).mpr (by decide)
  | some o =>
    have ho := List.mem_of_find?_eq_some hfind
    have hid : o.id = n.id := by simpa using List.find?_some hfind
    have hkind := kind_eq hq.session (Run.single hstep.reparsed) o ho n hn hid.symm
    have htext : o.text ≠ n.text := by
      intro htext
      rw [documentOf_id hq.session ho hid, project_congr hid hkind.symm htext] at h
      exact h rfl
    change Part.text ∈ partsBetween o n
    unfold partsBetween
    rw [if_neg htext]
    exact List.mem_append_left _ (List.mem_append_left _ (List.mem_cons_self ..))

/-- An entry without parts is that of a node that was retired. -/
theorem empty_iff_retired (hq : Mirrors d q) (hstep : Adapts q pass q') {entry : Diff}
    (hentry : entry ∈ pass.commit.delta.diffs) :
    entry.parts = Parts.empty ↔
      ∃ o ∈ q.session.ast.nodes, o.id ∉ q'.session.ast.ids ∧
        nodeAddress d o.id = entry.address := by
  have hq' := pass_mirrors hq hstep
  have hdesc := pass_describes hq hstep
  have hnamed : Named pass.commit.delta.diffs entry.address := ⟨entry, hentry, rfl⟩
  constructor
  · intro hempty
    have hgone : documentOf d q'.session.ast.nodes entry.address = none := by
      rw [documentOf_eq_none]
      intro n hn haddress
      rw [← haddress] at hnamed
      obtain ⟨other, hother, hsame, hcontains⟩ := text_named hq hstep hn hnamed
      have hone : other = entry := List.inj_on_of_nodup_map
        (hdesc.ascending.imp (fun hlt => ne_of_lt hlt)) hother hentry (hsame.trans haddress)
      rw [hone, hempty, Parts.contains_empty] at hcontains
      cases hcontains
    rw [pass_named hq hstep, hgone, ne_eq, documentOf_eq_none] at hnamed
    push Not at hnamed
    obtain ⟨o, ho, haddress⟩ := hnamed
    refine ⟨o, ho, fun hlive => ?_, haddress⟩
    obtain ⟨n, hn, hid⟩ := List.mem_map.mp hlive
    exact (documentOf_eq_none _).mp hgone n hn (by rw [hid, haddress])
  · intro hretired
    obtain ⟨o, ho, hgone, hat⟩ := hretired
    refine (hdesc.entry entry hentry).retired ?_
    rw [← hat]
    refine lookup_new hq' (hq.session.positive o ho) (fun n hn hid => hgone ?_)
    exact List.mem_map.mpr ⟨n, hn, hid⟩

/-- A node that was retired has an entry. -/
theorem retired_named (hq : Mirrors d q) (hstep : Adapts q pass q') {o : MdNode}
    (ho : o ∈ q.session.ast.nodes) (hgone : o.id ∉ q'.session.ast.ids) :
    Named pass.commit.delta.diffs (nodeAddress d o.id) := by
  have hq' := pass_mirrors hq hstep
  have hnone : documentOf d q'.session.ast.nodes (nodeAddress d o.id) = none := by
    rw [documentOf_eq_none]
    intro n hn haddress
    have hid := nodeAddress_inj d (hq'.session.positive n hn) (hq.session.positive o ho) haddress
    exact hgone (List.mem_map.mpr ⟨n, hn, hid⟩)
  rw [pass_named hq hstep, documentOf_id hq.session ho rfl, hnone]
  exact Option.some_ne_none _

/-- A node that refers to another unit before and after is named, with the part that
carries the reference, exactly when the reference changed. -/
theorem unit_signalled (hq : Mirrors d q) (hstep : Adapts q pass q')
    (hold : Classified q.session) (hnew : Classified q'.session) {o n : MdNode}
    (ho : o ∈ q.session.ast.nodes) (hn : n ∈ q'.session.ast.nodes) (hid : o.id = n.id)
    {u u' : String} (hu : unitOf o = some u) (hu' : unitOf n = some u') :
    (Named pass.commit.delta.diffs (nodeAddress d n.id) ↔ u ≠ u') ∧
      (NamedPart pass.commit.delta.diffs (nodeAddress d n.id) Part.interaction ↔ u ≠ u') := by
  have hkind := kind_eq hq.session (Run.single hstep.reparsed) o ho n hn hid.symm
  have hsame := unit_eq_iff (hold o ho) (hnew n hn) hkind.symm hu hu'
  have hparts : editParts q.session.ast n = partsBetween o n := by
    unfold editParts
    rw [← hid, find_old hq.session ho]
  have hpart : NamedPart pass.commit.delta.diffs (nodeAddress d n.id) Part.interaction ↔
      u ≠ u' := by
    rw [namedPart_node hq hstep hn, hparts]
    unfold partsBetween
    rw [hu, hu', Option.getD_some, Option.getD_some]
    by_cases htext : o.text = n.text
    · rw [if_pos htext]
      exact iff_of_false List.not_mem_nil (fun hne => hne (hsame.mpr htext))
    · have hne : u ≠ u' := fun heq => htext (hsame.mp heq)
      rw [if_neg htext, if_neg hne]
      simp [hne]
  refine ⟨⟨?_, fun hne => ?_⟩, hpart⟩
  · rintro hnamed heq
    rw [pass_named hq hstep, documentOf_id (pass_mirrors hq hstep).session hn rfl,
      documentOf_id hq.session ho hid] at hnamed
    exact hnamed (by rw [project_congr hid hkind.symm (hsame.mp heq)])
  · obtain ⟨entry, hentry, haddress, _⟩ := hpart.mpr hne
    exact ⟨entry, hentry, haddress⟩

end Passes

/-- Every pass of every run reports, of each node of the new tree and of nothing else, the
parts that follow from its old and new text; its entries without parts are the retired
nodes, every one of them; and a node that refers to another unit is named, with that
reference, exactly when the reference changed. -/
theorem edits_cross_as_parts (domain : Domain) (revision : Revision) (passes : List Pass)
    (q q' : Pipeline) (pass : Pass) (hrun : Run Adapts (opened domain revision) passes q)
    (hstep : Adapts q pass q') :
    (∀ x p, NamedPart pass.commit.delta.diffs x p ↔
      ∃ n ∈ pass.ast.nodes, nodeAddress domain n.id = x ∧ p ∈ editParts q.session.ast n) ∧
    (∀ entry ∈ pass.commit.delta.diffs, entry.parts = Parts.empty ↔
      ∃ o ∈ q.session.ast.nodes, o.id ∉ pass.ast.ids ∧ nodeAddress domain o.id = entry.address) ∧
    (∀ o ∈ q.session.ast.nodes, o.id ∉ pass.ast.ids →
      Named pass.commit.delta.diffs (nodeAddress domain o.id)) ∧
    ∀ o ∈ q.session.ast.nodes, ∀ n ∈ pass.ast.nodes, o.id = n.id →
      ∀ u u', unitOf o = some u → unitOf n = some u' →
        (Named pass.commit.delta.diffs (nodeAddress domain n.id) ↔ u ≠ u') ∧
        (NamedPart pass.commit.delta.diffs (nodeAddress domain n.id) Part.interaction ↔
          u ≠ u') := by
  have hq := run_mirrors hrun
  rw [hstep.ast]
  refine ⟨fun x p => ⟨fun h => ?_, ?_⟩, fun entry hentry => empty_iff_retired hq hstep hentry,
    fun o ho hgone => retired_named hq hstep ho hgone, fun o ho n hn hid u u' hu hu' => ?_⟩
  · obtain ⟨n, hn, rfl⟩ := node_of_namedPart hq hstep h
    exact ⟨n, hn, rfl, (namedPart_node hq hstep hn p).mp h⟩
  · intro hnode
    obtain ⟨n, hn, rfl, hmem⟩ := hnode
    exact (namedPart_node hq hstep hn p).mpr hmem
  · exact unit_signalled hq hstep (run_classified hrun) (run_classified (hrun.snoc hstep)) ho hn
      hid hu hu'

section Example

def squared : MdNode := ⟨1, .formula, "$$a$$", (0, 5)⟩

def cubed : MdNode := ⟨1, .formula, "$$b$$", (0, 5)⟩

def posed : Pipeline := ⟨paragraphs 1 "$$a$$\n" [squared], shown 2 0 [squared] [1]⟩

def posing : Pass where
  call := ⟨"$$a$$\n", ⟨[1], []⟩⟩
  ast := posed.session.ast
  report := ⟨[1], []⟩
  commit := publishing posed.snapshot 1 [⟨nodeAddress dom 1, ⟨0x7ff⟩⟩]

def revising : Pass where
  call := ⟨"$$b$$\n", ⟨[1], []⟩⟩
  ast := ⟨[cubed], "$$b$$\n"⟩
  report := ⟨[1], []⟩
  commit := publishing (shown 3 1 [cubed] [1, 1]) 2 [⟨nodeAddress dom 1, ⟨0x10a⟩⟩]

theorem edits_cross_as_parts_revised :
    Run Adapts (opened dom (rev 1)) [posing] posed ∧
      NamedPart revising.commit.delta.diffs (nodeAddress dom 1) Part.interaction := by
  have hfirst : Step MdSession.new posing.call posed.session := by
    unfold Step
    decide
  have hposing : Adapts (opened dom (rev 1)) posing posed :=
    ⟨hfirst, rfl, enlarges_own (run_wellIdentified (Run.nil _)) hfirst,
      ⟨⟨0⟩, 1, _, _, rfl⟩, rfl⟩
  have hrun := Run.single hposing
  have hsecond : Step posed.session revising.call (paragraphs 1 "$$b$$\n" [cubed]) := by
    unfold Step
    decide
  have hrevising : Adapts posed revising
      ⟨paragraphs 1 "$$b$$\n" [cubed], revising.commit.snapshot⟩ :=
    ⟨hsecond, rfl, enlarges_own (run_mirrors hrun).session hsecond, ⟨⟨1⟩, 2, _, _, rfl⟩, rfl⟩
  have hsignals := (edits_cross_as_parts dom (rev 1) _ _ _ _ hrun hrevising).2.2.2
  have hu : unitOf squared = some "a" := by decide
  have hu' : unitOf cubed = some "b" := by decide
  exact ⟨hrun, (hsignals squared (List.mem_singleton.mpr rfl) cubed (List.mem_singleton.mpr rfl)
    rfl "a" "b" hu hu').2.mpr (by decide)⟩

end Example

end CompositionIr.EditParts
