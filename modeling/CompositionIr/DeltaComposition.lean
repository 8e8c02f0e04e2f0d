import CompositionIr.CommitSpec
import CompositionIr.Transitions

/-!
Deltas compose by concatenation. Along a chain of commits an address that no delta
names shows the same tree at both ends, and a part that no delta names has one value.
A consumer that holds the old state therefore reaches the new one by reading again what
the concatenated entries name, whether it keeps one flat map or a tree for each address.
-/

namespace CompositionIr.DeltaComposition

open Outcomes ChildGraphs Transitions Addresses Records Snapshots Deltas Commits
open PublishedStates DeltaSpec CommitSpec

def Commits (s : Snapshot) (d : Delta) (t : Snapshot) : Prop :=
  ∃ edits b heap heap' fuel, Edit.applyAll edits s.edit heap = .done (b, heap') ∧
    commit b fuel = .done ⟨t, d⟩

/-- All that the results below need of a commit: its delta describes it. -/
def Described (s : Snapshot) (d : Delta) (t : Snapshot) : Prop :=
  Describes (DiffersAt s t) s.records t.records d.diffs

theorem commits_described (s : Snapshot) (d : Delta) (t : Snapshot) (h : Commits s d t) :
    Described s d t := by
  obtain ⟨edits, b, heap, heap', fuel, hedits, hcommit⟩ := h
  have hbase : b.base = s := applyAll_base edits s.edit b heap heap' hedits
  have hdesc := commit_describes b fuel ⟨t, d⟩ hcommit
  rw [hbase] at hdesc
  exact hdesc

def concatenated (deltas : List Delta) : List Diff := deltas.flatMap Delta.diffs

theorem named_snoc (deltas : List Delta) (d : Delta) (x : Address) :
    Named (concatenated (deltas ++ [d])) x ↔ Named (concatenated deltas) x ∨ Named d.diffs x := by
  simp [Named, concatenated, or_and_right, exists_or]

theorem namedPart_snoc (deltas : List Delta) (d : Delta) (x : Address) (p : Part) :
    NamedPart (concatenated (deltas ++ [d])) x p ↔
      NamedPart (concatenated deltas) x p ∨ NamedPart d.diffs x p := by
  simp [NamedPart, concatenated, or_and_right, exists_or]

section Step

variable {s t : Snapshot} {diffs : List Diff}

/-- A live address keeps every part its entry does not carry. -/
theorem part_kept (hs : Describes (DiffersAt s t) s.records t.records diffs) (x : Address)
    (a : Arc) (p : Part) (ha : t.records.lookup x = some a) (hp : p ∈ ownParts)
    (hnot : ¬ NamedPart diffs x p) :
    ∃ b, s.records.lookup x = some b ∧ b.node.partEq a.node p = true := by
  by_cases hx : Named diffs x
  · obtain ⟨d, hd, hdx⟩ := hx
    subst hdx
    have hiff := (hs.entry d hd).own a ha p hp
    have hfalse : ¬ d.parts.contains p = true := fun hc => hnot ⟨d, hd, rfl, hc⟩
    rw [hiff] at hfalse
    push Not at hfalse
    obtain ⟨b, hb, hne⟩ := hfalse
    exact ⟨b, hb, by simpa using hne⟩
  · have hsame : state s.records x = state t.records x :=
      Differs.eq_of_not (fun hD => hx ((named_iff hs x).mpr hD))
    rw [state_of_lookup ha] at hsame
    obtain ⟨b, hb, hproj⟩ := (state_eq_some _ _ _).mp hsame
    exact ⟨b, hb, (Node.partEq_iff _ _ p).mpr (congrFun hproj p)⟩

/-- Below a live address whose entry carries no descendant part nothing differs. -/
theorem below_kept (hs : Describes (DiffersAt s t) s.records t.records diffs) (x c : Address)
    (a : Arc) (ha : t.records.lookup x = some a)
    (hnot : ¬ NamedPart diffs x Part.descendant) (hc : c ∈ a.node.children) :
    ¬ DiffersAt s t c := by
  have hmem : c ∈ childrenOf s.records x ++ childrenOf t.records x :=
    List.mem_append_right _ ((mem_childrenOf _ _ _).mpr ⟨a, ha, hc⟩)
  by_cases hx : Named diffs x
  · obtain ⟨d, hd, hdx⟩ := hx
    subst hdx
    intro hD
    exact hnot ⟨d, hd, rfl, ((hs.entry d hd).descendant a ha).mpr ⟨c, hmem, hD⟩⟩
  · have hsame : ¬ DiffersAt s t x := fun hD => hx ((named_iff hs x).mpr hD)
    have hedge : Child kids (state s.records) x c := by
      have heq := Differs.eq_of_not hsame
      rw [state_of_lookup ha] at heq
      exact ⟨_, heq, hc⟩
    exact ((not_differs_iff x).mp hsame).2 c hedge

end Step

section Chain

variable {s₀ sk : Snapshot} {deltas : List Delta}

/-- An address that no delta names shows the same tree at both ends of the chain. -/
theorem chain_tree (hrun : Run Described s₀ deltas sk) (x : Address)
    (hnot : ¬ Named (concatenated deltas) x) (depth : ℕ) :
    materialize kids (state s₀.records) depth x =
      materialize kids (state sk.records) depth x := by
  induction hrun with
  | nil => rfl
  | @snoc t u deltas d hrun hstep ih =>
    rw [named_snoc, not_or] at hnot
    have hs : Describes (DiffersAt t u) t.records u.records d.diffs := hstep
    have hlast : ¬ DiffersAt t u x := fun hD => hnot.2 ((named_iff hs x).mpr hD)
    exact (ih hnot.1).trans (materialize_eq depth x hlast)

theorem chain_state (hrun : Run Described s₀ deltas sk) (x : Address)
    (hnot : ¬ Named (concatenated deltas) x) : state s₀.records x = state sk.records x := by
  have htree := chain_tree hrun x hnot 1
  unfold materialize at htree
  cases h₀ : state s₀.records x with
  | none =>
    cases hk : state sk.records x with
    | none => rfl
    | some l => simp [h₀, hk] at htree
  | some l₀ =>
    cases hk : state sk.records x with
    | none => simp [h₀, hk] at htree
    | some l =>
      simp only [h₀, hk, Materialized.node.injEq] at htree
      rw [htree.1]

/-- A part that no delta names has one value at both ends. -/
theorem chain_part (hrun : Run Described s₀ deltas sk) (x : Address) (a : Arc) (p : Part)
    (ha : sk.records.lookup x = some a) (hp : p ∈ ownParts)
    (hnot : ¬ NamedPart (concatenated deltas) x p) :
    ∃ b, s₀.records.lookup x = some b ∧ b.node.partEq a.node p = true := by
  induction hrun generalizing a with
  | nil => exact ⟨a, ha, (Node.partEq_iff _ _ p).mpr rfl⟩
  | @snoc t u deltas d hrun hstep ih =>
    rw [namedPart_snoc, not_or] at hnot
    obtain ⟨c, hc, hca⟩ := part_kept hstep x a p ha hp hnot.2
    obtain ⟨b, hb, hbc⟩ := ih c hc hnot.1
    rw [Node.partEq_iff] at hca hbc
    exact ⟨b, hb, (Node.partEq_iff _ _ p).mpr (hbc.trans hca)⟩

/-- The trees of the children are kept where neither the children nor anything below
them is named. -/
theorem chain_below (hrun : Run Described s₀ deltas sk) (x c : Address) (a : Arc)
    (ha : sk.records.lookup x = some a) (hc : c ∈ a.node.children)
    (hstruct : ¬ NamedPart (concatenated deltas) x Part.structure)
    (hdesc : ¬ NamedPart (concatenated deltas) x Part.descendant) (depth : ℕ) :
    materialize kids (state s₀.records) depth c =
      materialize kids (state sk.records) depth c := by
  induction hrun generalizing a with
  | nil => rfl
  | @snoc t u deltas d hrun hstep ih =>
    rw [namedPart_snoc, not_or] at hstruct hdesc
    have hs : Describes (DiffersAt t u) t.records u.records d.diffs := hstep
    obtain ⟨b, hb, hkids⟩ := part_kept hs x a Part.structure ha (by decide) hstruct.2
    rw [Node.partEq_iff, Node.projection_structure, Node.projection_structure] at hkids
    have hfirst := ih b hb (by rw [hkids]; exact hc) hstruct.1 hdesc.1
    exact hfirst.trans (materialize_eq depth c (below_kept hs x c a ha hdesc.2 hc))

end Chain

section Flat

/-- A consumer's flat map: the value of each part it holds of each address. -/
abbrev Mirror := Address → (p : Part) → Option p.Value

def mirror (s : Snapshot) : Mirror := fun x p => (state s.records x).map (fun l => l p)

/-- One entry applied: its address is looked up again. Nothing there means that the
address is dropped; otherwise the parts the entry carries are read. -/
def reread (s : Snapshot) (held : Mirror) (d : Diff) : Mirror := fun x p =>
  if x = d.address ∧ (s.contains x = false ∨ d.parts.contains p = true) then mirror s x p
  else held x p

theorem reread_of_agrees (s : Snapshot) (diffs : List Diff) (held : Mirror) (x : Address)
    (p : Part) (h : held x p = mirror s x p) :
    diffs.foldl (reread s) held x p = mirror s x p := by
  induction diffs generalizing held with
  | nil => exact h
  | cons d rest ih =>
    apply ih
    unfold reread
    split
    · rfl
    · exact h

/-- What an entry names is read, whatever was held. -/
theorem reread_of_named (s : Snapshot) (diffs : List Diff) (held : Mirror) (x : Address)
    (p : Part)
    (h : ∃ d ∈ diffs, d.address = x ∧ (s.contains x = false ∨ d.parts.contains p = true)) :
    diffs.foldl (reread s) held x p = mirror s x p := by
  obtain ⟨d, hd, hdx, hread⟩ := h
  obtain ⟨left, right, hsplit⟩ := List.append_of_mem hd
  rw [hsplit, List.foldl_append, List.foldl_cons]
  apply reread_of_agrees
  exact if_pos ⟨hdx.symm, hread⟩

theorem reread_eq_mirror (s : Snapshot) (diffs : List Diff) (held : Mirror) (x : Address)
    (p : Part)
    (h : (∃ d ∈ diffs, d.address = x ∧ (s.contains x = false ∨ d.parts.contains p = true)) ∨
      held x p = mirror s x p) : diffs.foldl (reread s) held x p = mirror s x p := by
  rcases h with hnamed | hagree
  · exact reread_of_named s diffs held x p hnamed
  · exact reread_of_agrees s diffs held x p hagree

/-- The flat consumer reaches the mirror of the last snapshot. -/
theorem chain_mirror {s₀ sk : Snapshot} {deltas : List Delta}
    (hrun : Run Described s₀ deltas sk) (x : Address) (p : Part) (hp : p ∈ ownParts) :
    (concatenated deltas).foldl (reread sk) (mirror s₀) x p = mirror sk x p := by
  apply reread_eq_mirror
  cases ha : sk.records.lookup x with
  | none =>
    have hdead : sk.contains x = false := (contains_eq_false_iff sk x).mpr ha
    by_cases hx : Named (concatenated deltas) x
    · obtain ⟨d, hd, hdx⟩ := hx
      exact Or.inl ⟨d, hd, hdx, Or.inl hdead⟩
    · exact Or.inr (by unfold mirror; rw [chain_state hrun x hx])
  | some a =>
    by_cases hx : NamedPart (concatenated deltas) x p
    · obtain ⟨d, hd, hdx, hdp⟩ := hx
      exact Or.inl ⟨d, hd, hdx, Or.inr hdp⟩
    · obtain ⟨b, hb, hpart⟩ := chain_part hrun x a p ha hp hx
      refine Or.inr ?_
      unfold mirror
      rw [state_of_lookup hb, state_of_lookup ha, Option.map_some, Option.map_some,
        (Node.partEq_iff _ _ p).mp hpart]

end Flat

section Linked

/-- The whole tree below an address, as a consumer that links children to their parents
holds it. -/
def whole (s : Snapshot) (x : Address) : Materialized Projection :=
  materialize kids (state s.records) (s.len + 1) x

theorem whole_eq (s : Snapshot) (rank : Address → ℕ)
    (hrank : ∀ x c, Child kids (state s.records) x c → rank c < rank x)
    (hle : ∀ x, rank x ≤ s.len) (x : Address) (depth : ℕ) (hdepth : rank x < depth) :
    whole s x = materialize kids (state s.records) depth x := by
  have hx := hle x
  exact materialize_stable rank hrank (s.len + 1) depth x (by omega) hdepth

/-- The values held of one address, those named by an entry read again. Of an address
not held before the consumer starts from the default record. -/
def patched (diffs : List Diff) (x : Address) (held : Option Projection)
    (read : Projection) : Projection := fun p =>
  if NamedPart diffs x p then read p else held.getD ({} : Node).projection p

def label {L : Type*} : Materialized L → Option L
  | .node l _ => some l
  | .cut | .absent => none

def below {L : Type*} : Materialized L → List (Materialized L)
  | .node _ subtrees => subtrees
  | .cut | .absent => []

/-- The consumer's update of one tree. What is not named is kept as it is held. A named
address is looked up: a retired one is dropped, and of a live one the named parts are
read. Its links are built again only when its children or something below them is named. -/
def relink (diffs : List Diff) (held : Address → Materialized Projection) (s : Snapshot) :
    ℕ → Address → Materialized Projection
  | 0, _ => .cut
  | fuel + 1, x =>
    if Named diffs x then
      match s.records.lookup x with
      | none => .absent
      | some arc =>
        let l := patched diffs x (label (held x)) arc.node.projection
        if NamedPart diffs x Part.structure ∨ NamedPart diffs x Part.descendant then
          .node l ((kids l).map (relink diffs held s fuel))
        else .node l (below (held x))
    else held x

theorem whole_absent (s : Snapshot) (x : Address) (hx : s.records.lookup x = none) :
    whole s x = .absent :=
  materialize_absent ((state_eq_none _ _).mpr hx) s.len

theorem whole_node (s : Snapshot) (x : Address) (arc : Arc)
    (hx : s.records.lookup x = some arc) :
    whole s x = .node arc.node.projection
      (arc.node.children.map (materialize kids (state s.records) s.len)) :=
  materialize_node (state_of_lookup hx) s.len

section Chain

variable {s₀ sk : Snapshot} {deltas : List Delta}

/-- Patching the values held gives the values of the last snapshot. -/
theorem patched_whole (hrun : Run Described s₀ deltas sk) (x : Address) (a : Arc)
    (ha : sk.records.lookup x = some a) :
    patched (concatenated deltas) x (label (whole s₀ x)) a.node.projection =
      a.node.projection := by
  funext p
  unfold patched
  split
  · rfl
  · rename_i hnot
    by_cases hp : p ∈ ownParts
    · obtain ⟨b, hb, hpart⟩ := chain_part hrun x a p ha hp hnot
      rw [whole_node s₀ x b hb]
      exact (Node.partEq_iff _ _ p).mp hpart
    · have hdesc := eq_descendant_of_not_own hp
      subst hdesc
      rfl

/-- A tree that is the same at every depth in both snapshots is the same as a whole. -/
theorem whole_eq_of_tree (h₀ : AcyclicChildren s₀) (hk : AcyclicChildren sk) (x : Address)
    (htree : ∀ depth, materialize kids (state s₀.records) depth x =
      materialize kids (state sk.records) depth x) : whole s₀ x = whole sk x := by
  obtain ⟨rank₀, hrank₀, hle₀⟩ := exists_child_rank s₀ h₀
  obtain ⟨rank, hrank, hle⟩ := exists_child_rank sk hk
  have h₀x := hle₀ x
  have hx := hle x
  calc whole s₀ x
      = materialize kids (state s₀.records) (s₀.len + sk.len + 1) x :=
        whole_eq s₀ rank₀ hrank₀ hle₀ x _ (by omega)
    _ = materialize kids (state sk.records) (s₀.len + sk.len + 1) x := htree _
    _ = whole sk x := (whole_eq sk rank hrank hle x _ (by omega)).symm

/-- Below a live address the cut-off trees of its children are whole. -/
theorem whole_children (s : Snapshot) (hs : AcyclicChildren s) (x : Address) (arc : Arc)
    (hx : s.records.lookup x = some arc) :
    whole s x = .node arc.node.projection (arc.node.children.map (whole s)) := by
  obtain ⟨rank, hrank, hle⟩ := exists_child_rank s hs
  rw [whole_node s x arc hx]
  congr 1
  apply List.map_congr_left
  intro c hc
  have hlt := hrank x c ((child_iff _ _ _).mpr ⟨arc, hx, hc⟩)
  have hlex := hle x
  exact (whole_eq s rank hrank hle c s.len (by omega)).symm

/-- The consumer with links reaches the trees of the last snapshot. -/
theorem chain_relink (hrun : Run Described s₀ deltas sk) (h₀ : AcyclicChildren s₀)
    (hk : AcyclicChildren sk) (x : Address) (fuel : ℕ) (hfuel : sk.len < fuel) :
    relink (concatenated deltas) (whole s₀) sk fuel x = whole sk x := by
  obtain ⟨rank, hrank, hle⟩ := exists_child_rank sk hk
  have key : ∀ fuel x, rank x < fuel →
      relink (concatenated deltas) (whole s₀) sk fuel x = whole sk x := by
    intro fuel
    induction fuel with
    | zero => exact fun x hx => absurd hx (by omega)
    | succ fuel ih =>
      intro x hx
      unfold relink
      by_cases hnamed : Named (concatenated deltas) x
      · rw [if_pos hnamed]
        cases ha : sk.records.lookup x with
        | none => exact (whole_absent sk x ha).symm
        | some a =>
          simp only [patched_whole hrun x a ha]
          rw [whole_children sk hk x a ha]
          split
          · -- the links are built again, from children of smaller rank
            congr 1
            apply List.map_congr_left
            intro c hc
            have hlt := hrank x c ((child_iff _ _ _).mpr ⟨a, ha, hc⟩)
            exact ih c (by omega)
          · rename_i hnot
            rw [not_or] at hnot
            obtain ⟨b, hb, hkids⟩ :=
              chain_part hrun x a Part.structure ha (by decide) hnot.1
            rw [Node.partEq_iff, Node.projection_structure, Node.projection_structure] at hkids
            rw [whole_children s₀ h₀ x b hb, hkids]
            congr 1
            apply List.map_congr_left
            intro c hc
            exact whole_eq_of_tree h₀ hk c (chain_below hrun x c a ha hc hnot.1 hnot.2)
      · rw [if_neg hnamed]
        exact whole_eq_of_tree h₀ hk x (chain_tree hrun x hnamed)
  exact key fuel x ((hle x).trans_lt hfuel)

end Chain

end Linked

/-- Deltas compose by concatenation: what they do not name is as it was, and both
consumers reach the last snapshot by reading again what they do name. -/
theorem deltas_compose (s₀ sk : Snapshot) (deltas : List Delta)
    (hrun : Run Commits s₀ deltas sk) (h₀ : AcyclicChildren s₀) (hk : AcyclicChildren sk) :
    (∀ x, sk.contains x = true → ¬ Named (concatenated deltas) x →
      s₀.contains x = true ∧ ∀ depth, materialize kids (state s₀.records) depth x =
        materialize kids (state sk.records) depth x) ∧
    (∀ x a p, sk.records.lookup x = some a → p ∈ ownParts →
      ¬ NamedPart (concatenated deltas) x p →
      ∃ b, s₀.records.lookup x = some b ∧ b.node.partEq a.node p = true) ∧
    (∀ x, s₀.contains x = true → sk.contains x = false → Named (concatenated deltas) x) ∧
    (∀ x p, p ∈ ownParts →
      (concatenated deltas).foldl (reread sk) (mirror s₀) x p = mirror sk x p) ∧
    ∀ x fuel, sk.len < fuel →
      relink (concatenated deltas) (whole s₀) sk fuel x = whole sk x := by
  replace hrun := hrun.mono commits_described
  refine ⟨?_, ?_, ?_, ?_, ?_⟩
  · intro x hlive hnot
    refine ⟨?_, chain_tree hrun x hnot⟩
    obtain ⟨a, ha⟩ := (contains_iff sk x).mp hlive
    have hstate := chain_state hrun x hnot
    rw [state_of_lookup ha] at hstate
    obtain ⟨b, hb, _⟩ := (state_eq_some _ _ _).mp hstate
    exact (contains_iff s₀ x).mpr ⟨b, hb⟩
  · exact fun x a p ha hp hnot => chain_part hrun x a p ha hp hnot
  · intro x hlive hdead
    by_contra hnot
    obtain ⟨b, hb⟩ := (contains_iff s₀ x).mp hlive
    have hstate := chain_state hrun x hnot
    rw [state_of_lookup hb, (state_eq_none _ _).mpr ((contains_eq_false_iff sk x).mp hdead)]
      at hstate
    cases hstate
  · exact fun x p hp => chain_mirror hrun x p hp
  · exact fun x fuel hfuel => chain_relink hrun h₀ hk x fuel hfuel

section Example

def linkedDocument : Snapshot :=
  holding (rev 1) 0 [(addr .node 1, { children := [addr .node 2] }),
    (addr .node 2, { text := "a" })]

def prunedDocument : Snapshot :=
  holding (rev 2) 0 [(addr .node 1, { children := [addr .node 2] })]

def restoredDocument : Snapshot :=
  { holding (rev 3) 0 [(addr .node 1, { children := [addr .node 2] })] with
    records := prunedDocument.records.insert (addr .node 2) ⟨2, { text := "a" }⟩ }

def pruning : Delta :=
  ⟨linkedDocument.version, prunedDocument.version,
    [⟨addr .node 1, Parts.empty.insert Part.descendant⟩, ⟨addr .node 2, Parts.empty⟩]⟩

def restoring : Delta :=
  ⟨prunedDocument.version, restoredDocument.version,
    [⟨addr .node 1, Parts.empty.insert Part.descendant⟩,
      ⟨addr .node 2, ownParts.foldl Parts.insert Parts.empty⟩]⟩

theorem commits_pruning : Commits linkedDocument pruning prunedDocument :=
  ⟨[.remove (addr .node 2)], _, ⟨2⟩, _, 3, rfl, rfl⟩

theorem commits_restoring : Commits prunedDocument restoring restoredDocument :=
  ⟨[.put (addr .node 2) { text := "a" }], _, ⟨2⟩, _, 3, rfl, rfl⟩

/-- Both ends hold equal records and yet both addresses are named; the consumer with
links comes back to the tree it started from. -/
theorem deltas_compose_restored :
    Named (concatenated [pruning, restoring]) (addr .node 1) ∧
      Named (concatenated [pruning, restoring]) (addr .node 2) ∧
      relink (concatenated [pruning, restoring]) (whole linkedDocument) restoredDocument 3
        (addr .node 1) = whole restoredDocument (addr .node 1) := by
  have hrun : Run Commits linkedDocument ([] ++ [pruning] ++ [restoring]) restoredDocument :=
    (Run.single commits_pruning).snoc commits_restoring
  have h₀ : AcyclicChildren linkedDocument :=
    acyclicChildren_of_rank _ (fun x => 3 - x.id.ordinal.val) (by decide)
  have hk : AcyclicChildren restoredDocument :=
    acyclicChildren_of_rank _ (fun x => 3 - x.id.ordinal.val) (by decide)
  obtain ⟨_, _, _, _, hlinked⟩ := deltas_compose linkedDocument restoredDocument _ hrun h₀ hk
  exact ⟨by decide, by decide, hlinked (addr .node 1) 3 (by decide)⟩

end Example

end CompositionIr.DeltaComposition
