import CompositionIr.DeltaSpec

/-!
Deltas measure how far snapshots are apart. The delta between two snapshots names the same
addresses both ways and is empty only between equal projections, and what a delta names is
named on one leg or the other of any way around.
-/

namespace CompositionIr.DeltaDistances

open Outcomes ChildGraphs Addresses Records Snapshots Deltas PublishedStates DeltaSpec

variable {a b c : Snapshot} {ab ba bc ac : List Diff}

theorem partEq_symm (n m : Node) (p : Part) : n.partEq m p = m.partEq n p := by
  rw [Bool.eq_iff_iff, Node.partEq_iff, Node.partEq_iff]
  exact eq_comm

theorem namedPart_iff_entry (h : Describes (DiffersAt a b) a.records b.records ab) (x : Address)
    (p : Part) (r : Arc) (hr : b.records.lookup x = some r) (hp : p ∈ ownParts) :
    NamedPart ab x p ↔ DiffersAt a b x ∧
      ∀ s, a.records.lookup x = some s → s.node.partEq r.node p = false := by
  constructor
  · intro hentry
    obtain ⟨d, hd, rfl, hcontains⟩ := hentry
    exact ⟨(named_iff h _).mp ⟨d, hd, rfl⟩, ((h.entry d hd).own r hr p hp).mp hcontains⟩
  · intro hboth
    obtain ⟨hdiffers, hown⟩ := hboth
    obtain ⟨d, hd, rfl⟩ := (named_iff h x).mpr hdiffers
    exact ⟨d, hd, rfl, ((h.entry d hd).own r hr p hp).mpr hown⟩

theorem namedDescendant_iff (h : Describes (DiffersAt a b) a.records b.records ab) (x : Address)
    (r : Arc) (hr : b.records.lookup x = some r) :
    NamedPart ab x Part.descendant ↔
      ∃ c ∈ childrenOf a.records x ++ childrenOf b.records x, DiffersAt a b c := by
  constructor
  · intro hentry
    obtain ⟨d, hd, rfl, hcontains⟩ := hentry
    exact ((h.entry d hd).descendant r hr).mp hcontains
  · intro hchild
    obtain ⟨c, hc, hdiffers⟩ := hchild
    have hx : DiffersAt a b x := by
      rcases List.mem_append.mp hc with hc | hc
      · exact Differs.before ((child_iff_mem _ _ _).mpr hc) hdiffers
      · exact Differs.after ((child_iff_mem _ _ _).mpr hc) hdiffers
    obtain ⟨d, hd, rfl⟩ := (named_iff h x).mpr hx
    exact ⟨d, hd, rfl, ((h.entry d hd).descendant r hr).mpr ⟨c, hc, hdiffers⟩⟩

/-- Two ascending lists of the same addresses are one list. -/
theorem addresses_eq (h : Describes (DiffersAt a b) a.records b.records ab)
    (h' : Describes (DiffersAt b a) b.records a.records ba) :
    ba.map Diff.address = ab.map Diff.address := by
  have hle : (ab.map Diff.address).Pairwise (· ≤ ·) := h.ascending.imp le_of_lt
  have hle' : (ba.map Diff.address).Pairwise (· ≤ ·) := h'.ascending.imp le_of_lt
  have hperm : (ba.map Diff.address).Perm (ab.map Diff.address) := by
    rw [List.perm_ext_iff_of_nodup (h'.ascending.imp ne_of_lt) (h.ascending.imp ne_of_lt)]
    intro x
    rw [h'.named, h.named]
    exact ⟨Differs.symm, Differs.symm⟩
  exact hperm.eq_of_pairwise (fun x y _ _ => le_antisymm) hle' hle

theorem parts_symm (h : Describes (DiffersAt a b) a.records b.records ab)
    (h' : Describes (DiffersAt b a) b.records a.records ba) (x : Address) (p : Part)
    (ha : a.contains x = true) (hb : b.contains x = true) :
    NamedPart ab x p ↔ NamedPart ba x p := by
  obtain ⟨s, hs⟩ := (contains_iff a x).mp ha
  obtain ⟨r, hr⟩ := (contains_iff b x).mp hb
  by_cases hp : p ∈ ownParts
  · rw [namedPart_iff_entry h x p r hr hp, namedPart_iff_entry h' x p s hs hp]
    simp only [hs, hr, Option.some.injEq, forall_eq', partEq_symm s.node r.node]
    exact and_congr_left' ⟨Differs.symm, Differs.symm⟩
  · rw [eq_descendant_of_not_own hp, namedDescendant_iff h x r hr, namedDescendant_iff h' x s hs]
    constructor
    · intro hchild
      obtain ⟨c, hc, hd⟩ := hchild
      exact ⟨c, List.mem_append.mpr (List.mem_append.mp hc).symm, hd.symm⟩
    · intro hchild
      obtain ⟨c, hc, hd⟩ := hchild
      exact ⟨c, List.mem_append.mpr (List.mem_append.mp hc).symm, hd.symm⟩

/-- A record that is created or has an unequal part is named with the part. -/
theorem namedPart_of_unequal (h : Describes (DiffersAt a b) a.records b.records ab) (x : Address)
    (p : Part) (r : Arc) (hr : b.records.lookup x = some r) (hp : p ∈ ownParts)
    (hunequal : ∀ s, a.records.lookup x = some s → s.node.partEq r.node p = false) :
    NamedPart ab x p := by
  refine (namedPart_iff_entry h x p r hr hp).mpr ⟨Differs.seed ?_, hunequal⟩
  intro hstate
  rw [state_of_lookup hr] at hstate
  obtain ⟨s, hs, hproj⟩ := (state_eq_some _ _ _).mp hstate
  have hequal : s.node.partEq r.node p = true := (Node.partEq_iff _ _ p).mpr (congrFun hproj p)
  rw [hunequal s hs] at hequal
  cases hequal

theorem parts_split (h₁ : Describes (DiffersAt a b) a.records b.records ab)
    (h₂ : Describes (DiffersAt b c) b.records c.records bc)
    (h₃ : Describes (DiffersAt a c) a.records c.records ac) (x : Address) (p : Part)
    (hp : p ∈ ownParts) (hac : NamedPart ac x p) : NamedPart ab x p ∨ NamedPart bc x p := by
  cases hr : c.records.lookup x with
  | none =>
    -- an entry of a retired address carries no part
    obtain ⟨d, hd, rfl, hcontains⟩ := hac
    rw [(h₃.entry d hd).retired hr, Parts.contains_empty] at hcontains
    cases hcontains
  | some r =>
    have hunequal := ((namedPart_iff_entry h₃ x p r hr hp).mp hac).2
    cases hq : b.records.lookup x with
    | none => exact Or.inr (namedPart_of_unequal h₂ x p r hr hp (fun s hs => by simp [hq] at hs))
    | some q =>
      by_cases hsame : q.node.partEq r.node p = true
      · refine Or.inl (namedPart_of_unequal h₁ x p q hq hp (fun s hs => ?_))
        have hne := hunequal s hs
        rw [← Bool.not_eq_true, Node.partEq_iff] at hne ⊢
        rw [Node.partEq_iff] at hsame
        exact fun heq => hne (heq.trans hsame)
      · refine Or.inr (namedPart_of_unequal h₂ x p r hr hp (fun s hs => ?_))
        rw [hq] at hs
        obtain rfl := Option.some.inj hs
        simpa using hsame

/-- Of any three snapshots of one domain: a delta is empty exactly between equal projections;
the delta back names the same addresses in the same order, and the same parts of what is live
at both ends; and what the direct delta names, address or own part, is named on the first leg
or on the second of the way around. -/
theorem deltas_measure (hab : a.version.domain = b.version.domain)
    (hbc : b.version.domain = c.version.domain) (f₁ f₂ f₃ f₄ : ℕ)
    (h₁ : diffsBetween a b f₁ = .done ab) (h₂ : diffsBetween b a f₂ = .done ba)
    (h₃ : diffsBetween b c f₃ = .done bc) (h₄ : diffsBetween a c f₄ = .done ac) :
    (ab = [] ↔ state a.records = state b.records) ∧
      ba.map Diff.address = ab.map Diff.address ∧
      (∀ x p, a.contains x = true → b.contains x = true →
        (NamedPart ab x p ↔ NamedPart ba x p)) ∧
      (∀ x, Named ac x → Named ab x ∨ Named bc x) ∧
      ∀ x p, p ∈ ownParts → NamedPart ac x p → NamedPart ab x p ∨ NamedPart bc x p := by
  have hd₁ := diffsBetween_describes hab f₁ ab h₁
  have hd₂ := diffsBetween_describes hab.symm f₂ ba h₂
  have hd₃ := diffsBetween_describes hbc f₃ bc h₃
  have hd₄ := diffsBetween_describes (hab.trans hbc) f₄ ac h₄
  refine ⟨diffs_eq_nil_iff hd₁, addresses_eq hd₁ hd₂, parts_symm hd₁ hd₂, fun x hx => ?_,
    parts_split hd₁ hd₃ hd₄⟩
  rw [named_iff hd₄] at hx
  rw [named_iff hd₁, named_iff hd₃]
  exact Differs.split hx

section Example

def reads (text : String) (revision : Revision) : Snapshot :=
  holding revision 0 [(addr .node 1, { text := text })]

def writesBoth (revision : Revision) : Snapshot :=
  holding revision 0 [(addr .node 1, { text := "b" }), (addr .node 2, { paint := ⟨1, 1, 1, 1⟩ })]

def rewording : List Diff := [⟨addr .node 1, (Parts.of Part.text).insert Part.shaping⟩]

def adding : List Diff := [⟨addr .node 2, ownParts.foldl Parts.insert Parts.empty⟩]

/-- From "a" to "b", and on to a second record: the way back names the first record with the
same part, and what the direct way names is named on one of the legs. -/
theorem deltas_measure_back_and_forth :
    diffsBetween (reads "a" (rev 1)) (reads "b" (rev 2)) 2 = .done rewording ∧
      diffsBetween (reads "b" (rev 2)) (writesBoth (rev 3)) 2 = .done adding ∧
      state (reads "a" (rev 1)).records ≠ state (reads "b" (rev 2)).records ∧
      ∃ back direct, diffsBetween (reads "b" (rev 2)) (reads "a" (rev 1)) 2 = .done back ∧
        diffsBetween (reads "a" (rev 1)) (writesBoth (rev 3)) 2 = .done direct ∧
        NamedPart back (addr .node 1) Part.text ∧
        ∀ x, Named direct x → x = addr .node 1 ∨ x = addr .node 2 := by
  have hthere : diffsBetween (reads "a" (rev 1)) (reads "b" (rev 2)) 2 = .done rewording := rfl
  have hon : diffsBetween (reads "b" (rev 2)) (writesBoth (rev 3)) 2 = .done adding := rfl
  have hback : diffsBetween (reads "b" (rev 2)) (reads "a" (rev 1)) 2 = .done _ := rfl
  have hdirect : diffsBetween (reads "a" (rev 1)) (writesBoth (rev 3)) 2 = .done _ := rfl
  have hdom : (reads "a" (rev 1)).version.domain = (reads "b" (rev 2)).version.domain := rfl
  obtain ⟨hempty, _, hparts, hways, _⟩ :=
    deltas_measure hdom (by rfl) 2 2 2 2 hthere hback hon hdirect
  have htext : NamedPart rewording (addr .node 1) Part.text :=
    ⟨_, List.mem_singleton.mpr rfl, rfl, by decide⟩
  refine ⟨hthere, hon, fun heq => absurd (hempty.mpr heq) (by decide), _, _, hback, hdirect,
    (hparts (addr .node 1) Part.text rfl rfl).mp htext, fun x hx => ?_⟩
  rcases hways x hx with ⟨d, hd, rfl⟩ | ⟨d, hd, rfl⟩
  · exact Or.inl (congrArg Diff.address (List.mem_singleton.mp hd))
  · exact Or.inr (congrArg Diff.address (List.mem_singleton.mp hd))

end Example

end CompositionIr.DeltaDistances
