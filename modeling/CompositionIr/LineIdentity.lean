import CompositionIr.Identities

/-!
The identity of a line. The old tree is asked for the node at the index of the line, but
it holds nodes for the lines that are not blank only: the node of a line stands at the
number of such lines before it.
-/

namespace CompositionIr.LineIdentity

open Transitions Texts Frontends MdSession Identities
open String (utf8Len ofList)

def linesOf (s : MdSession) : List (List Char) := lines s.ast.source.toList

def Written (text : List (List Char)) (i : ℕ) (line : List Char) : Prop :=
  text[i]? = some line ∧ blank line = false

/-- The node of a line: nodes stand in the order of the lines that are not blank. -/
def nodeOf (nodes : List MdNode) (text : List (List Char)) (i : ℕ) : Option MdNode :=
  nodes[(text.take i).countP (fun line => !blank line)]?

section Parsing

theorem nodeOf_cons (nodes : List MdNode) (line : List Char) (text : List (List Char)) (i : ℕ)
    (n : MdNode) (hline : blank line = false) :
    nodeOf (n :: nodes) (line :: text) (i + 1) = nodeOf nodes text i := by
  unfold nodeOf
  rw [List.take_succ_cons, List.countP_cons_of_pos (by simpa using hline)]
  rfl

theorem nodeOf_cons_blank (nodes : List MdNode) (line : List Char) (text : List (List Char))
    (i : ℕ) (hline : blank line = true) :
    nodeOf nodes (line :: text) (i + 1) = nodeOf nodes text i := by
  unfold nodeOf
  rw [List.take_succ_cons, List.countP_cons_of_neg (by simpa using hline)]

/-- The loop makes a node of the line's kind and text for each line that is not blank,
and asks the old list for the index of the line. -/
theorem parse_nodeOf (old : List MdNode) (text : List (List Char)) (i start : ℕ)
    (nextId last : UInt64) (nodes : List MdNode)
    (h : parse old text i start nextId = some (nodes, last)) (j : ℕ) (line : List Char)
    (hj : Written text j line) :
    ∃ n mid mid', nodeOf nodes text j = some n ∧ n.kind = classify line ∧
      n.text = ofList line ∧ nextId.toNat ≤ mid.toNat ∧
      assign old (i + j) (classify line) mid = some (n.id, mid') := by
  induction text generalizing i start nextId nodes j with
  | nil => simp [Written] at hj
  | cons first rest ih =>
    rcases parse_cons old first rest i start nextId last nodes h with
      ⟨hblank, hrest⟩ | ⟨id, mid, tail, hwritten, hassign, hrest, hnodes⟩
    · cases j with
      | zero =>
        obtain ⟨hone, hline⟩ := hj
        simp only [List.getElem?_cons_zero, Option.some.injEq] at hone
        rw [hone, hline] at hblank
        cases hblank
      | succ j =>
        rw [nodeOf_cons_blank _ _ _ _ hblank]
        obtain ⟨n, mid, mid', hn⟩ := ih _ _ _ _ hrest j (by simpa [Written] using hj)
        exact ⟨n, mid, mid', by simpa [Nat.add_assoc, Nat.add_comm 1 j] using hn⟩
    · rw [hnodes]
      cases j with
      | zero =>
        obtain ⟨hone, _⟩ := hj
        simp only [List.getElem?_cons_zero, Option.some.injEq] at hone
        rw [← hone]
        exact ⟨_, nextId, mid, rfl, rfl, rfl, le_refl _, hassign⟩
      | succ j =>
        rw [nodeOf_cons _ _ _ _ _ hwritten]
        obtain ⟨n, mid₁, mid₂, hnode, hkind, htext, hle, hasked⟩ :=
          ih _ _ _ _ hrest j (by simpa [Written] using hj)
        refine ⟨n, mid₁, mid₂, hnode, hkind, htext, ?_, ?_⟩
        · rcases assign_cases _ _ _ _ _ _ hassign with ⟨_, _, _, _, hmid⟩ | ⟨_, hmid, hid⟩
          · rwa [hmid] at hle
          · rw [hmid] at hle
            omega
        · rwa [show i + (j + 1) = i + 1 + j by omega]

/-- Every node is the node of a line that is not blank. -/
theorem parse_line_of_node (old : List MdNode) (text : List (List Char)) (i start : ℕ)
    (nextId last : UInt64) (nodes : List MdNode)
    (h : parse old text i start nextId = some (nodes, last)) (n : MdNode) (hn : n ∈ nodes) :
    ∃ j line, Written text j line ∧ nodeOf nodes text j = some n := by
  induction text generalizing i start nextId nodes with
  | nil =>
    obtain ⟨hnodes, _⟩ := Prod.mk.inj (Option.some.inj h)
    rw [← hnodes] at hn
    cases hn
  | cons first rest ih =>
    rcases parse_cons old first rest i start nextId last nodes h with
      ⟨hblank, hrest⟩ | ⟨id, mid, tail, hwritten, _, hrest, hnodes⟩
    · obtain ⟨j, line, hj, hnode⟩ := ih _ _ _ _ hrest hn
      exact ⟨j + 1, line, hj, by rw [nodeOf_cons_blank _ _ _ _ hblank]; exact hnode⟩
    · rw [hnodes] at hn ⊢
      rcases List.mem_cons.mp hn with hone | hn
      · exact ⟨0, first, ⟨rfl, hwritten⟩, by rw [hone]; rfl⟩
      · obtain ⟨j, line, hj, hnode⟩ := ih _ _ _ _ hrest hn
        exact ⟨j + 1, line, hj, by rw [nodeOf_cons _ _ _ _ _ hwritten]; exact hnode⟩

end Parsing

section Consecutive

def SameKindAt (text text' : List (List Char)) (i : ℕ) : Prop :=
  ∃ line line', Written text i line ∧ Written text' i line' ∧ classify line = classify line'

/-- A line keeps its identity when it keeps its kind and position, and the same source
again changes nothing. -/
structure KeepsLines (s s' : MdSession) (delta : MdDelta) : Prop where
  kept : ∀ i, SameKindAt (linesOf s) (linesOf s') i →
    (nodeOf s.ast.nodes (linesOf s) i).map MdNode.id =
      (nodeOf s'.ast.nodes (linesOf s') i).map MdNode.id
  again : s.ast.source = s'.ast.source → delta = {}

/-- No blank line of the first text stands before a line that holds one kind in both. -/
def NoBlankBefore (text text' : List (List Char)) : Prop :=
  ∀ i, SameKindAt text text' i → ∀ j line, j < i → text[j]? = some line → blank line = false

/-- The node of a line stands at the index of the line exactly when no line before it
is blank. -/
theorem countP_take_eq_iff (text : List (List Char)) (i : ℕ) (hi : i < text.length) :
    (text.take i).countP (fun line => !blank line) = i ↔
      ∀ j line, j < i → text[j]? = some line → blank line = false := by
  have hlength : (text.take i).length = i := by
    rw [List.length_take]
    omega
  have hall : (text.take i).countP (fun line => !blank line) = (text.take i).length ↔
      ∀ line ∈ text.take i, (!blank line) = true := List.countP_eq_length
  rw [hlength] at hall
  rw [hall]
  constructor
  · intro h j line hj hline
    have hmem : line ∈ text.take i :=
      List.mem_of_getElem? (by rw [List.getElem?_take_of_lt hj]; exact hline)
    simpa using h line hmem
  · intro h line hmem
    obtain ⟨j, hj⟩ := List.mem_iff_getElem?.mp hmem
    have hlt : j < i := by
      have hbound := (List.getElem?_eq_some_iff.mp hj).1
      rwa [hlength] at hbound
    rw [List.getElem?_take_of_lt hlt] at hj
    simpa using h j line hlt hj

variable {s₀ s s' : MdSession} {call₀ call : Reparse}

/-- A line of one kind in both sources keeps its id exactly when its node stands at its
own index in the first tree. -/
theorem kept_iff (hs₀ : WellIdentified s₀) (hfirst : Step s₀ call₀ s)
    (hsecond : Step s call s') (i : ℕ) (hi : SameKindAt (linesOf s) (linesOf s') i) :
    (nodeOf s.ast.nodes (linesOf s) i).map MdNode.id =
        (nodeOf s'.ast.nodes (linesOf s') i).map MdNode.id ↔
      ∀ j line, j < i → (linesOf s)[j]? = some line → blank line = false := by
  have hs := step_wellIdentified hs₀ hfirst
  obtain ⟨hparse, hsource, _⟩ := (step_iff _ _ _).mp hfirst
  obtain ⟨hparse', hsource', _⟩ := (step_iff _ _ _).mp hsecond
  rw [← hsource] at hparse
  rw [← hsource'] at hparse'
  obtain ⟨line, line', hline, hline', hkind⟩ := hi
  obtain ⟨n, _, _, hn, hnkind, _⟩ := parse_nodeOf _ _ _ _ _ _ _ hparse i line hline
  obtain ⟨n', mid, _, hn', _, _, hmid, hassign⟩ :=
    parse_nodeOf _ _ _ _ _ _ _ hparse' i line' hline'
  have hlt : i < (linesOf s).length := (List.getElem?_eq_some_iff.mp hline.1).1
  change nodeOf s.ast.nodes (linesOf s) i = some n at hn
  change nodeOf s'.ast.nodes (linesOf s') i = some n' at hn'
  rw [← countP_take_eq_iff _ _ hlt, hn, hn', Option.map_some, Option.map_some, Option.some.injEq]
  unfold nodeOf at hn
  rw [Nat.zero_add] at hassign
  constructor
  · intro hid
    rcases assign_cases _ _ _ _ _ _ hassign with ⟨prev, hprev, _, hkept, _⟩ | ⟨_, _, hfresh⟩
    · exact index_eq_of_id hs.distinct hn hprev (hid.trans hkept)
    · exfalso
      have hle := hs.bounded n (List.mem_of_getElem? hn)
      rw [hid] at hle
      omega
  · intro hcount
    rw [hcount] at hn
    rcases assign_cases _ _ _ _ _ _ hassign with ⟨prev, hprev, _, hkept, _⟩ | ⟨hother, _, _⟩
    · rw [hn, Option.some.injEq] at hprev
      rw [hkept, hprev]
    · exact absurd (hnkind.trans hkind) (hother n hn)

/-- The same source again reports nothing when every line keeps its identity. -/
theorem again_of_kept (hs₀ : WellIdentified s₀) (hfirst : Step s₀ call₀ s)
    (hsecond : Step s call s') (hsame : s.ast.source = s'.ast.source)
    (hkept : ∀ i, SameKindAt (linesOf s) (linesOf s') i →
      (nodeOf s.ast.nodes (linesOf s) i).map MdNode.id =
        (nodeOf s'.ast.nodes (linesOf s') i).map MdNode.id) : call.delta = {} := by
  have hs := step_wellIdentified hs₀ hfirst
  obtain ⟨hparse, hsource, _⟩ := (step_iff _ _ _).mp hfirst
  obtain ⟨hparse', hsource', _⟩ := (step_iff _ _ _).mp hsecond
  rw [← hsource] at hparse
  rw [← hsource', ← hsame] at hparse'
  have hlines : linesOf s' = linesOf s := by
    unfold linesOf
    rw [hsame]
  -- both trees hold, for each line, a node of one id and one text
  have hpair : ∀ j line, Written (linesOf s) j line → ∃ n n',
      nodeOf s.ast.nodes (linesOf s) j = some n ∧ nodeOf s'.ast.nodes (linesOf s) j = some n' ∧
      n.id = n'.id ∧ n.text = n'.text := by
    intro j line hj
    obtain ⟨n, _, _, hn, _, htext, _⟩ := parse_nodeOf _ _ _ _ _ _ _ hparse j line hj
    obtain ⟨n', _, _, hn', _, htext', _⟩ := parse_nodeOf _ _ _ _ _ _ _ hparse' j line hj
    have hid := hkept j ⟨line, line, hj, by rw [hlines]; exact hj, rfl⟩
    rw [hlines] at hid
    change nodeOf s.ast.nodes (linesOf s) j = some n at hn
    change nodeOf s'.ast.nodes (linesOf s) j = some n' at hn'
    rw [hn, hn'] at hid
    exact ⟨n, n', hn, hn', Option.some.inj hid, htext.trans htext'.symm⟩
  have hafter : ∀ n' ∈ s'.ast.nodes, ∃ n ∈ s.ast.nodes, n.id = n'.id ∧ n.text = n'.text := by
    intro n' hn'
    obtain ⟨j, line, hj, hnode⟩ := parse_line_of_node _ _ _ _ _ _ _ hparse' n' hn'
    obtain ⟨n, m, hn, hm, hsameid, htext⟩ := hpair j line hj
    have hone : m = n' := Option.some.inj (hm.symm.trans hnode)
    rw [hone] at hsameid htext
    exact ⟨n, List.mem_of_getElem? hn, hsameid, htext⟩
  have hquiet : ∀ id, ¬ Edited s.ast s'.ast id := by
    intro id hedited
    rcases hedited with ⟨hfresh, hnew⟩ | ⟨hold, hgone⟩ | ⟨o, ho, n', hn', hoid, hid, hother⟩
    · obtain ⟨n', hn', hid⟩ := List.mem_map.mp hnew
      obtain ⟨n, hn, hsameid, _⟩ := hafter n' hn'
      exact hfresh (List.mem_map.mpr ⟨n, hn, hsameid.trans hid⟩)
    · obtain ⟨n, hn, hid⟩ := List.mem_map.mp hold
      obtain ⟨j, line, hj, hnode⟩ := parse_line_of_node _ _ _ _ _ _ _ hparse n hn
      obtain ⟨m, n', hm, hn', hsameid, _⟩ := hpair j line hj
      have hone : m = n := Option.some.inj (hm.symm.trans hnode)
      rw [hone] at hsameid
      exact hgone (List.mem_map.mpr ⟨n', List.mem_of_getElem? hn', hsameid.symm.trans hid⟩)
    · obtain ⟨n, hn, hsameid, htext⟩ := hafter n' hn'
      have hone : o = n := List.inj_on_of_nodup_map hs.distinct ho hn
        (hoid.trans (hsameid.trans hid).symm)
      rw [hone] at hother
      exact hother htext
  obtain ⟨htouched, hretired⟩ := (quiet_iff hs hsecond).mpr hquiet
  cases hdelta : call.delta
  rw [hdelta] at htouched hretired
  exact congrArg₂ MdDelta.mk htouched hretired

end Consecutive

/-- Between two consecutive calls of a session every line of one kind in both sources
keeps its identity, and the same source again reports nothing, exactly when no blank
line stands before such a line in the first source. -/
theorem keeps_lines_iff (s₀ s s' : MdSession) (calls : List Reparse) (call₀ call : Reparse)
    (hrun : Run Step MdSession.new calls s₀) (hfirst : Step s₀ call₀ s)
    (hsecond : Step s call s') :
    KeepsLines s s' call.delta ↔ NoBlankBefore (linesOf s) (linesOf s') := by
  have hs₀ := run_wellIdentified hrun
  constructor
  · intro h i hi
    exact (kept_iff hs₀ hfirst hsecond i hi).mp (h.kept i hi)
  · intro h
    have hkept := fun i hi => (kept_iff hs₀ hfirst hsecond i hi).mpr (h i hi)
    exact ⟨hkept, fun hsame => again_of_kept hs₀ hfirst hsecond hsame hkept⟩

section Example

/-- A title and a paragraph, and the title edited. -/
theorem keeps_lines_titled :
    ∃ s s' call, Run Step MdSession.new [] MdSession.new ∧
      Step MdSession.new ⟨"# T\np\n", ⟨[1, 2], []⟩⟩ s ∧ Step s call s' ∧
      KeepsLines s s' call.delta := by
  let s : MdSession := paragraphs 2 "# T\np\n"
    [⟨1, .heading, "# T", (0, 3)⟩, ⟨2, .para, "p", (4, 5)⟩]
  let s' : MdSession := paragraphs 2 "# Two\np\n"
    [⟨1, .heading, "# Two", (0, 5)⟩, ⟨2, .para, "p", (6, 7)⟩]
  have hfirst : Step MdSession.new ⟨"# T\np\n", ⟨[1, 2], []⟩⟩ s := by
    unfold Step
    decide
  have hsecond : Step s ⟨"# Two\np\n", ⟨[1], []⟩⟩ s' := by
    unfold Step
    decide
  refine ⟨s, s', _, Run.nil _, hfirst, hsecond, ?_⟩
  refine (keeps_lines_iff _ s s' [] _ _ (Run.nil _) hfirst hsecond).mpr ?_
  have hwritten : ∀ line ∈ linesOf s, blank line = false := by decide
  exact fun i _ j line _ hline => hwritten line (List.mem_of_getElem? hline)

/-- A source whose first line is blank is set twice: the line after it is another node
each time, and is reported although nothing changed. -/
theorem blank_first_line_is_reported :
    ∃ s s', Run Step MdSession.new [] MdSession.new ∧
      Step MdSession.new ⟨"\na\n", ⟨[1], []⟩⟩ s ∧ Step s ⟨"\na\n", ⟨[2], [1]⟩⟩ s' ∧
      ¬ KeepsLines s s' ⟨[2], [1]⟩ := by
  let s : MdSession := paragraphs 1 "\na\n" [⟨1, .para, "a", (1, 2)⟩]
  let s' : MdSession := paragraphs 2 "\na\n" [⟨2, .para, "a", (1, 2)⟩]
  have hfirst : Step MdSession.new ⟨"\na\n", ⟨[1], []⟩⟩ s := by
    unfold Step
    decide
  have hsecond : Step s ⟨"\na\n", ⟨[2], [1]⟩⟩ s' := by
    unfold Step
    decide
  refine ⟨s, s', Run.nil _, hfirst, hsecond, fun h => ?_⟩
  exact absurd (h.again rfl) (by decide)

end Example

end CompositionIr.LineIdentity
