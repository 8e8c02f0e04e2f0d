import CompositionIr.Identities

/-!
The spans of a tree. The loop counts one byte for the terminator of every line. After a
line that ends with two, every offset falls short, and the first node to come begins in
what stands between that line and its own.
-/

namespace CompositionIr.Spans

open Texts Frontends MdSession
open String (utf8Len utf8Len_append ofList)

structure SpansName (source : String) (nodes : List MdNode) : Prop where
  text : ∀ n ∈ nodes, slice source.toList n.span.1 n.span.2 = some n.text.toList
  ordered : nodes.Pairwise (fun n m => n.span.2 ≤ m.span.1)

/-- Nothing but blank lines comes after a line that ends with a carriage return and a
line feed. -/
def BlankAfterCrlf (source : String) : Prop :=
  (splitInclusive source.toList).Pairwise (fun p q => EndsCrlf p → blank (chomp q) = true)

section Offsets

def spansFrom : List (List Char) → ℕ → List (List Char × ℕ × ℕ)
  | [], _ => []
  | line :: rest, start =>
    if blank line then spansFrom rest (start + utf8Len line + 1)
    else (line, start, start + utf8Len line) :: spansFrom rest (start + utf8Len line + 1)

theorem parse_spans (old : List MdNode) (text : List (List Char)) (i start : ℕ)
    (nextId last : UInt64) (nodes : List MdNode)
    (h : parse old text i start nextId = some (nodes, last)) :
    nodes.map (fun n => (n.text.toList, n.span)) = spansFrom text start := by
  induction text generalizing i start nextId nodes with
  | nil =>
    obtain ⟨hnodes, _⟩ := Prod.mk.inj (Option.some.inj h)
    rw [← hnodes]
    rfl
  | cons line rest ih =>
    unfold spansFrom
    rcases parse_cons old line rest i start nextId last nodes h with
      ⟨hblank, hrest⟩ | ⟨id, mid, tail, hwritten, _, hrest, hnodes⟩
    · rw [if_pos hblank]
      exact ih _ _ _ _ hrest
    · rw [if_neg (by simp [hwritten]), hnodes, List.map_cons, ih _ _ _ _ hrest]
      simp only [String.toList_ofList]

theorem spansFrom_ordered (text : List (List Char)) (start : ℕ) :
    (∀ e ∈ spansFrom text start, start ≤ e.2.1) ∧
      (spansFrom text start).Pairwise (fun e f => e.2.2 ≤ f.2.1) := by
  induction text generalizing start with
  | nil => exact ⟨by simp [spansFrom], List.Pairwise.nil⟩
  | cons line rest ih =>
    obtain ⟨hstart, hpairs⟩ := ih (start + utf8Len line + 1)
    unfold spansFrom
    by_cases hblank : blank line = true
    · rw [if_pos hblank]
      exact ⟨fun e he => le_trans (by omega) (hstart e he), hpairs⟩
    · rw [if_neg hblank]
      refine ⟨fun e he => ?_, List.pairwise_cons.mpr ⟨fun f hf => ?_, hpairs⟩⟩
      · rcases List.mem_cons.mp he with he | he
        · rw [he]
        · exact le_trans (by omega) (hstart e he)
      · exact le_trans (Nat.le_succ _) (hstart f hf)

/-- Over blank pieces the loop only moves on, by no more than their bytes. -/
theorem spansFrom_blanks (gap rest : List (List Char)) (start : ℕ)
    (hblank : ∀ p ∈ gap, blank (chomp p) = true) (hends : ∀ p ∈ gap, EndsLine p) :
    ∃ next, spansFrom ((gap ++ rest).map chomp) start = spansFrom (rest.map chomp) next ∧
      start ≤ next ∧ next ≤ start + utf8Len gap.flatten := by
  induction gap generalizing start with
  | nil => exact ⟨start, rfl, le_refl _, by omega⟩
  | cons p gap ih =>
    obtain ⟨next, heq, hlow, hhigh⟩ := ih (start + utf8Len (chomp p) + 1)
      (fun q hq => hblank q (List.mem_cons_of_mem _ hq))
      (fun q hq => hends q (List.mem_cons_of_mem _ hq))
    refine ⟨next, ?_, by omega, ?_⟩
    · rw [List.cons_append, List.map_cons, spansFrom, if_pos (hblank p (List.mem_cons_self ..))]
      exact heq
    · have hlen : utf8Len (chomp p) + 1 ≤ utf8Len p := by
        rcases chomp_cases p with ⟨hp, _⟩ | ⟨hp, _⟩ | ⟨_, hno⟩
        · have hbytes := congrArg utf8Len hp
          rw [utf8Len_append, show utf8Len ['\r', '\n'] = 2 from rfl] at hbytes
          omega
        · have hbytes := congrArg utf8Len hp
          rw [utf8Len_append, show utf8Len ['\n'] = 1 from rfl] at hbytes
          omega
        · exact absurd (hends p (List.mem_cons_self ..)) hno
      rw [List.flatten_cons, utf8Len_append]
      omega

theorem spansFrom_all_blank (pieces : List (List Char)) (start : ℕ)
    (hblank : ∀ p ∈ pieces, blank (chomp p) = true) :
    spansFrom (pieces.map chomp) start = [] := by
  induction pieces generalizing start with
  | nil => rfl
  | cons p pieces ih =>
    rw [List.map_cons, spansFrom, if_pos (hblank p (List.mem_cons_self ..))]
    exact ih _ (fun q hq => hblank q (List.mem_cons_of_mem _ hq))

theorem endsLine_flatten (piece : List Char) (gap : List (List Char)) (hpiece : EndsLine piece)
    (hgap : ∀ p ∈ gap, EndsLine p) : EndsLine (piece ++ gap.flatten) := by
  induction gap generalizing piece with
  | nil => simpa using hpiece
  | cons p gap ih =>
    obtain ⟨line, hline⟩ :=
      ih p (hgap p (List.mem_cons_self ..)) (fun q hq => hgap q (List.mem_cons_of_mem _ hq))
    exact ⟨piece ++ line, by rw [List.flatten_cons, hline, List.append_assoc]⟩

/-- Pieces that are not all blank have a first one that is not. -/
theorem first_written (pieces : List (List Char))
    (h : ¬ ∀ p ∈ pieces, blank (chomp p) = true) :
    ∃ gap q rest, pieces = gap ++ q :: rest ∧ (∀ p ∈ gap, blank (chomp p) = true) ∧
      blank (chomp q) = false := by
  induction pieces with
  | nil => exact absurd (by simp) h
  | cons p pieces ih =>
    by_cases hp : blank (chomp p) = true
    · obtain ⟨gap, q, rest, hsplit, hgap, hq⟩ := ih (fun hall => h (by
        intro q hq
        rcases List.mem_cons.mp hq with hq | hq
        · rw [hq]
          exact hp
        · exact hall q hq))
      refine ⟨p :: gap, q, rest, by rw [hsplit]; rfl, fun q' hq' => ?_, hq⟩
      rcases List.mem_cons.mp hq' with hq' | hq'
      · rw [hq']
        exact hp
      · exact hgap q' hq'
    · exact ⟨[], p, pieces, rfl, by simp, by simpa using hp⟩

end Offsets

section Pieces

/-- After a piece that ends with two bytes, the first node to come is not where its
offset says. -/
theorem misplaced_after_crlf (before piece : List Char) (pieces : List (List Char))
    (hcrlf : EndsCrlf piece) (hends : pieces.Pairwise (fun p _ => EndsLine p))
    (hno : ∀ p ∈ pieces, '\n' ∉ chomp p)
    (hwritten : ¬ ∀ p ∈ pieces, blank (chomp p) = true) :
    ∃ e ∈ spansFrom (pieces.map chomp) (utf8Len before + utf8Len (chomp piece) + 1),
      slice (before ++ (piece :: pieces).flatten) e.2.1 e.2.2 ≠ some e.1 := by
  obtain ⟨gap, q, rest, hsplit, hblank, hq⟩ := first_written pieces hwritten
  have hpiece : piece = chomp piece ++ ['\r', '\n'] := by
    rcases chomp_cases piece with ⟨hp, _⟩ | ⟨_, hnot⟩ | ⟨_, hnot⟩
    · exact hp
    · exact absurd hcrlf hnot
    · obtain ⟨line, hline⟩ := hcrlf
      exact absurd ⟨line ++ ['\r'], by rw [hline, List.append_assoc]; rfl⟩ hnot
  have hgapEnds : ∀ p ∈ gap, EndsLine p := by
    rw [hsplit, List.pairwise_append] at hends
    exact fun p hp => hends.2.2 p hp q (List.mem_cons_self ..)
  obtain ⟨next, heq, hlow, hhigh⟩ := spansFrom_blanks gap (q :: rest)
    (utf8Len before + utf8Len (chomp piece) + 1) hblank hgapEnds
  rw [hsplit, heq, List.map_cons, spansFrom, if_neg (by simp [hq])]
  refine ⟨_, List.mem_cons_self .., ?_⟩
  simp only
  have htext : before ++ (piece :: (gap ++ q :: rest)).flatten =
      (before ++ chomp piece) ++ (['\r', '\n'] ++ gap.flatten) ++ (q :: rest).flatten := by
    rw [List.flatten_cons, List.flatten_append]
    conv => lhs; rw [hpiece]
    simp only [List.append_assoc]
  rw [htext]
  refine slice_in_gap _ _ _ _ _ _ (fun c hc => ?_) ?_ ?_ ?_ hq
    (hno q (by rw [hsplit]; simp))
  · rcases List.mem_append.mp hc with hc | hc
    · simp only [List.mem_cons, List.not_mem_nil, or_false] at hc
      rcases hc with hc | hc <;> rw [hc] <;> rfl
    · obtain ⟨p, hp, hc⟩ := List.mem_flatten.mp hc
      exact whitespace_of_blank_chomp p (hblank p hp) c hc
  · exact endsLine_flatten _ gap ⟨['\r'], rfl⟩ hgapEnds
  · rw [utf8Len_append]
    omega
  · rw [utf8Len_append, utf8Len_append, show utf8Len ['\r', '\n'] = 2 from rfl]
    omega

/-- From a place in the text where the offset is right, the offsets of the pieces that
follow are right exactly when none but blank ones follow one that ends with two bytes. -/
theorem spansFrom_name_iff (before : List Char) (pieces : List (List Char))
    (hends : pieces.Pairwise (fun p _ => EndsLine p)) (hno : ∀ p ∈ pieces, '\n' ∉ chomp p) :
    (∀ e ∈ spansFrom (pieces.map chomp) (utf8Len before),
        slice (before ++ pieces.flatten) e.2.1 e.2.2 = some e.1) ↔
      pieces.Pairwise (fun p q => EndsCrlf p → blank (chomp q) = true) := by
  induction pieces generalizing before with
  | nil => exact iff_of_true (by simp [spansFrom]) List.Pairwise.nil
  | cons p pieces ih =>
    obtain ⟨hp, hrest⟩ := List.pairwise_cons.mp hends
    have hnoRest : ∀ q ∈ pieces, '\n' ∉ chomp q := fun q hq => hno q (List.mem_cons_of_mem _ hq)
    -- the piece's own node, where it has one
    have hone : slice (before ++ (p :: pieces).flatten) (utf8Len before)
        (utf8Len before + utf8Len (chomp p)) = some (chomp p) := by
      rw [slice_eq_some]
      rcases chomp_cases p with ⟨hp, _⟩ | ⟨hp, _⟩ | ⟨hp, _⟩
      · exact ⟨before, ['\r', '\n'] ++ pieces.flatten, by
          rw [List.flatten_cons]
          conv => lhs; rw [hp]
          simp only [List.append_assoc], rfl, rfl⟩
      · exact ⟨before, ['\n'] ++ pieces.flatten, by
          rw [List.flatten_cons]
          conv => lhs; rw [hp]
          simp only [List.append_assoc], rfl, rfl⟩
      · exact ⟨before, pieces.flatten, by rw [List.flatten_cons, ← hp, List.append_assoc],
          rfl, rfl⟩
    have hsplit : (∀ e ∈ spansFrom ((p :: pieces).map chomp) (utf8Len before),
        slice (before ++ (p :: pieces).flatten) e.2.1 e.2.2 = some e.1) ↔
        ∀ e ∈ spansFrom (pieces.map chomp) (utf8Len before + utf8Len (chomp p) + 1),
          slice (before ++ (p :: pieces).flatten) e.2.1 e.2.2 = some e.1 := by
      rw [List.map_cons, spansFrom]
      by_cases hblank : blank (chomp p) = true
      · rw [if_pos hblank]
      · rw [if_neg hblank, List.forall_mem_cons]
        exact and_iff_right hone
    rw [hsplit, List.pairwise_cons]
    rcases chomp_cases p with ⟨_, hcrlf⟩ | ⟨hlf, hnot⟩ | ⟨_, hnot⟩
    · by_cases hall : ∀ q ∈ pieces, blank (chomp q) = true
      · rw [spansFrom_all_blank _ _ hall]
        refine iff_of_true (by simp) ⟨fun q hq _ => hall q hq, ?_⟩
        exact List.pairwise_of_forall_mem_list (fun _ _ q hq _ => hall q hq)
      · obtain ⟨e, he, hbad⟩ := misplaced_after_crlf before p pieces hcrlf hrest hnoRest hall
        exact iff_of_false (fun h => hbad (h e he)) (fun h => hall (fun q hq => h.1 q hq hcrlf))
    · have hbytes : utf8Len (before ++ p) = utf8Len before + utf8Len (chomp p) + 1 := by
        have hlen := congrArg utf8Len hlf
        rw [utf8Len_append, show utf8Len ['\n'] = 1 from rfl] at hlen
        rw [utf8Len_append]
        omega
      have hih := ih (before ++ p) hrest hnoRest
      rw [hbytes, List.append_assoc, ← List.flatten_cons] at hih
      rw [hih]
      exact (and_iff_right (fun q _ hcrlf => absurd hcrlf hnot)).symm
    · -- a piece that does not end its line is the last one
      have hnil : pieces = [] := by
        cases pieces with
        | nil => rfl
        | cons q _ => exact absurd (hp q (List.mem_cons_self ..)) hnot
      rw [hnil]
      exact iff_of_true (by simp [spansFrom]) ⟨by simp, List.Pairwise.nil⟩

end Pieces

theorem step_ordered {s s' : MdSession} {call : Reparse} (hstep : Step s call s') :
    s'.ast.nodes.Pairwise (fun n m => n.span.2 ≤ m.span.1) := by
  obtain ⟨hparse, _⟩ := (step_iff _ _ _).mp hstep
  have hordered := (spansFrom_ordered (lines call.source.toList) 0).2
  rw [← parse_spans _ _ _ _ _ _ _ hparse, List.pairwise_map] at hordered
  exact hordered

/-- The spans of the tree a call returns follow one another. They name the bytes of its nodes
exactly when nothing but blank lines comes after a line that ends with carriage return and line
feed. -/
theorem spans_name_iff (s s' : MdSession) (call : Reparse) (hstep : Step s call s') :
    s'.ast.nodes.Pairwise (fun n m => n.span.2 ≤ m.span.1) ∧
      (SpansName call.source s'.ast.nodes ↔ BlankAfterCrlf call.source) := by
  refine ⟨step_ordered hstep, ?_⟩
  obtain ⟨hparse, _⟩ := (step_iff _ _ _).mp hstep
  have hspans := parse_spans _ _ _ _ _ _ _ hparse
  have hpieces := spansFrom_name_iff [] (splitInclusive call.source.toList) (pairwise_endsLine _)
    (fun p hp => no_newline_of_chomp _ p hp)
  rw [List.nil_append, flatten_splitInclusive, show utf8Len [] = 0 from rfl] at hpieces
  change (∀ e ∈ spansFrom (lines call.source.toList) 0, _) ↔ _ at hpieces
  unfold BlankAfterCrlf
  rw [← hpieces, ← hspans]
  constructor
  · intro h e he
    obtain ⟨n, hn, hne⟩ := List.mem_map.mp he
    rw [← hne]
    exact h.text n hn
  · intro h
    exact ⟨fun n hn => h _ (List.mem_map_of_mem hn), step_ordered hstep⟩

section Example

instance (source : String) : Decidable (BlankAfterCrlf source) :=
  inferInstanceAs (Decidable (List.Pairwise _ _))

/-- Two bytes for one character, a blank line that ends with two bytes, and no more. -/
theorem spans_name_accented :
    ∃ s' call, Step MdSession.new call s' ∧ call.source = "é\nb\n\r\n" ∧
      SpansName call.source s'.ast.nodes := by
  let s' : MdSession := ⟨2, ⟨[⟨1, .para, "é", (0, 2)⟩, ⟨2, .para, "b", (3, 4)⟩], "é\nb\n\r\n"⟩⟩
  have hstep : Step MdSession.new ⟨"é\nb\n\r\n", ⟨[1, 2], []⟩⟩ s' := by
    unfold Step
    decide
  exact ⟨s', _, hstep, rfl, (spans_name_iff _ s' _ hstep).2.mpr (by decide)⟩

/-- After one line that ends with two bytes the span of the next is off by one. -/
theorem crlf_shifts_span :
    ∃ s' call, Step MdSession.new call s' ∧ call.source = "a\r\nb" ∧
      s'.ast.nodes = [⟨1, .para, "a", (0, 1)⟩, ⟨2, .para, "b", (2, 3)⟩] ∧
      slice call.source.toList 2 3 = some ['\n'] ∧ ¬ SpansName call.source s'.ast.nodes := by
  let s' : MdSession := ⟨2, ⟨[⟨1, .para, "a", (0, 1)⟩, ⟨2, .para, "b", (2, 3)⟩], "a\r\nb"⟩⟩
  have hstep : Step MdSession.new ⟨"a\r\nb", ⟨[1, 2], []⟩⟩ s' := by
    unfold Step
    decide
  refine ⟨s', _, hstep, rfl, rfl, by decide, fun h => ?_⟩
  exact absurd (h.text ⟨2, .para, "b", (2, 3)⟩ (by decide)) (by decide)

end Example

end CompositionIr.Spans
