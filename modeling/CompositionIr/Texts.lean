import Mathlib.Data.List.DropRight
import Mathlib.Data.String.Basic

/-!
Text as a list of characters measured in UTF-8 bytes. A byte offset splits a text only
on a character boundary. Lines end with a line feed, with or without a carriage return
before it, or with the text; a pattern splits a text into the pieces between its matches;
a character counts as whitespace as Unicode has it.
-/

namespace CompositionIr.Texts

open String (utf8Len utf8Len_append utf8Len_eq_zero)

section Offsets

/-- Split at a byte offset, where it is a character boundary within the text. -/
def splitBytes : List Char → ℕ → Option (List Char × List Char)
  | text, 0 => some ([], text)
  | [], _ + 1 => none
  | c :: rest, n + 1 =>
    if c.utf8Size ≤ n + 1 then
      (splitBytes rest (n + 1 - c.utf8Size)).map (fun split => (c :: split.1, split.2))
    else none

def slice (text : List Char) (start stop : ℕ) : Option (List Char) := do
  let (upto, _) ← splitBytes text stop
  let (_, within) ← splitBytes upto start
  return within

theorem splitBytes_zero (text l r : List Char) :
    splitBytes text 0 = some (l, r) ↔ text = l ++ r ∧ utf8Len l = 0 := by
  have hzero : splitBytes text 0 = some ([], text) := by cases text <;> rfl
  rw [hzero, utf8Len_eq_zero, Option.some.injEq, Prod.mk.injEq]
  constructor
  · intro h
    obtain ⟨hl, hr⟩ := h
    subst hl hr
    exact ⟨rfl, rfl⟩
  · intro h
    obtain ⟨htext, hl⟩ := h
    subst hl
    exact ⟨rfl, htext⟩

theorem splitBytes_eq_some (text : List Char) (n : ℕ) (l r : List Char) :
    splitBytes text n = some (l, r) ↔ text = l ++ r ∧ utf8Len l = n := by
  induction text generalizing n l r with
  | nil =>
    cases n with
    | zero => exact splitBytes_zero [] l r
    | succ n =>
      refine iff_of_false (by simp [splitBytes]) (fun h => ?_)
      obtain ⟨htext, hn⟩ := h
      obtain ⟨hl, _⟩ := List.append_eq_nil_iff.mp htext.symm
      subst hl
      simp at hn
  | cons c rest ih =>
    have hc := c.utf8Size_pos
    cases n with
    | zero => exact splitBytes_zero (c :: rest) l r
    | succ n =>
      unfold splitBytes
      cases l with
      | nil =>
        refine iff_of_false (fun h => ?_) (fun h => by simp at h)
        split at h
        · obtain ⟨_, _, h⟩ := Option.map_eq_some_iff.mp h
          cases h
        · cases h
      | cons c' l =>
        have hlen : utf8Len (c' :: l) = utf8Len l + c'.utf8Size := rfl
        by_cases hfits : c.utf8Size ≤ n + 1
        · rw [if_pos hfits, Option.map_eq_some_iff]
          constructor
          · intro h
            obtain ⟨⟨l', r'⟩, hsplit, heq⟩ := h
            obtain ⟨hrest, hbytes⟩ := (ih _ _ _).mp hsplit
            simp only [Prod.mk.injEq, List.cons.injEq] at heq
            obtain ⟨⟨hcc, hll⟩, hrr⟩ := heq
            subst hcc hll hrr
            refine ⟨by rw [hrest]; rfl, ?_⟩
            omega
          · intro h
            obtain ⟨htext, hn⟩ := h
            obtain ⟨hcc, hrest⟩ := List.cons.inj htext
            subst hcc
            exact ⟨(l, r), (ih _ _ _).mpr ⟨hrest, by omega⟩, rfl⟩
        · rw [if_neg hfits]
          refine iff_of_false (by simp) (fun h => hfits ?_)
          obtain ⟨htext, hn⟩ := h
          obtain ⟨hcc, _⟩ := List.cons.inj htext
          subst hcc
          omega

/-- A slice is what stands between two parts of the text of the right lengths. -/
theorem slice_eq_some (text : List Char) (start stop : ℕ) (m : List Char) :
    slice text start stop = some m ↔
      ∃ l r, text = l ++ m ++ r ∧ utf8Len l = start ∧ utf8Len l + utf8Len m = stop := by
  constructor
  · intro h
    obtain ⟨⟨upto, r⟩, hstop, h⟩ := Option.bind_eq_some_iff.mp h
    obtain ⟨⟨l, within⟩, hstart, h⟩ := Option.bind_eq_some_iff.mp h
    obtain ⟨htext, hupto⟩ := (splitBytes_eq_some _ _ _ _).mp hstop
    obtain ⟨hsplit, hl⟩ := (splitBytes_eq_some _ _ _ _).mp hstart
    have hm : within = m := Option.some.inj h
    subst hm
    refine ⟨l, r, by rw [htext, hsplit], hl, ?_⟩
    rw [← hupto, hsplit, utf8Len_append]
  · intro h
    obtain ⟨l, r, htext, hl, hm⟩ := h
    have hstop := (splitBytes_eq_some text stop (l ++ m) r).mpr
      ⟨htext, by rw [utf8Len_append]; exact hm⟩
    have hstart := (splitBytes_eq_some (l ++ m) start l m).mpr ⟨rfl, hl⟩
    unfold slice
    rw [hstop]
    change (splitBytes (l ++ m) start).bind _ = _
    rw [hstart]
    rfl

end Offsets

section Lines

/-- The pieces that end with each line feed, and what is left after the last one. -/
def splitInclusive : List Char → List (List Char)
  | [] => []
  | c :: rest =>
    if c = '\n' then [c] :: splitInclusive rest
    else match splitInclusive rest with
      | [] => [[c]]
      | piece :: pieces => (c :: piece) :: pieces

/-- A piece without its line feed and the carriage return before that. -/
def chomp (piece : List Char) : List Char :=
  match piece.dropSuffix? ['\n'] with
  | none => piece
  | some line =>
    match line.dropSuffix? ['\r'] with
    | none => line
    | some line => line

def lines (text : List Char) : List (List Char) := (splitInclusive text).map chomp

def EndsLine (piece : List Char) : Prop := ∃ line, piece = line ++ ['\n']

def EndsCrlf (piece : List Char) : Prop := ∃ line, piece = line ++ ['\r', '\n']

instance (piece : List Char) : Decidable (EndsCrlf piece) :=
  decidable_of_iff (['\r', '\n'] <:+ piece) (exists_congr (fun _ => eq_comm))

theorem flatten_splitInclusive (text : List Char) : (splitInclusive text).flatten = text := by
  induction text with
  | nil => rfl
  | cons c rest ih =>
    unfold splitInclusive
    by_cases hc : c = '\n'
    · rw [if_pos hc, List.flatten_cons, ih]
      rfl
    · rw [if_neg hc]
      cases hrest : splitInclusive rest with
      | nil =>
        rw [hrest] at ih
        rw [← ih]
        rfl
      | cons piece pieces =>
        rw [hrest] at ih
        rw [← ih]
        rfl

/-- A line feed stands at the end of a piece only. -/
theorem no_newline_inside (text : List Char) :
    ∀ piece ∈ splitInclusive text,
      '\n' ∉ piece ∨ ∃ line, piece = line ++ ['\n'] ∧ '\n' ∉ line := by
  induction text with
  | nil => simp [splitInclusive]
  | cons c rest ih =>
    intro piece hpiece
    unfold splitInclusive at hpiece
    by_cases hc : c = '\n'
    · rw [if_pos hc] at hpiece
      rcases List.mem_cons.mp hpiece with hone | hpiece
      · exact Or.inr ⟨[], by rw [hone, hc]; rfl, by simp⟩
      · exact ih piece hpiece
    · rw [if_neg hc] at hpiece
      cases hrest : splitInclusive rest with
      | nil =>
        rw [hrest] at hpiece
        have hone : piece = [c] := List.mem_singleton.mp hpiece
        rw [hone]
        exact Or.inl (by simpa using Ne.symm hc)
      | cons first pieces =>
        rw [hrest] at hpiece ih
        rcases List.mem_cons.mp hpiece with hone | hpiece
        · rw [hone]
          rcases ih first (List.mem_cons_self ..) with hno | ⟨line, hline, hno⟩
          · exact Or.inl (by simpa [Ne.symm hc] using hno)
          · refine Or.inr ⟨c :: line, by rw [hline]; rfl, ?_⟩
            simpa [Ne.symm hc] using hno
        · exact ih piece (List.mem_cons_of_mem _ hpiece)

/-- Every piece but the last ends with a line feed. -/
theorem pairwise_endsLine (text : List Char) :
    (splitInclusive text).Pairwise (fun piece _ => EndsLine piece) := by
  induction text with
  | nil => exact List.Pairwise.nil
  | cons c rest ih =>
    unfold splitInclusive
    by_cases hc : c = '\n'
    · rw [if_pos hc]
      exact List.pairwise_cons.mpr ⟨fun _ _ => ⟨[], by rw [hc]; rfl⟩, ih⟩
    · rw [if_neg hc]
      cases hrest : splitInclusive rest with
      | nil => exact List.pairwise_singleton _ _
      | cons first pieces =>
        rw [hrest] at ih
        obtain ⟨hfirst, hpieces⟩ := List.pairwise_cons.mp ih
        refine List.pairwise_cons.mpr ⟨fun next hnext => ?_, hpieces⟩
        obtain ⟨line, hline⟩ := hfirst next hnext
        exact ⟨c :: line, by rw [hline]; rfl⟩

/-- What chomping takes off a piece. -/
theorem chomp_cases (piece : List Char) :
    (piece = chomp piece ++ ['\r', '\n'] ∧ EndsCrlf piece) ∨
      (piece = chomp piece ++ ['\n'] ∧ ¬ EndsCrlf piece) ∨
      (piece = chomp piece ∧ ¬ EndsLine piece) := by
  unfold chomp
  cases hline : piece.dropSuffix? ['\n'] with
  | none =>
    refine Or.inr (Or.inr ⟨rfl, fun h => ?_⟩)
    obtain ⟨line, hends⟩ := h
    have hsome : piece.dropSuffix? ['\n'] = some line :=
      List.dropSuffix?_eq_some_iff.mpr ⟨['\n'], hends, by simp⟩
    rw [hline] at hsome
    cases hsome
  | some line =>
    obtain ⟨suffix, hpiece, hsuffix⟩ := List.dropSuffix?_eq_some_iff.mp hline
    have hlf : suffix = ['\n'] := eq_of_beq hsuffix
    subst hlf
    simp only
    cases hcr : line.dropSuffix? ['\r'] with
    | none =>
      refine Or.inr (Or.inl ⟨hpiece, fun h => ?_⟩)
      obtain ⟨line', hends⟩ := h
      have hsame : line ++ ['\n'] = (line' ++ ['\r']) ++ ['\n'] := by
        rw [← hpiece, hends, List.append_assoc]
        rfl
      have hsome : line.dropSuffix? ['\r'] = some line' :=
        List.dropSuffix?_eq_some_iff.mpr ⟨['\r'], List.append_cancel_right hsame, by simp⟩
      rw [hcr] at hsome
      cases hsome
    | some line' =>
      obtain ⟨suffix, hline', hsuffix⟩ := List.dropSuffix?_eq_some_iff.mp hcr
      have hcr' : suffix = ['\r'] := eq_of_beq hsuffix
      subst hcr'
      have hends : piece = line' ++ ['\r', '\n'] := by
        rw [hpiece, hline', List.append_assoc]
        rfl
      exact Or.inl ⟨hends, line', hends⟩

/-- A line holds no line feed. -/
theorem no_newline_of_chomp (text piece : List Char) (hpiece : piece ∈ splitInclusive text) :
    '\n' ∉ chomp piece := by
  intro hmem
  rcases no_newline_inside text piece hpiece with hno | ⟨line, hline, hno⟩
  · rcases chomp_cases piece with ⟨hp, _⟩ | ⟨hp, _⟩ | ⟨hp, _⟩
    · exact hno (by rw [hp]; simp)
    · exact hno (by rw [hp]; simp)
    · exact hno (by rw [hp]; exact hmem)
  · rcases chomp_cases piece with ⟨hp, _⟩ | ⟨hp, _⟩ | ⟨_, hends⟩
    · have hsame : line ++ ['\n'] = (chomp piece ++ ['\r']) ++ ['\n'] := by
        rw [← hline, List.append_assoc]
        exact hp
      rw [List.append_cancel_right hsame] at hno
      exact hno (List.mem_append_left _ hmem)
    · have hsame : line ++ ['\n'] = chomp piece ++ ['\n'] := by rw [← hline, ← hp]
      rw [List.append_cancel_right hsame] at hno
      exact hno hmem
    · exact hends ⟨line, hline⟩

end Lines

section Splitting

/-- What stands between the matches of a pattern, taken from the left and not overlapping.
The number counts the characters still to pass of the match found last. -/
def splitFrom (pattern : List Char) : ℕ → List Char → List (List Char)
  | _, [] => [[]]
  | passing + 1, _ :: rest => splitFrom pattern passing rest
  | 0, c :: rest =>
    if pattern.isPrefixOf (c :: rest) then [] :: splitFrom pattern (pattern.length - 1) rest
    else match splitFrom pattern 0 rest with
      | [] => [[c]]
      | piece :: pieces => (c :: piece) :: pieces

def split (pattern text : List Char) : List (List Char) := splitFrom pattern 0 text

def onFirst (l : List Char) : List (List Char) → List (List Char)
  | [] => [l]
  | piece :: pieces => (l ++ piece) :: pieces

@[simp] theorem onFirst_onFirst (l l' : List Char) (pieces : List (List Char)) :
    onFirst l (onFirst l' pieces) = onFirst (l ++ l') pieces := by
  cases pieces with
  | nil => rfl
  | cons piece pieces => simp [onFirst]

theorem splitFrom_length (pattern l text : List Char) :
    splitFrom pattern l.length (l ++ text) = split pattern text := by
  induction l with
  | nil => rfl
  | cons c rest ih => exact ih

/-- A match ends the first piece. -/
theorem split_match (a : Char) (pattern text : List Char) :
    split (a :: pattern) (a :: pattern ++ text) = [] :: split (a :: pattern) text := by
  have hmatch : (a :: pattern).isPrefixOf (a :: (pattern ++ text)) = true :=
    List.isPrefixOf_iff_prefix.mpr ⟨text, rfl⟩
  unfold split
  rw [List.cons_append, splitFrom, if_pos hmatch]
  congr 1
  exact splitFrom_length (a :: pattern) pattern text

/-- A character where the pattern does not match belongs to the first piece. -/
theorem split_cons (pattern text : List Char) (c : Char)
    (h : pattern.isPrefixOf (c :: text) = false) :
    split pattern (c :: text) = onFirst [c] (split pattern text) := by
  unfold split
  rw [splitFrom, if_neg (by simp [h])]
  cases splitFrom pattern 0 text <;> rfl

theorem splitFrom_ne_nil (pattern : List Char) (passing : ℕ) (text : List Char) :
    splitFrom pattern passing text ≠ [] := by
  induction text generalizing passing with
  | nil => simp [splitFrom]
  | cons c rest ih =>
    cases passing with
    | succ passing => exact ih passing
    | zero =>
      unfold splitFrom
      split
      · simp
      · cases hrest : splitFrom pattern 0 rest with
        | nil => exact absurd hrest (ih 0)
        | cons piece pieces => simp

@[simp] theorem onFirst_nil (pattern text : List Char) :
    onFirst [] (split pattern text) = split pattern text := by
  cases hpieces : split pattern text with
  | nil => exact absurd hpieces (splitFrom_ne_nil pattern 0 text)
  | cons piece pieces => rfl

/-- Characters with which the pattern does not begin belong to the first piece. -/
theorem split_append_of_notMem (a : Char) (pattern l text : List Char) (hl : a ∉ l) :
    split (a :: pattern) (l ++ text) = onFirst l (split (a :: pattern) text) := by
  induction l with
  | nil => simp
  | cons c rest ih =>
    rw [List.mem_cons, not_or] at hl
    obtain ⟨hc, hrest⟩ := hl
    have hno : (a :: pattern).isPrefixOf (c :: (rest ++ text)) = false := by
      rw [List.isPrefixOf_cons_cons, beq_eq_false_iff_ne.mpr hc, Bool.false_and]
    rw [List.cons_append, split_cons _ _ _ hno, ih hrest, onFirst_onFirst]
    rfl

/-- Where the second character of the pattern does not follow the first, no piece ends. -/
theorem split_passing (a b : Char) (pattern l text : List Char) (hl : a ∉ l)
    (htext : text.head? ≠ some b) :
    split (a :: b :: pattern) (l ++ a :: text) =
      onFirst (l ++ [a]) (split (a :: b :: pattern) text) := by
  have hno : (a :: b :: pattern).isPrefixOf (a :: text) = false := by
    cases text with
    | nil => simp
    | cons c text =>
      have hc : b ≠ c := fun heq => htext (by rw [heq]; rfl)
      rw [List.isPrefixOf_cons_cons, List.isPrefixOf_cons_cons, beq_eq_false_iff_ne.mpr hc,
        Bool.false_and, Bool.and_false]
  rw [split_append_of_notMem _ _ _ _ hl, split_cons _ _ _ hno, onFirst_onFirst]

/-- At the first place where the pattern can begin and does, a piece ends. -/
theorem split_matching (a : Char) (pattern l text : List Char) (hl : a ∉ l) :
    split (a :: pattern) (l ++ a :: pattern ++ text) = l :: split (a :: pattern) text := by
  rw [List.append_assoc, split_append_of_notMem _ _ _ _ hl, split_match]
  simp [onFirst]

/-- Cut at the first of some character, a text falls apart in one way. -/
theorem cut_first (c : Char) {l l' r r' : List Char} (hl : c ∉ l) (hl' : c ∉ l')
    (h : l ++ c :: r = l' ++ c :: r') : l = l' ∧ r = r' := by
  rcases List.append_eq_append_iff.mp h with ⟨more, hmore, hr⟩ | ⟨more, hmore, hr⟩
  · cases more with
    | nil => exact ⟨by simp [hmore], (List.cons.inj hr).2⟩
    | cons d more =>
      have hd : c = d := (List.cons.inj hr).1
      exact absurd (by simp [hmore, hd]) hl'
  · cases more with
    | nil => exact ⟨by simp [hmore], (List.cons.inj hr).2.symm⟩
    | cons d more =>
      have hd : c = d := (List.cons.inj hr).1
      exact absurd (by simp [hmore, hd]) hl

end Splitting

section Whitespace

/-- The characters of the Unicode property `White_Space`. -/
def isWhitespace (c : Char) : Bool :=
  let n := c.toNat
  (0x09 ≤ n && n ≤ 0x0d) || n == 0x20 || n == 0x85 || n == 0xa0 || n == 0x1680 ||
    (0x2000 ≤ n && n ≤ 0x200a) || n == 0x2028 || n == 0x2029 || n == 0x202f || n == 0x205f ||
    n == 0x3000

def trim (text : List Char) : List Char :=
  (text.dropWhile isWhitespace).rdropWhile isWhitespace

def blank (text : List Char) : Bool := (trim text).isEmpty

theorem blank_iff (text : List Char) : blank text = true ↔ ∀ c ∈ text, isWhitespace c = true := by
  unfold blank trim
  rw [List.isEmpty_iff, List.rdropWhile_eq_nil_iff]
  constructor
  · intro h c hc
    rw [← List.takeWhile_append_dropWhile (p := isWhitespace) (l := text)] at hc
    rcases List.mem_append.mp hc with hc | hc
    · exact List.mem_takeWhile_imp hc
    · exact h c hc
  · intro h c hc
    exact h c ((List.dropWhile_suffix _).subset hc)

/-- Characters that begin within a gap of whitespace that ends with a line feed are no
line: either the line feed is among them, or nothing but whitespace is. -/
theorem slice_in_gap (before gap after line : List Char) (start stop : ℕ)
    (hgap : ∀ c ∈ gap, isWhitespace c = true) (hends : EndsLine gap)
    (hlow : utf8Len before ≤ start) (hhigh : start < utf8Len before + utf8Len gap)
    (hline : blank line = false) (hno : '\n' ∉ line) :
    slice (before ++ gap ++ after) start stop ≠ some line := by
  intro hslice
  obtain ⟨l, r, htext, hl, _⟩ := (slice_eq_some _ _ _ _).mp hslice
  have hwritten : ¬ ∀ c ∈ line, isWhitespace c = true := by
    rw [← blank_iff, hline]
    simp
  rw [List.append_assoc l] at htext
  rcases List.append_eq_append_iff.mp htext with ⟨more, hmore, _⟩ | ⟨left, hleft, hrest⟩
  · rw [hmore, utf8Len_append, utf8Len_append] at hl
    omega
  · -- what is left of the gap where the slice begins ends with the line feed of the gap
    have hsuffix : ∃ taken, gap = taken ++ left := by
      rcases List.append_eq_append_iff.mp hleft with ⟨taken, _, hg⟩ | ⟨more, hb, hg⟩
      · exact ⟨taken, hg⟩
      · rw [hb, utf8Len_append] at hlow
        have hmore : more = [] := utf8Len_eq_zero.mp (by omega)
        exact ⟨[], by rw [hg, hmore]; rfl⟩
    obtain ⟨taken, htaken⟩ := hsuffix
    have hne : left ≠ [] := by
      intro hnil
      have hlen := congrArg utf8Len hleft
      rw [hnil, utf8Len_append, List.append_nil] at hlen
      omega
    obtain ⟨g, hg⟩ := hends
    obtain ⟨kept, hkept⟩ : ∃ kept, left = kept ++ ['\n'] := by
      have hlast : left.getLast hne = '\n' := by
        have hg' : taken ++ left = g ++ ['\n'] := by rw [← htaken, hg]
        have hend := congrArg List.getLast? hg'
        rw [List.getLast?_append_of_ne_nil _ hne, List.getLast?_eq_some_getLast hne,
          List.getLast?_concat] at hend
        exact Option.some.inj hend
      exact ⟨left.dropLast, by rw [← hlast, List.dropLast_append_getLast hne]⟩
    have hwhite : ∀ c ∈ kept, isWhitespace c = true := by
      intro c hc
      exact hgap c (by rw [htaken, hkept]; simp [hc])
    rw [hkept, List.append_assoc] at hrest
    rcases List.append_eq_append_iff.mp hrest with ⟨more, hk, _⟩ | ⟨more, hm, hnl⟩
    · exact hwritten (fun c hc => hwhite c (by rw [hk]; exact List.mem_append_left _ hc))
    · cases more with
      | nil => exact hwritten (fun c hc => hwhite c (by simpa [hm] using hc))
      | cons c more =>
        have hc : '\n' = c := (List.cons.inj hnl).1
        exact hno (by rw [hm, ← hc]; simp)

/-- A piece whose line is blank is whitespace throughout. -/
theorem whitespace_of_blank_chomp (piece : List Char) (h : blank (chomp piece) = true) :
    ∀ c ∈ piece, isWhitespace c = true := by
  intro c hc
  have hline := (blank_iff (chomp piece)).mp h
  rcases chomp_cases piece with ⟨hp, _⟩ | ⟨hp, _⟩ | ⟨hp, _⟩
  all_goals rw [hp] at hc
  · rcases List.mem_append.mp hc with hc | hc
    · exact hline c hc
    · simp only [List.mem_cons, List.not_mem_nil, or_false] at hc
      rcases hc with hc | hc <;> rw [hc] <;> rfl
  · rcases List.mem_append.mp hc with hc | hc
    · exact hline c hc
    · rw [List.mem_singleton.mp hc]
      rfl
  · exact hline c hc

end Whitespace

end CompositionIr.Texts
