import Mathlib.Order.Bounds.Basic
import CompositionIr.Queries
import CompositionIr.Texts

/-!
Carets in two encodings. A frontend counts UTF-8 bytes and its host UTF-16 units; both
conversions walk the source from its start and refuse an offset inside a character. On the
boundaries they are inverse. A refused offset comes with the boundary before it, except
past the end of a source, where the boundary reported is the one before the last character.
-/

namespace CompositionIr.TextOffsets

open String (utf8Len utf8Len_append)
open Queries

structure NotOnABoundary where
  offset : ℕ
  previousBoundary : ℕ
  deriving DecidableEq

/-- The units that encode a character: a surrogate pair outside the basic plane. -/
def lenUtf16 (c : Char) : ℕ := if c.val < 0x10000 then 1 else 2

def utf16Len (l : List Char) : ℕ := (l.map lenUtf16).sum

/-- The characters of a text with the bytes before each. -/
def charIndices (start : ℕ) : List Char → List (ℕ × Char)
  | [] => []
  | c :: rest => (start, c) :: charIndices (start + c.utf8Size) rest

/-- The walk both conversions make, over the bytes and the units before each character.
They differ in which of the two counts they look for and which they answer with. -/
def scan (asked answered : ℕ → ℕ → ℕ) (offset len : ℕ) :
    List (ℕ × Char) → ℕ → Cost → ℕ → Except NotOnABoundary (ℕ × Cost)
  | [], units, cost, previous =>
    if asked len units = offset then .ok (answered len units, cost)
    else .error ⟨offset, previous⟩
  | (pos, ch) :: rest, units, cost, previous =>
    if asked pos units = offset then .ok (answered pos units, cost)
    else if offset < asked pos units then .error ⟨offset, previous⟩
    else
      scan asked answered offset len rest (units + lenUtf16 ch)
        { cost with recordsScanned := cost.recordsScanned + 1 } (asked pos units)

def bytes (pos _ : ℕ) : ℕ := pos

def units (_ units : ℕ) : ℕ := units

def utf16OffsetOf (source : List Char) (byteOffset : ℕ) : Except NotOnABoundary (ℕ × Cost) :=
  scan bytes units byteOffset (utf8Len source) (charIndices 0 source) 0 {} 0

def byteOffsetOf (source : List Char) (utf16Offset : ℕ) : Except NotOnABoundary (ℕ × Cost) :=
  scan units bytes utf16Offset (utf8Len source) (charIndices 0 source) 0 {} 0

section Positions

def along (count : ℕ → ℕ → ℕ) (l : List Char) : ℕ := count (utf8Len l) (utf16Len l)

structure Counts (count : ℕ → ℕ → ℕ) : Prop where
  start : along count [] = 0
  step : ∀ l c, along count l < along count (l ++ [c])

theorem utf16Len_snoc (l : List Char) (c : Char) :
    utf16Len (l ++ [c]) = utf16Len l + lenUtf16 c := by
  unfold utf16Len
  simp

theorem utf8Len_snoc (l : List Char) (c : Char) :
    utf8Len (l ++ [c]) = utf8Len l + c.utf8Size := by
  rw [utf8Len_append]
  simp

theorem lenUtf16_pos (c : Char) : 0 < lenUtf16 c := by
  unfold lenUtf16
  split <;> omega

theorem counts_bytes : Counts bytes where
  start := rfl
  step l c := by
    change utf8Len l < utf8Len (l ++ [c])
    have hc := c.utf8Size_pos
    rw [utf8Len_snoc]
    omega

theorem counts_units : Counts units where
  start := rfl
  step l c := by
    change utf16Len l < utf16Len (l ++ [c])
    have hc := lenUtf16_pos c
    rw [utf16Len_snoc]
    omega

variable {count : ℕ → ℕ → ℕ}

theorem Counts.le_append (h : Counts count) (l m : List Char) :
    along count l ≤ along count (l ++ m) := by
  induction m using List.reverseRecOn with
  | nil => rw [List.append_nil]
  | append_singleton m c ih =>
    have hstep := h.step (l ++ m) c
    rw [List.append_assoc] at hstep
    omega

theorem Counts.lt_append (h : Counts count) (l : List Char) (c : Char) (m : List Char) :
    along count l < along count (l ++ c :: m) := by
  have hstep := h.step l c
  have hle := h.le_append (l ++ [c]) m
  rw [List.append_assoc] at hle
  exact lt_of_lt_of_le hstep hle

/-- Of two positions in one text the one is behind the other. -/
theorem positions_cases {l l' r r' : List Char} (h : l ++ r = l' ++ r') :
    l = l' ∨ (∃ c m, l' = l ++ c :: m ∧ r = c :: m ++ r') ∨
      ∃ c m, l = l' ++ c :: m ∧ r' = c :: m ++ r := by
  rcases List.append_eq_append_iff.mp h with ⟨m, hl, hr⟩ | ⟨m, hl, hr⟩
  · cases m with
    | nil => exact Or.inl (by rw [hl, List.append_nil])
    | cons c m => exact Or.inr (Or.inl ⟨c, m, hl, hr⟩)
  · cases m with
    | nil => exact Or.inl (by rw [hl, List.append_nil])
    | cons c m => exact Or.inr (Or.inr ⟨c, m, hl, hr⟩)

theorem Counts.eq_of_eq (h : Counts count) {l l' r r' : List Char} (hsource : l ++ r = l' ++ r')
    (heq : along count l = along count l') : l = l' := by
  rcases positions_cases hsource with hl | ⟨c, m, hl, _⟩ | ⟨c, m, hl, _⟩
  · exact hl
  · have hlt := h.lt_append l c m
    rw [← hl] at hlt
    omega
  · have hlt := h.lt_append l' c m
    rw [← hl] at hlt
    omega

/-- The two counts order the positions of a text alike. -/
theorem Counts.lt_of_lt (h : Counts count) {count' : ℕ → ℕ → ℕ} (h' : Counts count')
    {l l' r r' : List Char} (hsource : l ++ r = l' ++ r')
    (hlt : along count l < along count l') : along count' l < along count' l' := by
  rcases positions_cases hsource with hl | ⟨c, m, hl, _⟩ | ⟨c, m, hl, _⟩
  · rw [hl] at hlt
    omega
  · rw [hl]
    exact h'.lt_append l c m
  · have hback := h.lt_append l' c m
    rw [← hl] at hback
    omega

/-- A position behind another one is not inside the character after it. -/
theorem Counts.next_le (h : Counts count) {l l' r r' : List Char} {c : Char}
    (hsource : l ++ c :: r = l' ++ r') (hlt : along count l < along count l') :
    along count (l ++ [c]) ≤ along count l' := by
  rcases positions_cases hsource with heq | ⟨c', m, heq, hr⟩ | ⟨c', m, heq, _⟩
  · rw [heq] at hlt
    omega
  · obtain ⟨hc, _⟩ := List.cons.inj hr
    have hle := h.le_append (l ++ [c]) m
    rwa [List.append_assoc, List.singleton_append, hc, ← heq, ← hc] at hle
  · have hback := h.lt_append l' c' m
    rw [← heq] at hback
    omega

end Positions

section Walk

variable {asked answered : ℕ → ℕ → ℕ} {source : List Char} {offset : ℕ}

/-- How a walk ends: on a boundary, inside a character, past the end of a source that has a
last character, or past an empty one. -/
inductive Answered (asked answered : ℕ → ℕ → ℕ) (source : List Char) (offset : ℕ) :
    Except NotOnABoundary (ℕ × Cost) → Prop
  | on {l r : List Char} (hsource : source = l ++ r) (hoffset : along asked l = offset) :
      Answered asked answered source offset
        (.ok (along answered l, { recordsScanned := l.length }))
  | inside {l r : List Char} {c : Char} (hsource : source = l ++ c :: r)
      (hbefore : along asked l < offset) (hbehind : offset < along asked (l ++ [c])) :
      Answered asked answered source offset (.error ⟨offset, along asked l⟩)
  | past {l : List Char} {c : Char} (hsource : source = l ++ [c])
      (hpast : along asked source < offset) :
      Answered asked answered source offset (.error ⟨offset, along asked l⟩)
  | empty (hsource : source = []) (hpast : 0 < offset) :
      Answered asked answered source offset (.error ⟨offset, 0⟩)

/-- The walk keeps, behind the characters it has passed, the boundary before the last of
them, and what was asked is behind that boundary. -/
theorem scan_spec (hcounts : Counts asked) (left right : List Char)
    (hsource : source = left ++ right) (previous : ℕ)
    (hprevious : (left = [] ∧ previous = 0) ∨
      ∃ l c, left = l ++ [c] ∧ along asked l < offset ∧ previous = along asked l) :
    Answered asked answered source offset
      (scan asked answered offset (utf8Len source) (charIndices (utf8Len left) right)
        (utf16Len left) { recordsScanned := left.length } previous) := by
  induction right generalizing left previous with
  | nil =>
    rw [List.append_nil] at hsource
    subst hsource
    unfold charIndices scan
    by_cases hat : along asked source = offset
    · unfold along at hat
      rw [if_pos hat]
      exact .on (List.append_nil source).symm hat
    · have hne : asked (utf8Len source) (utf16Len source) ≠ offset := hat
      rw [if_neg hne]
      rcases hprevious with ⟨hnil, hzero⟩ | ⟨l, c, hl, hbefore, hprevious⟩
      · rw [hnil, hcounts.start] at hat
        rw [hzero]
        exact .empty hnil (by omega)
      · rw [hprevious]
        rcases Nat.lt_or_gt_of_ne hat with hpast | hinside
        · exact .past hl hpast
        · rw [hl] at hinside
          exact .inside hl hbefore hinside
  | cons c rest ih =>
    unfold charIndices scan
    by_cases hat : asked (utf8Len left) (utf16Len left) = offset
    · rw [if_pos hat]
      exact .on hsource hat
    · rw [if_neg hat]
      by_cases hbehind : offset < asked (utf8Len left) (utf16Len left)
      · rw [if_pos hbehind]
        rcases hprevious with ⟨hnil, _⟩ | ⟨l, c', hl, hbefore, hprevious⟩
        · have hstart := hcounts.start
          unfold along at hstart
          rw [hnil, hstart] at hbehind
          omega
        · rw [hprevious]
          refine .inside (c := c') (r := c :: rest) (by rw [hsource, hl]; simp) hbefore ?_
          rwa [← hl]
      · rw [if_neg hbehind, ← utf8Len_snoc, ← utf16Len_snoc]
        have hnext := ih (left ++ [c]) (by rw [hsource]; simp) (along asked left)
          (Or.inr ⟨left, c, rfl, by unfold along; omega, rfl⟩)
        rwa [List.length_append] at hnext

theorem utf16OffsetOf_answered (source : List Char) (offset : ℕ) :
    Answered bytes units source offset (utf16OffsetOf source offset) :=
  scan_spec counts_bytes [] source rfl 0 (Or.inl ⟨rfl, rfl⟩)

theorem byteOffsetOf_answered (source : List Char) (offset : ℕ) :
    Answered units bytes source offset (byteOffsetOf source offset) :=
  scan_spec counts_units [] source rfl 0 (Or.inl ⟨rfl, rfl⟩)

/-- A walk succeeds on the boundaries of its encoding, with the position in the other. -/
theorem Answered.ok_iff {answer : Except NotOnABoundary (ℕ × Cost)} (hcounts : Counts asked)
    (h : Answered asked answered source offset answer) (value : ℕ) (cost : Cost) :
    answer = .ok (value, cost) ↔
      ∃ l r, source = l ++ r ∧ along asked l = offset ∧ along answered l = value ∧
        cost = { recordsScanned := l.length } := by
  constructor
  · intro hok
    cases h with
    | on hsource hoffset =>
      obtain ⟨hvalue, hcost⟩ := Prod.mk.inj (Except.ok.inj hok)
      exact ⟨_, _, hsource, hoffset, hvalue, hcost.symm⟩
    | inside | past | empty => cases hok
  · rintro ⟨l, r, hl, hoffset, hvalue, hcost⟩
    cases h with
    | @on l' r' hsource hoffset' =>
      have hsame := hcounts.eq_of_eq (hsource.symm.trans hl) (hoffset'.trans hoffset.symm)
      rw [hsame, hvalue, hcost]
    | @inside l' r' c hsource hbefore hbehind =>
      have hnext := hcounts.next_le (hsource.symm.trans hl) (by omega)
      omega
    | past hsource hpast =>
      have hle := hcounts.le_append l r
      rw [← hl] at hle
      omega
    | empty hsource hpast =>
      obtain ⟨hnil, _⟩ := List.append_eq_nil_iff.mp (hl.symm.trans hsource)
      have hstart := hcounts.start
      rw [hnil] at hoffset
      omega

end Walk

section Inverse

/-- The offset is where some of the characters of the source end. -/
def Boundary (length : List Char → ℕ) (source : List Char) (offset : ℕ) : Prop :=
  ∃ l r, source = l ++ r ∧ length l = offset

theorem utf16OffsetOf_eq_ok (source : List Char) (b u : ℕ) (cost : Cost) :
    utf16OffsetOf source b = .ok (u, cost) ↔
      ∃ l r, source = l ++ r ∧ utf8Len l = b ∧ utf16Len l = u ∧
        cost = { recordsScanned := l.length } :=
  (utf16OffsetOf_answered source b).ok_iff counts_bytes u cost

theorem byteOffsetOf_eq_ok (source : List Char) (u b : ℕ) (cost : Cost) :
    byteOffsetOf source u = .ok (b, cost) ↔
      ∃ l r, source = l ++ r ∧ utf16Len l = u ∧ utf8Len l = b ∧
        cost = { recordsScanned := l.length } :=
  (byteOffsetOf_answered source u).ok_iff counts_units b cost

/-- The two conversions are inverse exactly on scalar boundaries: each succeeds on the
boundaries of its encoding and on no other offset, each takes the answer of the other back,
at the same cost, and both keep the order of the offsets. -/
theorem offsets_inverse (source : List Char) :
    (∀ b, (∃ u cost, utf16OffsetOf source b = .ok (u, cost)) ↔ Boundary utf8Len source b) ∧
      (∀ u, (∃ b cost, byteOffsetOf source u = .ok (b, cost)) ↔ Boundary utf16Len source u) ∧
      (∀ b u cost, utf16OffsetOf source b = .ok (u, cost) ↔
        byteOffsetOf source u = .ok (b, cost)) ∧
      (∀ b b' u u' cost cost', utf16OffsetOf source b = .ok (u, cost) →
        utf16OffsetOf source b' = .ok (u', cost') → b < b' → u < u') ∧
      ∀ u u' b b' cost cost', byteOffsetOf source u = .ok (b, cost) →
        byteOffsetOf source u' = .ok (b', cost') → u < u' → b < b' := by
  refine ⟨fun b => ?_, fun u => ?_, fun b u cost => ?_, ?_, ?_⟩
  · constructor
    · rintro ⟨u, cost, hok⟩
      obtain ⟨l, r, hsource, hb, _⟩ := (utf16OffsetOf_eq_ok source b u cost).mp hok
      exact ⟨l, r, hsource, hb⟩
    · rintro ⟨l, r, hsource, hb⟩
      exact ⟨_, _, (utf16OffsetOf_eq_ok source b _ _).mpr ⟨l, r, hsource, hb, rfl, rfl⟩⟩
  · constructor
    · rintro ⟨b, cost, hok⟩
      obtain ⟨l, r, hsource, hu, _⟩ := (byteOffsetOf_eq_ok source u b cost).mp hok
      exact ⟨l, r, hsource, hu⟩
    · rintro ⟨l, r, hsource, hu⟩
      exact ⟨_, _, (byteOffsetOf_eq_ok source u _ _).mpr ⟨l, r, hsource, hu, rfl, rfl⟩⟩
  · rw [utf16OffsetOf_eq_ok, byteOffsetOf_eq_ok]
    constructor
    · rintro ⟨l, r, hsource, hb, hu, hcost⟩
      exact ⟨l, r, hsource, hu, hb, hcost⟩
    · rintro ⟨l, r, hsource, hu, hb, hcost⟩
      exact ⟨l, r, hsource, hb, hu, hcost⟩
  · intro b b' u u' cost cost' hok hok' hlt
    obtain ⟨l, r, hsource, hb, hu, _⟩ := (utf16OffsetOf_eq_ok source b u cost).mp hok
    obtain ⟨l', r', hsource', hb', hu', _⟩ := (utf16OffsetOf_eq_ok source b' u' cost').mp hok'
    rw [← hu, ← hu']
    rw [← hb, ← hb'] at hlt
    exact counts_bytes.lt_of_lt counts_units (hsource.symm.trans hsource') hlt
  · intro u u' b b' cost cost' hok hok' hlt
    obtain ⟨l, r, hsource, hu, hb, _⟩ := (byteOffsetOf_eq_ok source u b cost).mp hok
    obtain ⟨l', r', hsource', hu', hb', _⟩ := (byteOffsetOf_eq_ok source u' b' cost').mp hok'
    rw [← hb, ← hb']
    rw [← hu, ← hu'] at hlt
    exact counts_units.lt_of_lt counts_bytes (hsource.symm.trans hsource') hlt

/-- An emoji is four bytes and two units. -/
example : utf16OffsetOf "😀x".toList 4 = .ok (2, { recordsScanned := 1 }) := by decide

end Inverse

section Refusals

/-- A refusal reports what was asked and the greatest boundary that is not behind it. -/
def Reports (length : List Char → ℕ) (source : List Char) (offset : ℕ)
    (answer : Except NotOnABoundary (ℕ × Cost)) : Prop :=
  ∀ e, answer = .error e → e.offset = offset ∧
    IsGreatest {b | Boundary length source b ∧ b ≤ offset} e.previousBoundary

variable {asked answered : ℕ → ℕ → ℕ} {source : List Char} {offset : ℕ}

theorem Answered.reports_iff {answer : Except NotOnABoundary (ℕ × Cost)} (hcounts : Counts asked)
    (h : Answered asked answered source offset answer) :
    Reports (along asked) source offset answer ↔ source = [] ∨ offset ≤ along asked source := by
  cases h with
  | @on l r hsource hoffset =>
    have hle := hcounts.le_append l r
    rw [← hsource] at hle
    exact iff_of_true (fun e he => by cases he) (Or.inr (by omega))
  | @inside l r c hsource hbefore hbehind =>
    have hnext : source = (l ++ [c]) ++ r := by rw [hsource]; simp
    have hle := hcounts.le_append (l ++ [c]) r
    rw [← hnext] at hle
    refine iff_of_true (fun e he => ?_) (Or.inr (by omega))
    cases he
    refine ⟨rfl, ⟨⟨l, c :: r, hsource, rfl⟩, hbefore.le⟩, ?_⟩
    rintro b ⟨⟨l', r', hsource', hb⟩, hboundary⟩
    -- a boundary behind this one is behind the character that holds the offset
    by_contra hgreater
    have hlt : along asked l < along asked l' := by
      rw [hb]
      exact not_le.mp hgreater
    have hpast := hcounts.next_le (hsource.symm.trans hsource') hlt
    change b ≤ offset at hboundary
    omega
  | @past l c hsource hpast =>
    have hlt := hcounts.step l c
    rw [← hsource] at hlt
    refine iff_of_false (fun hreports => ?_) (fun hcond => ?_)
    · obtain ⟨_, _, hgreatest⟩ := hreports _ rfl
      have hwhole : along asked source ≤ along asked l :=
        hgreatest ⟨⟨source, [], (List.append_nil source).symm, rfl⟩, hpast.le⟩
      omega
    · rcases hcond with hnil | hle
      · rw [hnil] at hsource
        simp at hsource
      · omega
  | empty hsource hpast =>
    refine iff_of_true (fun e he => ?_) (Or.inl hsource)
    cases he
    have hstart := hcounts.start
    refine ⟨rfl, ⟨⟨[], [], hsource, hstart⟩, Nat.zero_le _⟩, ?_⟩
    rintro b ⟨⟨l, r, hl, hb⟩, _⟩
    obtain ⟨hnil, _⟩ := List.append_eq_nil_iff.mp (hl.symm.trans hsource)
    rw [hnil, hstart] at hb
    exact hb.ge

/-- A refused offset comes with the boundary before it exactly when it is not past the end
of a source that has characters. -/
theorem refusals_report_iff (source : List Char) (offset : ℕ) :
    (Reports utf8Len source offset (utf16OffsetOf source offset) ↔
        source = [] ∨ offset ≤ utf8Len source) ∧
      (Reports utf16Len source offset (byteOffsetOf source offset) ↔
        source = [] ∨ offset ≤ utf16Len source) :=
  ⟨(utf16OffsetOf_answered source offset).reports_iff counts_bytes,
    (byteOffsetOf_answered source offset).reports_iff counts_units⟩

/-- Past the end of one character the boundary reported is the start of the text. -/
theorem past_the_end_reports_start :
    utf16OffsetOf "x".toList 5 = .error ⟨5, 0⟩ ∧
      ¬ Reports utf8Len "x".toList 5 (utf16OffsetOf "x".toList 5) ∧
      byteOffsetOf "x".toList 5 = .error ⟨5, 0⟩ ∧
      ¬ Reports utf16Len "x".toList 5 (byteOffsetOf "x".toList 5) := by
  have hend : Boundary utf8Len "x".toList 1 := ⟨"x".toList, [], rfl, rfl⟩
  have hend' : Boundary utf16Len "x".toList 1 := ⟨"x".toList, [], rfl, rfl⟩
  refine ⟨rfl, fun h => ?_, rfl, fun h => ?_⟩
  · obtain ⟨_, _, hgreatest⟩ := h ⟨5, 0⟩ rfl
    have hle : 1 ≤ 0 := hgreatest ⟨hend, by omega⟩
    omega
  · obtain ⟨_, _, hgreatest⟩ := h ⟨5, 0⟩ rfl
    have hle : 1 ≤ 0 := hgreatest ⟨hend', by omega⟩
    omega

end Refusals

end CompositionIr.TextOffsets
