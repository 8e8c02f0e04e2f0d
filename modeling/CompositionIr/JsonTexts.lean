import Mathlib.Data.List.Basic
import CompositionIr.DebugText

/-!
JSON without escapes: a scanner that cuts a text into tokens, a reader of tokens, and the
tokens of a value. The scanner keeps a mode and works one character at a time, so that
texts that end between tokens may be put one after another. Strings that need no escape
are their own text.
-/

namespace CompositionIr.JsonTexts

open DebugText

inductive Value where
  | str (s : List Char)
  | num (n : ℕ)
  | bool (b : Bool)
  | arr (items : List Value)
  | obj (members : List (List Char × Value))

inductive Token where
  | punct (c : Char)
  | str (s : List Char)
  | num (n : ℕ)
  | word (s : List Char)
  deriving DecidableEq

/-- Where the scanner stands. A string or a word is held in reverse. -/
inductive Mode where
  | between
  | string (acc : List Char)
  | number (n : ℕ)
  | word (acc : List Char)
  deriving DecidableEq

def isSpace (c : Char) : Bool := c == ' ' || c == '\n' || c == '\r' || c == '\t'

def isPunct (c : Char) : Bool :=
  c == '\x7b' || c == '\x7d' || c == '[' || c == ']' || c == ':' || c == ','

def isPlain (c : Char) : Bool := c != '"' && c != '\\' && 31 < c.toNat

section Scanner

def begin (c : Char) : Option (List Token × Mode) :=
  if isSpace c then some ([], .between)
  else if isPunct c then some ([.punct c], .between)
  else if c == '"' then some ([], .string [])
  else if c.isDigit then some ([], .number (c.toNat - '0'.toNat))
  else if c.isLower then some ([], .word [c])
  else none

/-- What is put out while one character is scanned, and the next mode. -/
def step : Mode → Char → Option (List Token × Mode)
  | .between, c => begin c
  | .string acc, c =>
    if c == '"' then some ([.str acc.reverse], .between)
    else if isPlain c then some ([], .string (c :: acc))
    else none
  | .number n, c =>
    if c.isDigit then some ([], .number (10 * n + (c.toNat - '0'.toNat)))
    else (begin c).map (fun next => (.num n :: next.1, next.2))
  | .word acc, c =>
    if c.isLower then some ([], .word (c :: acc))
    else (begin c).map (fun next => (.word acc.reverse :: next.1, next.2))

def scan : Mode → List Char → Option (List Token × Mode)
  | mode, [] => some ([], mode)
  | mode, c :: rest => do
    let (first, mode) ← step mode c
    let (others, mode) ← scan mode rest
    return (first ++ others, mode)

def lex (text : List Char) : Option (List Token) :=
  match scan .between text with
  | some (tokens, .between) => some tokens
  | _ => none

/-- A text that is cut into these tokens wherever it stands between two others. -/
def Lexes (text : List Char) (tokens : List Token) : Prop :=
  scan .between text = some (tokens, .between)

theorem scan_cons {mode next last : Mode} {c : Char} {rest : List Char}
    {first others : List Token} (hstep : step mode c = some (first, next))
    (hrest : scan next rest = some (others, last)) :
    scan mode (c :: rest) = some (first ++ others, last) := by
  unfold scan
  rw [hstep]
  change (scan next rest >>= _) = _
  rw [hrest]
  rfl

theorem scan_append {mode mid last : Mode} {left right : List Char} {ls rs : List Token}
    (hl : scan mode left = some (ls, mid)) (hr : scan mid right = some (rs, last)) :
    scan mode (left ++ right) = some (ls ++ rs, last) := by
  induction left generalizing mode ls with
  | nil =>
    obtain ⟨rfl, rfl⟩ := Prod.mk.inj (Option.some.inj hl)
    exact hr
  | cons c rest ih =>
    unfold scan at hl
    obtain ⟨⟨first, next⟩, hfirst, hrest⟩ := Option.bind_eq_some_iff.mp hl
    obtain ⟨⟨others, end'⟩, hothers, hpair⟩ := Option.bind_eq_some_iff.mp hrest
    obtain ⟨rfl, rfl⟩ := Prod.mk.inj (Option.some.inj hpair)
    rw [List.append_assoc]
    exact scan_cons hfirst (ih hothers)

theorem Lexes.append {left right : List Char} {ls rs : List Token} (hl : Lexes left ls)
    (hr : Lexes right rs) : Lexes (left ++ right) (ls ++ rs) :=
  scan_append hl hr

theorem lexes_nil : Lexes [] [] := rfl

theorem lex_eq_some {text : List Char} {tokens : List Token} (h : Lexes text tokens) :
    lex text = some tokens := by
  unfold Lexes at h
  unfold lex
  rw [h]

/-- Plain characters are collected. -/
theorem scan_string (s acc : List Char) (hs : ∀ c ∈ s, isPlain c = true) :
    scan (.string acc) s = some ([], .string (s.reverse ++ acc)) := by
  induction s generalizing acc with
  | nil => rfl
  | cons c rest ih =>
    have hc := hs c (List.mem_cons_self ..)
    have hquote : (c == '"') = false := by
      unfold isPlain at hc
      simp only [Bool.and_eq_true, bne_iff_ne, ne_eq] at hc
      exact beq_eq_false_iff_ne.mpr hc.1.1
    have hstep : step (.string acc) c = some ([], .string (c :: acc)) := by
      change (if (c == '"') = true then _ else if isPlain c = true then _ else _) = _
      rw [hquote, hc]
      rfl
    rw [scan_cons hstep (ih (c :: acc) (fun d hd => hs d (List.mem_cons_of_mem c hd)))]
    simp

/-- Digits add up to the number they write. -/
theorem scan_digits (ds : List Char) (n : ℕ) (hds : ∀ c ∈ ds, c.isDigit = true) :
    scan (.number n) ds = some ([], .number (Nat.ofDigitChars 10 ds n)) := by
  induction ds generalizing n with
  | nil => rfl
  | cons c rest ih =>
    have hc := hds c (List.mem_cons_self ..)
    have hstep : step (.number n) c = some ([], .number (10 * n + (c.toNat - '0'.toNat))) :=
      if_pos hc
    rw [scan_cons hstep (ih _ (fun d hd => hds d (List.mem_cons_of_mem c hd))),
      Nat.ofDigitChars_cons]
    rfl

theorem not_punct_of_isDigit {c : Char} (hc : c.isDigit = true) :
    isSpace c = false ∧ isPunct c = false ∧ (c == '"') = false := by
  have hne : ∀ d : Char, d.isDigit = false → (c == d) = false := by
    intro d hd
    apply beq_eq_false_iff_ne.mpr
    intro heq
    rw [heq, hd] at hc
    cases hc
  unfold isSpace isPunct
  refine ⟨?_, ?_, hne _ (by decide)⟩
  · rw [hne ' ' (by decide), hne '\n' (by decide), hne '\r' (by decide), hne '\t' (by decide)]
    rfl
  · rw [hne '\x7b' (by decide), hne '\x7d' (by decide), hne '[' (by decide),
      hne ']' (by decide), hne ':' (by decide), hne ',' (by decide)]
    rfl

/-- A number in decimal is read as that number once something else follows. -/
theorem scan_decimal (n : ℕ) : scan .between (decimal n) = some ([], .number n) := by
  have hdigits : ∀ c ∈ decimal n, c.isDigit = true := fun c hc => isDigit_of_mem_decimal hc
  have hvalue : Nat.ofDigitChars 10 (decimal n) 0 = n := by simp [decimal]
  rcases hd : decimal n with _ | ⟨c, rest⟩
  · have hlen : decimal n ≠ [] := by simp [decimal]
    exact absurd hd hlen
  · rw [hd] at hdigits hvalue
    have hc := hdigits c (List.mem_cons_self ..)
    obtain ⟨hspace, hpunct, hquote⟩ := not_punct_of_isDigit hc
    have hbegin : step .between c = some ([], .number (c.toNat - '0'.toNat)) := by
      change begin c = _
      unfold begin
      simp [hspace, hpunct, hquote, hc]
    rw [Nat.ofDigitChars_cons, Nat.mul_zero, Nat.zero_add] at hvalue
    rw [scan_cons hbegin (scan_digits rest _
      (fun d hd => hdigits d (List.mem_cons_of_mem c hd))), hvalue]
    rfl

/-- A string of plain characters between two pieces of fixed text. -/
theorem scan_text {mode last : Mode} {before v behind : List Char} {ls rs : List Token}
    (hbefore : scan mode before = some (ls, .string []))
    (hv : ∀ c ∈ v, isPlain c = true)
    (hbehind : ∀ acc, scan (.string acc) behind = some (.str acc.reverse :: rs, last)) :
    scan mode (before ++ v ++ behind) = some (ls ++ .str v :: rs, last) := by
  have hend := hbehind (v.reverse ++ [])
  rw [List.append_nil, List.reverse_reverse] at hend
  have hmid := scan_append hbefore (scan_string v [] hv)
  rw [List.append_nil, List.append_nil] at hmid
  exact scan_append hmid hend

/-- A number between two pieces of fixed text. -/
theorem scan_number {mode last : Mode} {before behind : List Char} {ls rs : List Token} (n : ℕ)
    (hbefore : scan mode before = some (ls, .between))
    (hbehind : ∀ n, scan (.number n) behind = some (.num n :: rs, last)) :
    scan mode (before ++ decimal n ++ behind) = some (ls ++ .num n :: rs, last) := by
  have hmid := scan_append hbefore (scan_decimal n)
  rw [List.append_nil] at hmid
  exact scan_append hmid (hbehind n)

end Scanner

section Reader

def trueWord : List Char := ['t', 'r', 'u', 'e']

def falseWord : List Char := ['f', 'a', 'l', 's', 'e']

mutual

def tokens : Value → List Token
  | .str s => [.str s]
  | .num n => [.num n]
  | .bool true => [.word trueWord]
  | .bool false => [.word falseWord]
  | .arr [] => [.punct '[', .punct ']']
  | .arr (v :: items) => .punct '[' :: (tokens v ++ itemTokens items)
  | .obj [] => [.punct '\x7b', .punct '\x7d']
  | .obj ((k, v) :: members) =>
    .punct '\x7b' :: .str k :: .punct ':' :: (tokens v ++ memberTokens members)

def itemTokens : List Value → List Token
  | [] => [.punct ']']
  | v :: items => .punct ',' :: (tokens v ++ itemTokens items)

def memberTokens : List (List Char × Value) → List Token
  | [] => [.punct '\x7d']
  | (k, v) :: members => .punct ',' :: .str k :: .punct ':' :: (tokens v ++ memberTokens members)

end

mutual

def readValue : ℕ → List Token → Option (Value × List Token)
  | 0, _ => none
  | _ + 1, [] => none
  | _ + 1, .str s :: rest => some (.str s, rest)
  | _ + 1, .num n :: rest => some (.num n, rest)
  | _ + 1, .word w :: rest =>
    if w = trueWord then some (.bool true, rest)
    else if w = falseWord then some (.bool false, rest)
    else none
  | fuel + 1, .punct c :: rest =>
    if c = '[' then
      if rest.head? = some (.punct ']') then some (.arr [], rest.tail)
      else do
        let (v, rest) ← readValue fuel rest
        let (items, rest) ← readItems fuel rest
        return (.arr (v :: items), rest)
    else if c = '\x7b' then
      if rest.head? = some (.punct '\x7d') then some (.obj [], rest.tail)
      else do
        let (member, rest) ← readMember fuel rest
        let (members, rest) ← readMembers fuel rest
        return (.obj (member :: members), rest)
    else none

def readItems : ℕ → List Token → Option (List Value × List Token)
  | 0, _ => none
  | fuel + 1, tokens =>
    if tokens.head? = some (.punct ']') then some ([], tokens.tail)
    else if tokens.head? = some (.punct ',') then do
      let (v, rest) ← readValue fuel tokens.tail
      let (items, rest) ← readItems fuel rest
      return (v :: items, rest)
    else none

def readMembers : ℕ → List Token → Option (List (List Char × Value) × List Token)
  | 0, _ => none
  | fuel + 1, tokens =>
    if tokens.head? = some (.punct '\x7d') then some ([], tokens.tail)
    else if tokens.head? = some (.punct ',') then do
      let (member, rest) ← readMember fuel tokens.tail
      let (members, rest) ← readMembers fuel rest
      return (member :: members, rest)
    else none

def readMember : ℕ → List Token → Option ((List Char × Value) × List Token)
  | 0, _ => none
  | fuel + 1, .str k :: .punct ':' :: rest => do
    let (v, rest) ← readValue fuel rest
    return ((k, v), rest)
  | _ + 1, _ => none

end

def readText (text : List Char) : Option Value := do
  let found ← lex text
  match readValue found.length found with
  | some (v, []) => some v
  | _ => none

def commaTokens : List Value → List Token
  | [] => []
  | [v] => tokens v
  | v :: w :: rest => tokens v ++ .punct ',' :: commaTokens (w :: rest)

theorem tokens_arr (items : List Value) :
    tokens (.arr items) = .punct '[' :: (commaTokens items ++ [.punct ']']) := by
  have htail : ∀ (v : Value) (rest : List Value),
      tokens v ++ itemTokens rest = commaTokens (v :: rest) ++ [.punct ']'] := by
    intro v rest
    induction rest generalizing v with
    | nil => rfl
    | cons w rest ih =>
      simp only [itemTokens, commaTokens, List.append_assoc, List.cons_append]
      rw [ih w]
  cases items with
  | nil => rfl
  | cons v rest =>
    simp only [tokens]
    rw [htail v rest]

theorem head_tokens (v : Value) (rest : List Token) :
    (tokens v ++ rest).head? ≠ some (.punct ']') := by
  cases v with
  | str s => simp [tokens]
  | num n => simp [tokens]
  | bool b => cases b <;> simp [tokens]
  | arr items => cases items <;> simp [tokens]
  | obj members =>
    rcases members with _ | ⟨⟨k, w⟩, members⟩ <;> simp [tokens]

theorem readMember_eq_some {fuel : ℕ} {k : List Char} {v : Value} {text rest : List Token}
    (hv : readValue fuel text = some (v, rest)) :
    readMember (fuel + 1) (.str k :: .punct ':' :: text) = some ((k, v), rest) := by
  simp only [readMember]
  rw [hv]
  rfl

mutual

/-- The reader gives a value back from its tokens, and stops behind them. -/
theorem readValue_tokens : ∀ (v : Value) (fuel : ℕ) (rest : List Token),
    (tokens v).length ≤ fuel → readValue fuel (tokens v ++ rest) = some (v, rest)
  | .str s, fuel, rest, hfuel => by
    obtain ⟨fuel, rfl⟩ := Nat.exists_eq_add_of_lt hfuel
    simp [tokens, readValue]
  | .num n, fuel, rest, hfuel => by
    obtain ⟨fuel, rfl⟩ := Nat.exists_eq_add_of_lt hfuel
    simp [tokens, readValue]
  | .bool true, fuel, rest, hfuel => by
    obtain ⟨fuel, rfl⟩ := Nat.exists_eq_add_of_lt hfuel
    simp [tokens, readValue]
  | .bool false, fuel, rest, hfuel => by
    obtain ⟨fuel, rfl⟩ := Nat.exists_eq_add_of_lt hfuel
    simp [tokens, readValue, trueWord, falseWord]
  | .arr [], fuel, rest, hfuel => by
    simp only [tokens, List.length_cons] at hfuel
    obtain ⟨fuel, rfl⟩ := Nat.exists_eq_add_of_lt hfuel
    simp [tokens, readValue]
  | .arr (v :: items), fuel, rest, hfuel => by
    simp only [tokens, List.length_cons, List.length_append] at hfuel
    obtain ⟨fuel, rfl⟩ := Nat.exists_eq_succ_of_ne_zero (show fuel ≠ 0 by omega)
    have hv := readValue_tokens v fuel (itemTokens items ++ rest) (by omega)
    have hitems := readItems_tokens items fuel rest (by omega)
    have hhead := head_tokens v (itemTokens items ++ rest)
    simp only [tokens, List.cons_append, List.append_assoc, readValue, if_true, if_neg hhead]
    rw [hv, Option.bind_eq_bind, Option.bind_some, hitems]
    rfl
  | .obj [], fuel, rest, hfuel => by
    simp only [tokens, List.length_cons] at hfuel
    obtain ⟨fuel, rfl⟩ := Nat.exists_eq_add_of_lt hfuel
    simp [tokens, readValue]
  | .obj ((k, v) :: members), fuel, rest, hfuel => by
    simp only [tokens, List.length_cons, List.length_append] at hfuel
    obtain ⟨fuel, rfl⟩ := Nat.exists_eq_add_of_le' (show 2 ≤ fuel by omega)
    have hv := readValue_tokens v fuel (memberTokens members ++ rest) (by omega)
    have hmembers := readMembers_tokens members (fuel + 1) rest (by omega)
    change readValue (fuel + 1 + 1) _ = _
    simp only [tokens, List.cons_append, List.append_assoc, readValue, List.head?_cons,
      Option.some.injEq, reduceCtorEq, Char.reduceEq, if_true, if_false]
    rw [readMember_eq_some hv, Option.bind_eq_bind, Option.bind_some, hmembers]
    rfl

theorem readItems_tokens : ∀ (items : List Value) (fuel : ℕ) (rest : List Token),
    (itemTokens items).length ≤ fuel →
      readItems fuel (itemTokens items ++ rest) = some (items, rest)
  | [], fuel, rest, hfuel => by
    obtain ⟨fuel, rfl⟩ := Nat.exists_eq_add_of_lt hfuel
    simp [itemTokens, readItems]
  | v :: items, fuel, rest, hfuel => by
    simp only [itemTokens, List.length_cons, List.length_append] at hfuel
    obtain ⟨fuel, rfl⟩ := Nat.exists_eq_succ_of_ne_zero (show fuel ≠ 0 by omega)
    have hv := readValue_tokens v fuel (itemTokens items ++ rest) (by omega)
    have hitems := readItems_tokens items fuel rest (by omega)
    simp only [itemTokens, List.cons_append, List.append_assoc, readItems, List.head?_cons,
      Option.some.injEq, Token.punct.injEq, Char.reduceEq, if_true, if_false, List.tail_cons]
    rw [hv, Option.bind_eq_bind, Option.bind_some, hitems]
    rfl

theorem readMembers_tokens : ∀ (members : List (List Char × Value)) (fuel : ℕ)
    (rest : List Token), (memberTokens members).length ≤ fuel →
      readMembers fuel (memberTokens members ++ rest) = some (members, rest)
  | [], fuel, rest, hfuel => by
    obtain ⟨fuel, rfl⟩ := Nat.exists_eq_add_of_lt hfuel
    simp [memberTokens, readMembers]
  | (k, v) :: members, fuel, rest, hfuel => by
    simp only [memberTokens, List.length_cons, List.length_append] at hfuel
    obtain ⟨fuel, rfl⟩ := Nat.exists_eq_add_of_le' (show 2 ≤ fuel by omega)
    have hv := readValue_tokens v fuel (memberTokens members ++ rest) (by omega)
    have hmembers := readMembers_tokens members (fuel + 1) rest (by omega)
    change readMembers (fuel + 1 + 1) _ = _
    simp only [memberTokens, List.cons_append, List.append_assoc]
    rw [readMembers]
    simp only [List.head?_cons, Option.some.injEq, Token.punct.injEq, Char.reduceEq, if_true,
      if_false, List.tail_cons]
    rw [readMember_eq_some hv, Option.bind_eq_bind, Option.bind_some, hmembers]
    rfl

end

/-- A text that is cut into the tokens of a value is read as that value. -/
theorem readText_of_lexes {text : List Char} {v : Value} (h : Lexes text (tokens v)) :
    readText text = some v := by
  have hread := readValue_tokens v (tokens v).length [] le_rfl
  rw [List.append_nil] at hread
  unfold readText
  rw [lex_eq_some h]
  change (match readValue (tokens v).length (tokens v) with
    | some (v, []) => some v
    | _ => none) = some v
  rw [hread]

end Reader

end CompositionIr.JsonTexts
