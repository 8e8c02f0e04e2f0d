import CompositionIr.Manifests

/-!
The manifest read back. What the writer puts out is the text of one JSON value, because no
name in it needs escaping; and that value is the table of the target, entry by entry.
-/

namespace CompositionIr.ManifestReading

open Addresses Records DebugText JsonTexts Layouts Manifests

inductive Entry where
  | scalar (name : String) (size align : ℕ) (repr : String) (nonzero : Bool)
  | enumeration (name : String) (size align : ℕ) (variants : List (String × ℕ))
  | bitset (size align : ℕ) (flags : List (String × ℕ))
  | aggregate (name : String) (size align : ℕ) (fields : List Field)
  deriving DecidableEq

structure Manifest where
  format : ℕ
  target : TargetAbi
  types : List Entry
  deriving DecidableEq

section Values

def strMember (key value : String) : List Char × Value := (key.toList, .str value.toList)

def numMember (key : String) (n : ℕ) : List Char × Value := (key.toList, .num n)

def namedValue (key : String) (entry : String × ℕ) : Value :=
  .obj [strMember "name" entry.1, numMember key entry.2]

def fieldValue (f : Field) : Value :=
  .obj [strMember "name" f.name, strMember "type" f.ty, numMember "offset" f.offset]

def Entry.value : Entry → Value
  | .scalar name size align repr nonzero =>
    .obj [strMember "name" name, strMember "kind" "scalar", numMember "size" size,
      numMember "align" align, strMember "repr" repr, ("nonzero".toList, .bool nonzero)]
  | .enumeration name size align variants =>
    .obj [strMember "name" name, strMember "kind" "enum", numMember "size" size,
      numMember "align" align, strMember "repr" "u8",
      ("variants".toList, .arr (variants.map (namedValue "value")))]
  | .bitset size align flags =>
    .obj [strMember "name" "Parts", strMember "kind" "bitset", numMember "size" size,
      numMember "align" align, strMember "repr" "u16", strMember "of" "Part",
      ("flags".toList, .arr (flags.map (namedValue "bit")))]
  | .aggregate name size align fields =>
    .obj [strMember "name" name, strMember "kind" "struct", numMember "size" size,
      numMember "align" align, ("fields".toList, .arr (fields.map fieldValue))]

def targetValue (abi : TargetAbi) : Value :=
  .obj [numMember "pointer_width" abi.pointerWidth, numMember "u64_align" abi.u64Align,
    strMember "endian" abi.endian]

def Manifest.value (m : Manifest) : Value :=
  .obj [numMember "manifest_format" m.format,
    strMember "generated_by" generator,
    ("target".toList, targetValue m.target), ("types".toList, .arr (m.types.map Entry.value))]

end Values

section Lines

/-- No character of the name needs an escape. -/
def Plain (name : String) : Prop := ∀ c ∈ name.toList, isPlain c = true

theorem lexes_spaces (level : ℕ) : Lexes (spaces level) [] := by
  induction level with
  | zero => rfl
  | succ level ih =>
    have hblank : step .between ' ' = some ([], .between) := rfl
    exact scan_cons hblank (scan_cons hblank ih)

section Pieces

variable (name : String) (n : ℕ)

/-- The rest of a line behind a name or a number. -/
theorem scan_quoteComma (acc : List Char) :
    scan (.string acc) "\",".toList = some ([.str acc.reverse, .punct ','], .between) := rfl

theorem scan_numComma : scan (.number n) ",".toList = some ([.num n, .punct ','], .between) := rfl

theorem lexes_nameLine (hname : Plain name) :
    Lexes (nameLine name) [.str "name".toList, .punct ':', .str name.toList, .punct ','] := by
  have hkey : scan .between "\"name\": \"".toList =
      some ([.str "name".toList, .punct ':'], .string []) := rfl
  exact scan_text hkey hname scan_quoteComma

theorem lexes_sizeLine :
    Lexes (sizeLine n) [.str "size".toList, .punct ':', .num n, .punct ','] := by
  have hkey : scan .between "\"size\": ".toList =
      some ([.str "size".toList, .punct ':'], .between) := rfl
  exact scan_number n hkey scan_numComma

theorem lexes_alignLine :
    Lexes (alignLine n) [.str "align".toList, .punct ':', .num n, .punct ','] := by
  have hkey : scan .between "\"align\": ".toList =
      some ([.str "align".toList, .punct ':'], .between) := rfl
  exact scan_number n hkey scan_numComma

theorem lexes_reprLine (hname : Plain name) :
    Lexes ("\"repr\": \"".toList ++ name.toList ++ "\",".toList)
      [.str "repr".toList, .punct ':', .str name.toList, .punct ','] := by
  have hkey : scan .between "\"repr\": \"".toList =
      some ([.str "repr".toList, .punct ':'], .string []) := rfl
  exact scan_text hkey hname scan_quoteComma

/-- A named number on one line, whatever its second key is. -/
theorem lexes_named (key : String) (entry : String × ℕ) (hname : Plain entry.1) (mid : List Char)
    (hmid : ∀ acc, scan (.string acc) mid =
      some ([.str acc.reverse, .punct ',', .str key.toList, .punct ':'], .between)) :
    Lexes ("\x7b \"name\": \"".toList ++ entry.1.toList ++ mid ++ decimal entry.2 ++
      " \x7d".toList) (tokens (namedValue key entry)) := by
  have hkey : scan .between "\x7b \"name\": \"".toList =
      some ([.punct '\x7b', .str "name".toList, .punct ':'], .string []) := rfl
  have hclose : ∀ n, scan (.number n) " \x7d".toList =
      some ([.num n, .punct '\x7d'], .between) := fun _ => rfl
  exact scan_number entry.2 (scan_text hkey hname hmid) hclose

theorem lexes_fieldLine (f : Field) (hname : Plain f.name) (hty : Plain f.ty) :
    Lexes ("\x7b \"name\": \"".toList ++ f.name.toList ++ "\", \"type\": \"".toList ++
      f.ty.toList ++ "\", \"offset\": ".toList ++ decimal f.offset ++ " \x7d".toList)
      (tokens (fieldValue f)) := by
  have hkey : scan .between "\x7b \"name\": \"".toList =
      some ([.punct '\x7b', .str "name".toList, .punct ':'], .string []) := rfl
  have hmid : ∀ acc, scan (.string acc) "\", \"type\": \"".toList =
      some ([.str acc.reverse, .punct ',', .str "type".toList, .punct ':'], .string []) :=
    fun _ => rfl
  have hoffset : ∀ acc, scan (.string acc) "\", \"offset\": ".toList =
      some ([.str acc.reverse, .punct ',', .str "offset".toList, .punct ':'], .between) :=
    fun _ => rfl
  have hclose : ∀ n, scan (.number n) " \x7d".toList =
      some ([.num n, .punct '\x7d'], .between) := fun _ => rfl
  exact scan_number f.offset (scan_text (scan_text hkey hname hmid) hty hoffset) hclose

end Pieces

end Lines

/-- What the writer put out since `j` is cut into these tokens. -/
def Emits (j j' : Json) (ts : List Token) : Prop :=
  ∃ text, j'.out = j.out ++ text ∧ Lexes text ts

section Emission

variable {j j' : Json} {ts us : List Token} {s : List Char}

theorem emits_refl (j : Json) : Emits j j [] := ⟨[], by rw [List.append_nil], lexes_nil⟩

/-- A line may end in a word, which the end of the line closes. -/
theorem Emits.lineEnd (h : Emits j j' ts) (hs : Lexes (s ++ ['\n']) us) :
    Emits j (j'.line s) (ts ++ us) := by
  obtain ⟨text, hout, htext⟩ := h
  have hline := (lexes_spaces j'.indent).append hs
  refine ⟨text ++ (spaces j'.indent ++ (s ++ ['\n'])), ?_, htext.append hline⟩
  change j'.out ++ spaces j'.indent ++ s ++ ['\n'] = _
  rw [hout]
  simp only [List.append_assoc]

theorem Emits.line (h : Emits j j' ts) (hs : Lexes s us) : Emits j (j'.line s) (ts ++ us) := by
  have hend : Lexes ['\n'] [] := rfl
  have hline := hs.append hend
  rw [List.append_nil] at hline
  exact h.lineEnd hline

theorem Emits.open (h : Emits j j' ts) (hs : Lexes s us) : Emits j (j'.open s) (ts ++ us) :=
  h.line hs

theorem Emits.close (h : Emits j j' ts) (hs : Lexes s us) : Emits j (j'.close s) (ts ++ us) := by
  have hlevel : Emits j { j' with indent := j'.indent - 1 } ts := h
  exact hlevel.line hs

/-- A line for each item, with commas between them. -/
theorem Emits.lines {α : Type} {items : List α} {line : α → List Char} {value : α → Value}
    (h : Emits j j' ts) (hline : ∀ x ∈ items, Lexes (line x) (tokens (value x))) :
    Emits j (Manifests.lines j' items line) (ts ++ commaTokens (items.map value)) := by
  have hloop : ∀ (rest : List α) (start : ℕ) (j' : Json) (ts : List Token), Emits j j' ts →
      (∀ x ∈ rest, Lexes (line x) (tokens (value x))) →
      Emits j ((rest.zipIdx start).foldl (fun j entry =>
        j.line (line entry.1 ++ comma entry.2 (start + rest.length))) j')
        (ts ++ commaTokens (rest.map value)) := by
    intro rest
    induction rest with
    | nil =>
      intro start j' ts h _
      rw [List.map_nil, commaTokens, List.append_nil]
      exact h
    | cons x rest ih =>
      intro start j' ts h hall
      have hx := hall x (List.mem_cons_self ..)
      have hrest : ∀ y ∈ rest, Lexes (line y) (tokens (value y)) :=
        fun y hy => hall y (List.mem_cons_of_mem x hy)
      have htotal : start + (x :: rest).length = start + 1 + rest.length := by
        rw [List.length_cons]
        omega
      rw [List.zipIdx_cons, List.foldl_cons, htotal]
      rcases rest with _ | ⟨y, rest⟩
      · -- the last item has no comma
        have hcomma : comma start (start + 1 + ([] : List α).length) = [] := if_pos rfl
        rw [hcomma, List.append_nil]
        exact h.line hx
      · have hcomma : comma start (start + 1 + (y :: rest).length) = [','] := by
          refine if_neg ?_
          rw [List.length_cons]
          omega
        have hsep : Lexes [','] [.punct ','] := rfl
        rw [hcomma]
        have hone := ih (start + 1) (j'.line (line x ++ [','])) _ (h.line (hx.append hsep)) hrest
        simp only [List.map_cons, commaTokens, List.append_assoc, List.cons_append,
          List.nil_append] at hone ⊢
        exact hone
  have hall := hloop items 0 j' ts h hline
  rw [Nat.zero_add] at hall
  exact hall

theorem Emits.congr (h : Emits j j' ts) (heq : ts = us) : Emits j j' us := by
  rw [← heq]
  exact h

theorem Emits.trans {j'' : Json} (h : Emits j j' ts) (h' : Emits j' j'' us) :
    Emits j j'' (ts ++ us) := by
  obtain ⟨text, hout, htext⟩ := h
  obtain ⟨more, hmore, hlexes⟩ := h'
  exact ⟨text ++ more, by rw [hmore, hout, List.append_assoc], htext.append hlexes⟩

end Emission

section Entries

variable (j : Json) (name : String) (size align : ℕ)

theorem emitScalar_emits (repr : String) (nonzero : Bool) (hname : Plain name)
    (hrepr : Plain repr) : Emits j (emitScalar j name size align repr nonzero)
      (tokens (Entry.scalar name size align repr nonzero).value ++ [.punct ',']) := by
  have hopen : Lexes "\x7b".toList [.punct '\x7b'] := rfl
  have hkind : Lexes "\"kind\": \"scalar\",".toList
      [.str "kind".toList, .punct ':', .str "scalar".toList, .punct ','] := rfl
  have hclose : Lexes "\x7d,".toList [.punct '\x7d', .punct ','] := rfl
  have hnonzero : Lexes ("\"nonzero\": ".toList ++ (if nonzero then "true" else "false").toList ++
      ['\n'])
      [.str "nonzero".toList, .punct ':', .word (if nonzero then trueWord else falseWord)] := by
    cases nonzero <;> rfl
  have hall := ((((((((emits_refl j).open hopen).line (lexes_nameLine name hname)).line
    hkind).line (lexes_sizeLine size)).line (lexes_alignLine align)).line
    (lexes_reprLine repr hrepr)).lineEnd hnonzero).close hclose
  cases nonzero <;> exact hall

theorem emitEnum_emits (variants : List (String × ℕ)) (hname : Plain name)
    (hvariants : ∀ v ∈ variants, Plain v.1) : Emits j (emitEnum j name size align variants)
      (tokens (Entry.enumeration name size align variants).value ++ [.punct ',']) := by
  have hopen : Lexes "\x7b".toList [.punct '\x7b'] := rfl
  have hkind : Lexes "\"kind\": \"enum\",".toList
      [.str "kind".toList, .punct ':', .str "enum".toList, .punct ','] := rfl
  have hrepr : Lexes "\"repr\": \"u8\",".toList
      [.str "repr".toList, .punct ':', .str "u8".toList, .punct ','] := rfl
  have hlist : Lexes "\"variants\": [".toList
      [.str "variants".toList, .punct ':', .punct '['] := rfl
  have hbracket : Lexes "]".toList [.punct ']'] := rfl
  have hclose : Lexes "\x7d,".toList [.punct '\x7d', .punct ','] := rfl
  have hmid : ∀ acc, scan (.string acc) "\", \"value\": ".toList =
      some ([.str acc.reverse, .punct ',', .str "value".toList, .punct ':'], .between) :=
    fun _ => rfl
  have hhead := (((((((emits_refl j).open hopen).line (lexes_nameLine name hname)).line
    hkind).line (lexes_sizeLine size)).line (lexes_alignLine align)).line hrepr).open hlist
  have hall := ((hhead.lines (fun v hv => lexes_named "value" v (hvariants v hv) _ hmid)).close
    hbracket).close hclose
  exact hall.congr (by simp only [Entry.value, strMember, numMember, tokens, memberTokens,
    tokens_arr, List.append_assoc, List.cons_append, List.nil_append])

theorem emitParts_emits (flags : List (String × ℕ)) (hflags : ∀ v ∈ flags, Plain v.1) :
    Emits j (emitParts j size align flags)
      (tokens (Entry.bitset size align flags).value ++ [.punct ',']) := by
  have hopen : Lexes "\x7b".toList [.punct '\x7b'] := rfl
  have hname : Lexes "\"name\": \"Parts\",".toList
      [.str "name".toList, .punct ':', .str "Parts".toList, .punct ','] := rfl
  have hkind : Lexes "\"kind\": \"bitset\",".toList
      [.str "kind".toList, .punct ':', .str "bitset".toList, .punct ','] := rfl
  have hrepr : Lexes "\"repr\": \"u16\",".toList
      [.str "repr".toList, .punct ':', .str "u16".toList, .punct ','] := rfl
  have hof : Lexes "\"of\": \"Part\",".toList
      [.str "of".toList, .punct ':', .str "Part".toList, .punct ','] := rfl
  have hlist : Lexes "\"flags\": [".toList
      [.str "flags".toList, .punct ':', .punct '['] := rfl
  have hbracket : Lexes "]".toList [.punct ']'] := rfl
  have hclose : Lexes "\x7d,".toList [.punct '\x7d', .punct ','] := rfl
  have hmid : ∀ acc, scan (.string acc) "\", \"bit\": ".toList =
      some ([.str acc.reverse, .punct ',', .str "bit".toList, .punct ':'], .between) :=
    fun _ => rfl
  have hhead := ((((((((emits_refl j).open hopen).line hname).line hkind).line
    (lexes_sizeLine size)).line (lexes_alignLine align)).line hrepr).line hof).open hlist
  have hall := ((hhead.lines (fun v hv => lexes_named "bit" v (hflags v hv) _ hmid)).close
    hbracket).close hclose
  exact hall.congr (by simp only [Entry.value, strMember, numMember, tokens, memberTokens,
    tokens_arr, List.append_assoc, List.cons_append, List.nil_append])

theorem emitStruct_emits (fields : List Field) (last : Bool) (hname : Plain name)
    (hfields : ∀ f ∈ fields, Plain f.name ∧ Plain f.ty) :
    Emits j (emitStruct j name size align fields last)
      (tokens (Entry.aggregate name size align fields).value ++
        if last then [] else [.punct ',']) := by
  have hopen : Lexes "\x7b".toList [.punct '\x7b'] := rfl
  have hkind : Lexes "\"kind\": \"struct\",".toList
      [.str "kind".toList, .punct ':', .str "struct".toList, .punct ','] := rfl
  have hlist : Lexes "\"fields\": [".toList
      [.str "fields".toList, .punct ':', .punct '['] := rfl
  have hbracket : Lexes "]".toList [.punct ']'] := rfl
  have hclose : Lexes (if last then "\x7d".toList else "\x7d,".toList)
      (.punct '\x7d' :: if last then [] else [.punct ',']) := by
    cases last <;> rfl
  have hhead := ((((((emits_refl j).open hopen).line (lexes_nameLine name hname)).line
    hkind).line (lexes_sizeLine size)).line (lexes_alignLine align)).open hlist
  have hall := ((hhead.lines (fun f hf =>
    lexes_fieldLine f (hfields f hf).1 (hfields f hf).2)).close hbracket).close hclose
  exact hall.congr (by simp only [Entry.value, strMember, numMember, tokens, memberTokens,
    tokens_arr, List.append_assoc, List.cons_append, List.nil_append])

end Entries

section Tables

instance decidablePlain (name : String) : Decidable (Plain name) :=
  List.decidableBAll (fun c => isPlain c = true) name.toList

def fieldsAt (shapes : List Shape) (fields : List (String × String)) : List Field :=
  fields.zipIdx.map (fun entry => ⟨entry.1.1, entry.1.2, offsetOf shapes entry.2⟩)

def aggregateEntry (name : String) (shapes : List Shape) (fields : List (String × String)) :
    Entry :=
  .aggregate name (aggregate shapes).size (aggregate shapes).align (fieldsAt shapes fields)

def entries (abi : TargetAbi) : List Entry :=
  [.scalar "Domain" 8 abi.u64Align "u64" true,
    .scalar "Revision" 8 abi.u64Align "u64" true,
    .enumeration "Space" 1 1 (allSpaces.map (fun s => (spaceName s, s.discriminant))),
    .enumeration "Part" 1 1 (allParts.map (fun p => (partName p, p.discriminant))),
    .enumeration "ResourceRole" 1 1
      (allResourceRoles.map (fun r => (roleName r, roleDiscriminant r))),
    .bitset 2 2 (allParts.map (fun p => (partName p, (Parts.of p).bits.toNat))),
    aggregateEntry "SnapshotVersion" (snapshotVersionFields abi)
      [("domain", "Domain"), ("revision", "Revision")],
    aggregateEntry "Id" (idFields abi) [("domain", "Domain"), ("ordinal", "NonZeroU64")],
    aggregateEntry "Address" (addressFields abi) [("space", "Space"), ("id", "Id")],
    aggregateEntry "Diff" (diffFields abi) [("address", "Address"), ("parts", "Parts")],
    aggregateEntry "Rect" (rectFields abi)
      [("x", "i64"), ("y", "i64"), ("width", "i64"), ("height", "i64")],
    aggregateEntry "ResourceRef" (resourceRefFields abi)
      [("role", "ResourceRole"), ("address", "Address")],
    aggregateEntry "CirBytes" (viewFields abi) [("ptr", "u8"), ("len", "usize")],
    aggregateEntry "CirAddresses" (viewFields abi) [("ptr", "Address"), ("len", "usize")],
    aggregateEntry "CirResources" (viewFields abi) [("ptr", "ResourceRef"), ("len", "usize")],
    aggregateEntry "CirFragments" (viewFields abi) [("ptr", "u32"), ("len", "usize")],
    aggregateEntry "Rgba" rgbaFields [("r", "u8"), ("g", "u8"), ("b", "u8"), ("a", "u8")]]

def manifest (abi : TargetAbi) : Manifest := ⟨manifestFormat, abi, entries abi⟩

theorem emitAggregate_emits (j : Json) (name : String) (shapes : List Shape)
    (fields : List (String × String)) (last : Bool) (hname : Plain name)
    (hfields : ∀ f ∈ fields, Plain f.1 ∧ Plain f.2) :
    Emits j (emitAggregate j name shapes fields last)
      (tokens (aggregateEntry name shapes fields).value ++
        if last then [] else [.punct ',']) := by
  refine emitStruct_emits j name _ _ (fieldsAt shapes fields) last hname ?_
  intro f hf
  obtain ⟨⟨entry, i⟩, hentry, rfl⟩ := List.mem_map.mp hf
  exact hfields entry (List.fst_mem_of_mem_zipIdx hentry)

theorem emitTypes_emits (j : Json) (abi : TargetAbi) :
    Emits j (emitTypes j abi) (commaTokens ((entries abi).map Entry.value)) := by
  have h1 := emitScalar_emits j "Domain" 8 abi.u64Align "u64" true (by decide) (by decide)
  have h2 := h1.trans
    (emitScalar_emits _ "Revision" 8 abi.u64Align "u64" true (by decide) (by decide))
  have h3 := h2.trans (emitEnum_emits _ "Space" 1 1
    (allSpaces.map (fun s => (spaceName s, s.discriminant))) (by decide) (by decide))
  have h4 := h3.trans (emitEnum_emits _ "Part" 1 1
    (allParts.map (fun p => (partName p, p.discriminant))) (by decide) (by decide))
  have h5 := h4.trans (emitEnum_emits _ "ResourceRole" 1 1
    (allResourceRoles.map (fun r => (roleName r, roleDiscriminant r))) (by decide) (by decide))
  have h6 := h5.trans (emitParts_emits _ 2 2
    (allParts.map (fun p => (partName p, (Parts.of p).bits.toNat))) (by decide))
  have h7 := h6.trans (emitAggregate_emits _ "SnapshotVersion" (snapshotVersionFields abi)
    [("domain", "Domain"), ("revision", "Revision")] false (by decide) (by decide))
  have h8 := h7.trans (emitAggregate_emits _ "Id" (idFields abi)
    [("domain", "Domain"), ("ordinal", "NonZeroU64")] false (by decide) (by decide))
  have h9 := h8.trans (emitAggregate_emits _ "Address" (addressFields abi)
    [("space", "Space"), ("id", "Id")] false (by decide) (by decide))
  have h10 := h9.trans (emitAggregate_emits _ "Diff" (diffFields abi)
    [("address", "Address"), ("parts", "Parts")] false (by decide) (by decide))
  have h11 := h10.trans (emitAggregate_emits _ "Rect" (rectFields abi)
    [("x", "i64"), ("y", "i64"), ("width", "i64"), ("height", "i64")] false (by decide)
    (by decide))
  have h12 := h11.trans (emitAggregate_emits _ "ResourceRef" (resourceRefFields abi)
    [("role", "ResourceRole"), ("address", "Address")] false (by decide) (by decide))
  have h13 := h12.trans (emitAggregate_emits _ "CirBytes" (viewFields abi)
    [("ptr", "u8"), ("len", "usize")] false (by decide) (by decide))
  have h14 := h13.trans (emitAggregate_emits _ "CirAddresses" (viewFields abi)
    [("ptr", "Address"), ("len", "usize")] false (by decide) (by decide))
  have h15 := h14.trans (emitAggregate_emits _ "CirResources" (viewFields abi)
    [("ptr", "ResourceRef"), ("len", "usize")] false (by decide) (by decide))
  have h16 := h15.trans (emitAggregate_emits _ "CirFragments" (viewFields abi)
    [("ptr", "u32"), ("len", "usize")] false (by decide) (by decide))
  have h17 := h16.trans (emitAggregate_emits _ "Rgba" rgbaFields
    [("r", "u8"), ("g", "u8"), ("b", "u8"), ("a", "u8")] true (by decide) (by decide))
  refine h17.congr ?_
  simp only [entries, List.map_cons, List.map_nil, commaTokens, List.append_assoc,
    List.cons_append, List.nil_append, List.append_nil, Bool.false_eq_true, if_false, if_true]

end Tables

/-- What the writer puts out is cut into the tokens of the table's value. -/
theorem manifestJson_lexes (abi : TargetAbi) (hendian : Plain abi.endian) :
    Lexes (manifestJson abi) (tokens (manifest abi).value) := by
  have hopen : Lexes "\x7b".toList [.punct '\x7b'] := rfl
  have hformatKey : scan .between "\"manifest_format\": ".toList =
      some ([.str "manifest_format".toList, .punct ':'], .between) := rfl
  have hformat : Lexes ("\"manifest_format\": ".toList ++ decimal manifestFormat ++ ",".toList)
      [.str "manifest_format".toList, .punct ':', .num manifestFormat, .punct ','] :=
    scan_number manifestFormat hformatKey scan_numComma
  have hgenerated : Lexes ("\"generated_by\": \"".toList ++ generator.toList ++ "\",".toList)
      [.str "generated_by".toList, .punct ':', .str generator.toList, .punct ','] := by
    have hkey : scan .between "\"generated_by\": \"".toList =
        some ([.str "generated_by".toList, .punct ':'], .string []) := rfl
    have hplain : Plain generator := by decide
    exact scan_text hkey hplain scan_quoteComma
  have htarget : Lexes "\"target\": \x7b".toList
      [.str "target".toList, .punct ':', .punct '\x7b'] := rfl
  have hwidthKey : scan .between "\"pointer_width\": ".toList =
      some ([.str "pointer_width".toList, .punct ':'], .between) := rfl
  have hwidth : Lexes ("\"pointer_width\": ".toList ++ decimal abi.pointerWidth ++ ",".toList)
      [.str "pointer_width".toList, .punct ':', .num abi.pointerWidth, .punct ','] :=
    scan_number abi.pointerWidth hwidthKey scan_numComma
  have halignKey : scan .between "\"u64_align\": ".toList =
      some ([.str "u64_align".toList, .punct ':'], .between) := rfl
  have halign : Lexes ("\"u64_align\": ".toList ++ decimal abi.u64Align ++ ",".toList)
      [.str "u64_align".toList, .punct ':', .num abi.u64Align, .punct ','] :=
    scan_number abi.u64Align halignKey scan_numComma
  have hendianLine : Lexes ("\"endian\": \"".toList ++ abi.endian.toList ++ "\"".toList)
      [.str "endian".toList, .punct ':', .str abi.endian.toList] := by
    have hkey : scan .between "\"endian\": \"".toList =
        some ([.str "endian".toList, .punct ':'], .string []) := rfl
    have hquote : ∀ acc, scan (.string acc) "\"".toList = some ([.str acc.reverse], .between) :=
      fun _ => rfl
    exact scan_text hkey hendian hquote
  have hcloseTarget : Lexes "\x7d,".toList [.punct '\x7d', .punct ','] := rfl
  have htypes : Lexes "\"types\": [".toList [.str "types".toList, .punct ':', .punct '['] := rfl
  have hbracket : Lexes "]".toList [.punct ']'] := rfl
  have hclose : Lexes "\x7d".toList [.punct '\x7d'] := rfl
  have hhead := (((((((((emits_refl Json.new).open hopen).line hformat).line hgenerated).open
    htarget).line hwidth).line halign).line hendianLine).close hcloseTarget).open htypes
  have hall := ((hhead.trans (emitTypes_emits _ abi)).close hbracket).close hclose
  obtain ⟨text, hout, htext⟩ := hall
  have hmanifest : manifestJson abi = text := hout
  rw [hmanifest]
  simp only [Manifest.value, manifest, targetValue, strMember, numMember, tokens, memberTokens,
    tokens_arr, List.append_assoc, List.cons_append, List.nil_append] at htext ⊢
  exact htext

section Reading

def lookMember (key : String) : Value → Option Value
  | .obj members => (members.find? (fun member => member.1 == key.toList)).map Prod.snd
  | _ => none

def asText : Value → Option String
  | .str s => some (String.ofList s)
  | _ => none

def asNumber : Value → Option ℕ
  | .num n => some n
  | _ => none

def asFlag : Value → Option Bool
  | .bool b => some b
  | _ => none

def asItems : Value → Option (List Value)
  | .arr items => some items
  | _ => none

def textAt (key : String) (v : Value) : Option String := (lookMember key v).bind asText

def numberAt (key : String) (v : Value) : Option ℕ := (lookMember key v).bind asNumber

def itemsAt {α : Type} (key : String) (read : Value → Option α) (v : Value) : Option (List α) :=
  (lookMember key v).bind (fun found => (asItems found).bind (fun items => items.mapM read))

def readNamed (key : String) (v : Value) : Option (String × ℕ) := do
  let name ← textAt "name" v
  let n ← numberAt key v
  return (name, n)

def readField (v : Value) : Option Field := do
  let name ← textAt "name" v
  let ty ← textAt "type" v
  let offset ← numberAt "offset" v
  return ⟨name, ty, offset⟩

def readEntry (v : Value) : Option Entry := do
  let name ← textAt "name" v
  let kind ← textAt "kind" v
  let size ← numberAt "size" v
  let align ← numberAt "align" v
  if kind = "scalar" then
    let repr ← textAt "repr" v
    let nonzero ← (lookMember "nonzero" v).bind asFlag
    return .scalar name size align repr nonzero
  else if kind = "enum" then
    let variants ← itemsAt "variants" (readNamed "value") v
    return .enumeration name size align variants
  else if kind = "bitset" then
    let flags ← itemsAt "flags" (readNamed "bit") v
    return .bitset size align flags
  else if kind = "struct" then
    let fields ← itemsAt "fields" readField v
    return .aggregate name size align fields
  else none

def readTarget (v : Value) : Option TargetAbi := do
  let pointerWidth ← numberAt "pointer_width" v
  let u64Align ← numberAt "u64_align" v
  let endian ← textAt "endian" v
  return ⟨pointerWidth, u64Align, endian⟩

def readManifest (text : List Char) : Option Manifest := do
  let v ← readText text
  let format ← numberAt "manifest_format" v
  let target ← (lookMember "target" v).bind readTarget
  let types ← itemsAt "types" readEntry v
  return ⟨format, target, types⟩

theorem mapM_map {α β : Type} (items : List α) (f : α → β) (read : β → Option α)
    (hread : ∀ x ∈ items, read (f x) = some x) : (items.map f).mapM read = some items := by
  induction items with
  | nil => rfl
  | cons x rest ih =>
    rw [List.map_cons, List.mapM_cons, hread x (List.mem_cons_self ..),
      ih (fun y hy => hread y (List.mem_cons_of_mem x hy))]
    rfl

theorem itemsAt_arr {α : Type} (key : String) (read : Value → Option α) (v : Value)
    (items : List α) (f : α → Value) (hkey : lookMember key v = some (.arr (items.map f)))
    (hread : ∀ x ∈ items, read (f x) = some x) : itemsAt key read v = some items := by
  unfold itemsAt
  rw [hkey]
  exact mapM_map items f read hread

theorem readField_value (f : Field) : readField (fieldValue f) = some f := by
  have hname : textAt "name" (fieldValue f) = some f.name :=
    congrArg some String.ofList_toList
  have hty : textAt "type" (fieldValue f) = some f.ty := congrArg some String.ofList_toList
  have hoffset : numberAt "offset" (fieldValue f) = some f.offset := rfl
  unfold readField
  rw [hname, hty, hoffset]
  rfl

theorem readNamed_value (key : String) (hkey : key ≠ "name") (entry : String × ℕ) :
    readNamed key (namedValue key entry) = some entry := by
  have hname : textAt "name" (namedValue key entry) = some entry.1 :=
    congrArg some String.ofList_toList
  have hother : ("name".toList == key.toList) = false := by
    apply beq_eq_false_iff_ne.mpr
    intro heq
    exact hkey (String.toList_inj.mp heq.symm)
  have hnumber : numberAt key (namedValue key entry) = some entry.2 := by
    unfold numberAt lookMember namedValue strMember numMember
    simp only [List.find?_cons, hother, beq_self_eq_true, Option.map_some, Option.bind_some]
    rfl
  unfold readNamed
  rw [hname, hnumber]
  rfl

/-- Every entry is read back from its value. -/
theorem readEntry_value (e : Entry) : readEntry e.value = some e := by
  cases e with
  | scalar name size align repr nonzero =>
    have hname : textAt "name" (Entry.scalar name size align repr nonzero).value = some name :=
      congrArg some String.ofList_toList
    have hrepr : textAt "repr" (Entry.scalar name size align repr nonzero).value = some repr :=
      congrArg some String.ofList_toList
    have hkind : textAt "kind" (Entry.scalar name size align repr nonzero).value =
        some "scalar" := rfl
    have hsize : numberAt "size" (Entry.scalar name size align repr nonzero).value =
        some size := rfl
    have halign : numberAt "align" (Entry.scalar name size align repr nonzero).value =
        some align := rfl
    have hflag : (lookMember "nonzero" (Entry.scalar name size align repr nonzero).value).bind
        asFlag = some nonzero := rfl
    unfold readEntry
    rw [hname, hkind, hsize, halign, hrepr, hflag]
    rfl
  | enumeration name size align variants =>
    have hname : textAt "name" (Entry.enumeration name size align variants).value = some name :=
      congrArg some String.ofList_toList
    have hkind : textAt "kind" (Entry.enumeration name size align variants).value =
        some "enum" := rfl
    have hsize : numberAt "size" (Entry.enumeration name size align variants).value =
        some size := rfl
    have halign : numberAt "align" (Entry.enumeration name size align variants).value =
        some align := rfl
    have hitems : itemsAt "variants" (readNamed "value")
        (Entry.enumeration name size align variants).value = some variants :=
      itemsAt_arr _ _ _ variants (namedValue "value") rfl
        (fun v _ => readNamed_value "value" (by decide) v)
    unfold readEntry
    rw [hname, hkind, hsize, halign, hitems]
    rfl
  | bitset size align flags =>
    have hname : textAt "name" (Entry.bitset size align flags).value = some "Parts" := rfl
    have hkind : textAt "kind" (Entry.bitset size align flags).value = some "bitset" := rfl
    have hsize : numberAt "size" (Entry.bitset size align flags).value = some size := rfl
    have halign : numberAt "align" (Entry.bitset size align flags).value = some align := rfl
    have hitems : itemsAt "flags" (readNamed "bit") (Entry.bitset size align flags).value =
        some flags :=
      itemsAt_arr _ _ _ flags (namedValue "bit") rfl
        (fun v _ => readNamed_value "bit" (by decide) v)
    unfold readEntry
    rw [hname, hkind, hsize, halign, hitems]
    rfl
  | aggregate name size align fields =>
    have hname : textAt "name" (Entry.aggregate name size align fields).value = some name :=
      congrArg some String.ofList_toList
    have hkind : textAt "kind" (Entry.aggregate name size align fields).value =
        some "struct" := rfl
    have hsize : numberAt "size" (Entry.aggregate name size align fields).value = some size := rfl
    have halign : numberAt "align" (Entry.aggregate name size align fields).value =
        some align := rfl
    have hitems : itemsAt "fields" readField (Entry.aggregate name size align fields).value =
        some fields :=
      itemsAt_arr _ _ _ fields fieldValue rfl (fun f _ => readField_value f)
    unfold readEntry
    rw [hname, hkind, hsize, halign, hitems]
    rfl

theorem readTarget_value (abi : TargetAbi) : readTarget (targetValue abi) = some abi := by
  have hwidth : numberAt "pointer_width" (targetValue abi) = some abi.pointerWidth := rfl
  have halign : numberAt "u64_align" (targetValue abi) = some abi.u64Align := rfl
  have hendian : textAt "endian" (targetValue abi) = some abi.endian :=
    congrArg some String.ofList_toList
  unfold readTarget
  rw [hwidth, halign, hendian]
  rfl

end Reading

/-- The manifest of every target whose byte order has a plain name is one JSON text, and a
binding generator reads from it the table of that target: every name, size, offset, value
and flag. -/
theorem readManifest_manifestJson (abi : TargetAbi) (hendian : Plain abi.endian) :
    readManifest (manifestJson abi) = some (manifest abi) := by
  have htext := readText_of_lexes (manifestJson_lexes abi hendian)
  have hformat : numberAt "manifest_format" (manifest abi).value = some manifestFormat := rfl
  have htarget : (lookMember "target" (manifest abi).value).bind readTarget = some abi :=
    readTarget_value abi
  have htypes : itemsAt "types" readEntry (manifest abi).value = some (entries abi) :=
    itemsAt_arr _ _ _ (entries abi) Entry.value rfl (fun e _ => readEntry_value e)
  unfold readManifest
  rw [htext, Option.bind_eq_bind, Option.bind_some, hformat, htarget, htypes]
  rfl

/-- The manifest of the committed target is read back. -/
theorem readManifest_committed :
    readManifest (manifestJson manifestAbi) = some (manifest manifestAbi) :=
  readManifest_manifestJson manifestAbi (by decide)

section Guard

/-- Two lists of one length differ exactly where the loop finds them to. -/
theorem any_ne_eq_false_iff (x y : List Char) (hlen : x.length = y.length) :
    (List.range x.length).any (fun i => x[i]? != y[i]?) = false ↔ x = y := by
  rw [List.any_eq_false]
  constructor
  · intro h
    apply List.ext_getElem?
    intro i
    rcases Nat.lt_or_ge i x.length with hi | hi
    · simpa using h i (List.mem_range.mpr hi)
    · rw [List.getElem?_eq_none hi, List.getElem?_eq_none (by omega)]
  · intro heq i _
    rw [heq]
    simp

theorem abiEq_iff (a b : TargetAbi) : abiEq a b = true ↔ a = b := by
  obtain ⟨wa, ua, ea⟩ := a
  obtain ⟨wb, ub, eb⟩ := b
  unfold abiEq
  simp only
  constructor
  · intro h
    split at h
    · cases h
    · rename_i hlen
      split at h
      · cases h
      · rename_i hloop
        have hchars := (any_ne_eq_false_iff ea.toList eb.toList (not_not.mp hlen)).mp
          (by simpa using hloop)
        rw [Bool.and_eq_true, beq_iff_eq, beq_iff_eq] at h
        rw [h.1, h.2, String.toList_inj.mp hchars]
  · intro h
    obtain ⟨rfl, rfl, rfl⟩ := TargetAbi.mk.inj h
    have hloop := (any_ne_eq_false_iff ea.toList ea.toList rfl).mpr rfl
    rw [if_neg (not_not.mpr rfl), hloop]
    simp

end Guard

/-- The build guard lets one target stand for another exactly when their manifests are one
text, so that no binding made from it reads at the offsets of another target. -/
theorem abiEq_iff_manifestJson (a b : TargetAbi) (ha : Plain a.endian) (hb : Plain b.endian) :
    abiEq a b = true ↔ manifestJson a = manifestJson b := by
  rw [abiEq_iff]
  constructor
  · intro h
    rw [h]
  · intro h
    have hread := readManifest_manifestJson a ha
    rw [h, readManifest_manifestJson b hb, Option.some.injEq] at hread
    exact (congrArg Manifest.target hread).symm

/-- Under the alignment of 32-bit x86 the guard refuses and the text differs. -/
theorem abiEq_iff_manifestJson_x86 :
    manifestJson ⟨32, 4, "little"⟩ ≠ manifestJson manifestAbi := by
  intro h
  have hguard := (abiEq_iff_manifestJson ⟨32, 4, "little"⟩ manifestAbi (by decide)
    (by decide)).mpr h
  exact absurd hguard (by decide)

end CompositionIr.ManifestReading
