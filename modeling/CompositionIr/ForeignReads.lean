import CompositionIr.ManifestReading

/-!
A binding reads the entries of a delta out of foreign memory: it finds each field by name
in the manifest, adds up the offsets and loads a word. Whatever the memory held before the
entries were stored, what it reads with the manifest of the right target is the entries.
-/

namespace CompositionIr.ForeignReads

open Addresses Records Deltas Layouts Manifests ManifestReading

section Bindings

def Entry.name : Entry → String
  | .scalar name _ _ _ _ => name
  | .enumeration name _ _ _ => name
  | .bitset _ _ _ => "Parts"
  | .aggregate name _ _ _ => name

def Entry.size : Entry → ℕ
  | .scalar _ size _ _ _ => size
  | .enumeration _ size _ _ => size
  | .bitset size _ _ => size
  | .aggregate _ size _ _ => size

variable (m : Manifest)

def entry (ty : String) : Option Entry := m.types.find? (fun e => Entry.name e == ty)

def place : String → List String → Option (ℕ × String)
  | ty, [] => some (0, ty)
  | ty, name :: path =>
    match entry m ty with
    | some (.aggregate _ _ _ fields) => do
      let f ← fields.find? (fun f => f.name == name)
      let (offset, leaf) ← place f.ty path
      return (f.offset + offset, leaf)
    | _ => none

/-- How many bytes a word of the type takes: what the manifest says, or the one wrapped
integer that the manifest takes as known. -/
def width (ty : String) : Option ℕ :=
  match entry m ty with
  | some e => some (Entry.size e)
  | none => if ty = "NonZeroU64" then some 8 else none

def readPath (memory : Memory) (base : ℕ) (ty : String) (path : List String) : Option ℕ := do
  let (offset, leaf) ← place m ty path
  let size ← width m leaf
  return load (m.target.endian == "little") memory (base + offset) size

def variantAt (ty : String) (value : ℕ) : Option String :=
  match entry m ty with
  | some (.enumeration _ _ _ variants) =>
    (variants.find? (fun v => v.2 == value)).map Prod.fst
  | _ => none

def nonZero (n : ℕ) : Option NonZeroU64 :=
  if h : 0 < n ∧ n < 2 ^ 64 then some ⟨n, h.1, h.2⟩ else none

def readDiff (memory : Memory) (base : ℕ) : Option Diff := do
  let value ← readPath m memory base "Diff" ["address", "space"]
  let variant ← variantAt m "Space" value
  let space ← allSpaces.find? (fun s => spaceName s == variant)
  let domain ← (readPath m memory base "Diff" ["address", "id", "domain"]).bind nonZero
  let ordinal ← (readPath m memory base "Diff" ["address", "id", "ordinal"]).bind nonZero
  let bits ← readPath m memory base "Diff" ["parts"]
  return ⟨⟨space, ⟨⟨domain⟩, ordinal⟩⟩, ⟨BitVec.ofNat 16 bits⟩⟩

def readEntries (memory : Memory) (base : ℕ) : ℕ → Option (List Diff)
  | 0 => some []
  | count + 1 => do
    let d ← readDiff m memory base
    let stride ← width m "Diff"
    let rest ← readEntries memory (base + stride) count
    return d :: rest

end Bindings

section Stored

variable (abi : TargetAbi)

def diffSize : ℕ := (aggregate (diffFields abi)).size

def diffLeaves (base : ℕ) (d : Diff) : List Leaf :=
  let address := base + offsetOf (diffFields abi) 0
  let id := address + offsetOf (addressFields abi) 1
  [⟨address + offsetOf (addressFields abi) 0, 1, d.address.space.discriminant⟩,
    ⟨id + offsetOf (idFields abi) 0, 8, d.address.id.domain.value.val⟩,
    ⟨id + offsetOf (idFields abi) 1, 8, d.address.id.ordinal.val⟩,
    ⟨base + offsetOf (diffFields abi) 1, 2, d.parts.bits.toNat⟩]

def entryLeaves (base : ℕ) : List Diff → List Leaf
  | [] => []
  | d :: rest => diffLeaves abi base d ++ entryLeaves (base + diffSize abi) rest

end Stored

section Offsets

/-- Two fields lie one behind the other inside their aggregate. -/
theorem pair_offsets (a b : Shape) (ha : 0 < a.align) (hb : 0 < b.align) :
    offsetOf [a, b] 0 + a.size ≤ offsetOf [a, b] 1 ∧
      offsetOf [a, b] 1 + b.size ≤ (aggregate [a, b]).size := by
  have halign : ∀ f ∈ [a, b], 0 < f.align := by
    intro f hf
    rcases List.mem_pair.mp hf with rfl | rfl
    · exact ha
    · exact hb
  have hzip : [a, b].zip (offsets [a, b] 0) =
      [(a, offsetOf [a, b] 0), (b, offsetOf [a, b] 1)] := rfl
  have hpair := offsets_pairwise [a, b] 0 halign
  have hbound := offset_bounds [a, b] 0 halign (b, offsetOf [a, b] 1) (by rw [hzip]; simp)
  rw [hzip] at hpair
  have hextent := extent_le_size [a, b]
  refine ⟨(List.pairwise_cons.mp hpair).1 _ (List.mem_singleton.mpr rfl), ?_⟩
  have hend := hbound.2.2
  change offsetOf [a, b] 1 + b.size ≤ _ at hend
  omega

variable (abi : TargetAbi)

theorem id_offsets (halign : 0 < abi.u64Align) :
    offsetOf (idFields abi) 0 + 8 ≤ offsetOf (idFields abi) 1 ∧
    offsetOf (idFields abi) 1 + 8 ≤ (aggregate (idFields abi)).size :=
  pair_offsets (u64 abi) (u64 abi) halign halign

theorem address_offsets : offsetOf (addressFields abi) 0 + 1 ≤ offsetOf (addressFields abi) 1 ∧
    offsetOf (addressFields abi) 1 + (aggregate (idFields abi)).size ≤
      (aggregate (addressFields abi)).size :=
  pair_offsets u8 (aggregate (idFields abi)) Nat.one_pos (aggregate_align_pos _)

theorem diff_offsets :
    offsetOf (diffFields abi) 0 + (aggregate (addressFields abi)).size ≤
      offsetOf (diffFields abi) 1 ∧
    offsetOf (diffFields abi) 1 + 2 ≤ diffSize abi :=
  pair_offsets (aggregate (addressFields abi)) u16 (aggregate_align_pos _) (by decide)

end Offsets

section Words

variable (abi : TargetAbi)

/-- A word of the entry lies inside the entry, and holds its value. -/
theorem diffLeaves_bounds (halign : 0 < abi.u64Align) (base : ℕ) (d : Diff) (leaf : Leaf)
    (hleaf : leaf ∈ diffLeaves abi base d) :
    base ≤ leaf.offset ∧ leaf.offset + leaf.width ≤ base + diffSize abi ∧
      leaf.value < 256 ^ leaf.width := by
  have hid := id_offsets abi halign
  have haddress := address_offsets abi
  have hdiff := diff_offsets abi
  have hspace : d.address.space.discriminant < 256 := by
    cases d.address.space <;> decide
  have hdomain := d.address.id.domain.value.lt
  have hordinal := d.address.id.ordinal.lt
  have hbits := d.parts.bits.isLt
  unfold diffLeaves at hleaf
  simp only [List.mem_cons, List.not_mem_nil, or_false] at hleaf
  rcases hleaf with rfl | rfl | rfl | rfl
  · refine ⟨by simp only; omega, by simp only; omega, by simpa using hspace⟩
  · refine ⟨by simp only; omega, by simp only; omega, by simpa using hdomain⟩
  · refine ⟨by simp only; omega, by simp only; omega, by simpa using hordinal⟩
  · refine ⟨by simp only; omega, by simp only; omega, by simpa using hbits⟩

/-- The words of an entry are apart. -/
theorem diffLeaves_pairwise (halign : 0 < abi.u64Align) (base : ℕ) (d : Diff) :
    (diffLeaves abi base d).Pairwise (fun a b =>
      a.offset + a.width ≤ b.offset ∨ b.offset + b.width ≤ a.offset) := by
  have hid := id_offsets abi halign
  have haddress := address_offsets abi
  have hdiff := diff_offsets abi
  unfold diffLeaves
  simp only [List.pairwise_cons, List.mem_cons, List.not_mem_nil, or_false, forall_eq_or_imp,
    forall_eq, List.Pairwise.nil, and_true, IsEmpty.forall_iff, implies_true]
  refine ⟨⟨?_, ?_, ?_⟩, ⟨?_, ?_⟩, ?_⟩ <;> omega

theorem entryLeaves_bounds (halign : 0 < abi.u64Align) (base : ℕ) (diffs : List Diff)
    (leaf : Leaf) (hleaf : leaf ∈ entryLeaves abi base diffs) :
    base ≤ leaf.offset ∧ leaf.value < 256 ^ leaf.width := by
  induction diffs generalizing base with
  | nil => cases hleaf
  | cons d rest ih =>
    rcases List.mem_append.mp hleaf with hone | hrest
    · obtain ⟨hbase, _, hvalue⟩ := diffLeaves_bounds abi halign base d leaf hone
      exact ⟨hbase, hvalue⟩
    · obtain ⟨hbase, hvalue⟩ := ih (base + diffSize abi) hrest
      exact ⟨by omega, hvalue⟩

theorem entryLeaves_pairwise (halign : 0 < abi.u64Align) (base : ℕ) (diffs : List Diff) :
    (entryLeaves abi base diffs).Pairwise (fun a b =>
      a.offset + a.width ≤ b.offset ∨ b.offset + b.width ≤ a.offset) := by
  induction diffs generalizing base with
  | nil => exact List.Pairwise.nil
  | cons d rest ih =>
    refine List.pairwise_append.mpr
      ⟨diffLeaves_pairwise abi halign base d, ih (base + diffSize abi), ?_⟩
    intro a ha b hb
    have hone := diffLeaves_bounds abi halign base d a ha
    have htwo := entryLeaves_bounds abi halign (base + diffSize abi) rest b hb
    left
    omega

end Words

section Reads

variable (abi : TargetAbi) (memory : Memory) (base : ℕ)

theorem width_diff : width (manifest abi) "Diff" = some (diffSize abi) := rfl

/-- A path into an entry leads to the word at the sum of its offsets. -/
theorem readPath_eq (path : List String) (offset size : ℕ) (leaf : String)
    (hplace : place (manifest abi) "Diff" path = some (offset, leaf))
    (hwidth : width (manifest abi) leaf = some size) :
    readPath (manifest abi) memory base "Diff" path =
      some (load (abi.endian == "little") memory (base + offset) size) := by
  unfold readPath
  rw [hplace]
  simp only [Option.bind_eq_bind, Option.bind_some, hwidth]
  rfl

theorem readPath_space : readPath (manifest abi) memory base "Diff" ["address", "space"] =
    some (load (abi.endian == "little") memory
      (base + (offsetOf (diffFields abi) 0 + offsetOf (addressFields abi) 0)) 1) :=
  readPath_eq abi memory base _ _ 1 "Space" rfl rfl

theorem readPath_domain : readPath (manifest abi) memory base "Diff" ["address", "id", "domain"] =
    some (load (abi.endian == "little") memory (base + (offsetOf (diffFields abi) 0 +
      (offsetOf (addressFields abi) 1 + offsetOf (idFields abi) 0))) 8) :=
  readPath_eq abi memory base _ _ 8 "Domain" rfl rfl

theorem readPath_ordinal :
    readPath (manifest abi) memory base "Diff" ["address", "id", "ordinal"] =
      some (load (abi.endian == "little") memory (base + (offsetOf (diffFields abi) 0 +
        (offsetOf (addressFields abi) 1 + offsetOf (idFields abi) 1))) 8) :=
  readPath_eq abi memory base _ _ 8 "NonZeroU64" rfl rfl

theorem readPath_parts : readPath (manifest abi) memory base "Diff" ["parts"] =
    some (load (abi.endian == "little") memory (base + offsetOf (diffFields abi) 1) 2) :=
  readPath_eq abi memory base _ _ 2 "Parts" rfl rfl

theorem nonZero_val (n : NonZeroU64) : nonZero n.val = some n := by
  unfold nonZero
  rw [dif_pos ⟨n.pos, n.lt⟩]

/-- Every space is found again by the name of its value. -/
theorem find_space (s : Space) :
    (variantAt (manifest abi) "Space" s.discriminant).bind
      (fun variant => allSpaces.find? (fun t => spaceName t == variant)) = some s := by
  cases s <;> rfl

/-- Memory whose words are those of the entry is read as the entry. -/
theorem readDiff_eq (d : Diff) (hload : ∀ leaf ∈ diffLeaves abi base d,
    load (abi.endian == "little") memory leaf.offset leaf.width = leaf.value) :
    readDiff (manifest abi) memory base = some d := by
  unfold diffLeaves at hload
  simp only [List.mem_cons, List.not_mem_nil, or_false, forall_eq_or_imp, forall_eq] at hload
  obtain ⟨hspace, hdomain, hordinal, hparts⟩ := hload
  have hvariant := find_space abi d.address.space
  obtain ⟨variant, hname, hfound⟩ := Option.bind_eq_some_iff.mp hvariant
  unfold readDiff
  rw [readPath_space, readPath_domain, readPath_ordinal, readPath_parts]
  simp only [Option.bind_eq_bind, Option.bind_some, Nat.add_assoc] at hspace hdomain hordinal ⊢
  rw [hspace, hname, Option.bind_some, hfound, Option.bind_some, hdomain, nonZero_val,
    Option.bind_some, hordinal, nonZero_val, Option.bind_some, hparts]
  simp

theorem readEntries_eq (diffs : List Diff) (hload : ∀ leaf ∈ entryLeaves abi base diffs,
    load (abi.endian == "little") memory leaf.offset leaf.width = leaf.value) :
    readEntries (manifest abi) memory base diffs.length = some diffs := by
  induction diffs generalizing base with
  | nil => rfl
  | cons d rest ih =>
    have hone := readDiff_eq abi memory base d
      (fun leaf hleaf => hload leaf (List.mem_append_left _ hleaf))
    have hrest := ih (base + diffSize abi)
      (fun leaf hleaf => hload leaf (List.mem_append_right _ hleaf))
    rw [List.length_cons, readEntries, hone]
    simp only [Option.bind_eq_bind, Option.bind_some, width_diff, hrest]
    rfl

end Reads

/-- Whatever the memory held before, and wherever the entries of a delta were stored, a
binding that goes by the names of the target's own manifest reads exactly the entries. -/
theorem entries_read_back (abi : TargetAbi) (hendian : Plain abi.endian)
    (halign : 0 < abi.u64Align) : ∃ m, readManifest (manifestJson abi) = some m ∧
      ∀ (diffs : List Diff) (memory : Memory) (base : ℕ),
        readEntries m (store (abi.endian == "little") memory (entryLeaves abi base diffs)) base
          diffs.length = some diffs := by
  refine ⟨manifest abi, readManifest_manifestJson abi hendian, ?_⟩
  intro diffs memory base
  apply readEntries_eq
  intro leaf hleaf
  exact load_store _ memory (entryLeaves abi base diffs) leaf hleaf
    (entryLeaves_bounds abi halign base diffs leaf hleaf).2
    (entryLeaves_pairwise abi halign base diffs)

section Example

def textEntry : Diff := ⟨addr .node 1, Parts.of Part.text⟩

/-- On 32-bit x86 an entry takes 24 bytes and the ordinal stands at 12; with the manifest of
that target a binding reads the entry back. -/
theorem entries_read_back_x86 : diffSize ⟨32, 4, "little"⟩ = 24 ∧
    place (manifest ⟨32, 4, "little"⟩) "Diff" ["address", "id", "ordinal"] =
      some (12, "NonZeroU64") ∧
    ∃ m, readManifest (manifestJson ⟨32, 4, "little"⟩) = some m ∧
      readEntries m (store true (fun _ => 0) (entryLeaves ⟨32, 4, "little"⟩ 8 [textEntry])) 8 1 =
        some [textEntry] := by
  obtain ⟨m, hm, hread⟩ := entries_read_back ⟨32, 4, "little"⟩ (by decide) (by decide)
  exact ⟨rfl, rfl, m, hm, hread [textEntry] (fun _ => 0) 8⟩

end Example

end CompositionIr.ForeignReads
