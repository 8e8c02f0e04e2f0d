import Mathlib.Algebra.Group.Nat.Defs
import Mathlib.Data.List.Pairwise
import Mathlib.Data.Nat.Init
import Mathlib.Order.Basic

/-!
How an aggregate lies in memory when its fields keep their declared order: each field at
the first multiple of its alignment behind the one before, the whole padded to a multiple
of the largest alignment. Words are stored byte by byte in either order of bytes, and what
is stored in places apart is read back.
-/

namespace CompositionIr.Layouts

structure Shape where
  size : ℕ
  align : ℕ
  deriving DecidableEq

def roundUp (n align : ℕ) : ℕ := (n + align - 1) / align * align

/-- Where each field starts, behind `start`. -/
def offsets : List Shape → ℕ → List ℕ
  | [], _ => []
  | field :: rest, start =>
    let offset := roundUp start field.align
    offset :: offsets rest (offset + field.size)

def extent : List Shape → ℕ → ℕ
  | [], start => start
  | field :: rest, start => extent rest (roundUp start field.align + field.size)

def aggregate (fields : List Shape) : Shape :=
  let align := fields.foldl (fun align field => max align field.align) 1
  ⟨roundUp (extent fields 0) align, align⟩

def offsetOf (fields : List Shape) (index : ℕ) : ℕ := ((offsets fields 0)[index]?).getD 0

section Offsets

theorem le_roundUp (n align : ℕ) (halign : 0 < align) : n ≤ roundUp n align := by
  have hdiv := Nat.div_add_mod (n + align - 1) align
  have hmod := Nat.mod_lt (n + align - 1) halign
  unfold roundUp
  rw [Nat.mul_comm]
  omega

theorem dvd_roundUp (n align : ℕ) : align ∣ roundUp n align := Nat.dvd_mul_left align _

theorem le_extent (fields : List Shape) (start : ℕ) (halign : ∀ f ∈ fields, 0 < f.align) :
    start ≤ extent fields start := by
  induction fields generalizing start with
  | nil => exact Nat.le_refl start
  | cons f rest ih =>
    have hrest := ih (roundUp start f.align + f.size)
      (fun g hg => halign g (List.mem_cons_of_mem f hg))
    have hle := le_roundUp start f.align (halign f (List.mem_cons_self ..))
    change _ ≤ extent rest (roundUp start f.align + f.size)
    omega

/-- A field starts at a multiple of its alignment, behind `start`, and ends before the
extent. -/
theorem offset_bounds (fields : List Shape) (start : ℕ) (halign : ∀ f ∈ fields, 0 < f.align)
    (entry : Shape × ℕ) (hentry : entry ∈ fields.zip (offsets fields start)) :
    entry.1.align ∣ entry.2 ∧ start ≤ entry.2 ∧ entry.2 + entry.1.size ≤ extent fields start := by
  induction fields generalizing start with
  | nil => cases hentry
  | cons f rest ih =>
    have hrestAlign : ∀ g ∈ rest, 0 < g.align := fun g hg => halign g (List.mem_cons_of_mem f hg)
    have hle := le_roundUp start f.align (halign f (List.mem_cons_self ..))
    rcases List.mem_cons.mp hentry with heq | hmem
    · rw [heq]
      refine ⟨dvd_roundUp start f.align, hle, ?_⟩
      exact le_extent rest (roundUp start f.align + f.size) hrestAlign
    · obtain ⟨hdvd, hstart, hend⟩ := ih (roundUp start f.align + f.size) hrestAlign hmem
      refine ⟨hdvd, by omega, hend⟩

/-- Fields do not overlap: each ends before the next ones start. -/
theorem offsets_pairwise (fields : List Shape) (start : ℕ)
    (halign : ∀ f ∈ fields, 0 < f.align) :
    (fields.zip (offsets fields start)).Pairwise (fun a b => a.2 + a.1.size ≤ b.2) := by
  induction fields generalizing start with
  | nil => exact List.Pairwise.nil
  | cons f rest ih =>
    have hrestAlign : ∀ g ∈ rest, 0 < g.align := fun g hg => halign g (List.mem_cons_of_mem f hg)
    refine List.pairwise_cons.mpr ⟨?_, ih _ hrestAlign⟩
    intro entry hentry
    exact (offset_bounds rest (roundUp start f.align + f.size) hrestAlign entry hentry).2.1

theorem le_foldl_max (fields : List Shape) (start : ℕ) :
    start ≤ fields.foldl (fun align field => max align field.align) start := by
  induction fields generalizing start with
  | nil => exact Nat.le_refl start
  | cons f rest ih => exact Nat.le_trans (Nat.le_max_left start f.align) (ih _)

theorem aggregate_align_pos (fields : List Shape) : 0 < (aggregate fields).align :=
  le_foldl_max fields 1

theorem extent_le_size (fields : List Shape) : extent fields 0 ≤ (aggregate fields).size :=
  le_roundUp _ _ (aggregate_align_pos fields)

end Offsets

/-! Words in memory. -/

abbrev Memory := ℕ → UInt8

/-- The low bytes of a number, the lowest first. -/
def lowBytes : ℕ → ℕ → List UInt8
  | 0, _ => []
  | width + 1, n => UInt8.ofNat n :: lowBytes width (n / 256)

def ofLowBytes : List UInt8 → ℕ
  | [] => 0
  | b :: rest => b.toNat + 256 * ofLowBytes rest

def wordBytes (little : Bool) (width n : ℕ) : List UInt8 :=
  if little then lowBytes width n else (lowBytes width n).reverse

def ofWordBytes (little : Bool) (bytes : List UInt8) : ℕ :=
  ofLowBytes (if little then bytes else bytes.reverse)

structure Leaf where
  offset : ℕ
  width : ℕ
  value : ℕ

def poke (memory : Memory) (offset : ℕ) (bytes : List UInt8) : Memory := fun i =>
  if offset ≤ i then (bytes[i - offset]?).getD (memory i) else memory i

def peek (memory : Memory) (offset width : ℕ) : List UInt8 :=
  (List.range width).map (fun i => memory (offset + i))

def store (little : Bool) (memory : Memory) (leaves : List Leaf) : Memory :=
  leaves.foldl (fun memory leaf =>
    poke memory leaf.offset (wordBytes little leaf.width leaf.value)) memory

def load (little : Bool) (memory : Memory) (offset width : ℕ) : ℕ :=
  ofWordBytes little (peek memory offset width)

section Words

@[simp] theorem lowBytes_length (width n : ℕ) : (lowBytes width n).length = width := by
  induction width generalizing n with
  | zero => rfl
  | succ width ih =>
    change (lowBytes width (n / 256)).length + 1 = _
    rw [ih]

theorem ofLowBytes_lowBytes (width n : ℕ) (hn : n < 256 ^ width) :
    ofLowBytes (lowBytes width n) = n := by
  induction width generalizing n with
  | zero =>
    have hzero : n = 0 := by
      rw [Nat.pow_zero] at hn
      omega
    rw [hzero]
    rfl
  | succ width ih =>
    have hdiv : n / 256 < 256 ^ width := by
      rw [Nat.pow_succ] at hn
      exact Nat.div_lt_of_lt_mul (by omega)
    change (UInt8.ofNat n).toNat + 256 * ofLowBytes (lowBytes width (n / 256)) = n
    rw [ih (n / 256) hdiv]
    have hbyte : (UInt8.ofNat n).toNat = n % 256 := by simp
    have hsplit := Nat.mod_add_div n 256
    omega

@[simp] theorem wordBytes_length (little : Bool) (width n : ℕ) :
    (wordBytes little width n).length = width := by
  unfold wordBytes
  split
  · exact lowBytes_length width n
  · rw [List.length_reverse, lowBytes_length]

theorem ofWordBytes_wordBytes (little : Bool) (width n : ℕ) (hn : n < 256 ^ width) :
    ofWordBytes little (wordBytes little width n) = n := by
  unfold ofWordBytes wordBytes
  cases little
  · rw [if_neg (by simp), if_neg (by simp), List.reverse_reverse, ofLowBytes_lowBytes width n hn]
  · rw [if_pos rfl, if_pos rfl, ofLowBytes_lowBytes width n hn]

theorem peek_poke (memory : Memory) (offset : ℕ) (bytes : List UInt8) :
    peek (poke memory offset bytes) offset bytes.length = bytes := by
  apply List.ext_getElem
  · simp [peek]
  · intro i hi hi'
    simp [peek, poke, List.getElem?_eq_getElem hi']

/-- A write elsewhere is not seen. -/
theorem peek_poke_apart (memory : Memory) (offset width other : ℕ) (bytes : List UInt8)
    (hapart : offset + width ≤ other ∨ other + bytes.length ≤ offset) :
    peek (poke memory other bytes) offset width = peek memory offset width := by
  apply List.map_congr_left
  intro i hi
  have hlt := List.mem_range.mp hi
  unfold poke
  split
  · rw [List.getElem?_eq_none (by omega), Option.getD_none]
  · rfl

/-- Words stored in places apart are all read back. -/
theorem load_store (little : Bool) (memory : Memory) (leaves : List Leaf) (leaf : Leaf)
    (hleaf : leaf ∈ leaves) (hvalue : leaf.value < 256 ^ leaf.width)
    (hapart : leaves.Pairwise (fun a b =>
      a.offset + a.width ≤ b.offset ∨ b.offset + b.width ≤ a.offset)) :
    load little (store little memory leaves) leaf.offset leaf.width = leaf.value := by
  have hlater : ∀ (rest : List Leaf) (memory : Memory),
      (∀ b ∈ rest, leaf.offset + leaf.width ≤ b.offset ∨ b.offset + b.width ≤ leaf.offset) →
      peek (store little memory rest) leaf.offset leaf.width =
        peek memory leaf.offset leaf.width := by
    intro rest
    induction rest with
    | nil => exact fun _ _ => rfl
    | cons b rest ih =>
      intro memory hall
      have hb := hall b (List.mem_cons_self ..)
      unfold store at ih ⊢
      rw [List.foldl_cons, ih _ (fun c hc => hall c (List.mem_cons_of_mem b hc)),
        peek_poke_apart]
      rw [wordBytes_length]
      exact hb
  induction leaves generalizing memory with
  | nil => cases hleaf
  | cons a rest ih =>
    obtain ⟨hhead, htail⟩ := List.pairwise_cons.mp hapart
    change load little (store little (poke memory a.offset _) rest) _ _ = _
    rcases List.mem_cons.mp hleaf with heq | hmem
    · subst heq
      unfold load
      rw [hlater rest _ hhead]
      have hpeek := peek_poke memory leaf.offset (wordBytes little leaf.width leaf.value)
      rw [wordBytes_length] at hpeek
      rw [hpeek, ofWordBytes_wordBytes little leaf.width leaf.value hvalue]
    · exact ih _ hmem htail

end Words

end CompositionIr.Layouts
