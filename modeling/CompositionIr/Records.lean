import Mathlib.Data.BitVec
import Mathlib.Data.Int.Notation
import CompositionIr.Addresses

/-!
The record and its projection parts. A set of parts is one flag word. Equality of two
records is asked one part at a time; the value a part compares is its projection, so
that part equality is equality of projections.
-/

namespace CompositionIr.Records

open Addresses

inductive Part where
  | «structure»
  | text
  | textMap
  | shaping
  | intrinsicLayout
  | lineLayout
  | fragmentation
  | paint
  | interaction
  | sourceLink
  | validation
  | descendant
  deriving DecidableEq

def allParts : List Part :=
  [Part.structure, Part.text, Part.textMap, Part.shaping, Part.intrinsicLayout,
    Part.lineLayout, Part.fragmentation, Part.paint, Part.interaction, Part.sourceLink,
    Part.validation, Part.descendant]

/-- Every part except `descendant`, which is derived rather than stored. -/
def ownParts : List Part :=
  [Part.structure, Part.text, Part.textMap, Part.shaping, Part.intrinsicLayout,
    Part.lineLayout, Part.fragmentation, Part.paint, Part.interaction, Part.sourceLink,
    Part.validation]

def Part.discriminant : Part → ℕ
  | «structure» => 0
  | text => 1
  | textMap => 2
  | shaping => 3
  | intrinsicLayout => 4
  | lineLayout => 5
  | fragmentation => 6
  | paint => 7
  | interaction => 8
  | sourceLink => 9
  | validation => 10
  | descendant => 11

theorem mem_ownParts (p : Part) : p ∈ ownParts ↔ p ≠ Part.descendant := by
  cases p <;> decide

theorem eq_descendant_of_not_own {p : Part} (hp : p ∉ ownParts) : p = Part.descendant := by
  rwa [mem_ownParts, not_not] at hp

theorem Part.discriminant_injective : Function.Injective Part.discriminant := by
  intro p q h
  cases p <;> cases q <;> first | rfl | cases h

theorem Part.discriminant_lt (p : Part) : p.discriminant < 16 := by
  cases p <;> decide

/-- A set of parts, one machine word. -/
structure Parts where
  bits : BitVec 16
  deriving DecidableEq

namespace Parts

def empty : Parts := ⟨0⟩

/-- The flag of one part, `1 << (part as u16)`. -/
def of (part : Part) : Parts := ⟨BitVec.twoPow 16 part.discriminant⟩

def contains (s : Parts) (part : Part) : Bool := s.bits &&& (of part).bits != 0

def insert (s : Parts) (part : Part) : Parts := ⟨s.bits ||| (of part).bits⟩

def isEmpty (s : Parts) : Bool := s.bits == 0

/-- Drop `descendant`, recovering the record-only reading of "changed". -/
def own (s : Parts) : Parts := ⟨s.bits &&& ~~~(of Part.descendant).bits⟩

def iter (s : Parts) : List Part := allParts.filter s.contains

theorem contains_eq (s : Parts) (p : Part) :
    s.contains p = s.bits.getLsbD p.discriminant := by
  have hp : p.discriminant < 16 := p.discriminant_lt
  rw [contains, of, BitVec.and_twoPow]
  by_cases hbit : s.bits.getLsbD p.discriminant
  · have hne : BitVec.twoPow 16 p.discriminant ≠ 0#16 := by
      intro h
      have := congrArg (fun b : BitVec 16 => b.getLsbD p.discriminant) h
      simp [hp] at this
    simp [hbit, hne]
  · simp [hbit]

@[simp] theorem contains_empty (p : Part) : empty.contains p = false := by
  rw [contains_eq]
  simp [empty]

@[simp] theorem contains_insert (s : Parts) (p q : Part) :
    (s.insert p).contains q = (s.contains q || decide (p = q)) := by
  rw [contains_eq, contains_eq, insert, BitVec.getLsbD_or, of, BitVec.getLsbD_twoPow]
  by_cases hpq : p = q
  · subst hpq
    simp [p.discriminant_lt]
  · have hne : p.discriminant ≠ q.discriminant := fun h => hpq (Part.discriminant_injective h)
    simp [hpq, hne]

theorem not_isEmpty_of_contains (s : Parts) (p : Part) (h : s.contains p = true) :
    s.isEmpty = false := by
  rw [contains_eq] at h
  rw [isEmpty, beq_eq_false_iff_ne]
  intro h0
  rw [h0] at h
  simp at h

/-- A loop that inserts the parts failing a test adds exactly those. -/
theorem contains_foldl (test : Part → Bool) (l : List Part) (s : Parts) (q : Part) :
    (l.foldl (fun s p => if test p then s else s.insert p) s).contains q = true ↔
      s.contains q = true ∨ (q ∈ l ∧ test q = false) := by
  induction l generalizing s with
  | nil => simp
  | cons p rest ih =>
    rw [List.foldl_cons, ih, List.mem_cons]
    by_cases hp : test p = true
    · rw [if_pos hp]
      constructor
      · rintro (h | ⟨hq, ht⟩)
        · exact Or.inl h
        · exact Or.inr ⟨Or.inr hq, ht⟩
      · rintro (h | ⟨rfl | hq, ht⟩)
        · exact Or.inl h
        · rw [hp] at ht
          cases ht
        · exact Or.inr ⟨hq, ht⟩
    · rw [if_neg hp, contains_insert, Bool.or_eq_true, decide_eq_true_eq]
      have hpf : test p = false := by simpa using hp
      constructor
      · rintro ((h | rfl) | ⟨hq, ht⟩)
        · exact Or.inl h
        · exact Or.inr ⟨Or.inl rfl, hpf⟩
        · exact Or.inr ⟨Or.inr hq, ht⟩
      · rintro (h | ⟨rfl | hq, ht⟩)
        · exact Or.inl (Or.inl h)
        · exact Or.inl (Or.inr rfl)
        · exact Or.inr ⟨hq, ht⟩

end Parts

structure Rgba where
  r : UInt8 := 0
  g : UInt8 := 0
  b : UInt8 := 0
  a : UInt8 := 0
  deriving DecidableEq

inductive ResourceRole where
  | font
  | image
  | gradient
  | colorProfile
  deriving DecidableEq

/-- The projection this role participates in. -/
def ResourceRole.part : ResourceRole → Part
  | font => Part.shaping
  | image | gradient | colorProfile => Part.paint

structure ResourceRef where
  role : ResourceRole
  address : Address
  deriving DecidableEq

/-- One published record, with the defaults of the source. -/
structure Node where
  children : List Address := []
  text : String := ""
  textMap : String := ""
  font : String := ""
  intrinsic : ℤ := 0
  lines : ℤ := 0
  paint : Rgba := {}
  resources : List ResourceRef := []
  fragments : List UInt32 := []
  interaction : String := ""
  sourceLink : String := ""
  valid : Bool := true
  deriving DecidableEq

def Part.Value : Part → Type
  | «structure» => List Address
  | text => String
  | textMap => String
  | shaping => String × String × List Address
  | intrinsicLayout => ℤ
  | lineLayout => ℤ
  | fragmentation => List UInt32
  | paint => Rgba × List Address
  | interaction => String
  | sourceLink => String
  | validation => Bool
  | descendant => Unit

abbrev Projection := (p : Part) → p.Value

namespace Node

def resourcesFor (n : Node) (part : Part) : List Address :=
  (n.resources.filter (fun r => r.role.part == part)).map ResourceRef.address

def partEq (self other : Node) : Part → Bool
  | Part.structure => self.children == other.children
  | Part.text => self.text == other.text
  | Part.textMap => self.textMap == other.textMap
  | Part.shaping =>
    self.font == other.font && self.text == other.text &&
      self.resourcesFor Part.shaping == other.resourcesFor Part.shaping
  | Part.intrinsicLayout => self.intrinsic == other.intrinsic
  | Part.lineLayout => self.lines == other.lines
  | Part.fragmentation => self.fragments == other.fragments
  | Part.paint =>
    self.paint == other.paint &&
      self.resourcesFor Part.paint == other.resourcesFor Part.paint
  | Part.interaction => self.interaction == other.interaction
  | Part.sourceLink => self.sourceLink == other.sourceLink
  | Part.validation => self.valid == other.valid
  | Part.descendant => true

/-- What each part of a record shows. -/
def projection (n : Node) : Projection
  | Part.structure => n.children
  | Part.text => n.text
  | Part.textMap => n.textMap
  | Part.shaping => (n.font, n.text, n.resourcesFor Part.shaping)
  | Part.intrinsicLayout => n.intrinsic
  | Part.lineLayout => n.lines
  | Part.fragmentation => n.fragments
  | Part.paint => (n.paint, n.resourcesFor Part.paint)
  | Part.interaction => n.interaction
  | Part.sourceLink => n.sourceLink
  | Part.validation => n.valid
  | Part.descendant => ()

/-- Part equality compares exactly the projections. -/
theorem partEq_iff (n m : Node) (p : Part) :
    n.partEq m p = true ↔ n.projection p = m.projection p := by
  cases p
  case shaping =>
    change _ ↔ (n.font, n.text, n.resourcesFor Part.shaping) =
      (m.font, m.text, m.resourcesFor Part.shaping)
    simp [partEq, and_assoc]
  case paint =>
    change _ ↔ (n.paint, n.resourcesFor Part.paint) = (m.paint, m.resourcesFor Part.paint)
    simp [partEq]
  case descendant => exact ⟨fun _ => rfl, fun _ => rfl⟩
  all_goals exact beq_iff_eq

@[simp] theorem projection_structure (n : Node) : n.projection Part.structure = n.children := rfl

/-- Equality on every own part is equality of the whole projection. -/
theorem partEq_own_iff (n m : Node) :
    (∀ p ∈ ownParts, n.partEq m p = true) ↔ n.projection = m.projection := by
  constructor
  · intro h
    funext p
    by_cases hp : p = Part.descendant
    · subst hp
      rfl
    · exact (partEq_iff n m p).mp (h p ((mem_ownParts p).mpr hp))
  · intro h p _
    exact (partEq_iff n m p).mpr (congrFun h p)

/-- Records with one projection differ at most in how their resource references
are listed. -/
theorem eq_of_projection (n m : Node) (h : n.projection = m.projection)
    (hr : n.resources = m.resources) : n = m := by
  have hs : n.children = m.children := congrFun h Part.structure
  have ht : n.text = m.text := congrFun h Part.text
  have hm : n.textMap = m.textMap := congrFun h Part.textMap
  have hf : n.font = m.font := congrArg Prod.fst (congrFun h Part.shaping)
  have hi : n.intrinsic = m.intrinsic := congrFun h Part.intrinsicLayout
  have hl : n.lines = m.lines := congrFun h Part.lineLayout
  have hg : n.fragments = m.fragments := congrFun h Part.fragmentation
  have hp : n.paint = m.paint := congrArg Prod.fst (congrFun h Part.paint)
  have ha : n.interaction = m.interaction := congrFun h Part.interaction
  have ho : n.sourceLink = m.sourceLink := congrFun h Part.sourceLink
  have hv : n.valid = m.valid := congrFun h Part.validation
  cases n
  cases m
  simp_all

end Node

end CompositionIr.Records
