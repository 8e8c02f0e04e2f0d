import Mathlib.Algebra.Group.Nat.Defs
import Mathlib.Data.Prod.Lex
import Mathlib.Order.Lattice
import CompositionIr.Outcomes

/-!
Identity: the scope that identities and revisions live in, and the one address union
over every record space. Addresses are ordered field by field, space first, then the
domain and the ordinal of the id.
-/

namespace CompositionIr.Addresses

open Outcomes

structure NonZeroU64 where
  val : ℕ
  pos : 0 < val
  lt : val < 2 ^ 64
  deriving DecidableEq

def NonZeroU64.max : NonZeroU64 := ⟨2 ^ 64 - 1, by omega, by omega⟩

/-- Opaque: compared for equality, never read. -/
structure Domain where
  value : NonZeroU64
  deriving DecidableEq

structure Revision where
  value : NonZeroU64
  deriving DecidableEq

structure SnapshotVersion where
  domain : Domain
  revision : Revision
  deriving DecidableEq

inductive Space where
  | node
  | frame
  | source
  | origin
  | destination
  | resource
  deriving DecidableEq

def Space.discriminant : Space → ℕ
  | node => 0
  | frame => 1
  | source => 2
  | origin => 3
  | destination => 4
  | resource => 5

structure Id where
  domain : Domain
  ordinal : NonZeroU64
  deriving DecidableEq

structure Address where
  space : Space
  id : Id
  deriving DecidableEq

namespace Address

def domain (a : Address) : Domain := a.id.domain

/-- The fields in declaration order, which the derived order compares. -/
def key (a : Address) : ℕ ×ₗ ℕ ×ₗ ℕ :=
  toLex (a.space.discriminant, toLex (a.id.domain.value.val, a.id.ordinal.val))

end Address

theorem NonZeroU64.ext_val {a b : NonZeroU64} (h : a.val = b.val) : a = b := by
  cases a
  cases b
  cases h
  rfl

theorem Space.discriminant_injective : Function.Injective Space.discriminant := by
  intro a b h
  cases a <;> cases b <;> first | rfl | cases h

theorem Address.key_injective : Function.Injective Address.key := by
  intro a b h
  obtain ⟨hspace, hrest⟩ := Prod.mk.inj (toLex.injective h)
  obtain ⟨hdomain, hordinal⟩ := Prod.mk.inj (toLex.injective hrest)
  obtain ⟨sa, ⟨⟨da⟩, oa⟩⟩ := a
  obtain ⟨sb, ⟨⟨db⟩, ob⟩⟩ := b
  have hs : sa = sb := Space.discriminant_injective hspace
  have hd : da = db := NonZeroU64.ext_val hdomain
  have ho : oa = ob := NonZeroU64.ext_val hordinal
  rw [hs, hd, ho]

instance : LinearOrder Address := LinearOrder.lift' Address.key Address.key_injective

section Fixtures

/-! The identities the suites build their documents from. -/

/-- The word of a number, at either end of the range when the number is outside. -/
def word (n : ℕ) : NonZeroU64 := ⟨max 1 (min n (2 ^ 64 - 1)), by omega, by omega⟩

def dom : Domain := ⟨word 1⟩

def rev (n : ℕ) : Revision := ⟨word n⟩

def addr (space : Space) (n : ℕ) : Address := ⟨space, ⟨dom, word n⟩⟩

end Fixtures

/-- What stops the code with a panic rather than a result. -/
inductive Trap where
  | foreignDomain
  | noSuchAddress
  | revisionExhausted
  | noSuchRecipe
  | notLive
  | unwrapNone
  deriving DecidableEq

def Trap.message : Trap → String
  | foreignDomain =>
    "address from a foreign domain: this is a programmer error, not a result value"
  | noSuchAddress => "no such address"
  | revisionExhausted => "revision exhausted: start a fresh domain"
  | noSuchRecipe => "no such recipe"
  | notLive => "live"
  | unwrapNone => "called `Option::unwrap()` on a `None` value"

theorem Trap.message_injective : Function.Injective Trap.message := by
  intro s t h
  cases s <;> cases t <;> first | rfl | exact absurd h (by decide)

abbrev Eval := Outcome Trap

end CompositionIr.Addresses
