import CompositionIr.Addresses
import CompositionIr.Texts

/-!
Numbers in decimal, and the text that an address has for a debugging reader. Retained
targets key their elements by that text, which is sound because it determines the address.
-/

namespace CompositionIr.DebugText

open Addresses Texts

def decimal (n : ℕ) : List Char := Nat.toDigits 10 n

def signed : ℤ → List Char
  | .ofNat n => decimal n
  | .negSucc n => '-' :: decimal (n + 1)

theorem isDigit_of_mem_decimal {n : ℕ} {c : Char} (hc : c ∈ decimal n) : c.isDigit = true :=
  Nat.isDigit_of_mem_toDigits (by omega) (by omega) hc

theorem notMem_decimal {n : ℕ} {c : Char} (hc : c.isDigit = false) : c ∉ decimal n := by
  intro hmem
  rw [isDigit_of_mem_decimal hmem] at hc
  cases hc

theorem notMem_signed {z : ℤ} {c : Char} (hc : c.isDigit = false) (hsign : c ≠ '-') :
    c ∉ signed z := by
  cases z with
  | ofNat n => exact notMem_decimal hc
  | negSucc n =>
    unfold signed
    rw [List.mem_cons, not_or]
    exact ⟨hsign, notMem_decimal hc⟩

theorem decimal_injective : Function.Injective decimal := by
  intro n m h
  have hnum := congrArg (fun ds => Nat.ofDigitChars 10 ds 0) h
  simpa [decimal] using hnum

def debugSpace : Space → List Char
  | .node => "Node".toList
  | .frame => "Frame".toList
  | .source => "Source".toList
  | .origin => "Origin".toList
  | .destination => "Destination".toList
  | .resource => "Resource".toList

def debugDomain (d : Domain) : List Char := "Domain(".toList ++ decimal d.value.val ++ ")".toList

def debugId (id : Id) : List Char :=
  "Id \x7b domain: ".toList ++ debugDomain id.domain ++ ", ordinal: ".toList ++
    decimal id.ordinal.val ++ " \x7d".toList

def debugAddress (a : Address) : List Char :=
  "Address \x7b space: ".toList ++ debugSpace a.space ++ ", id: ".toList ++ debugId a.id ++
    " \x7d".toList

theorem debugSpace_injective : Function.Injective debugSpace := by
  intro s t h
  cases s <;> cases t <;> first | rfl | exact absurd h (by decide)

/-- A comma ends the space. -/
theorem comma_notMem_debugSpace (s : Space) : ',' ∉ debugSpace s := by
  cases s <;> decide

theorem debugId_injective : Function.Injective debugId := by
  intro i j h
  obtain ⟨⟨d⟩, n⟩ := i
  obtain ⟨⟨e⟩, m⟩ := j
  unfold debugId debugDomain at h
  simp only [List.append_assoc] at h
  have hdom := List.append_cancel_left (List.append_cancel_left h)
  obtain ⟨hd, hrest⟩ := cut_first ')' (notMem_decimal rfl) (notMem_decimal rfl) hdom
  have hord := (List.append_right_inj ", ordinal: ".toList).mp hrest
  obtain ⟨hn, _⟩ := cut_first ' ' (notMem_decimal rfl) (notMem_decimal rfl) hord
  rw [NonZeroU64.ext_val (decimal_injective hd), NonZeroU64.ext_val (decimal_injective hn)]

/-- The debug text determines the address. -/
theorem debugAddress_injective : Function.Injective debugAddress := by
  intro a b h
  obtain ⟨s, i⟩ := a
  obtain ⟨t, j⟩ := b
  unfold debugAddress at h
  simp only [List.append_assoc] at h
  have hspace := List.append_cancel_left h
  obtain ⟨hs, hrest⟩ :=
    cut_first ',' (comma_notMem_debugSpace s) (comma_notMem_debugSpace t) hspace
  have hid : debugId i ++ " \x7d".toList = debugId j ++ " \x7d".toList :=
    (List.append_right_inj " id: ".toList).mp hrest
  rw [debugSpace_injective hs, debugId_injective (List.append_cancel_right hid)]

/-- A character that is no digit and in none of the fixed parts is not in the text. -/
theorem notMem_debugAddress {c : Char} (hdigit : c.isDigit = false)
    (hspace : ∀ s, c ∉ debugSpace s)
    (hfixed : c ∉ ("Address \x7b space: ".toList ++ ", id: ".toList ++ "Id \x7b domain: ".toList ++
      "Domain(".toList ++ ")".toList ++ ", ordinal: ".toList ++ " \x7d".toList)) (a : Address) :
    c ∉ debugAddress a := by
  simp only [List.mem_append, not_or] at hfixed
  obtain ⟨⟨⟨⟨⟨⟨haddress, hid⟩, hdomain⟩, hopen⟩, hclose⟩, hordinal⟩, hend⟩ := hfixed
  unfold debugAddress debugId debugDomain
  simp only [List.mem_append, not_or]
  exact ⟨⟨⟨⟨haddress, hspace a.space⟩, hid⟩, ⟨⟨⟨hdomain, ⟨hopen, notMem_decimal hdigit⟩, hclose⟩,
    hordinal⟩, notMem_decimal hdigit⟩, hend⟩, hend⟩

end CompositionIr.DebugText
