import Mathlib.Data.List.AList
import Mathlib.Data.Set.Card
import CompositionIr.Transitions

/-!
Values shared behind counted allocations. A pointer names a box, a box shares one
allocation with a count of the boxes on it, and the allocation goes with its last box.
A released pointer may be handed out again for another box. To a caller that keeps its
own ledger of pointers this is a store in which every pointer owns a copy of its value.
-/

namespace CompositionIr.SharedBoxes

open Transitions

variable {α : Type*}

structure Shared (α : Type*) where
  value : α
  count : ℕ

abbrev Boxes := AList (fun _ : ℕ => ℕ)

def sharing (boxes : Boxes) (serial : ℕ) : ℕ := boxes.entries.countP (fun e => e.2 == serial)

/-- What is allocated: the shared values by serial number, and the boxes by pointer. -/
structure Store (α : Type*) where
  next : ℕ
  shared : AList (fun _ : ℕ => Shared α)
  boxes : Boxes

namespace Store

def empty : Store α := ⟨0, ∅, ∅⟩

/-- The value behind a pointer; nothing where the pointer is null or dangles. -/
def deref (st : Store α) (ptr : ℕ) : Option α :=
  (st.boxes.lookup ptr).bind (fun serial => (st.shared.lookup serial).map Shared.value)

def intoRaw (st : Store α) (ptr : ℕ) (value : α) : Store α where
  next := st.next + 1
  shared := st.shared.insert st.next ⟨value, 1⟩
  boxes := st.boxes.insert ptr st.next

def retain (st : Store α) (ptr new : ℕ) : Option (Store α) :=
  match st.boxes.lookup ptr with
  | none => none
  | some serial =>
    match st.shared.lookup serial with
    | none => none
    | some held =>
      some { st with
        shared := st.shared.insert serial { held with count := held.count + 1 }
        boxes := st.boxes.insert new serial }

/-- Drop a box. Its allocation is freed when the count comes to nothing. -/
def release (st : Store α) (ptr : ℕ) : Option (Store α) :=
  match st.boxes.lookup ptr with
  | none => none
  | some serial =>
    match st.shared.lookup serial with
    | none => none
    | some held =>
      some { st with
        shared :=
          if held.count = 1 then st.shared.erase serial
          else st.shared.insert serial { held with count := held.count - 1 }
        boxes := st.boxes.erase ptr }

structure Counted (st : Store α) : Prop where
  young : ∀ serial held, st.shared.lookup serial = some held → serial < st.next
  count : ∀ serial held, st.shared.lookup serial = some held → held.count = sharing st.boxes serial
  pos : ∀ serial held, st.shared.lookup serial = some held → 0 < held.count
  boxed : ∀ ptr serial, st.boxes.lookup ptr = some serial →
    ∃ held, st.shared.lookup serial = some held

end Store

inductive Call (α : Type*) where
  | intoRaw (ptr : ℕ) (value : α)
  | retain (ptr new : ℕ)
  | release (ptr : ℕ)

/-- The address chosen for a new box is one that no box has now. -/
inductive Step : Store α → Call α → Store α → Prop
  | intoRaw {st : Store α} {ptr : ℕ} {value : α} (hnull : ptr ≠ 0) (hfresh : ptr ∉ st.boxes) :
      Step st (.intoRaw ptr value) (st.intoRaw ptr value)
  | retain {st st' : Store α} {ptr new : ℕ} (hnull : new ≠ 0) (hfresh : new ∉ st.boxes)
      (h : st.retain ptr new = some st') : Step st (.retain ptr new) st'
  | release {st st' : Store α} {ptr : ℕ} (h : st.release ptr = some st') :
      Step st (.release ptr) st'

/-! What the caller keeps: of every pointer it holds the allocation it was made from,
counted in the order they were handed over, and the value. -/

structure Ledger (α : Type*) where
  next : ℕ
  held : ℕ → Option (ℕ × α)

namespace Ledger

def empty : Ledger α := ⟨0, fun _ => none⟩

def record (l : Ledger α) : Call α → Ledger α
  | .intoRaw ptr value =>
    ⟨l.next + 1, Function.update l.held ptr (some (l.next, value))⟩
  | .retain ptr new => ⟨l.next, Function.update l.held new (l.held ptr)⟩
  | .release ptr => ⟨l.next, Function.update l.held ptr none⟩

def recordAll (l : Ledger α) (calls : List (Call α)) : Ledger α := calls.foldl record l

/-- The caller keeps to the contract: a call names a pointer it holds, and the allocator
answers with an address that is not in use. -/
def Allows (l : Ledger α) : Call α → Prop
  | .intoRaw ptr _ => ptr ≠ 0 ∧ l.held ptr = none
  | .retain ptr new => (l.held ptr).isSome ∧ new ≠ 0 ∧ l.held new = none
  | .release ptr => (l.held ptr).isSome

end Ledger

/-- The ledger says of every pointer what is behind it. -/
structure Agrees (st : Store α) (l : Ledger α) : Prop where
  next : st.next = l.next
  held : ∀ ptr, l.held ptr = (st.boxes.lookup ptr).bind (fun serial =>
    (st.shared.lookup serial).map (fun held => (serial, held.value)))

section Lookups

variable {β : Type*} {m : AList (fun _ : ℕ => β)} {key other : ℕ} {value found : β}

theorem lookup_insert_cases (h : (m.insert key value).lookup other = some found) :
    (other = key ∧ found = value) ∨ (other ≠ key ∧ m.lookup other = some found) := by
  by_cases hother : other = key
  · subst hother
    rw [AList.lookup_insert, Option.some.injEq] at h
    exact Or.inl ⟨rfl, h.symm⟩
  · rw [AList.lookup_insert_ne hother] at h
    exact Or.inr ⟨hother, h⟩

theorem exists_lookup_insert (h : other = key ∨ ∃ found, m.lookup other = some found) :
    ∃ found, (m.insert key value).lookup other = some found := by
  by_cases hother : other = key
  · subst hother
    exact ⟨value, AList.lookup_insert _⟩
  · rw [AList.lookup_insert_ne hother]
    exact h.resolve_left hother

end Lookups

section Sharing

variable {boxes : Boxes} {ptr serial : ℕ}

theorem sharing_insert (hfresh : ptr ∉ boxes) (other : ℕ) :
    sharing (boxes.insert ptr serial) other =
      sharing boxes other + if serial = other then 1 else 0 := by
  unfold sharing
  rw [AList.entries_insert_of_notMem hfresh, List.countP_cons]
  simp only [beq_iff_eq]

theorem sharing_erase (h : boxes.lookup ptr = some serial) (other : ℕ) :
    sharing boxes other = sharing (boxes.erase ptr) other + if serial = other then 1 else 0 := by
  have hkey : ptr ∈ boxes.entries.keys := by
    have hmem : ptr ∈ boxes := AList.lookup_isSome.mp (by rw [h]; rfl)
    exact hmem
  obtain ⟨serial', left, right, hleft, hentries, herase⟩ := List.exists_of_kerase hkey
  have hserial : serial' = serial := by
    have hlookup : boxes.entries.dlookup ptr = some serial := h
    rw [hentries, List.dlookup_append, List.dlookup_eq_none.mpr hleft, Option.none_or,
      List.dlookup_cons_eq, Option.some.injEq] at hlookup
    exact hlookup
  unfold sharing
  change _ = (List.kerase ptr boxes.entries).countP _ + _
  rw [herase, hentries, List.countP_append, List.countP_append, List.countP_cons, hserial]
  simp only [beq_iff_eq]
  omega

theorem sharing_pos (h : boxes.lookup ptr = some serial) : 0 < sharing boxes serial := by
  rw [sharing_erase h serial, if_pos rfl]
  omega

/-- An allocation that some box shares has such a box to show. -/
theorem exists_of_sharing_pos (h : 0 < sharing boxes serial) :
    ∃ ptr, boxes.lookup ptr = some serial := by
  obtain ⟨e, he, heq⟩ := List.countP_pos_iff.mp h
  refine ⟨e.1, ?_⟩
  have hmem : (⟨e.1, e.2⟩ : Sigma (fun _ : ℕ => ℕ)) ∈ boxes.entries := he
  rw [← beq_iff_eq.mp heq]
  exact AList.mem_lookup_iff.mpr hmem

end Sharing

section Steps

variable {st st' : Store α} {ptr new : ℕ}

theorem retain_eq_some (h : st.retain ptr new = some st') :
    ∃ serial held, st.boxes.lookup ptr = some serial ∧ st.shared.lookup serial = some held ∧
      st' = { st with
        shared := st.shared.insert serial { held with count := held.count + 1 }
        boxes := st.boxes.insert new serial } := by
  unfold Store.retain at h
  split at h
  · cases h
  · rename_i serial hbox
    split at h
    · cases h
    · rename_i held hheld
      exact ⟨serial, held, hbox, hheld, (Option.some.inj h).symm⟩

theorem release_eq_some (h : st.release ptr = some st') :
    ∃ serial held, st.boxes.lookup ptr = some serial ∧ st.shared.lookup serial = some held ∧
      st' = { st with
        shared :=
          if held.count = 1 then st.shared.erase serial
          else st.shared.insert serial { held with count := held.count - 1 }
        boxes := st.boxes.erase ptr } := by
  unfold Store.release at h
  split at h
  · cases h
  · rename_i serial hbox
    split at h
    · cases h
    · rename_i held hheld
      exact ⟨serial, held, hbox, hheld, (Option.some.inj h).symm⟩

theorem exists_retain (new : ℕ) {serial : ℕ} {held : Shared α}
    (hbox : st.boxes.lookup ptr = some serial) (hheld : st.shared.lookup serial = some held) :
    ∃ st', st.retain ptr new = some st' := by
  apply Option.isSome_iff_exists.mp
  unfold Store.retain
  simp only [hbox, hheld, Option.isSome_some]

theorem exists_release {serial : ℕ} {held : Shared α}
    (hbox : st.boxes.lookup ptr = some serial) (hheld : st.shared.lookup serial = some held) :
    ∃ st', st.release ptr = some st' := by
  apply Option.isSome_iff_exists.mp
  unfold Store.release
  simp only [hbox, hheld, Option.isSome_some]

/-- A box on an allocation besides the one being dropped makes the count two or more. -/
theorem two_le_count (hst : st.Counted) {other serial : ℕ} {held : Shared α}
    (hbox : st.boxes.lookup ptr = some serial) (hheld : st.shared.lookup serial = some held)
    (hother : st.boxes.lookup other = some serial) (hne : other ≠ ptr) : 2 ≤ held.count := by
  have hcount := hst.count serial held hheld
  have hsplit := sharing_erase hbox serial
  rw [if_pos rfl] at hsplit
  have hkept : (st.boxes.erase ptr).lookup other = some serial := by
    rw [AList.lookup_erase_ne hne, hother]
  have hpos := sharing_pos hkept
  omega

theorem counted_empty : (Store.empty : Store α).Counted := by
  constructor
  · intro serial held h
    cases h
  · intro serial held h
    cases h
  · intro serial held h
    cases h
  · intro ptr serial h
    cases h

/-- No box shares an allocation that is still to come. -/
theorem sharing_next (hst : st.Counted) : sharing st.boxes st.next = 0 := by
  rcases Nat.eq_zero_or_pos (sharing st.boxes st.next) with hzero | hpos
  · exact hzero
  · obtain ⟨other, hother⟩ := exists_of_sharing_pos hpos
    obtain ⟨held, hheld⟩ := hst.boxed other _ hother
    exact absurd (hst.young _ held hheld) (lt_irrefl _)

theorem intoRaw_counted (hst : st.Counted) (value : α) (hfresh : ptr ∉ st.boxes) :
    (st.intoRaw ptr value).Counted := by
  constructor
  · intro serial held h
    show serial < st.next + 1
    rcases lookup_insert_cases h with ⟨hserial, _⟩ | ⟨_, hold⟩
    · omega
    · have hlt := hst.young serial held hold
      omega
  · intro serial held h
    show held.count = sharing (st.boxes.insert ptr st.next) serial
    rw [sharing_insert hfresh]
    rcases lookup_insert_cases h with ⟨hserial, hheld⟩ | ⟨hserial, hold⟩
    · rw [hserial, hheld, if_pos rfl, sharing_next hst]
    · rw [if_neg (Ne.symm hserial), hst.count serial held hold, Nat.add_zero]
  · intro serial held h
    rcases lookup_insert_cases h with ⟨_, hheld⟩ | ⟨_, hold⟩
    · rw [hheld]
      exact Nat.one_pos
    · exact hst.pos serial held hold
  · intro other serial h
    refine exists_lookup_insert ?_
    rcases lookup_insert_cases h with ⟨_, hserial⟩ | ⟨_, hold⟩
    · exact Or.inl hserial
    · exact Or.inr (hst.boxed other serial hold)

theorem retain_counted (hst : st.Counted) (hfresh : new ∉ st.boxes)
    (h : st.retain ptr new = some st') : st'.Counted := by
  obtain ⟨serial, held, hbox, hheld, rfl⟩ := retain_eq_some h
  constructor
  · intro other held' hlook
    rcases lookup_insert_cases hlook with ⟨rfl, _⟩ | ⟨_, hold⟩
    · exact hst.young other held hheld
    · exact hst.young other held' hold
  · intro other held' hlook
    show held'.count = sharing (st.boxes.insert new serial) other
    rw [sharing_insert hfresh]
    rcases lookup_insert_cases hlook with ⟨rfl, heq⟩ | ⟨hne, hold⟩
    · rw [heq, if_pos rfl, ← hst.count other held hheld]
    · rw [if_neg (Ne.symm hne), hst.count other held' hold, Nat.add_zero]
  · intro other held' hlook
    rcases lookup_insert_cases hlook with ⟨_, heq⟩ | ⟨_, hold⟩
    · rw [heq]
      exact Nat.succ_pos _
    · exact hst.pos other held' hold
  · intro other target hlook
    refine exists_lookup_insert ?_
    rcases lookup_insert_cases hlook with ⟨_, htarget⟩ | ⟨_, hold⟩
    · exact Or.inl htarget
    · exact Or.inr (hst.boxed other target hold)

/-- What a release leaves of each allocation. -/
theorem release_lookup {serial : ℕ} {held : Shared α}
    (hheld : st.shared.lookup serial = some held) (other : ℕ) :
    (if held.count = 1 then st.shared.erase serial
      else st.shared.insert serial { held with count := held.count - 1 }).lookup other =
      if other = serial then
        if held.count = 1 then none else some { held with count := held.count - 1 }
      else st.shared.lookup other := by
  by_cases hother : other = serial
  · subst hother
    rw [if_pos rfl]
    split
    · exact AList.lookup_erase _ _
    · exact AList.lookup_insert _
  · rw [if_neg hother]
    split
    · exact AList.lookup_erase_ne hother
    · exact AList.lookup_insert_ne hother

theorem release_counted (hst : st.Counted) (h : st.release ptr = some st') : st'.Counted := by
  obtain ⟨serial, held, hbox, hheld, rfl⟩ := release_eq_some h
  have hlook := release_lookup hheld
  have hpos := hst.pos serial held hheld
  have hcases : ∀ other held', (if held.count = 1 then st.shared.erase serial
      else st.shared.insert serial { held with count := held.count - 1 }).lookup other =
        some held' →
      (other = serial ∧ held.count ≠ 1 ∧ held' = { held with count := held.count - 1 }) ∨
        (other ≠ serial ∧ st.shared.lookup other = some held') := by
    intro other held' hsome
    rw [hlook other] at hsome
    split at hsome
    · rename_i hother
      split at hsome
      · cases hsome
      · rename_i hone
        exact Or.inl ⟨hother, hone, (Option.some.inj hsome).symm⟩
    · rename_i hother
      exact Or.inr ⟨hother, hsome⟩
  constructor
  · intro other held' hsome
    rcases hcases other held' hsome with ⟨rfl, _, _⟩ | ⟨_, hold⟩
    · exact hst.young other held hheld
    · exact hst.young other held' hold
  · intro other held' hsome
    show held'.count = sharing (st.boxes.erase ptr) other
    have hsplit := sharing_erase hbox other
    rcases hcases other held' hsome with ⟨rfl, _, heq⟩ | ⟨hne, hold⟩
    · have hcount := hst.count other held hheld
      rw [if_pos rfl] at hsplit
      rw [heq]
      show held.count - 1 = _
      omega
    · have hcount := hst.count other held' hold
      rw [if_neg (Ne.symm hne)] at hsplit
      omega
  · intro other held' hsome
    rcases hcases other held' hsome with ⟨_, hone, heq⟩ | ⟨_, hold⟩
    · rw [heq]
      show 0 < held.count - 1
      omega
    · exact hst.pos other held' hold
  · intro other target hbox'
    by_cases hother : other = ptr
    · subst hother
      rw [AList.lookup_erase] at hbox'
      cases hbox'
    · rw [AList.lookup_erase_ne hother] at hbox'
      obtain ⟨held', hheld'⟩ := hst.boxed other target hbox'
      show ∃ left, _ = some left
      rw [hlook target]
      by_cases htarget : target = serial
      · subst htarget
        have htwo := two_le_count hst hbox hheld hbox' hother
        rw [if_pos rfl, if_neg (by omega)]
        exact ⟨_, rfl⟩
      · rw [if_neg htarget]
        exact ⟨held', hheld'⟩

theorem step_counted {c : Call α} (hst : st.Counted) (h : Step st c st') : st'.Counted := by
  cases h with
  | intoRaw _ hfresh => exact intoRaw_counted hst _ hfresh
  | retain _ hfresh h => exact retain_counted hst hfresh h
  | release h => exact release_counted hst h

end Steps

section Ledgers

variable {st st' : Store α} {l : Ledger α} {c : Call α} {ptr : ℕ}

/-- What a ledger holds after a call it held before, or the call handed it over. -/
theorem record_held {serial : ℕ} {value : α} (h : (l.record c).held ptr = some (serial, value)) :
    (∃ other, l.held other = some (serial, value)) ∨ ∃ other, c = .intoRaw other value := by
  cases c with
  | intoRaw other given =>
    change Function.update l.held other (some (l.next, given)) ptr = _ at h
    by_cases hptr : ptr = other
    · rw [hptr, Function.update_self, Option.some.injEq] at h
      obtain ⟨_, rfl⟩ := Prod.mk.inj h
      exact Or.inr ⟨other, rfl⟩
    · rw [Function.update_of_ne hptr] at h
      exact Or.inl ⟨ptr, h⟩
  | retain other new =>
    change Function.update l.held new (l.held other) ptr = _ at h
    by_cases hptr : ptr = new
    · rw [hptr, Function.update_self] at h
      exact Or.inl ⟨other, h⟩
    · rw [Function.update_of_ne hptr] at h
      exact Or.inl ⟨ptr, h⟩
  | release other =>
    change Function.update l.held other none ptr = _ at h
    by_cases hptr : ptr = other
    · rw [hptr, Function.update_self] at h
      cases h
    · rw [Function.update_of_ne hptr] at h
      exact Or.inl ⟨ptr, h⟩

theorem recordAll_held {calls : List (Call α)} {serial : ℕ} {value : α}
    (h : (l.recordAll calls).held ptr = some (serial, value)) :
    (∃ other, l.held other = some (serial, value)) ∨
      ∃ other, Call.intoRaw other value ∈ calls := by
  induction calls generalizing l with
  | nil => exact Or.inl ⟨ptr, h⟩
  | cons c rest ih =>
    rcases ih h with ⟨other, hold⟩ | ⟨other, hmem⟩
    · rcases record_held hold with hbefore | ⟨given, rfl⟩
      · exact Or.inl hbefore
      · exact Or.inr ⟨given, List.mem_cons_self ..⟩
    · exact Or.inr ⟨other, List.mem_cons_of_mem c hmem⟩

/-- A pointer that no call releases or hands out again stands for what it stood for. -/
theorem record_kept (hlive : (l.held ptr).isSome = true) (hallows : l.Allows c)
    (hrel : c ≠ .release ptr) : (l.record c).held ptr = l.held ptr := by
  have hne : ∀ other, l.held other = none → ptr ≠ other := by
    intro other hnone heq
    rw [heq, hnone] at hlive
    cases hlive
  cases c with
  | intoRaw other given => exact Function.update_of_ne (hne other hallows.2) ..
  | retain other new => exact Function.update_of_ne (hne new hallows.2.2) ..
  | release other =>
    refine Function.update_of_ne ?_ ..
    intro heq
    rw [heq] at hrel
    exact hrel rfl

theorem held_of_lookup (hag : Agrees st l) {serial : ℕ} {held : Shared α}
    (hbox : st.boxes.lookup ptr = some serial) (hheld : st.shared.lookup serial = some held) :
    l.held ptr = some (serial, held.value) := by
  rw [hag.held ptr, hbox, Option.bind_some, hheld, Option.map_some]

/-- What the ledger says of a pointer is what the store has behind it. -/
theorem lookup_of_held (hag : Agrees st l) {serial : ℕ} {value : α}
    (h : l.held ptr = some (serial, value)) :
    ∃ held, st.boxes.lookup ptr = some serial ∧ st.shared.lookup serial = some held ∧
      held.value = value := by
  rw [hag.held ptr] at h
  obtain ⟨serial', hbox, hmap⟩ := Option.bind_eq_some_iff.mp h
  obtain ⟨held, hheld, heq⟩ := Option.map_eq_some_iff.mp hmap
  obtain ⟨rfl, rfl⟩ := Prod.mk.inj heq
  exact ⟨held, hbox, hheld, rfl⟩

/-- Reading through a pointer answers with the value of the ledger. -/
theorem deref_eq (hag : Agrees st l) (ptr : ℕ) : st.deref ptr = (l.held ptr).map Prod.snd := by
  rw [hag.held ptr, Store.deref]
  rcases st.boxes.lookup ptr with _ | serial
  · rfl
  · rw [Option.bind_some, Option.bind_some, Option.map_map]
    rfl

theorem notMem_of_held (hst : st.Counted) (hag : Agrees st l) (h : l.held ptr = none) :
    ptr ∉ st.boxes := by
  rw [← AList.lookup_eq_none]
  rcases hbox : st.boxes.lookup ptr with _ | serial
  · rfl
  · obtain ⟨held, hheld⟩ := hst.boxed ptr serial hbox
    rw [held_of_lookup hag hbox hheld] at h
    cases h

theorem held_of_notMem (hag : Agrees st l) (h : ptr ∉ st.boxes) : l.held ptr = none := by
  rw [hag.held ptr, AList.lookup_eq_none.mpr h, Option.bind_none]

theorem agrees_empty : Agrees (Store.empty : Store α) Ledger.empty := ⟨rfl, fun _ => rfl⟩

theorem intoRaw_agrees (hst : st.Counted) (hag : Agrees st l) (value : α) :
    Agrees (st.intoRaw ptr value) (l.record (.intoRaw ptr value)) := by
  refine ⟨congrArg (· + 1) hag.next, fun other => ?_⟩
  show Function.update l.held ptr (some (l.next, value)) other = _
  by_cases hother : other = ptr
  · subst hother
    rw [Function.update_self, ← hag.next]
    simp [Store.intoRaw]
  · rw [Function.update_of_ne hother, hag.held other, Store.intoRaw,
      AList.lookup_insert_ne hother]
    rcases hbox : st.boxes.lookup other with _ | serial
    · rfl
    · obtain ⟨held, hheld⟩ := hst.boxed other serial hbox
      have hlt := hst.young serial held hheld
      rw [Option.bind_some, Option.bind_some, AList.lookup_insert_ne (by omega)]

theorem retain_agrees {new : ℕ} (hag : Agrees st l) (h : st.retain ptr new = some st') :
    Agrees st' (l.record (.retain ptr new)) := by
  obtain ⟨serial, held, hbox, hheld, rfl⟩ := retain_eq_some h
  refine ⟨hag.next, fun other => ?_⟩
  have hshared : ∀ target, ((st.shared.insert serial
      { held with count := held.count + 1 }).lookup target).map
        (fun held => (target, held.value)) =
      (st.shared.lookup target).map (fun held => (target, held.value)) := by
    intro target
    by_cases htarget : target = serial
    · subst htarget
      rw [AList.lookup_insert, hheld, Option.map_some, Option.map_some]
    · rw [AList.lookup_insert_ne htarget]
  show Function.update l.held new (l.held ptr) other = _
  by_cases hother : other = new
  · subst hother
    rw [Function.update_self, held_of_lookup hag hbox hheld, AList.lookup_insert,
      Option.bind_some, hshared, hheld, Option.map_some]
  · rw [Function.update_of_ne hother, hag.held other, AList.lookup_insert_ne hother]
    exact Option.bind_congr (fun target _ => (hshared target).symm)

theorem release_agrees (hst : st.Counted) (hag : Agrees st l)
    (h : st.release ptr = some st') : Agrees st' (l.record (.release ptr)) := by
  obtain ⟨serial, held, hbox, hheld, rfl⟩ := release_eq_some h
  refine ⟨hag.next, fun other => ?_⟩
  show Function.update l.held ptr none other = _
  by_cases hother : other = ptr
  · subst hother
    rw [Function.update_self, AList.lookup_erase, Option.bind_none]
  · rw [Function.update_of_ne hother, hag.held other, AList.lookup_erase_ne hother]
    refine Option.bind_congr (fun target htarget => ?_)
    rw [release_lookup hheld target]
    by_cases hsame : target = serial
    · -- another box keeps the allocation
      subst hsame
      have htwo := two_le_count hst hbox hheld htarget hother
      rw [if_pos rfl, if_neg (by omega), hheld, Option.map_some, Option.map_some]
    · rw [if_neg hsame]

theorem step_agrees (hst : st.Counted) (hag : Agrees st l) (h : Step st c st') :
    Agrees st' (l.record c) := by
  cases h with
  | intoRaw _ _ => exact intoRaw_agrees hst hag _
  | retain _ _ h => exact retain_agrees hag h
  | release h => exact release_agrees hst hag h

/-- A caller is stopped exactly where it breaks the contract. -/
theorem allows_iff (hst : st.Counted) (hag : Agrees st l) :
    l.Allows c ↔ ∃ st', Step st c st' := by
  have hlive : ∀ other, (l.held other).isSome = true → ∃ serial held,
      st.boxes.lookup other = some serial ∧ st.shared.lookup serial = some held := by
    intro other hsome
    obtain ⟨⟨serial, value⟩, hheld⟩ := Option.isSome_iff_exists.mp hsome
    obtain ⟨held, hbox, hshared, _⟩ := lookup_of_held hag hheld
    exact ⟨serial, held, hbox, hshared⟩
  have hsome : ∀ other serial held, st.boxes.lookup other = some serial →
      st.shared.lookup serial = some held → (l.held other).isSome = true := by
    intro other serial held hbox hheld
    rw [held_of_lookup hag hbox hheld]
    rfl
  constructor
  · intro hallows
    cases c with
    | intoRaw ptr value =>
      exact ⟨_, Step.intoRaw hallows.1 (notMem_of_held hst hag hallows.2)⟩
    | retain ptr new =>
      obtain ⟨hheld, hnull, hfresh⟩ := hallows
      obtain ⟨serial, held, hbox, hshared⟩ := hlive ptr hheld
      obtain ⟨st', hst'⟩ := exists_retain new hbox hshared
      exact ⟨st', Step.retain hnull (notMem_of_held hst hag hfresh) hst'⟩
    | release ptr =>
      obtain ⟨serial, held, hbox, hshared⟩ := hlive ptr hallows
      obtain ⟨st', hst'⟩ := exists_release hbox hshared
      exact ⟨st', Step.release hst'⟩
  · rintro ⟨st', hstep⟩
    cases hstep with
    | intoRaw hnull hfresh => exact ⟨hnull, held_of_notMem hag hfresh⟩
    | retain hnull hfresh h =>
      obtain ⟨serial, held, hbox, hheld, _⟩ := retain_eq_some h
      exact ⟨hsome _ serial held hbox hheld, hnull, held_of_notMem hag hfresh⟩
    | release h =>
      obtain ⟨serial, held, hbox, hheld, _⟩ := release_eq_some h
      exact hsome _ serial held hbox hheld

/-- What is allocated is what some pointer of the ledger stands on. -/
theorem allocated_iff (hst : st.Counted) (hag : Agrees st l) (serial : ℕ) :
    (st.shared.lookup serial).isSome = true ↔ ∃ ptr value, l.held ptr = some (serial, value) := by
  constructor
  · intro h
    obtain ⟨held, hheld⟩ := Option.isSome_iff_exists.mp h
    have hpos := hst.pos serial held hheld
    rw [hst.count serial held hheld] at hpos
    obtain ⟨ptr, hbox⟩ := exists_of_sharing_pos hpos
    exact ⟨ptr, held.value, held_of_lookup hag hbox hheld⟩
  · rintro ⟨ptr, value, hheld⟩
    obtain ⟨held, _, hshared, _⟩ := lookup_of_held hag hheld
    rw [hshared]
    rfl

theorem boxed_iff (hst : st.Counted) (hag : Agrees st l) (serial : ℕ) :
    st.boxes.lookup ptr = some serial ↔ ∃ value, l.held ptr = some (serial, value) := by
  constructor
  · intro hbox
    obtain ⟨held, hheld⟩ := hst.boxed ptr serial hbox
    exact ⟨held.value, held_of_lookup hag hbox hheld⟩
  · rintro ⟨value, hheld⟩
    obtain ⟨held, hbox, _, _⟩ := lookup_of_held hag hheld
    exact hbox

/-- A count is the number of pointers of the ledger that stand on the allocation. -/
theorem count_eq_ncard (hst : st.Counted) (hag : Agrees st l) {serial : ℕ} {held : Shared α}
    (hheld : st.shared.lookup serial = some held) :
    held.count = {ptr | ∃ value, l.held ptr = some (serial, value)}.ncard := by
  have hkeys : {ptr | ∃ value, l.held ptr = some (serial, value)} =
      ((st.boxes.entries.filter (fun e => e.2 == serial)).map Sigma.fst).toFinset := by
    ext ptr
    rw [Set.mem_ofPred_eq, ← boxed_iff hst hag, Finset.mem_coe, List.mem_toFinset, List.mem_map]
    constructor
    · intro hbox
      exact ⟨⟨ptr, serial⟩, by simp [AList.mem_lookup_iff.mp hbox], rfl⟩
    · rintro ⟨⟨ptr', serial'⟩, he, rfl⟩
      obtain ⟨hmem, hserial⟩ := List.mem_filter.mp he
      have heq : serial' = serial := beq_iff_eq.mp hserial
      subst heq
      exact AList.mem_lookup_iff.mpr hmem
  have hnodup : ((st.boxes.entries.filter (fun e => e.2 == serial)).map Sigma.fst).Nodup := by
    have hsub : ((st.boxes.entries.filter (fun e => e.2 == serial)).map Sigma.fst).Sublist
        (st.boxes.entries.map Sigma.fst) := List.filter_sublist.map _
    exact hsub.nodup st.boxes.keys_nodup
  rw [hkeys, Set.ncard_coe_finset, List.toFinset_card_of_nodup hnodup, List.length_map,
    hst.count serial held hheld, sharing, List.countP_eq_length_filter]

/-- When the caller holds nothing, nothing is left. -/
theorem nothing_left (hst : st.Counted) (hag : Agrees st l) (hnone : ∀ ptr, l.held ptr = none) :
    st.shared = ∅ ∧ st.boxes = ∅ := by
  constructor
  · refine AList.ext (List.eq_nil_iff_forall_not_mem.mpr (fun e he => ?_))
    have hlookup : st.shared.lookup e.1 = some e.2 := AList.mem_lookup_iff.mpr he
    obtain ⟨ptr, value, hheld⟩ := (allocated_iff hst hag e.1).mp (by rw [hlookup]; rfl)
    rw [hnone ptr] at hheld
    cases hheld
  · refine AList.ext (List.eq_nil_iff_forall_not_mem.mpr (fun e he => ?_))
    have hlookup : st.boxes.lookup e.1 = some e.2 := AList.mem_lookup_iff.mpr he
    obtain ⟨value, hheld⟩ := (boxed_iff hst hag e.2).mp hlookup
    rw [hnone e.1] at hheld
    cases hheld

/-- What one step keeps, a run keeps. -/
theorem run_agrees {calls : List (Call α)} (hrun : Run Step st calls st') (hst : st.Counted)
    (hag : Agrees st l) : st'.Counted ∧ Agrees st' (l.recordAll calls) := by
  induction hrun with
  | nil => exact ⟨hst, hag⟩
  | @snoc u v calls c _ hstep ih =>
    obtain ⟨hu, hagu⟩ := ih
    refine ⟨step_counted hu hstep, ?_⟩
    unfold Ledger.recordAll
    rw [List.foldl_append, List.foldl_cons, List.foldl_nil]
    exact step_agrees hu hagu hstep

/-- Along a run a pointer stands for what it stood for until it is released. -/
theorem run_kept {calls : List (Call α)} (hrun : Run Step st calls st') (hst : st.Counted)
    (hag : Agrees st l) (hlive : (l.held ptr).isSome = true) (hrel : .release ptr ∉ calls) :
    (l.recordAll calls).held ptr = l.held ptr := by
  induction hrun with
  | nil => rfl
  | @snoc u v calls c hrun hstep ih =>
    have hkept := ih (fun hmem => hrel (List.mem_append_left _ hmem))
    obtain ⟨hu, hagu⟩ := run_agrees hrun hst hag
    unfold Ledger.recordAll at hkept hagu ⊢
    rw [List.foldl_append, List.foldl_cons, List.foldl_nil, record_kept, hkept]
    · rw [hkept]
      exact hlive
    · exact (allows_iff hu hagu).mpr ⟨_, hstep⟩
    · intro heq
      exact hrel (by simp [heq])

end Ledgers

end CompositionIr.SharedBoxes
