import CompositionIr.Outcomes
import CompositionIr.Transitions

/-!
A follower of published changes. It holds what it built of the last state it was given and
the version of that state. A change that starts at this version is patched in; after any
other, be it missed, repeated, late or of another line, the follower builds anew from the
state the change came with. When patching is right wherever the versions meet, it holds the
last state it was given, whatever was delivered and in which order.
-/

namespace CompositionIr.Followers

open Outcomes Transitions

/-- What a follower is given: the versions a change applies to, the version it leads to, and
the state there. -/
structure Feed (V U S : Type) where
  applies : U → V → Bool
  after : U → V
  state : U → S

structure Method (ε U H : Type) where
  build : U → Outcome ε H
  patch : U → H → Outcome ε H

structure Follower (V H : Type) where
  version : V
  held : H
  rebuilds : ℕ

section Receiving

variable {ε V U S H : Type} (feed : Feed V U S) (method : Method ε U H)

def receive (f : Follower V H) (u : U) : Outcome ε (Follower V H) := do
  if feed.applies u f.version then
    return ⟨feed.after u, ← method.patch u f.held, f.rebuilds⟩
  else
    return ⟨feed.after u, ← method.build u, f.rebuilds + 1⟩

def receiveAll (f : Follower V H) (updates : List U) : Outcome ε (Follower V H) :=
  updates.foldlM (receive feed method) f

/-- How many of the changes do not apply where the one before them ended. -/
def gaps (v : V) (updates : List U) : ℕ :=
  ((v :: updates.map feed.after).zip updates).countP (fun p => !feed.applies p.2 p.1)

def current (s : S) (updates : List U) : S := (updates.map feed.state).getLastD s

/-- Each change applies where the one before it ended. -/
def Meets (v : V) (u : U) (w : V) : Prop := feed.applies u v = true ∧ feed.after u = w

variable {feed method}

theorem gaps_nil (v : V) : gaps feed v [] = 0 := rfl

theorem gaps_cons (v : V) (u : U) (updates : List U) :
    gaps feed v (u :: updates) =
      (if feed.applies u v then 0 else 1) + gaps feed (feed.after u) updates := by
  unfold gaps
  rw [List.map_cons, List.zip_cons_cons, List.countP_cons]
  cases feed.applies u v
  · exact Nat.add_comm _ _
  · exact (Nat.zero_add _).symm

/-- There are no gaps exactly when the changes make up one run from the version. -/
theorem gaps_eq_zero_iff (v : V) (updates : List U) :
    gaps feed v updates = 0 ↔ ∃ w, Run (Meets feed) v updates w := by
  induction updates generalizing v with
  | nil => exact ⟨fun _ => ⟨v, Run.nil v⟩, fun _ => rfl⟩
  | cons u rest ih =>
    simp only [gaps_cons, Nat.add_eq_zero_iff, ih, Run.cons_iff]
    constructor
    · rintro ⟨hmeets, w, hrest⟩
      refine ⟨w, feed.after u, ⟨?_, rfl⟩, hrest⟩
      by_contra hne
      rw [if_neg hne] at hmeets
      omega
    · rintro ⟨w, x, ⟨hmeets, rfl⟩, hrest⟩
      exact ⟨if_pos hmeets, w, hrest⟩

end Receiving

section Correct

variable {ε V U S H : Type}

/-- What makes following right: `At v s` says that `s` was published as `v`, and `Shows`
what it is to hold a state. -/
structure Follows (feed : Feed V U S) (method : Method ε U H) (At : V → S → Prop)
    (Shows : H → S → Prop) (u : U) : Prop where
  published : At (feed.after u) (feed.state u)
  build : ∃ h, method.build u = .done h ∧ Shows h (feed.state u)
  patch : ∀ v s held, feed.applies u v = true → At v s → Shows held s →
    ∃ h, method.patch u held = .done h ∧ Shows h (feed.state u)

variable {feed : Feed V U S} {method : Method ε U H} {At : V → S → Prop}
  {Shows : H → S → Prop}

theorem receive_shows {u : U} (hu : Follows feed method At Shows u) (f : Follower V H) (s : S)
    (hat : At f.version s) (hshows : Shows f.held s) :
    ∃ f', receive feed method f u = .done f' ∧ f'.version = feed.after u ∧
      Shows f'.held (feed.state u) ∧
      f'.rebuilds = f.rebuilds + if feed.applies u f.version then 0 else 1 := by
  unfold receive
  by_cases hmeets : feed.applies u f.version = true
  · obtain ⟨h, hpatch, hafter⟩ := hu.patch f.version s f.held hmeets hat hshows
    refine ⟨⟨feed.after u, h, f.rebuilds⟩, ?_, rfl, hafter, by simp [hmeets]⟩
    rw [if_pos hmeets, hpatch]
    rfl
  · obtain ⟨h, hbuild, hafter⟩ := hu.build
    refine ⟨⟨feed.after u, h, f.rebuilds + 1⟩, ?_, rfl, hafter, by simp [hmeets]⟩
    rw [if_neg hmeets, hbuild]
    rfl

/-- Whatever is delivered, the follower answers, holds the state given last, and has built
anew once for each gap. -/
theorem receiveAll_shows (updates : List U)
    (hall : ∀ u ∈ updates, Follows feed method At Shows u) (f : Follower V H) (s : S)
    (hat : At f.version s) (hshows : Shows f.held s) :
    ∃ f', receiveAll feed method f updates = .done f' ∧
      At f'.version (current feed s updates) ∧ Shows f'.held (current feed s updates) ∧
      f'.rebuilds = f.rebuilds + gaps feed f.version updates := by
  induction updates generalizing f s with
  | nil => exact ⟨f, rfl, hat, hshows, rfl⟩
  | cons u rest ih =>
    have hu := hall u (List.mem_cons_self ..)
    obtain ⟨f₁, hone, hversion, hshows₁, hcount₁⟩ := receive_shows hu f s hat hshows
    have hat₁ : At f₁.version (feed.state u) := by
      rw [hversion]
      exact hu.published
    obtain ⟨f', hrest, hat', hshows', hcount⟩ :=
      ih (fun w hw => hall w (List.mem_cons_of_mem u hw)) f₁ (feed.state u) hat₁ hshows₁
    have hlast : current feed s (u :: rest) = current feed (feed.state u) rest := by
      unfold current
      rw [List.map_cons, List.getLastD_cons]
    refine ⟨f', ?_, by rw [hlast]; exact hat', by rw [hlast]; exact hshows', ?_⟩
    · unfold receiveAll at hrest ⊢
      rw [List.foldlM_cons, hone]
      exact hrest
    · rw [hcount, hcount₁, hversion, gaps_cons]
      omega

end Correct

end CompositionIr.Followers
