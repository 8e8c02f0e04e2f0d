import Mathlib.Logic.Basic
import Mathlib.Data.Nat.Init
import Mathlib.Order.Basic

/-!
Bounded evaluation of code that may trap or run forever.
A recursive function of the source takes a fuel argument here; `starved` says that
the fuel ran out before the function answered. More fuel never changes an answer,
so a computation returns, traps or diverges independently of the bound chosen.
-/

namespace CompositionIr.Outcomes

universe u

/-- A value, the trap that stopped the evaluation, or no answer within the fuel. -/
inductive Outcome (ε : Type) (α : Type u) where
  | done (value : α)
  | trap (cause : ε)
  | starved
  deriving DecidableEq

namespace Outcome

variable {ε : Type} {α β : Type u}

protected def bind (x : Outcome ε α) (f : α → Outcome ε β) : Outcome ε β :=
  match x with
  | done a => f a
  | trap e => trap e
  | starved => starved

instance : Monad (Outcome ε) where
  pure := done
  bind := Outcome.bind

@[simp] theorem pure_eq (a : α) : (pure a : Outcome ε α) = done a := rfl

@[simp] theorem done_bind (a : α) (f : α → Outcome ε β) :
    (done a >>= f) = f a := rfl

@[simp] theorem trap_bind (e : ε) (f : α → Outcome ε β) :
    (trap e >>= f) = trap e := rfl

@[simp] theorem starved_bind (f : α → Outcome ε β) :
    (starved >>= f) = (starved : Outcome ε β) := rfl

instance : LawfulMonad (Outcome ε) :=
  LawfulMonad.mk' _ (fun x => by cases x <;> rfl) (fun _ _ => rfl)
    (fun x _ _ => by cases x <;> rfl)

/-- A sequence answers only through the answer of its first half. -/
theorem bind_eq_done (x : Outcome ε α) (f : α → Outcome ε β) (b : β) :
    (x >>= f) = done b ↔ ∃ a, x = done a ∧ f a = done b := by
  cases x <;> simp

theorem bind_eq_trap (x : Outcome ε α) (f : α → Outcome ε β) (e : ε) :
    (x >>= f) = trap e ↔ x = trap e ∨ ∃ a, x = done a ∧ f a = trap e := by
  cases x <;> simp

/-- `x` is what an evaluation with less fuel may report where `y` is reported. -/
def Approx (x y : Outcome ε α) : Prop := x = starved ∨ x = y

theorem Approx.refl (x : Outcome ε α) : x.Approx x := Or.inr rfl

theorem Approx.trans {x y z : Outcome ε α} (hxy : x.Approx y) (hyz : y.Approx z) :
    x.Approx z := by
  rcases hxy with hx | rfl
  · exact Or.inl hx
  · exact hyz

theorem Approx.eq_of_ne {x y : Outcome ε α} (h : x.Approx y) (hx : x ≠ starved) : y = x := by
  rcases h with hs | rfl
  · exact absurd hs hx
  · rfl

theorem Approx.bind {x y : Outcome ε α} {f g : α → Outcome ε β}
    (hxy : x.Approx y) (hfg : ∀ a, (f a).Approx (g a)) : (x >>= f).Approx (y >>= g) := by
  rcases hxy with rfl | rfl
  · exact Or.inl rfl
  · cases x with
    | done a => exact hfg a
    | trap e => exact Or.inr rfl
    | starved => exact Or.inl rfl

theorem Approx.allM {α : Type*} {p q : α → Outcome ε Bool} (hpq : ∀ a, (p a).Approx (q a))
    (l : List α) : (l.allM p).Approx (l.allM q) := by
  induction l with
  | nil => exact Approx.refl _
  | cons a rest ih =>
    refine Approx.bind (hpq a) (fun b => ?_)
    cases b with
    | false => exact Approx.refl _
    | true => exact ih

theorem Approx.anyM {α : Type*} {p q : α → Outcome ε Bool} (hpq : ∀ a, (p a).Approx (q a))
    (l : List α) : (l.anyM p).Approx (l.anyM q) := by
  induction l with
  | nil => exact Approx.refl _
  | cons a rest ih =>
    refine Approx.bind (hpq a) (fun b => ?_)
    cases b with
    | false => exact ih
    | true => exact Approx.refl _

/-- Two evaluations end alike: both answer, with related answers, or both fail in one way. -/
def Related {α β : Type*} (R : α → β → Prop) : Outcome ε α → Outcome ε β → Prop
  | done a, done b => R a b
  | trap e, trap e' => e = e'
  | starved, starved => True
  | _, _ => False

theorem Related.of_eq {α : Type*} {x y : Outcome ε α} (h : x = y) : x.Related (· = ·) y := by
  subst h
  cases x with
  | done a => exact rfl
  | trap e => exact rfl
  | starved => exact trivial

theorem Related.bind {α' β' : Type u} {R : α → α' → Prop} {S : β → β' → Prop}
    {x : Outcome ε α} {x' : Outcome ε α'} {f : α → Outcome ε β} {f' : α' → Outcome ε β'}
    (hx : x.Related R x') (hf : ∀ a a', R a a' → (f a).Related S (f' a')) :
    (x >>= f).Related S (x' >>= f') := by
  cases x with
  | done a =>
    cases x' with
    | done a' => exact hf a a' hx
    | trap e => exact hx.elim
    | starved => exact hx.elim
  | trap e =>
    cases x' with
    | trap e' => exact hx
    | done a' => exact hx.elim
    | starved => exact hx.elim
  | starved =>
    cases x' with
    | starved => trivial
    | done a' => exact hx.elim
    | trap e => exact hx.elim

end Outcome

open Outcome

section ShortCircuit

variable {ε : Type} {α : Type*} (p : α → Outcome ε Bool)

theorem allM_cons (a : α) (rest : List α) :
    (a :: rest).allM p = p a >>= fun b => if b then rest.allM p else done false := by
  change (p a >>= fun b => _) = _
  congr 1
  funext b
  cases b <;> rfl

theorem anyM_cons (a : α) (rest : List α) :
    (a :: rest).anyM p = p a >>= fun b => if b then done true else rest.anyM p := by
  change (p a >>= fun b => _) = _
  congr 1
  funext b
  cases b <;> rfl

/-- A conjunction over a list holds when each conjunct was evaluated and held. -/
theorem allM_eq_true (l : List α) : l.allM p = done true ↔ ∀ a ∈ l, p a = done true := by
  induction l with
  | nil => simp
  | cons a rest ih =>
    rw [allM_cons, bind_eq_done, List.forall_mem_cons, ← ih]
    constructor
    · rintro ⟨b, hb, hrest⟩
      cases b with
      | false => simp at hrest
      | true => exact ⟨hb, hrest⟩
    · rintro ⟨ha, hrest⟩
      exact ⟨true, ha, hrest⟩

/-- Any other outcome is that of the first element which did not hold: the elements
listed before it were evaluated and held, those after it were not looked at. -/
theorem allM_eq_of_ne (l : List α) (o : Outcome ε Bool) (ho : o ≠ done true) :
    l.allM p = o ↔
      ∃ left a right, l = left ++ a :: right ∧ (∀ b ∈ left, p b = done true) ∧ p a = o := by
  induction l with
  | nil => simp [ho.symm]
  | cons a rest ih =>
    constructor
    · intro h
      by_cases ha : p a = done true
      · rw [allM_cons, ha] at h
        obtain ⟨left, b, right, hsplit, hleft, hb⟩ := ih.mp h
        refine ⟨a :: left, b, right, by rw [hsplit]; rfl, ?_, hb⟩
        intro c hc
        rcases List.mem_cons.mp hc with rfl | hc
        · exact ha
        · exact hleft c hc
      · refine ⟨[], a, rest, rfl, by simp, ?_⟩
        rw [← h, allM_cons]
        cases hpa : p a with
        | done b =>
          cases b with
          | false => rfl
          | true => exact absurd hpa ha
        | trap e => rfl
        | starved => rfl
    · rintro ⟨left, b, right, hsplit, hleft, hb⟩
      cases left with
      | nil =>
        obtain ⟨rfl, rfl⟩ := List.cons.inj hsplit
        rw [allM_cons, hb]
        cases o with
        | done r =>
          cases r with
          | false => rfl
          | true => exact absurd rfl ho
        | trap e => rfl
        | starved => rfl
      | cons c left =>
        obtain ⟨rfl, rfl⟩ := List.cons.inj hsplit
        have ha : p a = done true := hleft a (List.mem_cons_self ..)
        rw [allM_cons, ha]
        exact ih.mpr ⟨left, b, right, rfl, fun d hd => hleft d (List.mem_cons_of_mem _ hd), hb⟩

/-- When the elements decide a property, the conjunction decides whether all have it. -/
theorem allM_spec {Q : α → Prop} (hp : ∀ a r, p a = done r → (r = true ↔ Q a)) (l : List α)
    (r : Bool) (h : l.allM p = done r) : r = true ↔ ∀ a ∈ l, Q a := by
  cases r with
  | true =>
    rw [allM_eq_true] at h
    exact iff_of_true rfl (fun a ha => (hp a true (h a ha)).mp rfl)
  | false =>
    obtain ⟨left, a, right, hsplit, _, ha⟩ := (allM_eq_of_ne p l _ (by simp)).mp h
    have hmem : a ∈ l := by simp [hsplit]
    have hnot : ¬ Q a := fun hQ => by simpa using (hp a false ha).mpr hQ
    exact iff_of_false (by simp) (fun hall => hnot (hall a hmem))

/-- A disjunction over a list is the negated conjunction of the negations. -/
theorem anyM_not (l : List α) :
    l.anyM (fun a => p a >>= fun b => done !b) = l.allM p >>= fun b => done !b := by
  induction l with
  | nil => rfl
  | cons a rest ih =>
    rw [anyM_cons, allM_cons]
    cases p a with
    | done b => cases b <;> simp [ih]
    | trap e => rfl
    | starved => rfl

/-- When every element is evaluated to an answer, so is the conjunction. -/
theorem allM_done (l : List α) (hl : ∀ a ∈ l, ∃ b, p a = done b) : ∃ b, l.allM p = done b := by
  induction l with
  | nil => exact ⟨true, rfl⟩
  | cons a rest ih =>
    obtain ⟨b, hb⟩ := hl a (List.mem_cons_self ..)
    obtain ⟨r, hr⟩ := ih (fun c hc => hl c (List.mem_cons_of_mem _ hc))
    rw [allM_cons, hb]
    cases b with
    | false => exact ⟨false, rfl⟩
    | true => exact ⟨r, hr⟩

/-- A conjunction traps only where one of its elements does. -/
theorem allM_ne_trap (l : List α) (e : ε) (hl : ∀ a ∈ l, p a ≠ trap e) : l.allM p ≠ trap e := by
  intro h
  obtain ⟨left, a, right, hsplit, _, ha⟩ := (allM_eq_of_ne p l (trap e) (by simp)).mp h
  exact hl a (by simp [hsplit]) ha

end ShortCircuit

section Folds

variable {ε : Type} {α : Type*} {β : Type u} {step : β → α → Outcome ε β}

/-- A loop whose every round answers is the fold of its answers. -/
theorem foldlM_eq_done {f : β → α → β} (l : List α) (b : β)
    (hstep : ∀ a ∈ l, ∀ b, step b a = done (f b a)) : l.foldlM step b = done (l.foldl f b) := by
  induction l generalizing b with
  | nil => rfl
  | cons a rest ih =>
    rw [List.foldlM_cons, hstep a (List.mem_cons_self ..), done_bind, List.foldl_cons]
    exact ih _ (fun c hc => hstep c (List.mem_cons_of_mem _ hc))

/-- A loop that traps, on whatever it has gathered, at some element stops there, when the
elements before it answer or trap alike. -/
theorem foldlM_eq_trap {e : ε} (l : List α) (b : β)
    (hstep : ∀ a ∈ l, (∀ b, ∃ b', step b a = done b') ∨ ∀ b, step b a = trap e)
    (htrap : ∃ a ∈ l, ∀ b, step b a = trap e) : l.foldlM step b = trap e := by
  induction l generalizing b with
  | nil =>
    obtain ⟨a, ha, _⟩ := htrap
    cases ha
  | cons a rest ih =>
    rw [List.foldlM_cons]
    rcases hstep a (List.mem_cons_self ..) with hdone | hall
    · obtain ⟨b', hb'⟩ := hdone b
      rw [hb', done_bind]
      refine ih b' (fun c hc => hstep c (List.mem_cons_of_mem _ hc)) ?_
      obtain ⟨c, hc, hcall⟩ := htrap
      rcases List.mem_cons.mp hc with heq | hc
      · have hboth := hcall b
        rw [heq, hb'] at hboth
        cases hboth
      · exact ⟨c, hc, hcall⟩
    · rw [hall, trap_bind]

end Folds

section Fuel

variable {ε : Type} {α : Type*}

/-- More fuel only ever turns `starved` into an answer. -/
def FuelMonotone (f : ℕ → Outcome ε α) : Prop := ∀ n, (f n).Approx (f (n + 1))

/-- Some amount of fuel brings an answer, a trap included. -/
def Terminates (f : ℕ → Outcome ε α) : Prop := ∃ n, f n ≠ starved

theorem FuelMonotone.approx {f : ℕ → Outcome ε α} (hf : FuelMonotone f) {n m : ℕ}
    (hnm : n ≤ m) : (f n).Approx (f m) := by
  induction m, hnm using Nat.le_induction with
  | base => exact Approx.refl _
  | succ m _ ih => exact ih.trans (hf m)

/-- An answer stays the answer under every larger bound. -/
theorem FuelMonotone.eq_of_le {f : ℕ → Outcome ε α} (hf : FuelMonotone f) {n m : ℕ}
    (hn : f n ≠ starved) (hnm : n ≤ m) : f m = f n :=
  (hf.approx hnm).eq_of_ne hn

/-- Two bounds that both bring an answer bring the same one. -/
theorem FuelMonotone.eq_of_ne {f : ℕ → Outcome ε α} (hf : FuelMonotone f) {n m : ℕ}
    (hn : f n ≠ starved) (hm : f m ≠ starved) : f n = f m := by
  rcases Nat.le_total n m with h | h
  · exact (hf.eq_of_le hn h).symm
  · exact hf.eq_of_le hm h

/-- A conjunction terminates when the elements it gets to look at do. -/
theorem terminates_allM {p : ℕ → α → Outcome ε Bool} (hp : ∀ a, FuelMonotone (p · a))
    (l : List α)
    (hl : ∀ left a right, l = left ++ a :: right →
      (∀ b ∈ left, ∃ n, p n b = done true) → Terminates (p · a)) :
    Terminates (fun n => l.allM (p n)) := by
  induction l with
  | nil => exact ⟨0, by simp⟩
  | cons a rest ih =>
    obtain ⟨n, hn⟩ := hl [] a rest rfl (by simp)
    by_cases ha : p n a = done true
    · obtain ⟨m, hm⟩ := ih (by
        intro left b right hsplit hleft
        refine hl (a :: left) b right (by rw [hsplit]; rfl) ?_
        intro c hc
        rcases List.mem_cons.mp hc with rfl | hc
        · exact ⟨n, ha⟩
        · exact hleft c hc)
      have hmono : FuelMonotone (fun n => rest.allM (p n)) :=
        fun n => Approx.allM (fun b => hp b n) rest
      refine ⟨max n m, ?_⟩
      have hamax : p (max n m) a = done true := by
        rw [← ha]
        exact (hp a).eq_of_le hn (Nat.le_max_left n m)
      change (a :: rest).allM (p (max n m)) ≠ starved
      rw [allM_cons, hamax]
      have hmax := hmono.eq_of_le hm (Nat.le_max_right n m)
      change rest.allM (p (max n m)) ≠ starved
      exact fun h => hm (hmax.symm.trans h)
    · refine ⟨n, ?_⟩
      change (a :: rest).allM (p n) ≠ starved
      rw [allM_cons]
      cases hpa : p n a with
      | done b =>
        cases b with
        | false => simp
        | true => exact absurd hpa ha
      | trap e => simp
      | starved => exact absurd hpa hn

/-- A conjunction that answers has answered every element it got to look at. -/
theorem ne_starved_of_allM {p : ℕ → α → Outcome ε Bool} (hp : ∀ a, FuelMonotone (p · a))
    (n : ℕ) (left : List α) (a : α) (right : List α)
    (h : (left ++ a :: right).allM (p n) ≠ starved)
    (hleft : ∀ b ∈ left, ∃ m, p m b = done true) : p n a ≠ starved := by
  induction left with
  | nil =>
    intro ha
    apply h
    rw [List.nil_append, allM_cons, ha]
    rfl
  | cons b left ih =>
    obtain ⟨m, hm⟩ := hleft b (List.mem_cons_self ..)
    rw [List.cons_append, allM_cons] at h
    have hb : p n b ≠ starved := fun hb => h (by rw [hb]; rfl)
    have heq : p n b = done true := by
      rw [← hm]
      exact (hp b).eq_of_ne hb (by rw [hm]; simp)
    rw [heq] at h
    exact ih h (fun c hc => hleft c (List.mem_cons_of_mem _ hc))

/-- A conjunction terminates exactly when the elements it gets to look at do. -/
theorem terminates_allM_iff {p : ℕ → α → Outcome ε Bool} (hp : ∀ a, FuelMonotone (p · a))
    (l : List α) :
    Terminates (fun n => l.allM (p n)) ↔
      ∀ left a right, l = left ++ a :: right → (∀ b ∈ left, ∃ n, p n b = done true) →
        Terminates (p · a) := by
  constructor
  · intro h left a right hsplit hleft
    obtain ⟨n, hn⟩ := h
    refine ⟨n, ?_⟩
    rw [hsplit] at hn
    exact ne_starved_of_allM hp n left a right hn hleft
  · exact terminates_allM hp l

/-- With enough fuel for each conjunct there is enough for the conjunction. -/
theorem exists_allM_eq_true {p : ℕ → α → Outcome ε Bool} (hp : ∀ a, FuelMonotone (p · a))
    (l : List α) (hl : ∀ a ∈ l, ∃ n, p n a = done true) : ∃ n, l.allM (p n) = done true := by
  have hterm : Terminates (fun n => l.allM (p n)) := by
    rw [terminates_allM_iff hp]
    intro left a right hsplit _
    obtain ⟨n, hn⟩ := hl a (by rw [hsplit]; simp)
    exact ⟨n, by simp [hn]⟩
  obtain ⟨n, hn⟩ := hterm
  refine ⟨n, ?_⟩
  by_contra hne
  obtain ⟨left, a, right, hsplit, _, ha⟩ := (allM_eq_of_ne (p n) l _ hne).mp rfl
  obtain ⟨m, hm⟩ := hl a (by rw [hsplit]; simp)
  have hsame : p n a = p m a :=
    (hp a).eq_of_ne (by rw [ha]; exact hn) (by rw [hm]; simp)
  rw [ha, hm] at hsame
  exact hne hsame

/-- The first element that does not hold answers for the conjunction. -/
theorem exists_allM_eq_false {p : ℕ → α → Outcome ε Bool} (hp : ∀ a, FuelMonotone (p · a))
    (left : List α) (a : α) (right : List α) (hleft : ∀ b ∈ left, ∃ n, p n b = done true)
    (ha : ∃ n, p n a = done false) : ∃ n, (left ++ a :: right).allM (p n) = done false := by
  obtain ⟨n, hn⟩ := exists_allM_eq_true hp left hleft
  obtain ⟨m, hm⟩ := ha
  refine ⟨max n m, (allM_eq_of_ne _ _ _ (by simp)).mpr ⟨left, a, right, rfl, ?_, ?_⟩⟩
  · intro b hb
    have hbn : p n b = done true := (allM_eq_true (p n) left).mp hn b hb
    rw [← hbn]
    exact (hp b).eq_of_le (by rw [hbn]; simp) (Nat.le_max_left n m)
  · rw [← hm]
    exact (hp a).eq_of_le (by rw [hm]; simp) (Nat.le_max_right n m)

/-- A sequence terminates exactly when its first half does and, for the answer of the
first half, its second half. -/
theorem terminates_bind_iff {β γ : Type u} {f : ℕ → Outcome ε β} {g : ℕ → β → Outcome ε γ}
    (hf : FuelMonotone f) (hg : ∀ b, FuelMonotone (g · b)) :
    Terminates (fun n => f n >>= g n) ↔
      Terminates f ∧ ∀ b, (∃ n, f n = done b) → Terminates (g · b) := by
  constructor
  · intro h
    obtain ⟨n, hn⟩ := h
    have hfn : f n ≠ starved := fun hs => hn (by simp [hs])
    refine ⟨⟨n, hfn⟩, fun b hb => ⟨n, ?_⟩⟩
    obtain ⟨m, hm⟩ := hb
    have hsame : f n = f m := hf.eq_of_ne hfn (by rw [hm]; simp)
    simp only [hsame, hm, done_bind] at hn
    exact hn
  · intro h
    obtain ⟨⟨n, hn⟩, hrest⟩ := h
    cases hfn : f n with
    | starved => exact absurd hfn hn
    | trap e => exact ⟨n, by simp [hfn]⟩
    | done b =>
      obtain ⟨m, hm⟩ := hrest b ⟨n, hfn⟩
      refine ⟨max n m, ?_⟩
      have hfmax : f (max n m) = done b := by
        rw [← hfn]
        exact hf.eq_of_le hn (Nat.le_max_left n m)
      have hgmax : g (max n m) b = g m b := (hg b).eq_of_le hm (Nat.le_max_right n m)
      simp only [hfmax, done_bind, hgmax]
      exact hm

/-- Both halves of a sequence answer when there is fuel for each. -/
theorem exists_bind_eq_done {β γ : Type u} {f : ℕ → Outcome ε β} {g : ℕ → β → Outcome ε γ}
    (hf : FuelMonotone f) (hg : ∀ b, FuelMonotone (g · b)) (c : γ) :
    (∃ n, (f n >>= g n) = done c) ↔ ∃ b, (∃ n, f n = done b) ∧ ∃ n, g n b = done c := by
  constructor
  · intro h
    obtain ⟨n, hn⟩ := h
    obtain ⟨b, hb, hc⟩ := (bind_eq_done _ _ _).mp hn
    exact ⟨b, ⟨n, hb⟩, ⟨n, hc⟩⟩
  · intro h
    obtain ⟨b, ⟨n, hn⟩, ⟨m, hm⟩⟩ := h
    refine ⟨max n m, (bind_eq_done _ _ _).mpr ⟨b, ?_, ?_⟩⟩
    · rw [← hn]
      exact hf.eq_of_le (by rw [hn]; simp) (Nat.le_max_left n m)
    · rw [← hm]
      exact (hg b).eq_of_le (by simp [hm]) (Nat.le_max_right n m)

end Fuel

end CompositionIr.Outcomes
