import Mathlib.Data.Finset.Card
import Mathlib.Data.Set.Card
import Mathlib.Logic.Relation
import Mathlib.Order.Bounds.Basic
import Mathlib.Order.Interval.Finset.Nat

/-!
Labelled graphs whose edges are listed in the labels, and the comparison of two such
graphs. An absent vertex carries no label. Two graphs differ at a vertex when some
vertex below it, along edges of either graph, is labelled differently; this upward
closure is the same as comparing the trees unfolded from the vertex to every depth.
-/

namespace CompositionIr.ChildGraphs

open Relation

abbrev ChildGraph (V L : Type*) := V → Option L

section Rank

variable {V : Type*}

/-- A relation without cycles that leaves only finitely many vertices has a rank
which drops along every edge and never exceeds the number of those vertices. -/
theorem exists_rank (r : V → V → Prop) (live : Finset V) (hlive : ∀ x c, r x c → x ∈ live)
    (hacyclic : ∀ x, ¬ TransGen r x x) :
    ∃ rank : V → ℕ, (∀ x c, r x c → rank c < rank x) ∧ ∀ x, rank x ≤ live.card := by
  classical
  refine ⟨fun x => (live.filter (fun y => ReflTransGen r x y)).card, ?_, ?_⟩
  · intro x c hxc
    apply Finset.card_lt_card
    refine Finset.ssubset_iff_of_subset ?_ |>.mpr ⟨x, ?_, ?_⟩
    · intro y hy
      obtain ⟨hyl, hcy⟩ := Finset.mem_filter.mp hy
      exact Finset.mem_filter.mpr ⟨hyl, ReflTransGen.head hxc hcy⟩
    · exact Finset.mem_filter.mpr ⟨hlive x c hxc, ReflTransGen.refl⟩
    · intro hx
      have hcx : ReflTransGen r c x := (Finset.mem_filter.mp hx).2
      exact hacyclic x (TransGen.head' hxc hcx)
  · intro x
    exact Finset.card_filter_le _ _

/-- A rank that drops along every edge rules out cycles. -/
theorem acyclic_of_rank (r : V → V → Prop) (rank : V → ℕ)
    (hrank : ∀ x c, r x c → rank c < rank x) (x : V) : ¬ TransGen r x x := by
  have hdrop : ∀ y, TransGen r x y → rank y < rank x := by
    intro y hy
    induction hy with
    | single h => exact hrank _ _ h
    | tail _ h ih => exact (hrank _ _ h).trans ih
  exact fun hx => lt_irrefl _ (hdrop x hx)

/-- No vertex of a cycle is accessible. -/
theorem not_acc_of_cycle (r : V → V → Prop) (x : V) (hx : TransGen r x x) :
    ¬ Acc (fun c x => r x c) x := by
  intro hacc
  have hswap : TransGen (fun c x => r x c) x x := transGen_swap.mpr hx
  have key : ∀ y, Acc (TransGen (fun c x => r x c)) y →
      ¬ TransGen (fun c x => r x c) y y := by
    intro y hy
    induction hy with
    | intro y _ ih => exact fun h => ih y h h
  exact key x hacc.transGen hswap

/-- Where finitely many vertices have edges, a vertex is accessible exactly when no cycle
can be reached from it. -/
theorem acc_iff_no_cycle (r : V → V → Prop) (live : Finset V) (hlive : ∀ x c, r x c → x ∈ live)
    (x : V) : Acc (fun c x => r x c) x ↔ ¬ ∃ y, ReflTransGen r x y ∧ TransGen r y y := by
  constructor
  · intro hacc h
    obtain ⟨y, hxy, hyy⟩ := h
    have hreach : ∀ z, ReflTransGen r x z → Acc (fun c x => r x c) z := by
      intro z hxz
      induction hxz with
      | refl => exact hacc
      | tail _ hedge ih => exact ih.inv hedge
    exact not_acc_of_cycle r y hyy (hreach y hxy)
  · intro hno
    -- the edges that can be reached from the vertex have no cycle at all
    let below : V → V → Prop := fun a c => ReflTransGen r x a ∧ r a c
    have hsub : ∀ y z, TransGen below y z → ReflTransGen r x y ∧ TransGen r y z := by
      intro y z hyz
      induction hyz with
      | single h => exact ⟨h.1, TransGen.single h.2⟩
      | tail _ h ih => exact ⟨ih.1, ih.2.tail h.2⟩
    have hacyclic : ∀ y, ¬ TransGen below y y := fun y hy => hno ⟨y, hsub y y hy⟩
    obtain ⟨rank, hrank, _⟩ := exists_rank below live (fun a c h => hlive a c h.2) hacyclic
    have hall : ∀ n y, ReflTransGen r x y → rank y < n → Acc (fun c x => r x c) y := by
      intro n
      induction n with
      | zero => exact fun y _ hlt => absurd hlt (by omega)
      | succ n ih =>
        intro y hxy hlt
        refine Acc.intro y (fun c hc => ih c (hxy.tail hc) ?_)
        have hdrop := hrank y c ⟨hxy, hc⟩
        omega
    exact hall (rank x + 1) x ReflTransGen.refl (by omega)

/-- Where every vertex has at most one parent, what lies above a vertex is a chain, no longer
than the vertex is deep. -/
theorem ncard_above_le (r : V → V → Prop) (depth : V → ℕ)
    (hdepth : ∀ x c, r x c → depth x < depth c)
    (hparent : ∀ x x' c, r x c → r x' c → x = x') (y : V) :
    {x | ReflTransGen r x y}.ncard ≤ depth y + 1 := by
  have hmono : ∀ x z, ReflTransGen r x z → depth x ≤ depth z := by
    intro x z hxz
    induction hxz with
    | refl => exact Nat.le_refl _
    | tail _ hedge ih => exact ih.trans (hdepth _ _ hedge).le
  have hstrict : ∀ x z, ReflTransGen r x z → depth x = depth z → x = z := by
    intro x z hxz heq
    rcases hxz.cases_head with rfl | ⟨w, hxw, hwz⟩
    · rfl
    · have hlt := hdepth x w hxw
      have hle := hmono w z hwz
      omega
  have hinj : Set.InjOn depth {x | ReflTransGen r x y} := by
    intro x hx x' hx' heq
    rw [Set.mem_ofPred_eq] at hx hx'
    have htotal := ReflTransGen.total_of_right_unique (r := Function.swap r)
      (fun c a b ha hb => hparent a b c ha hb) (reflTransGen_swap.mpr hx)
      (reflTransGen_swap.mpr hx')
    rcases htotal with h | h
    · exact (hstrict x' x (reflTransGen_swap.mp h) heq.symm).symm
    · exact hstrict x x' (reflTransGen_swap.mp h) heq
  have hcard := Set.ncard_le_ncard_of_injOn (t := Set.Iio (depth y + 1)) depth
    (fun x hx => Nat.lt_succ_of_le (hmono x y hx)) hinj (Set.finite_Iio _)
  rwa [Set.ncard_eq_toFinset_card', Set.toFinset_Iio, Nat.card_Iio] at hcard

end Rank

variable {V L : Type*} (kids : L → List V)

def Child (g : ChildGraph V L) (x c : V) : Prop := ∃ l, g x = some l ∧ c ∈ kids l

def Acyclic (g : ChildGraph V L) : Prop := ∀ x, ¬ TransGen (Child kids g) x x

/-- The least set holding every vertex labelled differently and every vertex that
lists a member, in either graph. -/
inductive Differs (g h : ChildGraph V L) : V → Prop
  | seed {x : V} (hx : g x ≠ h x) : Differs g h x
  | before {x c : V} (hc : Child kids g x c) (hd : Differs g h c) : Differs g h x
  | after {x c : V} (hc : Child kids h x c) (hd : Differs g h c) : Differs g h x

section Differs

variable {kids}
variable {g h : ChildGraph V L}

theorem Differs.eq_of_not {x : V} (hx : ¬ Differs kids g h x) : g x = h x := by
  by_contra hne
  exact hx (Differs.seed hne)

/-- Outside the closure the two labels agree and so do all vertices they list. -/
theorem not_differs_iff (x : V) :
    ¬ Differs kids g h x ↔ g x = h x ∧ ∀ c, Child kids g x c → ¬ Differs kids g h c := by
  constructor
  · intro hx
    exact ⟨Differs.eq_of_not hx, fun c hc hd => hx (Differs.before hc hd)⟩
  · rintro ⟨heq, hkids⟩ hd
    cases hd with
    | seed hne => exact hne heq
    | before hc hd => exact hkids _ hc hd
    | after hc hd =>
      obtain ⟨l, hl, hmem⟩ := hc
      exact hkids _ ⟨l, by rw [heq, hl], hmem⟩ hd

theorem not_differs_self (x : V) : ¬ Differs kids g g x := by
  intro hd
  induction hd with
  | seed hx => exact hx rfl
  | before _ _ ih => exact ih
  | after _ _ ih => exact ih

theorem not_differs_of_eq (heq : g = h) (x : V) : ¬ Differs kids g h x := by
  subst heq
  exact not_differs_self x

/-- Something differs somewhere exactly when some label does. -/
theorem exists_differs_iff : (∃ x, Differs kids g h x) ↔ ∃ x, g x ≠ h x := by
  constructor
  · rintro ⟨x, hd⟩
    by_contra hnone
    push Not at hnone
    exact not_differs_of_eq (funext hnone) x hd
  · rintro ⟨x, hx⟩
    exact ⟨x, Differs.seed hx⟩

/-- Membership is reachability of a seed along edges of either graph. -/
theorem differs_iff_reaches (x : V) :
    Differs kids g h x ↔
      ∃ y, ReflTransGen (fun a c => Child kids g a c ∨ Child kids h a c) x y ∧ g y ≠ h y := by
  constructor
  · intro hd
    induction hd with
    | seed hx => exact ⟨_, ReflTransGen.refl, hx⟩
    | before hc _ ih =>
      obtain ⟨y, hreach, hy⟩ := ih
      exact ⟨y, ReflTransGen.head (Or.inl hc) hreach, hy⟩
    | after hc _ ih =>
      obtain ⟨y, hreach, hy⟩ := ih
      exact ⟨y, ReflTransGen.head (Or.inr hc) hreach, hy⟩
  · rintro ⟨y, hreach, hy⟩
    induction hreach using ReflTransGen.head_induction_on with
    | refl => exact Differs.seed hy
    | head hedge _ ih =>
      rcases hedge with hc | hc
      · exact Differs.before hc ih
      · exact Differs.after hc ih

def Keeps (kids : L → List V) (g h : ChildGraph V L) (x c : V) : Prop :=
  g x = h x ∧ Child kids g x c

/-- A member that is labelled the same reaches a seed through vertices labelled the same. -/
theorem differs_iff_keeps (x : V) :
    Differs kids g h x ↔ ∃ y, ReflTransGen (Keeps kids g h) x y ∧ g y ≠ h y := by
  constructor
  · intro hd
    induction hd with
    | seed hx => exact ⟨_, ReflTransGen.refl, hx⟩
    | @before x c hc _ ih =>
      obtain ⟨y, hreach, hy⟩ := ih
      by_cases hx : g x = h x
      · exact ⟨y, ReflTransGen.head ⟨hx, hc⟩ hreach, hy⟩
      · exact ⟨x, ReflTransGen.refl, hx⟩
    | @after x c hc _ ih =>
      obtain ⟨y, hreach, hy⟩ := ih
      by_cases hx : g x = h x
      · have hc' : Child kids g x c := by
          unfold Child at hc ⊢
          rwa [hx]
        exact ⟨y, ReflTransGen.head ⟨hx, hc'⟩ hreach, hy⟩
      · exact ⟨x, ReflTransGen.refl, hx⟩
  · rintro ⟨y, hreach, hy⟩
    induction hreach using ReflTransGen.head_induction_on with
    | refl => exact Differs.seed hy
    | head hedge _ ih => exact Differs.before hedge.2 ih

theorem Differs.symm {x : V} (hd : Differs kids g h x) : Differs kids h g x := by
  induction hd with
  | seed hx => exact Differs.seed (Ne.symm hx)
  | before hc _ ih => exact Differs.after hc ih
  | after hc _ ih => exact Differs.before hc ih

/-- What differs over two steps differs over one of them. -/
theorem Differs.split {k : ChildGraph V L} {x : V} (hd : Differs kids g k x) :
    Differs kids g h x ∨ Differs kids h k x := by
  induction hd with
  | @seed x hx =>
    by_cases hg : g x = h x
    · exact Or.inr (Differs.seed (fun hk => hx (hg.trans hk)))
    · exact Or.inl (Differs.seed hg)
  | @before x c hc _ ih =>
    by_cases hg : g x = h x
    · have hc' : Child kids h x c := by
        unfold Child at hc ⊢
        rwa [← hg]
      exact ih.imp (Differs.before hc) (Differs.before hc')
    · exact Or.inl (Differs.seed hg)
  | @after x c hc _ ih =>
    by_cases hk : h x = k x
    · have hc' : Child kids h x c := by
        unfold Child at hc ⊢
        rwa [hk]
      exact ih.imp (Differs.after hc') (Differs.after hc)
    · exact Or.inr (Differs.seed hk)

end Differs

/-- What a consumer sees below a vertex, cut off at a depth. -/
inductive Materialized (L : Type*) where
  | cut
  | absent
  | node (label : L) (subtrees : List (Materialized L))

def materialize (g : ChildGraph V L) : ℕ → V → Materialized L
  | 0, _ => .cut
  | depth + 1, x =>
    match g x with
    | none => .absent
    | some l => .node l ((kids l).map (materialize g depth))

section Materialize

variable {kids}
variable {g h : ChildGraph V L}

theorem materialize_absent {x : V} (hx : g x = none) (depth : ℕ) :
    materialize kids g (depth + 1) x = .absent := by
  simp only [materialize, hx]

theorem materialize_node {x : V} {l : L} (hx : g x = some l) (depth : ℕ) :
    materialize kids g (depth + 1) x = .node l ((kids l).map (materialize kids g depth)) := by
  simp only [materialize, hx]

/-- Outside the closure the unfolded trees agree at every depth. -/
theorem materialize_eq (depth : ℕ) (x : V) (hx : ¬ Differs kids g h x) :
    materialize kids g depth x = materialize kids h depth x := by
  induction depth generalizing x with
  | zero => rfl
  | succ depth ih =>
    obtain ⟨heq, hkids⟩ := (not_differs_iff x).mp hx
    cases hg : g x with
    | none => rw [materialize_absent hg, materialize_absent (heq ▸ hg)]
    | some l =>
      rw [materialize_node hg, materialize_node (heq ▸ hg)]
      congr 1
      apply List.map_congr_left
      intro c hc
      exact ih c (hkids c ⟨l, hg, hc⟩)

/-- Trees that agree at every depth leave no difference below the vertex. -/
theorem not_differs_of_materialize_eq (x : V)
    (hx : ∀ depth, materialize kids g depth x = materialize kids h depth x) :
    ¬ Differs kids g h x := by
  intro hd
  have labels : ∀ y, (∀ depth, materialize kids g depth y = materialize kids h depth y) →
      g y = h y := by
    intro y hy
    have h1 := hy 1
    cases hg : g y <;> cases hh : h y <;> simp_all [materialize]
  have below : ∀ y l c, g y = some l → c ∈ kids l →
      (∀ depth, materialize kids g depth y = materialize kids h depth y) →
      ∀ depth, materialize kids g depth c = materialize kids h depth c := by
    intro y l c hl hc hy depth
    have hstep := hy (depth + 1)
    rw [materialize_node hl, materialize_node (labels y hy ▸ hl)] at hstep
    injection hstep with _ hmap
    exact List.map_inj_left.mp hmap c hc
  induction hd with
  | seed hne => exact hne (labels _ hx)
  | before hc _ ih =>
    obtain ⟨l, hl, hmem⟩ := hc
    exact ih (below _ l _ hl hmem hx)
  | after hc _ ih =>
    obtain ⟨l, hl, hmem⟩ := hc
    exact ih (below _ l _ ((labels _ hx).trans hl) hmem hx)

/-- The closure is the comparison of the trees below a vertex. -/
theorem differs_iff_materialize (x : V) :
    Differs kids g h x ↔ ∃ depth, materialize kids g depth x ≠ materialize kids h depth x := by
  constructor
  · intro hd
    by_contra hnone
    push Not at hnone
    exact not_differs_of_materialize_eq x hnone hd
  · rintro ⟨depth, hne⟩
    by_contra hx
    exact hne (materialize_eq depth x hx)

/-- Past the rank of a vertex, unfolding deeper shows nothing new. -/
theorem materialize_stable (rank : V → ℕ) (hrank : ∀ x c, Child kids g x c → rank c < rank x)
    (n m : ℕ) (x : V) (hn : rank x < n) (hm : rank x < m) :
    materialize kids g n x = materialize kids g m x := by
  induction n generalizing m x with
  | zero => omega
  | succ n ih =>
    cases m with
    | zero => omega
    | succ m =>
      cases hg : g x with
      | none => rw [materialize_absent hg, materialize_absent hg]
      | some l =>
        rw [materialize_node hg, materialize_node hg]
        congr 1
        apply List.map_congr_left
        intro c hc
        have hlt := hrank x c ⟨l, hg, hc⟩
        exact ih m c (by omega) (by omega)

end Materialize

end CompositionIr.ChildGraphs
