import CompositionIr.Invalidation

/-!
Recipes that are defined again. The engine keeps recipes and values under the same keys,
and a definition replaces the recipe only: a value computed before it is answered for as
long as the snapshot stays, whatever the new recipe makes of it.
-/

namespace CompositionIr.Redefinitions

open Outcomes Addresses Records Snapshots DerivedCells

variable {V : Type}

inductive Call (V : Type) where
  | define (key : String) (recipe : Recipe V)
  | get (key : String)

def serve (s : Snapshot) (e : Engine V) : Call V → Eval (Engine V)
  | .define key recipe => return e.define key recipe
  | .get key => do
    let (_, e) ← e.get key s
    return e

def serveAll (s : Snapshot) (calls : List (Call V)) : Eval (Engine V) :=
  calls.foldlM (serve s) Engine.new

structure History (V : Type) where
  latest : Option (Recipe V) := none
  first : Option (Recipe V) := none

def History.follow (key : String) (h : History V) : Call V → History V
  | .define k recipe => if k = key then { h with latest := some recipe } else h
  | .get k => if k = key then { h with first := h.first.or h.latest } else h

def history (calls : List (Call V)) (key : String) : History V :=
  calls.foldl (History.follow key) {}

theorem history_snoc (calls : List (Call V)) (c : Call V) (key : String) :
    history (calls ++ [c]) key = (history calls key).follow key c := by
  unfold history
  rw [List.foldl_append]
  rfl

theorem history_define (calls : List (Call V)) (key : String) (recipe : Recipe V) :
    history (calls ++ [.define key recipe]) key =
      { history calls key with latest := some recipe } := by
  rw [history_snoc]
  exact if_pos rfl

theorem history_define_ne (calls : List (Call V)) {key k : String} (recipe : Recipe V)
    (hk : k ≠ key) : history (calls ++ [.define key recipe]) k = history calls k := by
  rw [history_snoc]
  exact if_neg (Ne.symm hk)

theorem history_get (calls : List (Call V)) (key : String) :
    history (calls ++ [.get key]) key =
      { history calls key with
        first := (history calls key).first.or (history calls key).latest } := by
  rw [history_snoc]
  exact if_pos rfl

theorem history_get_ne (calls : List (Call V)) {key k : String} (hk : k ≠ key) :
    history (calls ++ [.get key]) k = history calls k := by
  rw [history_snoc]
  exact if_neg (Ne.symm hk)

theorem first_define (calls : List (Call V)) (key k : String) (recipe : Recipe V) :
    (history (calls ++ [.define key recipe]) k).first = (history calls k).first := by
  by_cases hk : k = key
  · rw [hk, history_define]
  · rw [history_define_ne calls recipe hk]

theorem latest_get (calls : List (Call V)) (key k : String) :
    (history (calls ++ [.get key]) k).latest = (history calls k).latest := by
  by_cases hk : k = key
  · rw [hk, history_get]
  · rw [history_get_ne calls hk]

section Cells

theorem serveAll_snoc (s : Snapshot) (calls : List (Call V)) (c : Call V) (e : Engine V) :
    serveAll s (calls ++ [c]) = .done e ↔
      ∃ u, serveAll s calls = .done u ∧ serve s u c = .done e := by
  unfold serveAll
  rw [List.foldlM_append, Outcome.bind_eq_done]
  refine exists_congr (fun u => and_congr_right (fun _ => ?_))
  rw [List.foldlM_cons]
  constructor
  · intro h
    obtain ⟨e', he', hnil⟩ := (Outcome.bind_eq_done _ _ _).mp h
    rw [he']
    exact hnil
  · intro h
    rw [h]
    rfl

theorem fresh_of_run {recipe : Recipe V} {s : Snapshot} {v : V} {r : Reader}
    (h : recipe.run (Reader.new s) = .done (v, r)) : fresh recipe s = .done v := by
  unfold fresh
  rw [h]
  rfl

/-- The engine holds the latest recipe of each key, and under the keys that were asked for
the value of the recipe in place then. -/
structure Holds (s : Snapshot) (calls : List (Call V)) (e : Engine V) : Prop where
  recipes : ∀ key, e.recipes.lookup key = (history calls key).latest
  unasked : ∀ key, (history calls key).first = none → e.cells.lookup key = none
  asked : ∀ key recipe, (history calls key).first = some recipe →
    ∃ cell, e.cells.lookup key = some cell ∧ fresh recipe s = .done cell.1

theorem Holds.define {s : Snapshot} {calls : List (Call V)} {e : Engine V}
    (h : Holds s calls e) (key : String) (recipe : Recipe V) :
    Holds s (calls ++ [.define key recipe]) (e.define key recipe) := by
  refine ⟨fun k => ?_, fun k hk => ?_, fun k recipe' hk => ?_⟩
  · change (e.recipes.insert key recipe).lookup k = _
    by_cases hk : k = key
    · rw [hk, AList.lookup_insert, history_define]
    · rw [AList.lookup_insert_ne hk, history_define_ne calls recipe hk]
      exact h.recipes k
  · rw [first_define] at hk
    exact h.unasked k hk
  · rw [first_define] at hk
    exact h.asked k recipe' hk

theorem Holds.get {s : Snapshot} {calls : List (Call V)} {e e' : Engine V}
    (h : Holds s calls e) (key : String) {v : V} (hget : e.get key s = .done (v, e')) :
    Holds s (calls ++ [.get key]) e' := by
  cases hasked : (history calls key).first with
  | some first =>
    have hfirst : ∀ k, (history (calls ++ [.get key]) k).first = (history calls k).first := by
      intro k
      by_cases hk : k = key
      · rw [hk, history_get, hasked]
        rfl
      · rw [history_get_ne calls hk]
    obtain ⟨cell, hcell, _⟩ := h.asked key first hasked
    unfold Engine.get at hget
    rw [hcell] at hget
    obtain ⟨_, he⟩ := Prod.mk.inj (Outcome.done.inj hget)
    rw [← he]
    refine ⟨fun k => ?_, fun k hk => ?_, fun k recipe hk => ?_⟩
    · rw [latest_get]
      exact h.recipes k
    · rw [hfirst] at hk
      exact h.unasked k hk
    · rw [hfirst] at hk
      exact h.asked k recipe hk
  | none =>
    have hnone := h.unasked key hasked
    rcases Invalidation.get_cases e e' key s v hget with
      ⟨_, receipt, hcell⟩ | ⟨recipe, receipt, hrecipe, hrun, hrecipes, hcells⟩
    · rw [hnone] at hcell
      cases hcell
    · rw [h.recipes] at hrecipe
      have hfirst : (history (calls ++ [.get key]) key).first = some recipe := by
        rw [history_get, hasked, hrecipe]
        rfl
      refine ⟨fun k => ?_, fun k hk => ?_, fun k recipe' hk => ?_⟩
      · rw [latest_get, hrecipes]
        exact h.recipes k
      · have hne : k ≠ key := by
          intro heq
          rw [heq, hfirst] at hk
          cases hk
        rw [history_get_ne calls hne] at hk
        rw [hcells, AList.lookup_insert_ne hne]
        exact h.unasked k hk
      · by_cases heq : k = key
        · rw [heq, hfirst, Option.some.injEq] at hk
          rw [← hk, heq, hcells, AList.lookup_insert]
          exact ⟨_, rfl, fresh_of_run hrun⟩
        · rw [history_get_ne calls heq] at hk
          rw [hcells, AList.lookup_insert_ne heq]
          exact h.asked k recipe' hk

theorem serveAll_holds (s : Snapshot) (calls : List (Call V)) (e : Engine V)
    (h : serveAll s calls = .done e) : Holds s calls e := by
  induction calls using List.reverseRecOn generalizing e with
  | nil =>
    have he : Engine.new = e := Outcome.done.inj h
    rw [← he]
    refine ⟨fun key => rfl, fun key _ => rfl, fun key recipe hfirst => ?_⟩
    cases hfirst
  | append_singleton calls c ih =>
    obtain ⟨u, hcalls, hserve⟩ := (serveAll_snoc s calls c e).mp h
    have hu := ih u hcalls
    cases c with
    | define key recipe =>
      have he : u.define key recipe = e := Outcome.done.inj hserve
      rw [← he]
      exact hu.define key recipe
    | get key =>
      obtain ⟨⟨v, e'⟩, hget, he⟩ := (Outcome.bind_eq_done _ _ _).mp hserve
      have he' : e' = e := Outcome.done.inj he
      rw [← he']
      exact hu.get key hget

/-- What a key is answered: the value of the recipe in place when it was first asked for,
and before that of its latest recipe. -/
theorem Holds.answer {s : Snapshot} {calls : List (Call V)} {e : Engine V}
    (h : Holds s calls e) (key : String) (recipe : Recipe V)
    (hlatest : (history calls key).latest = some recipe) :
    (e.get key s >>= fun answer => .done answer.1) =
      fresh ((history calls key).first.getD recipe) s := by
  unfold Engine.get
  cases hasked : (history calls key).first with
  | some first =>
    obtain ⟨cell, hcell, hfresh⟩ := h.asked key first hasked
    rw [hcell, Option.getD_some, hfresh]
    rfl
  | none =>
    have hrecipe := h.recipes key
    rw [hlatest] at hrecipe
    rw [h.unasked key hasked]
    change (e.recompute key s >>= _) = _
    unfold Engine.recompute
    rw [hrecipe, Option.getD_none]
    unfold fresh
    simp only
    cases recipe.run (Reader.new s) with
    | done answer => rfl
    | trap e => rfl
    | starved => rfl

end Cells

section Runs

/-- Every recipe defined for a key that was asked for before produces on the snapshot what
the recipe in place at that time produces. -/
def Faithful (s : Snapshot) (calls : List (Call V)) : Prop :=
  ∀ left right key recipe first, calls = left ++ .define key recipe :: right →
    (history left key).first = some first → fresh recipe s = fresh first s

theorem Faithful.left {s : Snapshot} {left right : List (Call V)}
    (h : Faithful s (left ++ right)) : Faithful s left := by
  intro l r key recipe first hsplit hfirst
  refine h l (r ++ right) key recipe first ?_ hfirst
  rw [hsplit]
  simp

/-- Along faithful definitions the latest recipe of a key that was asked for produces what
the first did. -/
theorem Faithful.fresh_eq {s : Snapshot} {calls : List (Call V)} (h : Faithful s calls)
    (key : String) (recipe first : Recipe V) (hlatest : (history calls key).latest = some recipe)
    (hfirst : (history calls key).first = some first) : fresh recipe s = fresh first s := by
  induction calls using List.reverseRecOn with
  | nil => cases hfirst
  | append_singleton calls c ih =>
    cases c with
    | define k defined =>
      by_cases hk : key = k
      · subst hk
        rw [history_define] at hlatest hfirst
        rw [← Option.some.inj hlatest]
        exact h calls [] key defined first rfl hfirst
      · rw [history_define_ne calls defined hk] at hlatest hfirst
        exact ih h.left hlatest hfirst
    | get k =>
      by_cases hk : key = k
      · subst hk
        rw [history_get] at hlatest hfirst
        change (history calls key).latest = some recipe at hlatest
        change (history calls key).first.or (history calls key).latest = some first at hfirst
        cases hasked : (history calls key).first with
        | none =>
          rw [hasked, Option.none_or, hlatest, Option.some.injEq] at hfirst
          rw [hfirst]
        | some asked =>
          rw [hasked, Option.some_or] at hfirst
          exact ih h.left hlatest (hasked.trans hfirst)
      · rw [history_get_ne calls hk] at hlatest hfirst
        exact ih h.left hlatest hfirst

/-- Cells follow their recipes exactly along faithful definitions: in every state that a
sequence of calls passes through each key is answered what its latest recipe produces from
scratch, if and only if no definition of a key that was asked for before changes what is
produced. -/
theorem cells_follow_iff (s : Snapshot) (calls : List (Call V)) (e : Engine V)
    (hserved : serveAll s calls = .done e) :
    (∀ left right u key recipe, calls = left ++ right → serveAll s left = .done u →
        (history left key).latest = some recipe →
        (u.get key s >>= fun answer => .done answer.1) = fresh recipe s) ↔
      Faithful s calls := by
  constructor
  · intro h left right key recipe first hsplit hfirst
    have hupto : calls = (left ++ [.define key recipe]) ++ right := by
      rw [hsplit]
      simp
    obtain ⟨u, hu⟩ : ∃ u, serveAll s (left ++ [.define key recipe]) = .done u := by
      rw [hupto] at hserved
      unfold serveAll at hserved ⊢
      rw [List.foldlM_append, Outcome.bind_eq_done] at hserved
      obtain ⟨u, hu, _⟩ := hserved
      exact ⟨u, hu⟩
    have hhistory := history_define left key recipe
    have hlatest : (history (left ++ [.define key recipe]) key).latest = some recipe := by
      rw [hhistory]
    have hkept : (history (left ++ [.define key recipe]) key).first = some first := by
      rw [hhistory]
      exact hfirst
    have hanswer := (serveAll_holds s _ u hu).answer key recipe hlatest
    rw [h _ right u key recipe hupto hu hlatest, hkept, Option.getD_some] at hanswer
    exact hanswer
  · intro hfaithful left right u key recipe hsplit hu hlatest
    rw [(serveAll_holds s left u hu).answer key recipe hlatest]
    cases hasked : (history left key).first with
    | none => rfl
    | some first =>
      rw [hsplit] at hfaithful
      exact (hfaithful.left.fresh_eq key recipe first hlatest hasked).symm

end Runs

section Example

def childCount : Recipe ℕ :=
  .part (addr .node 1) Part.structure (fun o => .ret ((o.map (fun n => n.children.length)).getD 0))

def lone : Snapshot := holding (rev 1) 0 [(addr .node 1, {})]

/-- A recipe replaced before the key is asked for, and again by one of the same value. -/
theorem cells_follow_childCount :
    ∃ e, serveAll lone [.define "n" (.ret 7), .define "n" childCount, .get "n",
        .define "n" (.ret 0)] = .done e ∧
      (e.get "n" lone >>= fun answer => .done answer.1) = fresh (.ret 0) lone := by
  have hserved : serveAll lone [.define "n" (.ret 7), .define "n" childCount, .get "n",
      .define "n" (.ret 0)] = .done _ := rfl
  refine ⟨_, hserved, (cells_follow_iff lone _ _ hserved).mpr ?_ _ [] _ "n" (.ret 0)
    (List.append_nil _).symm hserved rfl⟩
  intro left right key recipe first hsplit hfirst
  match left, hsplit with
  | [], _ => cases hfirst
  | [_], hsplit =>
    injection hsplit with hone _
    rw [← hone] at hfirst
    have hnone := first_define [] "n" key (.ret 7 : Recipe ℕ)
    rw [List.nil_append, hfirst] at hnone
    cases hnone
  | [_, _], hsplit => simp at hsplit
  | [_, _, _], hsplit =>
    injection hsplit with hone hsplit
    injection hsplit with htwo hsplit
    injection hsplit with hthree hsplit
    injection hsplit with hcall _
    injection hcall with hkey hrecipe
    subst hone htwo hthree hkey hrecipe
    have hcount : childCount = first := Option.some.inj hfirst
    rw [← hcount]
    rfl
  | _ :: _ :: _ :: _ :: _, hsplit => simp at hsplit

/-- A key asked for and then defined again keeps its first value. -/
theorem redefined_key_keeps_value :
    ∃ e, serveAll lone [.define "n" (.ret 1), .get "n", .define "n" (.ret 2)] = .done e ∧
      (history [.define "n" (.ret 1), .get "n", .define "n" (.ret 2)] "n").latest =
        some (.ret 2) ∧
      (e.get "n" lone >>= fun answer => .done answer.1) = .done 1 ∧
      fresh (.ret 2) lone = .done 2 :=
  ⟨_, rfl, rfl, rfl, rfl⟩

end Example

end CompositionIr.Redefinitions
