import Mathlib.Data.List.Basic

/-!
# Runs with and without the elements of others

What a run puts out at an element may depend on all elements before it. Let some of the elements
belong to one party, and let the outputs of the others be left out. Then the run gives the party
what it gets without the others exactly when, at each of its elements, the past and the party's own
past lead to the same output (`filter_run_iff`).
-/

set_option autoImplicit false

namespace Purge

universe u v

variable {α : Type u} {β : Type v}

/-! ## Elements with their past -/

/-- The elements of a list, each with those before it; `past` is before all of them. -/
def splits (past : List α) : List α → List (List α × α)
  | [] => []
  | x :: xs => (past, x) :: splits (past ++ [x]) xs

theorem mem_splits {s : List α × α} {past xs : List α} :
    s ∈ splits past xs ↔ ∃ pre post, s.1 = past ++ pre ∧ xs = pre ++ s.2 :: post := by
  induction xs generalizing past with
  | nil => simp [splits]
  | cons x xs ih =>
      rw [splits, List.mem_cons, ih]
      constructor
      · rintro (rfl | ⟨pre, post, hpast, rfl⟩)
        · exact ⟨[], xs, (List.append_nil past).symm, rfl⟩
        · exact ⟨x :: pre, post, by rw [hpast, List.append_assoc, List.singleton_append], rfl⟩
      · rintro ⟨pre, post, hpast, hxs⟩
        cases pre with
        | nil =>
            obtain ⟨rfl, -⟩ := List.cons.inj hxs
            exact Or.inl (Prod.ext (by rw [hpast, List.append_nil]) rfl)
        | cons y pre =>
            obtain ⟨rfl, rfl⟩ := List.cons.inj hxs
            exact Or.inr ⟨pre, post, by rw [hpast, List.append_assoc, List.singleton_append], rfl⟩

/-- Without the others, what is left of a past is the party's own past. -/
theorem splits_filter (mine : α → Bool) (past xs : List α) :
    splits (past.filter mine) (xs.filter mine) =
      ((splits past xs).filter fun s => mine s.2).map fun s => (s.1.filter mine, s.2) := by
  induction xs generalizing past with
  | nil => rfl
  | cons x xs ih =>
      have hpast := ih (past ++ [x])
      rw [List.filter_append] at hpast
      cases hx : mine x with
      | false =>
          rw [List.filter_cons_of_neg (by simp [hx]), List.filter_nil, List.append_nil] at hpast
          rw [List.filter_cons_of_neg (by simp [hx]), splits,
            List.filter_cons_of_neg (by simp [hx]), hpast]
      | true =>
          rw [List.filter_cons_of_pos hx, List.filter_nil] at hpast
          rw [List.filter_cons_of_pos hx, splits, splits,
            List.filter_cons_of_pos (a := (past, x)) hx, List.map_cons, ← hpast]

/-! ## Outputs -/

theorem length_filterMap_le {γ : Type u} {f g : γ → Option β} {l : List γ}
    (hfg : ∀ x ∈ l, (f x).isSome → (g x).isSome) :
    (l.filterMap f).length ≤ (l.filterMap g).length := by
  induction l with
  | nil => exact Nat.le_refl _
  | cons x l ih =>
      have hrest := ih fun y hy => hfg y (List.mem_cons_of_mem x hy)
      have hx := hfg x List.mem_cons_self
      rw [List.filterMap_cons, List.filterMap_cons]
      cases hf : f x with
      | none =>
          cases g x with
          | none => exact hrest
          | some b => exact Nat.le_succ_of_le hrest
      | some a =>
          obtain ⟨b, hb⟩ := Option.isSome_iff_exists.1 (hx (by rw [hf]; rfl))
          rw [hb]
          exact Nat.succ_le_succ hrest

/-- When one function has a value wherever the other has one, no value can stand in for
another. -/
theorem filterMap_eq_filterMap_iff {γ : Type u} {f g : γ → Option β} {l : List γ}
    (hfg : ∀ x ∈ l, (f x).isSome → (g x).isSome) :
    l.filterMap f = l.filterMap g ↔ ∀ x ∈ l, f x = g x := by
  refine ⟨fun heq => ?_, fun hall => List.filterMap_congr hall⟩
  induction l with
  | nil => exact fun x hx => absurd hx List.not_mem_nil
  | cons x l ih =>
      have hrest : ∀ y ∈ l, (f y).isSome → (g y).isSome :=
        fun y hy => hfg y (List.mem_cons_of_mem x hy)
      have hx := hfg x List.mem_cons_self
      rw [List.filterMap_cons, List.filterMap_cons] at heq
      rw [List.forall_mem_cons]
      cases hf : f x with
      | none =>
          cases hg : g x with
          | none =>
              rw [hf, hg] at heq
              exact ⟨rfl, ih hrest heq⟩
          | some b =>
              -- one side has a value more, and cannot make up for it
              rw [hf, hg] at heq
              have hlen := congrArg List.length heq
              have hle := length_filterMap_le hrest
              dsimp only [List.length_cons] at hlen
              omega
      | some a =>
          obtain ⟨b, hb⟩ := Option.isSome_iff_exists.1 (hx (by rw [hf]; rfl))
          rw [hf, hb] at heq
          obtain ⟨rfl, htail⟩ := List.cons.inj heq
          exact ⟨hb.symm, ih hrest htail⟩

variable (out : List α → α → Option β)

/-- What is put out in a run. -/
def run (xs : List α) : List β := (splits [] xs).filterMap fun s => out s.1 s.2

variable {out} (mine : α → Bool) (shown : β → Bool)

/-- The outputs that the party sees are those at its elements. -/
theorem filter_run {mine : α → Bool} {shown : β → Bool}
    (hshown : ∀ past x b, out past x = some b → shown b = mine x) (xs : List α) :
    (run out xs).filter shown =
      (splits [] xs).filterMap fun s => if mine s.2 then out s.1 s.2 else none := by
  rw [run, List.filter_filterMap]
  refine List.filterMap_congr fun s _ => ?_
  cases ho : out s.1 s.2 with
  | none => simp
  | some b => simp [Option.filter, hshown _ _ _ ho]

theorem run_filter (xs : List α) :
    run out (xs.filter mine) =
      (splits [] xs).filterMap fun s =>
        if mine s.2 then out (s.1.filter mine) s.2 else none := by
  have hsplits := splits_filter mine [] xs
  rw [List.filter_nil] at hsplits
  rw [run, hsplits, List.filterMap_map, List.filterMap_filter]
  exact List.filterMap_congr fun s _ => rfl

/-- Others disturb a party exactly where they change an output at one of its elements. An output
that is there in spite of the others is there without them. -/
theorem filter_run_iff
    (hshown : ∀ past x b, out past x = some b → shown b = mine x)
    (hless : ∀ past x, mine x → (out past x).isSome → (out (past.filter mine) x).isSome)
    (xs : List α) :
    (run out xs).filter shown = run out (xs.filter mine) ↔
      ∀ pre x post, xs = pre ++ x :: post → mine x → out pre x = out (pre.filter mine) x := by
  rw [filter_run hshown, run_filter mine, filterMap_eq_filterMap_iff]
  · constructor
    · intro hall pre x post hxs hx
      have hsame := hall (pre, x) (mem_splits.2 ⟨pre, post, rfl, hxs⟩)
      rwa [if_pos hx, if_pos hx] at hsame
    · intro hall s hs
      obtain ⟨pre, post, hpast, hxs⟩ := mem_splits.1 hs
      rw [List.nil_append] at hpast
      by_cases hx : mine s.2
      · rw [if_pos hx, if_pos hx, hpast]
        exact hall pre s.2 post hxs hx
      · rw [if_neg hx, if_neg hx]
  · intro s _ hsome
    by_cases hx : mine s.2
    · rw [if_pos hx] at hsome ⊢
      exact hless _ _ hx hsome
    · rw [if_neg hx] at hsome
      exact absurd hsome Bool.false_ne_true

end Purge
