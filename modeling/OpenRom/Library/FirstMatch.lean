/-!
# First match

Objects in a list are tried in turn until one matches; trying an object may change it. The index is
that of the first object that matches (`fst_firstMatch`), the object there is the one that the try
has left (`getElem?_firstMatch`), and what a try never changes is the same afterwards
(`map_firstMatch`).

Two ways to try the objects come to the same result exactly when none on which they differ comes
before the first that both take (`findSome?_eq_findSome?_iff`).
-/

set_option autoImplicit false

namespace List

universe u v

variable {α : Type u} {β : Type v}

/-- Tries the objects in turn up to the first that matches. -/
def firstMatch (attempt : α → Bool × α) : List α → Option Nat × List α
  | [] => (none, [])
  | x :: xs =>
      match attempt x with
      | (true, x') => (some 0, x' :: xs)
      | (false, x') => ((firstMatch attempt xs).1.map (· + 1), x' :: (firstMatch attempt xs).2)

/-- The objects that are tried. -/
def tried (attempt : α → Bool × α) : List α → List α
  | [] => []
  | x :: xs => x :: if (attempt x).1 then [] else tried attempt xs

theorem mem_of_mem_tried {attempt : α → Bool × α} {x : α} {xs : List α}
    (h : x ∈ tried attempt xs) : x ∈ xs := by
  induction xs with
  | nil => cases h
  | cons y ys ih =>
      rcases mem_cons.1 h with rfl | h
      · exact mem_cons_self
      · split at h
        · cases h
        · exact mem_cons_of_mem y (ih h)

variable {attempt : α → Bool × α}

theorem firstMatch_cons_of_true {x x' : α} {xs : List α} (h : attempt x = (true, x')) :
    firstMatch attempt (x :: xs) = (some 0, x' :: xs) := by
  rw [firstMatch, h]

theorem firstMatch_cons_of_false {x x' : α} {xs : List α} (h : attempt x = (false, x')) :
    firstMatch attempt (x :: xs) =
      ((firstMatch attempt xs).1.map (· + 1), x' :: (firstMatch attempt xs).2) := by
  rw [firstMatch, h]

/-- The first that matches is found, by any test that tells what matches. -/
theorem fst_firstMatch {p : α → Bool} {xs : List α} (h : ∀ x ∈ xs, (attempt x).1 = p x) :
    (firstMatch attempt xs).1 = xs.findIdx? p := by
  induction xs with
  | nil => rfl
  | cons x xs ih =>
      have hx := h x mem_cons_self
      have hxs := ih fun y hy => h y (mem_cons_of_mem x hy)
      rcases hattempt : attempt x with ⟨_ | _, x'⟩
      · rw [hattempt] at hx
        rw [firstMatch_cons_of_false hattempt, findIdx?_cons, ← hx, hxs]
        rfl
      · rw [hattempt] at hx
        rw [firstMatch_cons_of_true hattempt, findIdx?_cons, ← hx]
        rfl

theorem length_firstMatch (xs : List α) : (firstMatch attempt xs).2.length = xs.length := by
  induction xs with
  | nil => rfl
  | cons x xs ih =>
      rcases h : attempt x with ⟨_ | _, x'⟩
      · rw [firstMatch_cons_of_false h, length_cons, length_cons, ih]
      · rw [firstMatch_cons_of_true h, length_cons, length_cons]

/-- An object that is reached, as none in front of it matches, is as its try has left it. -/
theorem getElem?_firstMatch_of_reached {xs : List α} {i : Nat}
    (h : ∀ j x, j < i → xs[j]? = some x → (attempt x).1 = false) :
    (firstMatch attempt xs).2[i]? = xs[i]?.map fun x => (attempt x).2 := by
  induction xs generalizing i with
  | nil => rfl
  | cons x xs ih =>
      rcases hx : attempt x with ⟨_ | _, x'⟩
      · rw [firstMatch_cons_of_false hx]
        cases i with
        | zero => rw [getElem?_cons_zero, getElem?_cons_zero, Option.map_some, hx]
        | succ i =>
            rw [getElem?_cons_succ, getElem?_cons_succ]
            exact ih fun j y hj hy => h (j + 1) y (Nat.succ_lt_succ hj) hy
      · rw [firstMatch_cons_of_true hx]
        cases i with
        | zero => rw [getElem?_cons_zero, getElem?_cons_zero, Option.map_some, hx]
        | succ i =>
            have hfirst := h 0 x (Nat.succ_pos i) rfl
            rw [hx] at hfirst
            cases hfirst

theorem findIdx?_eq_some {p : α → Bool} {xs : List α} {i : Nat} :
    xs.findIdx? p = some i ↔
      ∃ x, xs[i]? = some x ∧ p x = true ∧ ∀ j y, j < i → xs[j]? = some y → p y = false := by
  rw [findIdx?_eq_some_iff_getElem]
  constructor
  · rintro ⟨hi, hp, hbefore⟩
    refine ⟨xs[i], getElem?_eq_getElem hi, hp, ?_⟩
    intro j y hj hy
    obtain ⟨hj', rfl⟩ := getElem?_eq_some_iff.1 hy
    exact Bool.eq_false_iff.2 (hbefore j hj)
  · rintro ⟨x, hx, hp, hbefore⟩
    obtain ⟨hi, rfl⟩ := getElem?_eq_some_iff.1 hx
    refine ⟨hi, hp, ?_⟩
    intro j hj
    exact Bool.eq_false_iff.1 (hbefore j _ hj (getElem?_eq_getElem (Nat.lt_trans hj hi)))

/-- The match is the object as its try has left it. -/
theorem getElem?_firstMatch {xs : List α} {i : Nat} (h : (firstMatch attempt xs).1 = some i) :
    (firstMatch attempt xs).2[i]? = xs[i]?.map fun x => (attempt x).2 := by
  rw [fst_firstMatch fun _ _ => rfl] at h
  obtain ⟨-, -, -, hbefore⟩ := findIdx?_eq_some.1 h
  exact getElem?_firstMatch_of_reached hbefore

/-- The objects that are tried are those that are reached. -/
theorem mem_tried_iff {x : α} {xs : List α} :
    x ∈ tried attempt xs ↔ ∃ i : Nat, xs[i]? = some x ∧
      ∀ j y, j < i → xs[j]? = some y → (attempt y).1 = false := by
  constructor
  · intro h
    induction xs with
    | nil => cases h
    | cons z zs ih =>
        rcases mem_cons.1 h with rfl | h
        · exact ⟨0, rfl, fun _ _ hj => absurd hj (Nat.not_lt_zero _)⟩
        · by_cases hz : (attempt z).1 = true
          · rw [if_pos hz] at h
            cases h
          · rw [if_neg hz] at h
            obtain ⟨i, hi, hbefore⟩ := ih h
            refine ⟨i + 1, hi, fun j y hj hy => ?_⟩
            cases j with
            | zero =>
                cases hy
                exact Bool.eq_false_iff.2 hz
            | succ j => exact hbefore j y (Nat.lt_of_succ_lt_succ hj) hy
  · rintro ⟨i, hi, hbefore⟩
    induction xs generalizing i with
    | nil => cases hi
    | cons z zs ih =>
        cases i with
        | zero =>
            cases hi
            exact mem_cons_self
        | succ i =>
            have hz := hbefore 0 z (Nat.succ_pos i) rfl
            refine mem_cons_of_mem z ?_
            rw [if_neg (Bool.eq_false_iff.1 hz)]
            exact ih i hi fun j y hj hy => hbefore (j + 1) y (Nat.succ_lt_succ hj) hy

/-- What no try changes is the same for every object. -/
theorem map_firstMatch {f : α → β} (hf : ∀ x, f (attempt x).2 = f x) (xs : List α) :
    (firstMatch attempt xs).2.map f = xs.map f := by
  induction xs with
  | nil => rfl
  | cons x xs ih =>
      have hx := hf x
      rcases h : attempt x with ⟨_ | _, x'⟩
      · rw [h] at hx
        rw [firstMatch_cons_of_false h, map_cons, map_cons, ih, hx]
      · rw [h] at hx
        rw [firstMatch_cons_of_true h, map_cons, map_cons, hx]

/-- Which object is first depends on what decides about each only. -/
theorem fst_firstMatch_congr {attempt' : α → Bool × α} {f : α → β} {xs ys : List α}
    (hmap : xs.map f = ys.map f)
    (h : ∀ x y, f x = f y → (attempt x).1 = (attempt' y).1) :
    (firstMatch attempt xs).1 = (firstMatch attempt' ys).1 := by
  -- both sides are the first index at which the test is true
  rw [fst_firstMatch fun _ _ => rfl, fst_firstMatch fun _ _ => rfl]
  induction xs generalizing ys with
  | nil =>
      cases ys with
      | nil => rfl
      | cons y ys => cases hmap
  | cons x xs ih =>
      cases ys with
      | nil => cases hmap
      | cons y ys =>
          obtain ⟨hxy, hrest⟩ := cons.inj hmap
          rw [findIdx?_cons, findIdx?_cons, h x y hxy, ih hrest]

theorem findSome?_cons_some {f : α → Option β} {x : α} {b : β} (h : f x = some b) (xs : List α) :
    (x :: xs).findSome? f = some b := by
  rw [findSome?_cons, h]

theorem findSome?_cons_none {f : α → Option β} {x : α} (h : f x = none) (xs : List α) :
    (x :: xs).findSome? f = xs.findSome? f := by
  rw [findSome?_cons, h]

theorem findSome?_ne_some {f : α → Option β} {xs : List α} {b : β} (h : ∀ x ∈ xs, f x ≠ some b) :
    xs.findSome? f ≠ some b := by
  intro hfound
  obtain ⟨x, hx, hfx⟩ := exists_of_findSome?_eq_some hfound
  exact h x hx hfx

/-- No result that the one function has at `x` is one that the other has at `y`. -/
def Separates (f g : α → Option β) (x y : α) : Prop :=
  (∀ b, f x = some b → g y ≠ some b) ∧ ∀ b, g x = some b → f y ≠ some b

/-- Every object on which two functions differ comes after one on which they have the same
result. -/
def AgreeFirst (f g : α → Option β) (xs : List α) : Prop :=
  ∀ (i : Nat) (x : α), xs[i]? = some x → f x ≠ g x →
    ∃ (j : Nat) (y : α), j < i ∧ xs[j]? = some y ∧ f y = g y ∧ (f y).isSome

theorem agreeFirst_cons_some {f g : α → Option β} {x : α} {b : β} (hf : f x = some b)
    (hg : g x = some b) (xs : List α) : AgreeFirst f g (x :: xs) := by
  intro i y hy hne
  cases i with
  | zero =>
      -- they have the same result at `x` itself
      cases hy
      exact absurd (hf.trans hg.symm) hne
  | succ i => exact ⟨0, x, Nat.zero_lt_succ i, rfl, hf.trans hg.symm, by rw [hf]; rfl⟩

theorem agreeFirst_cons_none {f g : α → Option β} {x : α} (hf : f x = none) (hg : g x = none)
    (xs : List α) : AgreeFirst f g (x :: xs) ↔ AgreeFirst f g xs := by
  constructor
  · intro hall i y hy hne
    obtain ⟨j, z, hj, hz, hboth, hsome⟩ := hall (i + 1) y hy hne
    -- the earlier object on which both have a result is not `x`, where they have none
    cases j with
    | zero =>
        cases hz
        rw [hf] at hsome
        cases hsome
    | succ j => exact ⟨j, z, Nat.lt_of_succ_lt_succ hj, hz, hboth, hsome⟩
  · intro hall i y hy hne
    cases i with
    | zero =>
        cases hy
        exact absurd (hf.trans hg.symm) hne
    | succ i =>
        obtain ⟨j, z, hj, hz⟩ := hall i y hy hne
        exact ⟨j + 1, z, Nat.succ_lt_succ hj, hz⟩

theorem not_agreeFirst_cons {f g : α → Option β} {x : α} (h : f x ≠ g x) (xs : List α) :
    ¬ AgreeFirst f g (x :: xs) := by
  intro hall
  -- nothing comes before the first object
  obtain ⟨j, -, hj, -⟩ := hall 0 x rfl h
  cases hj

/-- Two functions have the same first result exactly when they agree on the first object on which
either has one. -/
theorem findSome?_eq_findSome?_iff {f g : α → Option β} {xs : List α}
    (h : xs.Pairwise (Separates f g)) : xs.findSome? f = xs.findSome? g ↔ AgreeFirst f g xs := by
  induction xs with
  | nil => exact iff_of_true rfl nofun
  | cons x xs ih =>
      obtain ⟨hx, hxs⟩ := pairwise_cons.1 h
      cases hf : f x with
      | none =>
          cases hg : g x with
          | none =>
              rw [findSome?_cons_none hf, findSome?_cons_none hg, agreeFirst_cons_none hf hg,
                ih hxs]
          | some c =>
              rw [findSome?_cons_none hf, findSome?_cons_some hg]
              have hne : f x ≠ g x := by rw [hf, hg]; exact nofun
              -- what is found at `x` is not found later
              exact iff_of_false (findSome?_ne_some fun y hy => (hx y hy).2 c hg)
                (not_agreeFirst_cons hne xs)
      | some b =>
          cases hg : g x with
          | none =>
              rw [findSome?_cons_some hf, findSome?_cons_none hg]
              have hne : f x ≠ g x := by rw [hf, hg]; exact nofun
              exact iff_of_false (Ne.symm (findSome?_ne_some fun y hy => (hx y hy).1 b hf))
                (not_agreeFirst_cons hne xs)
          | some c =>
              rw [findSome?_cons_some hf, findSome?_cons_some hg]
              by_cases hbc : b = c
              · subst hbc
                exact iff_of_true rfl (agreeFirst_cons_some hf hg xs)
              · have hne : f x ≠ g x := by
                  rw [hf, hg]
                  exact fun heq => hbc (Option.some.inj heq)
                exact iff_of_false (fun heq => hbc (Option.some.inj heq))
                  (not_agreeFirst_cons hne xs)

/-- Every object whose result does not have the property comes after one whose result has it. -/
def GoodFirst (f : α → Option β) (P : β → Prop) (xs : List α) : Prop :=
  ∀ (i : Nat) (x : α), xs[i]? = some x → ∀ b, f x = some b → ¬ P b →
    ∃ (j : Nat) (y : α), j < i ∧ xs[j]? = some y ∧ ∃ b', f y = some b' ∧ P b'

theorem goodFirst_cons_none {f : α → Option β} {P : β → Prop} {x : α} (hf : f x = none)
    (xs : List α) : GoodFirst f P (x :: xs) ↔ GoodFirst f P xs := by
  constructor
  · intro hall i y hy b hb hbad
    obtain ⟨j, z, hj, hz, b', hb', hgood⟩ := hall (i + 1) y hy b hb hbad
    cases j with
    | zero =>
        cases hz
        rw [hf] at hb'
        cases hb'
    | succ j => exact ⟨j, z, Nat.lt_of_succ_lt_succ hj, hz, b', hb', hgood⟩
  · intro hall i y hy b hb hbad
    cases i with
    | zero =>
        cases hy
        rw [hf] at hb
        cases hb
    | succ i =>
        obtain ⟨j, z, hj, hz⟩ := hall i y hy b hb hbad
        exact ⟨j + 1, z, Nat.succ_lt_succ hj, hz⟩

theorem forall_findSome?_iff {f : α → Option β} {P : β → Prop} {xs : List α} :
    (∀ b, xs.findSome? f = some b → P b) ↔ GoodFirst f P xs := by
  induction xs with
  | nil => exact iff_of_true nofun nofun
  | cons x xs ih =>
      cases hf : f x with
      | none => rw [findSome?_cons_none hf, goodFirst_cons_none hf, ih]
      | some b =>
          rw [findSome?_cons_some hf]
          by_cases hb : P b
          · refine iff_of_true (fun b' heq => Option.some.inj heq ▸ hb) fun i y hy b' hb' hbad => ?_
            cases i with
            | zero =>
                cases hy
                exact absurd (Option.some.inj (hf.symm.trans hb') ▸ hb) hbad
            | succ i => exact ⟨0, x, Nat.zero_lt_succ i, rfl, b, hf, hb⟩
          · refine iff_of_false (fun hall => hb (hall b rfl)) fun hall => ?_
            obtain ⟨j, -, hj, -⟩ := hall 0 x rfl b hf hb
            cases hj

end List
