import Mathlib.Order.Defs.Unbundled

/-!
# Ordered maps

A finite map that is kept in the order of its keys, by a comparison `lt` and nothing else: two keys
are the same when neither comes before the other. When the comparison is a strict total order, the
map is determined by what is found at each key (`find_insert`, `find_set`), and the walk over its
entries meets every key once, in order (`mem_entries_iff`, `sorted`).

A comparison by one field, and then by another, is a strict total order when those of the fields are
(`isStrictTotalOrder_fields`).
-/

set_option autoImplicit false

universe u v w

/-- A map as the list of its entries, in the order of the keys. -/
structure OrderedMap (κ : Type u) (β : Type v) (lt : κ → κ → Prop) where
  entries : List (κ × β)
  sorted : entries.Pairwise fun x y => lt x.1 y.1

namespace OrderedMap

variable {κ : Type u} {β : Type v} {lt : κ → κ → Prop}

/-- The map without entries. -/
def empty : OrderedMap κ β lt := ⟨[], List.Pairwise.nil⟩

section Search

variable [DecidableRel lt]

/-- The search stops at the first key that is not less. -/
def findIn (lt : κ → κ → Prop) [DecidableRel lt] (k : κ) : List (κ × β) → Option β
  | [] => none
  | x :: xs => if lt k x.1 then none else if lt x.1 k then findIn lt k xs else some x.2

/-- The value that the map has for the key. -/
def find (m : OrderedMap κ β lt) (k : κ) : Option β := findIn lt k m.entries

/-- Nothing happens when the key is there. -/
def insertIn (lt : κ → κ → Prop) [DecidableRel lt] (k : κ) (v : β) : List (κ × β) → List (κ × β)
  | [] => [(k, v)]
  | x :: xs =>
      if lt k x.1 then (k, v) :: x :: xs
      else if lt x.1 k then x :: insertIn lt k v xs
      else x :: xs

/-- The value of the entry with the key is replaced, where there is one. -/
def setIn (lt : κ → κ → Prop) [DecidableRel lt] (k : κ) (v : β) (xs : List (κ × β)) :
    List (κ × β) :=
  xs.map fun x => if lt k x.1 ∨ lt x.1 k then x else (x.1, v)

theorem mem_insertIn {k : κ} {v : β} {xs : List (κ × β)} {x : κ × β}
    (hx : x ∈ insertIn lt k v xs) : x = (k, v) ∨ x ∈ xs := by
  induction xs with
  | nil => exact Or.inl (List.mem_singleton.1 hx)
  | cons y ys ih =>
      rw [insertIn] at hx
      split at hx
      · exact List.mem_cons.1 hx
      · split at hx
        · rcases List.mem_cons.1 hx with rfl | hx
          · exact Or.inr List.mem_cons_self
          · exact (ih hx).imp id (List.mem_cons_of_mem y)
        · exact Or.inr hx

theorem insertIn_sorted [IsTrans κ lt] (k : κ) (v : β) {xs : List (κ × β)}
    (hxs : xs.Pairwise fun x y => lt x.1 y.1) :
    (insertIn lt k v xs).Pairwise fun x y => lt x.1 y.1 := by
  induction xs with
  | nil => exact List.pairwise_singleton _ _
  | cons x xs ih =>
      obtain ⟨hx, hrest⟩ := List.pairwise_cons.1 hxs
      rw [insertIn]
      split
      next hlt =>
        refine List.pairwise_cons.2 ⟨List.forall_mem_cons.2 ⟨hlt, fun y hy => ?_⟩, hxs⟩
        exact trans_of lt hlt (hx y hy)
      · split
        next hlt =>
          refine List.pairwise_cons.2 ⟨fun y hy => ?_, ih hrest⟩
          rcases mem_insertIn hy with rfl | hy
          · exact hlt
          · exact hx y hy
        · exact hxs

/-- The new entry, unless there is one with the key. -/
def insert [IsTrans κ lt] (m : OrderedMap κ β lt) (k : κ) (v : β) : OrderedMap κ β lt :=
  ⟨insertIn lt k v m.entries, insertIn_sorted k v m.sorted⟩

theorem setIn_sorted (k : κ) (v : β) {xs : List (κ × β)}
    (hxs : xs.Pairwise fun x y => lt x.1 y.1) :
    (setIn lt k v xs).Pairwise fun x y => lt x.1 y.1 := by
  have hkey : ∀ x : κ × β, (if lt k x.1 ∨ lt x.1 k then x else (x.1, v)).1 = x.1 := by
    intro x
    split <;> rfl
  refine List.pairwise_map.2 (hxs.imp fun {x y} hlt => ?_)
  rwa [hkey, hkey]

/-- Another value for the key, if it is there. -/
def set (m : OrderedMap κ β lt) (k : κ) (v : β) : OrderedMap κ β lt :=
  ⟨setIn lt k v m.entries, setIn_sorted k v m.sorted⟩

theorem findIn_setIn_self (k : κ) (v : β) (xs : List (κ × β)) :
    findIn lt k (setIn lt k v xs) = (findIn lt k xs).map fun _ => v := by
  induction xs with
  | nil => rfl
  | cons x xs ih =>
      rw [setIn, List.map_cons, findIn]
      by_cases hlt : lt k x.1
      · rw [if_pos (Or.inl hlt), findIn, if_pos hlt, if_pos hlt]
        rfl
      by_cases hgt : lt x.1 k
      · rw [if_pos (Or.inr hgt), findIn, if_neg hlt, if_neg hlt, if_pos hgt, if_pos hgt]
        exact ih
      · rw [if_neg (not_or_intro hlt hgt), findIn, if_neg hlt, if_neg hgt, if_neg hlt, if_neg hgt]
        rfl

end Search

/-! ## What is found -/

section Total

variable [IsStrictTotalOrder κ lt]

theorem eq_of_not_lt {k k' : κ} (h : ¬ lt k k') (h' : ¬ lt k' k) : k = k' :=
  Std.Trichotomous.trichotomous k k' h h'

variable [DecidableRel lt]

theorem findIn_cons_self (k : κ) (v : β) (xs : List (κ × β)) :
    findIn lt k ((k, v) :: xs) = some v := by
  rw [findIn, if_neg (irrefl_of lt k), if_neg (irrefl_of lt k)]

theorem findIn_eq_some_iff {k : κ} {v : β} {xs : List (κ × β)}
    (hxs : xs.Pairwise fun x y => lt x.1 y.1) : findIn lt k xs = some v ↔ (k, v) ∈ xs := by
  induction xs with
  | nil => exact iff_of_false (fun h => by cases h) List.not_mem_nil
  | cons x xs ih =>
      obtain ⟨hx, hrest⟩ := List.pairwise_cons.1 hxs
      rw [findIn, List.mem_cons]
      by_cases hlt : lt k x.1
      · -- all entries are behind the key
        rw [if_pos hlt]
        refine iff_of_false (fun h => by cases h) ?_
        rintro (rfl | hmem)
        · exact irrefl_of lt k hlt
        · exact irrefl_of lt k (trans_of lt hlt (hx _ hmem))
      rw [if_neg hlt]
      by_cases hgt : lt x.1 k
      · rw [if_pos hgt, ih hrest]
        refine ⟨Or.inr, ?_⟩
        rintro (rfl | hmem)
        · exact absurd hgt (irrefl_of lt k)
        · exact hmem
      · rw [if_neg hgt, Option.some_inj]
        obtain rfl := eq_of_not_lt hlt hgt
        refine ⟨fun hv => Or.inl (Prod.ext rfl hv.symm), ?_⟩
        rintro (heq | hmem)
        · rw [← heq]
        · exact absurd (hx _ hmem) (irrefl_of lt _)

/-- The entries are what is found. -/
theorem mem_entries_iff {m : OrderedMap κ β lt} {k : κ} {v : β} :
    (k, v) ∈ m.entries ↔ m.find k = some v := (findIn_eq_some_iff m.sorted).symm

theorem findIn_insertIn_self (k : κ) (v : β) (xs : List (κ × β)) :
    findIn lt k (insertIn lt k v xs) = some ((findIn lt k xs).getD v) := by
  induction xs with
  | nil => exact findIn_cons_self k v []
  | cons x xs ih =>
      rw [insertIn, findIn]
      split
      · exact findIn_cons_self k v _
      next hlt =>
        split
        next hgt => rw [findIn, if_neg hlt, if_pos hgt, ih]
        next hgt => rw [findIn, if_neg hlt, if_neg hgt, Option.getD_some]

theorem findIn_insertIn_of_ne {k k' : κ} (hne : k' ≠ k) (v : β) (xs : List (κ × β)) :
    findIn lt k' (insertIn lt k v xs) = findIn lt k' xs := by
  -- an entry for the other key in front changes nothing where the search goes on
  have hfront : ∀ {ys : List (κ × β)}, (lt k' k → findIn lt k' ys = none) →
      findIn lt k' ((k, v) :: ys) = findIn lt k' ys := by
    intro ys hys
    rw [findIn]
    by_cases hlt : lt k' k
    · rw [if_pos hlt, hys hlt]
    · rw [if_neg hlt, if_pos (Decidable.not_not.1 fun hgt => hne (eq_of_not_lt hlt hgt))]
  induction xs with
  | nil => exact hfront fun _ => rfl
  | cons x xs ih =>
      rw [insertIn]
      split
      next hlt =>
        refine hfront fun hlt' => ?_
        rw [findIn, if_pos (trans_of lt hlt' hlt)]
      · split
        · rw [findIn, findIn, ih]
        · rfl

theorem find_insert (m : OrderedMap κ β lt) (k : κ) (v : β) (k' : κ) [Decidable (k' = k)] :
    (m.insert k v).find k' = if k' = k then some ((m.find k).getD v) else m.find k' := by
  by_cases hk : k' = k
  · rw [if_pos hk, hk]
    exact findIn_insertIn_self k v m.entries
  · rw [if_neg hk]
    exact findIn_insertIn_of_ne hk v m.entries

theorem findIn_setIn_of_ne {k k' : κ} (hne : k' ≠ k) (v : β) (xs : List (κ × β)) :
    findIn lt k' (setIn lt k v xs) = findIn lt k' xs := by
  induction xs with
  | nil => rfl
  | cons x xs ih =>
      have hrest : findIn lt k' (xs.map fun x => if lt k x.1 ∨ lt x.1 k then x else (x.1, v)) =
          findIn lt k' xs := ih
      rw [setIn, List.map_cons, findIn, findIn, hrest]
      split
      · rfl
      next hx =>
        -- the entry with the key is not the one that is searched for
        obtain ⟨hlt, hgt⟩ := not_or.1 hx
        obtain rfl := eq_of_not_lt hlt hgt
        by_cases hlt' : lt k' x.1
        · rw [if_pos hlt', if_pos hlt']
        by_cases hgt' : lt x.1 k'
        · rw [if_neg hlt', if_neg hlt', if_pos hgt', if_pos hgt']
        · exact absurd (eq_of_not_lt hlt' hgt') hne

theorem find_set (m : OrderedMap κ β lt) (k : κ) (v : β) (k' : κ) [Decidable (k' = k)] :
    (m.set k v).find k' = if k' = k then (m.find k).map fun _ => v else m.find k' := by
  by_cases hk : k' = k
  · rw [if_pos hk, hk]
    exact findIn_setIn_self k v m.entries
  · rw [if_neg hk]
    exact findIn_setIn_of_ne hk v m.entries

end Total

/-! ## Comparisons -/

/-- The order by one field, and then by another. -/
theorem isStrictTotalOrder_fields {α : Type u} {β : Type v} {γ : Type w} [DecidableEq α]
    {f : γ → α} {g : γ → β} (hext : ∀ x y, f x = f y → g x = g y → x = y) (r : α → α → Prop)
    (s : β → β → Prop) [IsStrictTotalOrder α r] [IsStrictTotalOrder β s] :
    IsStrictTotalOrder γ fun x y => if f x = f y then s (g x) (g y) else r (f x) (f y) where
  irrefl x := by
    rw [if_pos rfl]
    exact irrefl_of s _
  trans x y z hxy hyz := by
    by_cases hfxy : f x = f y
    · rw [if_pos hfxy] at hxy
      rw [hfxy]
      split
      next hfyz =>
        rw [if_pos hfyz] at hyz
        exact trans_of s hxy hyz
      next hfyz => rwa [if_neg hfyz] at hyz
    · rw [if_neg hfxy] at hxy
      by_cases hfyz : f y = f z
      · rw [← hfyz, if_neg hfxy]
        exact hxy
      · rw [if_neg hfyz] at hyz
        have hxz := trans_of r hxy hyz
        have hne : f x ≠ f z := fun heq => irrefl_of r (f z) (by rwa [heq] at hxz)
        rwa [if_neg hne]
  trichotomous x y hxy hyx := by
    by_cases hf : f x = f y
    · rw [if_pos hf] at hxy
      rw [if_pos hf.symm] at hyx
      exact hext x y hf (Std.Trichotomous.trichotomous _ _ hxy hyx)
    · rw [if_neg hf] at hxy
      rw [if_neg (Ne.symm hf)] at hyx
      exact absurd (Std.Trichotomous.trichotomous _ _ hxy hyx) hf

end OrderedMap
