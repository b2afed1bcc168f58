import OpenRom.Library.Region

/-!
# Texts in an array

Texts are printed one behind the other into an array: each is cut where the array ends, but counts
with its full length for the place of the next. The array then holds the text of all of them, cut
once, unless one of them begins behind the end of the array (`printAll_holdsText`,
`printAll_eq_none`).
-/

set_option autoImplicit false

namespace List

universe u

variable {α : Type u} (stop : α)

/-- An array of `n` places holds a text, as far as it fits, and what ends it. -/
def HoldsText (n : Nat) (text arr : List α) : Prop :=
  arr.length = n ∧ ∃ rest, arr = text.take (n - 1) ++ stop :: rest

/-- A text from a place of the array on, with what ends it. No result, when this is behind the end
of the array. At the end there is no room, and nothing is stored. -/
def printAt (offset : Nat) (text arr : List α) : Option (List α) :=
  if arr.length < offset then none
  else if offset = arr.length then some arr
  else some (store offset (text.take (arr.length - offset - 1) ++ [stop]) arr)

/-- Texts one behind the other. -/
def printAll (offset : Nat) : List (List α) → List α → Option (List α)
  | [], arr => some arr
  | text :: texts, arr =>
      (printAt stop offset text arr).bind (printAll (offset + text.length) texts)

variable {stop} {n : Nat} {front text arr : List α}

theorem HoldsText.take_eq (h : HoldsText stop n front arr) :
    arr.take (min front.length (n - 1)) = front.take (n - 1) := by
  obtain ⟨-, rest, heq⟩ := h
  have hle : min front.length (n - 1) ≤ (front.take (n - 1)).length :=
    Nat.le_of_eq (by rw [length_take, Nat.min_comm])
  -- what ends the text is behind these places
  rw [heq, take_append_of_le_length hle, take_take]
  rcases Nat.le_total front.length (n - 1) with hle | hle
  · rw [Nat.min_eq_left hle, Nat.min_eq_left hle, take_length, take_of_length_le hle]
  · rw [Nat.min_eq_right hle, Nat.min_self]

/-- A text in the rest of the array continues the text in front of it. -/
theorem HoldsText.append (hn : 0 < n) (h : HoldsText stop n front arr) {suffix : List α}
    (hsuffix : HoldsText stop (n - min front.length (n - 1)) text suffix) :
    HoldsText stop n (front ++ text) (arr.take (min front.length (n - 1)) ++ suffix) := by
  obtain ⟨hlen, rest, heq⟩ := hsuffix
  have hcut : n - min front.length (n - 1) - 1 = n - 1 - front.length := by omega
  refine ⟨?_, rest, ?_⟩
  · rw [length_append, length_take, hlen, h.1]
    omega
  · rw [h.take_eq, heq, hcut, take_append, append_assoc]

theorem printAt_zero (stop : α) {n : Nat} {arr : List α} (hn : 0 < n) (harr : arr.length = n)
    (text : List α) :
    ∃ arr', printAt stop 0 text arr = some arr' ∧ HoldsText stop n text arr' := by
  have hne : 0 ≠ arr.length := by omega
  have hfits : (text.take (n - 1) ++ [stop]).length ≤ n := by
    rw [length_append, length_take, length_singleton]
    omega
  refine ⟨_, by rw [printAt, if_neg (Nat.not_lt_zero _), if_neg hne], ?_, ?_⟩
  · rw [length_store, harr]
    rw [Nat.zero_add, harr, Nat.sub_zero]
    exact hfits
  · rw [harr, Nat.sub_zero, store, take_zero, nil_append, overwrite, append_assoc]
    exact ⟨_, rfl⟩

/-- The next text continues the one that is there. -/
theorem HoldsText.printAt (hn : 0 < n) (h : HoldsText stop n front arr) (hfits : front.length ≤ n)
    (text : List α) : ∃ arr', printAt stop front.length text arr = some arr' ∧
      HoldsText stop n (front ++ text) arr' := by
  have hin : ¬ arr.length < front.length := by rw [h.1]; exact Nat.not_lt.2 hfits
  by_cases hend : front.length = n
  · -- there is no room, and the text in front is cut already
    refine ⟨arr, by rw [List.printAt, if_neg hin, if_pos (hend.trans h.1.symm)], h.1, ?_⟩
    obtain ⟨-, rest, heq⟩ := h
    refine ⟨rest, ?_⟩
    rw [take_append_of_le_length (by omega)]
    exact heq
  · have hlt : front.length ≤ n - 1 := by omega
    have hmin : min front.length (n - 1) = front.length := Nat.min_eq_left hlt
    refine ⟨_, by rw [List.printAt, if_neg hin, if_neg (h.1 ▸ hend)], ?_⟩
    have hrest : (arr.drop front.length).length = n - front.length := by
      rw [length_drop, h.1]
    obtain ⟨suffix, hprint, hsuffix⟩ :=
      printAt_zero stop (Nat.sub_pos_of_lt (by omega)) hrest text
    -- in the rest of the array it is printed from the start on
    have hstore : store front.length (text.take (arr.length - front.length - 1) ++ [stop]) arr =
        arr.take (min front.length (n - 1)) ++ suffix := by
      rw [List.printAt, if_neg (Nat.not_lt_zero _), if_neg (by omega), hrest] at hprint
      rw [← Option.some.inj hprint, hmin, h.1, store, store, take_zero, nil_append, drop_zero,
        Nat.sub_zero]
    rw [hstore]
    exact h.append hn (hmin.symm ▸ hsuffix)

theorem printAt_eq_none (hlong : arr.length < front.length) (text : List α) :
    List.printAt stop front.length text arr = none := if_pos hlong

/-! ## Texts one behind the other -/

theorem dropLast_flatten_cons {text : List α} {texts : List (List α)} (h : texts ≠ []) :
    (text :: texts).dropLast.flatten.length = text.length + texts.dropLast.flatten.length := by
  rw [dropLast_cons_of_ne_nil h, flatten_cons, length_append]

theorem HoldsText.printAll (hn : 0 < n) {texts : List (List α)} (h : HoldsText stop n front arr)
    (hfits : texts ≠ [] → front.length + texts.dropLast.flatten.length ≤ n) :
    ∃ arr', List.printAll stop front.length texts arr = some arr' ∧
      HoldsText stop n (front ++ texts.flatten) arr' := by
  induction texts generalizing front arr with
  | nil => exact ⟨arr, rfl, by rwa [flatten_nil, append_nil]⟩
  | cons text texts ih =>
      -- the texts before the last are inside, so this one begins inside
      have hle := hfits (cons_ne_nil _ _)
      obtain ⟨arr', hprint, h'⟩ := h.printAt hn (Nat.le_trans (Nat.le_add_right _ _) hle) text
      rw [List.printAll, hprint, Option.bind_some, ← length_append, flatten_cons, ← append_assoc]
      refine ih h' fun hne => ?_
      rw [dropLast_flatten_cons hne] at hle
      rw [length_append]
      omega

theorem HoldsText.printAll_eq_none (hn : 0 < n) {texts : List (List α)}
    (h : HoldsText stop n front arr) (hne : texts ≠ [])
    (hlong : n < front.length + texts.dropLast.flatten.length) :
    List.printAll stop front.length texts arr = none := by
  induction texts generalizing front arr with
  | nil => exact absurd rfl hne
  | cons text texts ih =>
      rw [List.printAll]
      rcases Nat.lt_or_ge n front.length with hlt | hge
      · rw [printAt_eq_none (h.1.symm ▸ hlt), Option.bind_none]
      · obtain ⟨arr', hprint, h'⟩ := h.printAt hn hge text
        rw [hprint, Option.bind_some, ← length_append]
        cases texts with
        | nil =>
            -- the only text begins inside
            rw [dropLast_singleton, flatten_nil, length_nil] at hlong
            omega
        | cons next texts =>
            refine ih h' (cons_ne_nil _ _) ?_
            rw [dropLast_flatten_cons (cons_ne_nil _ _)] at hlong
            rw [length_append]
            omega

/-- From the start of the array, whatever is in it. -/
theorem printAll_holdsText (stop : α) {n : Nat} {arr : List α} (hn : 0 < n)
    (harr : arr.length = n) {texts : List (List α)} (hne : texts ≠ [])
    (hfits : texts.dropLast.flatten.length ≤ n) :
    ∃ arr', List.printAll stop 0 texts arr = some arr' ∧ HoldsText stop n texts.flatten arr' := by
  cases texts with
  | nil => exact absurd rfl hne
  | cons text texts =>
      obtain ⟨arr', hprint, h⟩ := printAt_zero stop hn harr text
      rw [List.printAll, hprint, Option.bind_some, Nat.zero_add, flatten_cons]
      refine h.printAll hn fun hne => ?_
      rwa [dropLast_flatten_cons hne] at hfits

theorem printAll_eq_none (stop : α) {n : Nat} {arr : List α} (hn : 0 < n)
    (harr : arr.length = n) {texts : List (List α)}
    (hlong : n < texts.dropLast.flatten.length) : List.printAll stop 0 texts arr = none := by
  cases texts with
  | nil => cases hlong
  | cons text texts =>
      obtain ⟨arr', hprint, h⟩ := printAt_zero stop hn harr text
      rw [List.printAll, hprint, Option.bind_some, Nat.zero_add]
      cases texts with
      | nil => cases hlong
      | cons next texts =>
          rw [dropLast_flatten_cons (cons_ne_nil _ _)] at hlong
          exact h.printAll_eq_none hn (cons_ne_nil _ _) hlong

end List
