/-!
# Overwriting the front of an array

What the front of an array, or the text in it, is after new values have been stored depends on the
old values exactly where these show through (`take_overwrite_iff`, `takeWhile_overwrite_iff`).
-/

set_option autoImplicit false

namespace List

universe u

variable {α : Type u}

/-- The array `old` after `new` has been stored from its start on. -/
def overwrite (new old : List α) : List α := new ++ old.drop new.length

theorem length_overwrite {new old : List α} (h : new.length ≤ old.length) :
    (overwrite new old).length = old.length := by
  rw [overwrite, length_append, length_drop]
  omega

theorem overwrite_nil (old : List α) : overwrite [] old = old := rfl

/-- Old values show through behind the new ones. -/
theorem take_overwrite_iff {new old old' : List α} {n : Nat} :
    (overwrite new old).take n = (overwrite new old').take n ↔
      (old.drop new.length).take (n - new.length) =
        (old'.drop new.length).take (n - new.length) := by
  rw [overwrite, overwrite, take_append, take_append]
  exact append_right_inj _

theorem takeWhile_append_iff {p : α → Bool} {new s t : List α} :
    (new ++ s).takeWhile p = (new ++ t).takeWhile p ↔
      (new.all p = true → s.takeWhile p = t.takeWhile p) := by
  induction new with
  | nil => exact ⟨fun h _ => h, fun h => h rfl⟩
  | cons x new ih =>
      rw [cons_append, cons_append, takeWhile_cons, takeWhile_cons, all_cons]
      cases hx : p x with
      -- the text ends inside `new`, whatever follows
      | false => exact ⟨fun _ h => absurd h Bool.false_ne_true, fun _ => rfl⟩
      | true =>
          rw [if_pos rfl, if_pos rfl, cons_inj_right, ih, Bool.true_and]

/-- Old text shows through behind new text that does not end. -/
theorem takeWhile_overwrite_iff {p : α → Bool} {new old old' : List α} :
    (overwrite new old).takeWhile p = (overwrite new old').takeWhile p ↔
      (new.all p = true →
        (old.drop new.length).takeWhile p = (old'.drop new.length).takeWhile p) :=
  takeWhile_append_iff

end List
