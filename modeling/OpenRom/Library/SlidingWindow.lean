/-!
# Copies from a growing output

A decompressor writes its output front to back and copies earlier parts of it. `copyBack d n out`
appends `n` elements to `out`, each equal to the one `d` places before it, so that a copy may reach
into what it has just written. There is no result when the first source element would lie before
the output, or at its end.
-/

set_option autoImplicit false

namespace SlidingWindow

universe u

variable {α : Type u}

/-- Append `n` elements, each the one `d` places before its own. -/
def copyBack (d : Nat) : Nat → List α → Option (List α)
  | 0, out => some out
  | n + 1, out =>
      if d ≤ out.length then
        match out[out.length - d]? with
        | none => none
        | some a => copyBack d n (out ++ [a])
      else none

/-- A copy that starts before the output has no result. -/
theorem copyBack_of_lt {d n : Nat} {out : List α} (h : out.length < d) :
    copyBack d (n + 1) out = none := by
  rw [copyBack, if_neg (by omega)]

theorem copyBack_succ {d n : Nat} {out : List α} {a : α} (h : d ≤ out.length)
    (ha : out[out.length - d]? = some a) :
    copyBack d (n + 1) out = copyBack d n (out ++ [a]) := by
  rw [copyBack, if_pos h, ha]

theorem length_copyBack {d n : Nat} {out out' : List α} (h : copyBack d n out = some out') :
    out'.length = out.length + n := by
  induction n generalizing out with
  | zero =>
      cases h
      rfl
  | succ n ih =>
      by_cases hd : d ≤ out.length
      · cases ha : out[out.length - d]? with
        | none =>
            rw [copyBack, if_pos hd, ha] at h
            cases h
        | some a =>
            rw [copyBack_succ hd ha] at h
            rw [ih h, List.length_append, List.length_singleton]
            omega
      · rw [copyBack_of_lt (by omega)] at h
        cases h

/-- A copy has a result if it starts inside the output, or copies nothing. -/
theorem isSome_copyBack {d : Nat} (hd : 1 ≤ d) (n : Nat) (out : List α) :
    (copyBack d n out).isSome ↔ n = 0 ∨ d ≤ out.length := by
  induction n generalizing out with
  | zero => exact iff_of_true rfl (Or.inl rfl)
  | succ n ih =>
      by_cases h : d ≤ out.length
      · -- the distance is inside the longer output again
        have hget := List.getElem?_eq_getElem (l := out) (show out.length - d < out.length by omega)
        have hlen : (out ++ [out[out.length - d]]).length = out.length + 1 := List.length_append
        rw [copyBack_succ h hget, ih, hlen]
        omega
      · rw [copyBack_of_lt (by omega)]
        exact iff_of_false Bool.false_ne_true (by omega)

end SlidingWindow
