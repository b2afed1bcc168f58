/-!
# Objects in memory

An object is the list of its values. A load or a store behind its end has no result, and neither
has a loop that comes to one. `foldTo_eq` and `updateFrom_eq` say what the loops compute, and that
they have a result exactly when all they touch lies in the object.
-/

set_option autoImplicit false

namespace Object

universe u

variable {α β : Type u}

def load (object : List α) (i : Nat) : Option α := object[i]?

def store (i : Nat) (a : α) (object : List α) : Option (List α) :=
  if i < object.length then some (object.set i a) else none

/-- The loop that goes through the first `n` values with an accumulator. -/
def foldTo (f : β → α → β) (b : β) (object : List α) : Nat → Option β
  | 0 => some b
  | n + 1 => do
      let acc ← foldTo f b object n
      let a ← load object n
      return f acc a

/-- The loop that replaces `n` values from an offset on. -/
def updateFrom (f : α → α) (offset : Nat) (object : List α) : Nat → Option (List α)
  | 0 => some object
  | n + 1 => do
      let object ← updateFrom f offset object n
      let a ← load object (offset + n)
      store (offset + n) (f a) object

theorem foldTo_eq (f : β → α → β) (b : β) (object : List α) (n : Nat) :
    foldTo f b object n =
      if n ≤ object.length then some ((object.take n).foldl f b) else none := by
  induction n with
  | zero => rfl
  | succ n ih =>
      rw [foldTo, ih, load]
      by_cases hn : n < object.length
      · have hle : n ≤ object.length := Nat.le_of_lt hn
        rw [if_pos hle, if_pos (Nat.succ_le_of_lt hn), List.take_succ_eq_append_getElem hn,
          List.foldl_append, List.getElem?_eq_getElem hn]
        rfl
      · have hnone : object[n]? = none := List.getElem?_eq_none (Nat.not_lt.1 hn)
        rw [if_neg (fun hle => hn (Nat.lt_of_succ_le hle)), hnone]
        split <;> rfl

/-- The object with `n` values from an offset on replaced. -/
def updated (f : α → α) (offset n : Nat) (object : List α) : List α :=
  object.take offset ++ (((object.drop offset).take n).map f ++ object.drop (offset + n))

theorem getElem?_updated (f : α → α) {offset n : Nat} {object : List α}
    (h : offset + n ≤ object.length) (i : Nat) :
    (updated f offset n object)[i]? =
      if offset ≤ i ∧ i < offset + n then object[i]?.map f else object[i]? := by
  have htake : (object.take offset).length = offset := by
    rw [List.length_take]
    omega
  have hmap : (((object.drop offset).take n).map f).length = n := by
    rw [List.length_map, List.length_take, List.length_drop]
    omega
  rw [updated, List.getElem?_append, htake]
  by_cases hlow : i < offset
  · rw [if_pos hlow, if_neg (by omega), List.getElem?_take, if_pos hlow]
  rw [if_neg hlow, List.getElem?_append, hmap]
  by_cases hin : i - offset < n
  · have hsum : offset + (i - offset) = i := by omega
    rw [if_pos hin, if_pos (by omega), List.getElem?_map, List.getElem?_take, if_pos hin,
      List.getElem?_drop, hsum]
  · have hsum : offset + n + (i - offset - n) = i := by omega
    rw [if_neg hin, if_neg (by omega), List.getElem?_drop, hsum]

/-- One more value is replaced by a load and a store. -/
theorem set_updated (f : α → α) {offset n : Nat} {object : List α}
    (h : offset + n < object.length) :
    (updated f offset n object).set (offset + n) (f object[offset + n]) =
      updated f offset (n + 1) object := by
  refine List.ext_getElem? fun i => ?_
  have hget := getElem?_updated f (Nat.le_of_lt h) i
  rw [getElem?_updated f (Nat.succ_le_of_lt h) i, List.getElem?_set]
  by_cases hi : offset + n = i
  · subst hi
    have hlen : offset + n < (updated f offset n object).length := by
      rw [if_neg (by omega), List.getElem?_eq_getElem h] at hget
      exact (List.getElem?_eq_some_iff.1 hget).1
    rw [if_pos rfl, if_pos hlen, if_pos (by omega), List.getElem?_eq_getElem h]
    rfl
  · rw [if_neg hi, hget]
    by_cases hin : offset ≤ i ∧ i < offset + n
    · rw [if_pos hin, if_pos (by omega)]
    · rw [if_neg hin, if_neg (by omega)]

theorem updateFrom_eq (f : α → α) {offset : Nat} {object : List α} (h : offset ≤ object.length)
    (n : Nat) :
    updateFrom f offset object n =
      if offset + n ≤ object.length then some (updated f offset n object) else none := by
  induction n with
  | zero => rw [if_pos (by omega), updateFrom, updated]; simp
  | succ n ih =>
      rw [updateFrom, ih]
      by_cases hn : offset + n < object.length
      · have hget : (updated f offset n object)[offset + n]? = some object[offset + n] := by
          rw [getElem?_updated f (Nat.le_of_lt hn), if_neg (by omega),
            List.getElem?_eq_getElem hn]
        have hlen := (List.getElem?_eq_some_iff.1 hget).1
        rw [if_pos (Nat.le_of_lt hn), if_pos (by omega)]
        simp only [load, hget, store, if_pos hlen, set_updated f hn, Option.bind_eq_bind,
          Option.bind_some]
      · rw [if_neg (by omega : ¬ offset + (n + 1) ≤ object.length)]
        by_cases hle : offset + n ≤ object.length
        · -- the loop has come to the end of the object
          have hnone : (updated f offset n object)[offset + n]? = none := by
            rw [getElem?_updated f hle, if_neg (by omega),
              List.getElem?_eq_none (Nat.not_lt.1 hn)]
          simp only [if_pos hle, load, hnone, Option.bind_eq_bind, Option.bind_some,
            Option.bind_none]
        · simp only [if_neg hle, Option.bind_eq_bind, Option.bind_none]

end Object
