/-!
# Descriptor tables

The descriptors of a process: what a number stands for, and the numbers that are free. A new
descriptor gets the lowest free number. What the numbers stand for are identities that are used
once, so that a number that is closed and given out again stands for something else
(`entry_alloc_self`, `Used`).
-/

set_option autoImplicit false

/-- A table of descriptors. The identities from `next` on have not been used. -/
structure Descriptors where
  slots : List (Option Nat)
  next : Nat
  deriving DecidableEq, Repr

namespace Descriptors

/-- What a number stands for. -/
def entry (d : Descriptors) (fd : Nat) : Option Nat := d.slots[fd]?.join

/-- The lowest number that is free. -/
def lowest (d : Descriptors) : Nat := d.slots.findIdx Option.isNone

/-- The table with a new descriptor, at the lowest free number. -/
def alloc (d : Descriptors) : Descriptors where
  slots := if d.lowest < d.slots.length then d.slots.set d.lowest (some d.next)
    else d.slots ++ [some d.next]
  next := d.next + 1

def close (d : Descriptors) (fd : Nat) : Descriptors := { d with slots := d.slots.set fd none }

/-- The identities in use have been used. -/
def Used (d : Descriptors) : Prop := ∀ fd id, d.entry fd = some id → id < d.next

variable {d : Descriptors}

theorem lowest_le_length : d.lowest ≤ d.slots.length := List.findIdx_le_length

theorem entry_lowest : d.entry d.lowest = none := by
  unfold Descriptors.entry
  by_cases hlt : d.lowest < d.slots.length
  · have hfree : d.slots[d.lowest].isNone := List.findIdx_getElem
    rw [List.getElem?_eq_getElem hlt]
    exact Option.isNone_iff_eq_none.1 hfree
  · rw [List.getElem?_eq_none (Nat.le_of_not_lt hlt)]
    rfl

@[simp] theorem entry_alloc_self : d.alloc.entry d.lowest = some d.next := by
  unfold alloc Descriptors.entry
  by_cases hlt : d.lowest < d.slots.length
  · simp [hlt]
  · have hlen : d.lowest = d.slots.length := Nat.le_antisymm lowest_le_length (Nat.le_of_not_lt hlt)
    simp [hlen]

theorem entry_alloc_of_ne {fd : Nat} (h : fd ≠ d.lowest) : d.alloc.entry fd = d.entry fd := by
  unfold alloc Descriptors.entry
  by_cases hlt : d.lowest < d.slots.length
  · simp [hlt, List.getElem?_set_ne (Ne.symm h)]
  · have hlen : d.lowest = d.slots.length := Nat.le_antisymm lowest_le_length (Nat.le_of_not_lt hlt)
    rw [if_neg hlt]
    rcases Nat.lt_or_gt_of_ne (hlen ▸ h) with hin | hout
    · rw [List.getElem?_append_left hin]
    · rw [List.getElem?_eq_none (by rw [List.length_append, List.length_singleton]; omega),
        List.getElem?_eq_none (by omega)]

@[simp] theorem entry_close_self {fd : Nat} : (d.close fd).entry fd = none := by
  unfold close Descriptors.entry
  by_cases hlt : fd < d.slots.length
  · simp [hlt]
  · rw [List.getElem?_eq_none (by rw [List.length_set]; omega)]
    rfl

theorem entry_close_of_ne {fd fd' : Nat} (h : fd' ≠ fd) : (d.close fd).entry fd' = d.entry fd' := by
  unfold close Descriptors.entry
  rw [List.getElem?_set_ne (Ne.symm h)]

/-- What is open is not what is given out next. -/
theorem ne_lowest {fd : Nat} (h : (d.entry fd).isSome) : fd ≠ d.lowest := by
  rintro rfl
  rw [entry_lowest] at h
  exact Bool.false_ne_true h

/-- A descriptor that is closed at once leaves no trace. -/
theorem entry_close_alloc (fd : Nat) : (d.alloc.close d.lowest).entry fd = d.entry fd := by
  by_cases h : fd = d.lowest
  · rw [h, entry_close_self, entry_lowest]
  · rw [entry_close_of_ne h, entry_alloc_of_ne h]

theorem Used.alloc (hd : d.Used) : d.alloc.Used := by
  intro fd id h
  by_cases hfd : fd = d.lowest
  · rw [hfd, entry_alloc_self] at h
    cases h
    exact Nat.lt_succ_self _
  · rw [entry_alloc_of_ne hfd] at h
    exact Nat.lt_succ_of_lt (hd fd id h)

theorem Used.close (hd : d.Used) (fd : Nat) : (d.close fd).Used := by
  intro fd' id h
  by_cases hfd : fd' = fd
  · rw [hfd, entry_close_self] at h
    cases h
  · rw [entry_close_of_ne hfd] at h
    exact hd fd' id h

end Descriptors
