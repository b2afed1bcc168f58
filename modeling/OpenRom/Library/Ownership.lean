import OpenRom.Library.Descriptors

/-!
# Descriptors that are owned

What a part of a program has opened and not closed, compared with the table it started with. All
that it owns was free at the start, and nothing else has changed (`Owned`). A new descriptor has a
number that is at most the number of descriptors in use (`lowest_le_count`), so that numbers do not
grow with what has been opened and closed on the way.
-/

set_option autoImplicit false

namespace Descriptors

variable {d start : Descriptors}

/-! ## Descriptors in use -/

/-- The number of descriptors in use. -/
def count (d : Descriptors) : Nat := d.slots.countP Option.isSome

theorem findIdx_isNone_le_countP (slots : List (Option Nat)) :
    slots.findIdx Option.isNone ≤ slots.countP Option.isSome := by
  induction slots with
  | nil => exact Nat.le_refl _
  | cons slot slots ih =>
      cases slot with
      | none => simp [List.findIdx_cons]
      | some id => simpa [List.findIdx_cons] using ih

/-- All numbers below the lowest free one are in use. -/
theorem lowest_le_count : d.lowest ≤ d.count := findIdx_isNone_le_countP d.slots

theorem countP_set_some {slots : List (Option Nat)} {fd id : Nat} (hlt : fd < slots.length)
    (hfree : slots[fd]?.join = none) :
    (slots.set fd (some id)).countP Option.isSome = slots.countP Option.isSome + 1 := by
  induction slots generalizing fd with
  | nil => exact absurd hlt (Nat.not_lt_zero fd)
  | cons slot slots ih =>
      cases fd with
      | zero =>
          obtain rfl : slot = none := by simpa using hfree
          simp
      | succ fd =>
          have hrest := ih (Nat.lt_of_succ_lt_succ hlt) (by simpa using hfree)
          rw [List.set_cons_succ, List.countP_cons, List.countP_cons, hrest]
          exact Nat.add_right_comm _ _ _

theorem countP_set_none {slots : List (Option Nat)} {fd : Nat}
    (hopen : (slots[fd]?.join).isSome) :
    (slots.set fd none).countP Option.isSome + 1 = slots.countP Option.isSome := by
  induction slots generalizing fd with
  | nil => simp at hopen
  | cons slot slots ih =>
      cases fd with
      | zero =>
          have hslot : slot.isSome := by simpa using hopen
          simp [hslot]
      | succ fd =>
          have hrest := ih (by simpa using hopen)
          rw [List.set_cons_succ, List.countP_cons, List.countP_cons, ← hrest]
          exact Nat.add_right_comm _ _ _

theorem count_alloc : d.alloc.count = d.count + 1 := by
  unfold count alloc
  by_cases hlt : d.lowest < d.slots.length
  · rw [if_pos hlt]
    exact countP_set_some hlt entry_lowest
  · rw [if_neg hlt, List.countP_append]
    rfl

theorem count_close {fd : Nat} (h : (d.entry fd).isSome) : (d.close fd).count + 1 = d.count :=
  countP_set_none h

/-! ## What is owned -/

/-- The descriptors that are held, all of them open, are what there is more than at the start. -/
structure Owned (start d : Descriptors) (held : List Nat) : Prop where
  nodup : held.Nodup
  isOpen : ∀ fd ∈ held, (d.entry fd).isSome
  isNew : ∀ fd ∈ held, start.entry fd = none
  frame : ∀ fd, fd ∉ held → d.entry fd = start.entry fd
  count : d.count = start.count + held.length

namespace Owned

variable {held : List Nat}

theorem refl (d : Descriptors) : Owned d d [] where
  nodup := List.nodup_nil
  isOpen := List.forall_mem_nil _
  isNew := List.forall_mem_nil _
  frame _ _ := rfl
  count := rfl

theorem perm {held' : List Nat} (h : Owned start d held) (hheld : held.Perm held') :
    Owned start d held' where
  nodup := hheld.nodup_iff.1 h.nodup
  isOpen fd hfd := h.isOpen fd (hheld.mem_iff.2 hfd)
  isNew fd hfd := h.isNew fd (hheld.mem_iff.2 hfd)
  frame fd hfd := h.frame fd fun hmem => hfd (hheld.mem_iff.1 hmem)
  count := by rw [h.count, hheld.length_eq]

theorem lowest_not_mem (h : Owned start d held) : d.lowest ∉ held :=
  fun hmem => ne_lowest (h.isOpen _ hmem) rfl

theorem lowest_le (h : Owned start d held) : d.lowest ≤ start.count + held.length :=
  h.count ▸ lowest_le_count

/-- A descriptor is opened and kept. -/
theorem alloc (h : Owned start d held) : Owned start d.alloc (d.lowest :: held) where
  nodup := List.nodup_cons.2 ⟨h.lowest_not_mem, h.nodup⟩
  isOpen := by
    refine List.forall_mem_cons.2 ⟨by simp, fun fd hfd => ?_⟩
    rw [entry_alloc_of_ne fun heq => h.lowest_not_mem (heq ▸ hfd)]
    exact h.isOpen fd hfd
  isNew := by
    refine List.forall_mem_cons.2 ⟨?_, h.isNew⟩
    rw [← h.frame _ h.lowest_not_mem]
    exact entry_lowest
  frame fd hfd := by
    obtain ⟨hne, hfd⟩ := not_or.1 (mt List.mem_cons.2 hfd)
    rw [entry_alloc_of_ne hne]
    exact h.frame fd hfd
  count := by
    rw [count_alloc, h.count]
    rfl

/-- A descriptor that is held is closed. -/
theorem close {fd : Nat} (h : Owned start d (fd :: held)) : Owned start (d.close fd) held := by
  obtain ⟨hfd, hnodup⟩ := List.nodup_cons.1 h.nodup
  have hne : ∀ fd' ∈ held, fd' ≠ fd := fun fd' hfd' heq => hfd (heq ▸ hfd')
  have hcount := h.count
  rw [← count_close (h.isOpen fd List.mem_cons_self)] at hcount
  refine ⟨hnodup, fun fd' hfd' => ?_, fun fd' hfd' => h.isNew fd' (List.mem_cons_of_mem _ hfd'),
    fun fd' hfd' => ?_, Nat.succ.inj hcount⟩
  · rw [entry_close_of_ne (hne fd' hfd')]
    exact h.isOpen fd' (List.mem_cons_of_mem _ hfd')
  · by_cases heq : fd' = fd
    · rw [heq, entry_close_self, h.isNew fd List.mem_cons_self]
    · rw [entry_close_of_ne heq]
      exact h.frame fd' fun hmem => (List.mem_cons.1 hmem).elim heq hfd'

/-- A descriptor is opened and closed again. -/
theorem drop (h : Owned start d held) : Owned start (d.alloc.close d.lowest) held := h.alloc.close

end Owned

end Descriptors
