import OpenRom.Pack.Unpack

/-!
# The unpacker always halts

Every turn of the machine lowers `Machine.measure`: it takes at least one byte of the source, or it
leaves `handle_offset_count` without taking any. So the fuel of `unpack` is never used up, and the
outcome of a call is the one the fuel-free relation `Loop.Ends` gives (`unpack_eq_iff`).
-/

set_option autoImplicit false

namespace OpenRom.Pack

/-- Two for each byte left, and one for the label that may take none. -/
def Machine.measure (m : Machine) : Nat :=
  2 * m.src.rest.length + if m.label = .handleOffsetCount then 1 else 0

theorem Cursor.length_next {c c' : Cursor} {b : UInt8} (h : c.next = some (b, c')) :
    c'.rest.length < c.rest.length := by
  obtain ⟨passed, rest⟩ := c
  cases rest with
  | nil => simp [Cursor.next] at h
  | cons a rest =>
      simp only [Cursor.next, Option.some.injEq, Prod.mk.injEq] at h
      obtain ⟨-, rfl⟩ := h
      simp

theorem Cursor.length_next16 {c c' : Cursor} {n : Nat} (h : c.next16 = some (n, c')) :
    c'.rest.length < c.rest.length := by
  obtain ⟨passed, rest⟩ := c
  match rest with
  | [] => simp [Cursor.next16] at h
  | [a] => simp [Cursor.next16] at h
  | a :: b :: rest =>
      simp only [Cursor.next16, Option.some.injEq, Prod.mk.injEq] at h
      obtain ⟨-, rfl⟩ := h
      simp only [List.length_cons]
      omega

theorem length_copyIn {n : Nat} {c c' : Cursor} {dst dst' : List UInt8}
    (h : copyIn n c dst = some (c', dst')) : c'.rest.length ≤ c.rest.length := by
  induction n generalizing c dst with
  | zero =>
      simp only [copyIn, Option.some.injEq, Prod.mk.injEq] at h
      exact Nat.le_of_eq (by rw [h.1])
  | succ n ih =>
      unfold copyIn at h
      split at h
      · cases h
      · next b c₁ hn => exact Nat.le_trans (ih h) (Nat.le_of_lt (Cursor.length_next hn))

theorem length_extendCount {mask acc n : Nat} {passed rest : List UInt8} {c' : Cursor}
    (h : extendCount mask acc passed rest = some (n, c')) : c'.rest.length ≤ rest.length := by
  induction rest generalizing acc passed with
  | nil => simp [extendCount] at h
  | cons b rest ih =>
      unfold extendCount at h
      split at h
      · exact Nat.le_trans (ih h) (by simp)
      · simp only [Option.some.injEq, Prod.mk.injEq] at h
        rw [← h.2]
        simp

theorem length_handleCount {acc mask n : Nat} {c c' : Cursor}
    (h : handleCount acc mask c = some (n, c')) : c'.rest.length ≤ c.rest.length := by
  unfold handleCount at h
  split at h
  · exact length_extendCount h
  · simp only [Option.some.injEq, Prod.mk.injEq] at h
    exact Nat.le_of_eq (by rw [h.2])

section Labels

variable {c : Cursor} {dst : List UInt8} {m' : Machine}

theorem measure_try00to0FStandard (h : try00to0FStandard c dst = some (.again m')) :
    m'.measure < 2 * c.rest.length := by
  simp only [try00to0FStandard, Option.bind_eq_bind, Option.bind_eq_some_iff, Prod.exists] at h
  obtain ⟨code, c₁, h₁, h⟩ := h
  -- the command byte is taken
  have hlt := Cursor.length_next h₁
  split at h
  · cases h
    simp only [Machine.measure, reduceCtorEq, if_false]
    omega
  · simp only [Option.bind_eq_some_iff, Prod.exists] at h
    obtain ⟨count, c₂, h₂, c₃, dst₃, h₃, h⟩ := h
    have hle₂ := length_handleCount h₂
    have hle₃ := length_copyIn h₃
    cases h
    simp only [Machine.measure, reduceCtorEq, if_false]
    omega

theorem measure_try00to0FAlternative (h : try00to0FAlternative c dst = some (.again m')) :
    m'.measure < 2 * c.rest.length := by
  simp only [try00to0FAlternative, Option.bind_eq_bind, Option.bind_eq_some_iff, Prod.exists] at h
  obtain ⟨code, c₁, h₁, h⟩ := h
  have hlt := Cursor.length_next h₁
  split at h
  · cases h
    simp only [Machine.measure, reduceCtorEq, if_false]
    omega
  · simp only [Option.bind_eq_some_iff, Prod.exists] at h
    obtain ⟨b, c₂, h₂, dst₂, h₃, h⟩ := h
    -- two bytes are taken, which pays for `handle_offset_count`
    have hlt₂ := Cursor.length_next h₂
    cases h
    simp only [Machine.measure, if_true]
    omega

theorem measure_handleOffsetCount (h : handleOffsetCount c dst = some (.again m')) :
    m'.measure < 2 * c.rest.length + 1 := by
  simp only [handleOffsetCount, Option.bind_eq_bind, Option.bind_eq_some_iff] at h
  obtain ⟨b, -, h⟩ := h
  split at h
  · -- no literals, and no byte is taken: the label is what counts
    cases h
    simp only [Machine.measure, reduceCtorEq, if_false]
    omega
  · simp only [Option.bind_eq_some_iff, Prod.exists] at h
    obtain ⟨c₁, dst₁, h₁, code, c₂, h₂, h⟩ := h
    have hle₁ := length_copyIn h₁
    have hlt₂ := Cursor.length_next h₂
    cases h
    simp only [Machine.measure, reduceCtorEq, if_false]
    omega

theorem measure_tryStandard {code : Nat} (h : tryStandard code c dst = some (.again m')) :
    m'.measure < 2 * c.rest.length := by
  unfold tryStandard at h
  split at h
  · simp only [Option.bind_eq_bind, Option.bind_eq_some_iff, Prod.exists] at h
    obtain ⟨b, c₁, h₁, dst₁, -, h⟩ := h
    have hlt := Cursor.length_next h₁
    cases h
    simp only [Machine.measure, if_true]
    omega
  split at h
  · simp only [Option.bind_eq_bind, Option.bind_eq_some_iff, Prod.exists] at h
    obtain ⟨count, c₁, h₁, off, c₂, h₂, dst₂, -, h⟩ := h
    have hle := length_handleCount h₁
    have hlt := Cursor.length_next16 h₂
    cases h
    simp only [Machine.measure, if_true]
    omega
  split at h
  · cases h
  · simp only [Option.bind_eq_bind, Option.bind_eq_some_iff, Prod.exists] at h
    obtain ⟨count, c₁, h₁, off, c₂, h₂, h⟩ := h
    have hle := length_handleCount h₁
    have hlt := Cursor.length_next16 h₂
    split at h
    · cases h
    · simp only [Option.bind_eq_some_iff] at h
      obtain ⟨dst₂, -, h⟩ := h
      cases h
      simp only [Machine.measure, if_true]
      omega

end Labels

/-- Every turn that goes on lowers the measure. -/
theorem Machine.measure_turn_lt (m m' : Machine) (h : m.turn = .again m') :
    m'.measure < m.measure := by
  obtain ⟨label, c, dst⟩ := m
  have he : (⟨label, c, dst⟩ : Machine).exec = some (.again m') := by
    cases hx : (⟨label, c, dst⟩ : Machine).exec with
    | none => simp [Machine.turn, hx] at h
    | some t => simpa [Machine.turn, hx] using h
  cases label with
  | try00to0FStandard => simpa [Machine.measure] using measure_try00to0FStandard he
  | try00to0FAlternative => simpa [Machine.measure] using measure_try00to0FAlternative he
  | handleOffsetCount => simpa [Machine.measure] using measure_handleOffsetCount he
  | tryStandard code => simpa [Machine.measure] using measure_tryStandard he

theorem measure_enter {src : List UInt8} {m : Machine} (h : enter src = some m) :
    m.measure < 2 * src.length + 2 := by
  simp only [enter, Option.bind_eq_bind, Option.bind_eq_some_iff] at h
  obtain ⟨b, hb, h⟩ := h
  have hlen : src.tail.length ≤ src.length := by simp
  split at h
  · simp only [Option.bind_eq_some_iff, Prod.exists] at h
    obtain ⟨c, dst, h₁, h⟩ := h
    have hle := length_copyIn h₁
    simp only at hle
    split at h <;> cases h <;> simp only [Machine.measure, reduceCtorEq, if_false] <;> omega
  · cases h
    simp only [Machine.measure, reduceCtorEq, if_false]
    omega

/-- A call returns what the machine halts with. -/
theorem unpack_eq_iff (src : List UInt8) (r : Written) :
    unpack src = .returned r ↔
      ∃ m, enter src = some m ∧ Loop.Ends Machine.turn m (.returned r) := by
  unfold unpack
  cases he : enter src with
  | none => simp
  | some m =>
      have hm := measure_enter he
      obtain ⟨o, ho⟩ := Loop.exists_ends Machine.measure_turn_lt m
      have hrun := Loop.run_of_ends Machine.measure_turn_lt ho _ hm
      simp only [hrun, Option.getD_some, Option.some.injEq, exists_eq_left']
      constructor
      · rintro rfl
        exact ho
      · exact fun h => ho.unique h

end OpenRom.Pack
