import OpenRom.Protocol.Display
import OpenRom.Protocol.Values

/-!
# Signed fields

`signedType` inherits `Fill` from `unsignedType`: the bytes of a value are put together in an
`uint32_t`, and a fixed value is compared with that. `Print` shows a single value with `%d`, and
anything else as `unsignedType` does. A value is therefore shown, and compared, with its sign only
where all four bytes are there (`signed_iff`).
-/

set_option autoImplicit false

namespace OpenRom

namespace ProtocolDefinition

/-! ## Integers in bytes -/

namespace Width

/-- The integers that a `signedType` of this width is for. -/
def InRange (w : Width) (x : Int) : Prop :=
  -2 ^ (8 * w.bytes - 1) ≤ x ∧ x < 2 ^ (8 * w.bytes - 1)

/-- The bits of an integer in two's complement, as a number. -/
def bitsOf (w : Width) (x : Int) : Nat := (x % 256 ^ w.bytes).toNat

/-- Integers one after the other, each in little-endian order. -/
def encodeAll (w : Width) (xs : List Int) : List UInt8 :=
  xs.flatMap fun x => LittleEndian.encode w.bytes (w.bitsOf x)

theorem bitsOf_lt (w : Width) (x : Int) : w.bitsOf x < 256 ^ w.bytes := by
  cases w <;> simp only [bitsOf, bytes] <;> omega

/-- Without its sign a number is that of a negative integer only if it is too large for one. -/
theorem bitsOf_eq_iff {w : Width} {x : Int} (h : w.InRange x) : (w.bitsOf x : Int) = x ↔ 0 ≤ x := by
  cases w <;> simp only [InRange, bitsOf, bytes] at h ⊢ <;> omega

theorem bmod_bitsOf_iff {w : Width} {x : Int} (h : w.InRange x) :
    Int.bmod (w.bitsOf x) (2 ^ 32) = x ↔ 0 ≤ x ∨ w = .four := by
  have hlt : w.bitsOf x < 2 ^ 32 := by
    have hlt := w.bitsOf_lt x
    cases w <;> simp only [bytes] at hlt <;> omega
  have hemod : (w.bitsOf x : Int) % (2 ^ 32 : Nat) = w.bitsOf x :=
    Int.emod_eq_of_lt (by omega) (by omega)
  rw [Int.bmod_eq_emod, hemod]
  split <;> cases w <;>
    simp only [InRange, bitsOf, bytes, reduceCtorEq, or_true, or_false, iff_true] at * <;> omega

/-- The four bytes of an integer have the bits of the numbers that it is compared with. -/
theorem bitsOf_eq_ofInt_iff {w : Width} {x v : Int} (hx : w.InRange x) (hv : w.InRange v) :
    w.bitsOf x = (UInt32.ofInt v).toNat ↔ x = v ∧ (0 ≤ v ∨ w = .four) := by
  have hofInt : ((UInt32.ofInt v).toNat : Int) = v % 2 ^ 32 := by
    rw [UInt32.ofInt, UInt32.toNat_ofNat_of_lt']
    · exact Int.toNat_of_nonneg (Int.emod_nonneg _ (by decide))
    · show (v % 2 ^ 32).toNat < 2 ^ 32
      omega
  rw [← Int.ofNat_inj, hofInt]
  cases w <;>
    simp only [InRange, bitsOf, bytes, reduceCtorEq, or_true, or_false, and_true] at hx hv ⊢ <;>
    omega

theorem readCells_encodeAll (w : Width) (xs : List Int) (more : List UInt8) :
    readCells w.bytes xs.length (w.encodeAll xs ++ more) = xs.map w.bitsOf := by
  induction xs with
  | nil => rfl
  | cons x xs ih =>
      have hlen : (LittleEndian.encode w.bytes (w.bitsOf x)).length = w.bytes := by simp
      have hdata : w.encodeAll (x :: xs) ++ more =
          LittleEndian.encode w.bytes (w.bitsOf x) ++ (w.encodeAll xs ++ more) := by
        rw [encodeAll, List.flatMap_cons, List.append_assoc]
        rfl
      rw [List.length_cons, readCells, hdata, List.take_left' hlen, List.drop_left' hlen,
        LittleEndian.decode_encode (w.bitsOf_lt x), ih, List.map_cons]

theorem length_encodeAll (w : Width) (xs : List Int) :
    (w.encodeAll xs).length = w.bytes * xs.length := by
  induction xs with
  | nil => rfl
  | cons x xs ih =>
      rw [encodeAll, List.flatMap_cons, List.length_append, LittleEndian.length_encode,
        ← encodeAll, ih, List.length_cons, Nat.mul_succ, Nat.add_comm]

end Width

/-! ## What is shown -/

namespace UnsignedType

/-- In case of non-decimal or enumerations, the source assumes that the user meant unsigned. -/
def MeantUnsigned (t : UnsignedType) : Prop :=
  t.format ≠ .decimal ∨ t.enumeration.isSome ∨ t.count ≠ 1

instance (t : UnsignedType) : Decidable t.MeantUnsigned :=
  inferInstanceAs (Decidable (t.format ≠ .decimal ∨ t.enumeration.isSome ∨ t.count ≠ 1))

/-- The integer that is shown of a value, with `%u` or with `%d`. -/
def shown (t : UnsignedType) (value : Nat) : Int :=
  if t.MeantUnsigned then value else Int.bmod value (2 ^ 32)

/-- The integers that `signedType::Print` shows, as far as the array has them. -/
def printSigned (t : UnsignedType) (cells : List Nat) : List Int :=
  (BuiltinType.shown cells (.signed t)).map t.shown

/-- The integer in the text of `signedType::GetHumanReadableContent`. With several values there is
one only behind the name that an enumeration or an annotation gives to it. -/
def humanReadableSigned (t : UnsignedType) (annotated : Bool) (cells : List Nat) : Option Int :=
  if t.count = 1 ∨ t.enumeration.isSome ∨ annotated then cells.head?.map t.shown else none

theorem shown_bitsOf_iff {t : UnsignedType} {x : Int} (h : t.width.InRange x) :
    t.shown (t.width.bitsOf x) = x ↔ 0 ≤ x ∨ t.width = .four ∧ ¬ t.MeantUnsigned := by
  unfold shown
  by_cases hmeant : t.MeantUnsigned
  · rw [if_pos hmeant, Width.bitsOf_eq_iff h]
    simp [hmeant]
  · rw [if_neg hmeant, Width.bmod_bitsOf_iff h]
    simp [hmeant]

/-- `min_count` asks for more data than there is. -/
def TooLittle (t : UnsignedType) (s : DecodeState) : Prop :=
  t.width.bytes * t.minCount > s.dataLeft

instance (t : UnsignedType) (s : DecodeState) : Decidable (t.TooLittle s) :=
  inferInstanceAs (Decidable (t.width.bytes * t.minCount > s.dataLeft))

/-- `Fill` reads nothing then. -/
theorem fill_of_tooLittle {t : UnsignedType} {s : DecodeState} (h : t.TooLittle s)
    (value : List Nat) : t.fill value s = (0, value) := if_pos h

/-- `Print` goes through the values from the first on. -/
theorem getElem?_printSigned {t : UnsignedType} {n : Nat} (hn : n < t.numPrintedSigned)
    (cells : List Nat) : (t.printSigned cells)[n]? = cells[n]?.map t.shown := by
  have hshown : BuiltinType.shown cells (.signed t) = cells.take t.numPrintedSigned := rfl
  rw [printSigned, hshown, List.getElem?_map, List.getElem?_take, if_pos hn]

end UnsignedType

/-- What is said of a field and a payload: the payload starts with as many integers as the field
counts, in the range of its type. -/
structure HoldsSigned (t : UnsignedType) (xs : List Int) (s : DecodeState) : Prop where
  format : t.format = .decimal
  pos : 1 ≤ t.count
  length : xs.length = t.count
  inRange : ∀ x ∈ xs, t.width.InRange x
  data : ∃ more, s.data = t.width.encodeAll xs ++ more
  dataLeft : s.dataLeft = s.data.length

section Signed

variable {t : UnsignedType} {xs : List Int} {s : DecodeState}

theorem HoldsSigned.fill_eq (h : HoldsSigned t xs s) (hread : ¬ t.TooLittle s) {value : List Nat}
    (hvalue : value.length = t.count) :
    (t.fill value s).2 = xs.map t.width.bitsOf ∧ ∀ v ∈ t.fixedValue,
      (t.fill value s).1 = if xs.head?.map t.width.bitsOf ≠ some v.toNat then -1
        else (t.width.bytes * t.count : Int) := by
  obtain ⟨more, hdata⟩ := h.data
  have hlen : s.data.length = t.width.bytes * t.count + more.length := by
    rw [hdata, List.length_append, Width.length_encodeAll, h.length]
  -- there are as many values as the field counts, or more
  have hnum : min (s.dataLeft.tdiv t.width.bytes) t.count = t.count := by
    have hdiv : t.count ≤ s.data.length / t.width.bytes :=
      (Nat.le_div_iff_mul_le t.width.bytes_pos).2 (by rw [hlen, Nat.mul_comm]; omega)
    have htdiv : s.dataLeft.tdiv t.width.bytes = ((s.data.length / t.width.bytes : Nat) : Int) := by
      rw [h.dataLeft]
      exact Int.ofNat_tdiv _ _
    omega
  have hcells : List.overwrite (readCells t.width.bytes (t.count : Int).toNat s.data) value =
      xs.map t.width.bitsOf := by
    rw [Int.toNat_natCast, overwrite_readCells hvalue, hdata, ← h.length,
      Width.readCells_encodeAll]
  have hguard : ¬ t.width.bytes * t.minCount > s.dataLeft := hread
  rw [UnsignedType.fill, if_neg hguard]
  dsimp only
  rw [hnum, hcells, List.head?_map]
  cases t.fixedValue with
  | none => exact ⟨rfl, nofun⟩
  | some v =>
      dsimp only
      refine ⟨by split <;> rfl, ?_⟩
      rintro _ ⟨⟩
      split <;> rfl

/-- What `Print` shows, and the integer in the text that is made of the field, are the integers of
the payload, whatever the field held before. -/
def ShowsIntegers (t : UnsignedType) (annotated : Bool) (xs : List Int) (s : DecodeState) :
    Prop :=
  ∀ value, value.length = t.count →
    (∀ n < t.numPrintedSigned, ∃ x, xs[n]? = some x ∧
      (t.printSigned (t.fill value s).2)[n]? = some x) ∧
    ∀ x ∈ t.humanReadableSigned annotated (t.fill value s).2, xs.head? = some x

/-- A field with a fixed value, which `ParseNode` stores as an `uint32_t`, takes the payload exactly
when that is its first integer. -/
def AcceptsFixed (t : UnsignedType) (xs : List Int) (s : DecodeState) : Prop :=
  ∀ v, t.width.InRange v → t.fixedValue = some (.ofInt v) → ∀ value, value.length = t.count →
    (0 < (t.fill value s).1 ↔ xs.head? = some v)

/-- The integer at this place is shown. -/
def UnsignedType.ShowsPlace (t : UnsignedType) (annotated : Bool) (n : Nat) : Prop :=
  n < t.numPrintedSigned ∨ n = 0 ∧ (t.count = 1 ∨ t.enumeration.isSome ∨ annotated)

theorem HoldsSigned.head? (h : HoldsSigned t xs s) : ∃ x, xs.head? = some x ∧ xs[0]? = some x ∧
    t.width.InRange x := by
  cases xs with
  | nil =>
      have hlen := h.length
      have hpos := h.pos
      simp only [List.length_nil] at hlen
      omega
  | cons x xs => exact ⟨x, rfl, rfl, h.inRange x List.mem_cons_self⟩

/-- Where the field is read, every integer that is shown has to be shown with its sign. -/
theorem HoldsSigned.showsIntegers_iff (h : HoldsSigned t xs s) (hread : ¬ t.TooLittle s)
    (annotated : Bool) :
    ShowsIntegers t annotated xs s ↔
      t.numPrintedSigned ≤ t.count ∧ ∀ n x, t.ShowsPlace annotated n → xs[n]? = some x →
        0 ≤ x ∨ t.width = .four ∧ ¬ t.MeantUnsigned := by
  have hfill : ∀ {value : List Nat}, value.length = t.count →
      (t.fill value s).2 = xs.map t.width.bitsOf := fun hvalue => (h.fill_eq hread hvalue).1
  obtain ⟨x₀, hhead, hzero, hx₀⟩ := h.head?
  constructor
  · intro hshows
    obtain ⟨hprint, hreadable⟩ := hshows (List.replicate t.count 0) List.length_replicate
    rw [hfill List.length_replicate] at hprint hreadable
    refine ⟨?_, fun n x hplace hx => ?_⟩
    · -- behind the last integer none could be shown
      refine Nat.le_of_not_lt fun hlt => ?_
      obtain ⟨x, hx, -⟩ := hprint t.count hlt
      rw [List.getElem?_eq_none (Nat.le_of_eq h.length)] at hx
      cases hx
    · have hrange := h.inRange x (List.mem_of_getElem? hx)
      rw [← UnsignedType.shown_bitsOf_iff hrange]
      rcases hplace with hn | ⟨rfl, hone⟩
      · obtain ⟨y, hy, hshown⟩ := hprint n hn
        rw [UnsignedType.getElem?_printSigned hn, List.getElem?_map, hx] at hshown
        cases hx.symm.trans hy
        exact Option.some.inj hshown
      · cases hzero.symm.trans hx
        have hshown := hreadable (t.shown (t.width.bitsOf x₀)) (by
          rw [UnsignedType.humanReadableSigned, if_pos hone, List.head?_map, hhead]
          rfl)
        exact (Option.some.inj (hhead.symm.trans hshown)).symm
  · rintro ⟨hle, hall⟩ value hvalue
    rw [hfill hvalue]
    refine ⟨fun n hn => ?_, fun y hy => ?_⟩
    · have hlt : n < xs.length := by rw [h.length]; omega
      have hx : xs[n]? = some xs[n] := List.getElem?_eq_getElem hlt
      refine ⟨xs[n], hx, ?_⟩
      have hshown := (UnsignedType.shown_bitsOf_iff (h.inRange _ (List.getElem_mem hlt))).2
        (hall n _ (Or.inl hn) hx)
      rw [UnsignedType.getElem?_printSigned hn, List.getElem?_map, hx]
      exact congrArg some hshown
    · rw [UnsignedType.humanReadableSigned] at hy
      split at hy
      next hone =>
        have hshown := (UnsignedType.shown_bitsOf_iff hx₀).2 (hall 0 x₀ (Or.inr ⟨rfl, hone⟩) hzero)
        rw [List.head?_map, hhead] at hy
        cases hy
        exact hhead.trans (congrArg some hshown.symm)
      · cases hy

theorem HoldsSigned.acceptsFixed_iff (h : HoldsSigned t xs s) (hread : ¬ t.TooLittle s) :
    AcceptsFixed t xs s ↔ ∀ v, t.width.InRange v → t.fixedValue = some (.ofInt v) →
      xs.head? = some v → 0 ≤ v ∨ t.width = .four := by
  obtain ⟨x₀, hhead, -, hx₀⟩ := h.head?
  have hpositive : (0 : Int) < t.width.bytes * t.count := by
    have hwidth := t.width.bytes_pos
    have hcount := h.pos
    exact_mod_cast Nat.mul_pos hwidth hcount
  have hfill : ∀ {v : Int}, t.width.InRange v → t.fixedValue = some (.ofInt v) →
      ∀ {value : List Nat}, value.length = t.count →
        (0 < (t.fill value s).1 ↔ x₀ = v ∧ (0 ≤ v ∨ t.width = .four)) := by
    intro v hv hfixed value hvalue
    rw [(h.fill_eq hread hvalue).2 _ hfixed, ← Width.bitsOf_eq_ofInt_iff hx₀ hv, hhead]
    by_cases heq : t.width.bitsOf x₀ = (UInt32.ofInt v).toNat
    · simpa [heq] using hpositive
    · simp [heq]
  constructor
  · intro haccepts v hv hfixed hv₀
    have hiff := haccepts v hv hfixed (List.replicate t.count 0) List.length_replicate
    exact ((hfill hv hfixed List.length_replicate).1 (hiff.2 hv₀)).2
  · intro hall v hv hfixed value hvalue
    rw [hfill hv hfixed hvalue, hhead, Option.some.injEq]
    exact ⟨And.left, fun heq => ⟨heq, hall v hv hfixed (heq ▸ hhead)⟩⟩

/-- Where nothing is read, what the field held before would be shown. -/
theorem HoldsSigned.showsIntegers_of_tooLittle (h : HoldsSigned t xs s) (hlittle : t.TooLittle s)
    (annotated : Bool) :
    ShowsIntegers t annotated xs s ↔ ∀ n, ¬ t.ShowsPlace annotated n := by
  obtain ⟨x₀, hhead, hzero, -⟩ := h.head?
  have hsecond : ∀ value, (t.fill value s).2 = value := fun value => by
    rw [UnsignedType.fill_of_tooLittle hlittle]
  have hpos := h.pos
  constructor
  · intro hshows n hplace
    -- the first value is shown, so it would have to be that of every object
    have hfirst : ∀ y : Nat, t.shown y = x₀ := by
      intro y
      obtain ⟨hprint, hreadable⟩ := hshows (List.replicate t.count y) List.length_replicate
      rw [hsecond] at hprint hreadable
      rcases hplace with hn | ⟨-, hone⟩
      · obtain ⟨x, hx, hshown⟩ := hprint 0 (by omega)
        rw [UnsignedType.getElem?_printSigned (by omega), List.getElem?_replicate,
          if_pos (by omega)] at hshown
        cases hzero.symm.trans hx
        exact Option.some.inj hshown
      · have hshown := hreadable (t.shown y) (by
          rw [UnsignedType.humanReadableSigned, if_pos hone, List.head?_replicate,
            if_neg (by omega)]
          rfl)
        exact (Option.some.inj (hhead.symm.trans hshown)).symm
    have hvalues : t.shown 0 = 0 ∧ t.shown 1 = 1 := by
      unfold UnsignedType.shown
      split <;> decide
    have hcontra := hvalues.1.symm.trans ((hfirst 0).trans ((hfirst 1).symm.trans hvalues.2))
    cases hcontra
  · intro hnone value _
    refine ⟨fun n hn => absurd (Or.inl hn) (hnone n), fun x hx => ?_⟩
    rw [UnsignedType.humanReadableSigned] at hx
    split at hx
    next hone => exact absurd (Or.inr ⟨rfl, hone⟩) (hnone 0)
    · cases hx

theorem acceptsFixed_of_tooLittle (hlittle : t.TooLittle s) :
    AcceptsFixed t xs s ↔
      ∀ v, t.width.InRange v → t.fixedValue = some (.ofInt v) → xs.head? ≠ some v := by
  have hfirst : ∀ value, ¬ 0 < (t.fill value s).1 := fun value => by
    rw [UnsignedType.fill_of_tooLittle hlittle]
    exact Int.lt_irrefl 0
  constructor
  · intro haccepts v hv hfixed hhead
    exact hfirst (List.replicate t.count 0)
      ((haccepts v hv hfixed _ List.length_replicate).2 hhead)
  · intro hnone v hv hfixed value _
    exact iff_of_false (hfirst value) (hnone v hv hfixed)

/-- A field of a decimal signed type shows the integers of a payload, and takes it exactly when its
fixed value comes first, if and only if no more is shown than there is, every integer that is shown
is not negative unless it is a single one of four bytes without an enumeration, and the fixed value
does not come first when it is negative and narrower than that. Where `min_count` asks for too much,
nothing may be shown and the fixed value may not come first. -/
theorem signed_iff (h : HoldsSigned t xs s) (annotated : Bool) :
    (ShowsIntegers t annotated xs s ∧ AcceptsFixed t xs s) ↔
      if t.TooLittle s then
        (∀ n, ¬ t.ShowsPlace annotated n) ∧
          ∀ v, t.width.InRange v → t.fixedValue = some (.ofInt v) → xs.head? ≠ some v
      else
        (t.numPrintedSigned ≤ t.count ∧
          ∀ n x, t.ShowsPlace annotated n → xs[n]? = some x →
            0 ≤ x ∨ t.width = .four ∧ ¬ t.MeantUnsigned) ∧
          ∀ v, t.width.InRange v → t.fixedValue = some (.ofInt v) → xs.head? = some v →
            0 ≤ v ∨ t.width = .four := by
  by_cases hlittle : t.TooLittle s
  · rw [if_pos hlittle, h.showsIntegers_of_tooLittle hlittle,
      acceptsFixed_of_tooLittle hlittle]
  · rw [if_neg hlittle, h.showsIntegers_iff hlittle, h.acceptsFixed_iff hlittle]

end Signed

/-! ## One byte and four bytes -/

/-- A decimal field with one value. -/
def signedField (width : Width) (fixedValue : Option UInt32) : UnsignedType where
  width := width
  count := 1
  minCount := 1
  displayCount := -1
  fixedValue := fixedValue
  format := .decimal
  enumeration := none

theorem holdsSigned_signedField {width : Width} {fixedValue : Option UInt32} {x : Int}
    (h : width.InRange x) (offset : UInt32) :
    HoldsSigned (signedField width fixedValue) [x]
      ⟨width.encodeAll [x], (width.encodeAll [x]).length, offset⟩ where
  format := rfl
  pos := Nat.le_refl 1
  length := rfl
  inRange := fun _ hmem => (List.mem_singleton.1 hmem).symm ▸ h
  data := ⟨[], (List.append_nil _).symm⟩
  dataLeft := rfl

/-- Four bytes have their sign. -/
theorem signed_minusFour :
    ShowsIntegers (signedField .four (some (.ofInt (-4)))) false [-4]
        ⟨[0xfc, 0xff, 0xff, 0xff], 4, 0⟩ ∧
      AcceptsFixed (signedField .four (some (.ofInt (-4)))) [-4]
        ⟨[0xfc, 0xff, 0xff, 0xff], 4, 0⟩ := by
  have hrange : Width.four.InRange (-4) := by
    unfold Width.InRange
    decide
  refine (signed_iff (holdsSigned_signedField hrange 0) false).2 ?_
  rw [if_neg (by decide)]
  exact ⟨⟨by decide, fun _ _ _ _ => Or.inr ⟨rfl, by decide⟩⟩, fun _ _ _ _ => Or.inr rfl⟩

/-- A single byte does not. -/
theorem byte_without_sign : ¬ ∀ (t : UnsignedType) (xs : List Int) (s : DecodeState),
    HoldsSigned t xs s → ShowsIntegers t false xs s ∧ AcceptsFixed t xs s := by
  intro hall
  have hrange : Width.one.InRange (-1) := by
    unfold Width.InRange
    decide
  obtain ⟨hshows, -⟩ := hall (signedField .one none) [-1] _ (holdsSigned_signedField hrange 0)
  obtain ⟨hprint, -⟩ := hshows [0] rfl
  obtain ⟨x, hx, hshown⟩ := hprint 0 (by decide)
  cases hx
  have h255 : ((signedField .one none).printSigned ((signedField .one none).fill [0]
      ⟨Width.one.encodeAll [-1], (Width.one.encodeAll [-1]).length, 0⟩).2)[0]? = some 255 := by
    decide
  cases hshown.symm.trans h255

end ProtocolDefinition

end OpenRom
