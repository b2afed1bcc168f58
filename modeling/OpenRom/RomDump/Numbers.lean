import OpenRom.RomDump.Capture

/-!
# Numbers in a text

A number in decimal, and what `strtoul` makes of digits: their number, and what follows them
(`strtoul_digits`). It goes past blanks, a sign and the prefix of a hexadecimal number first, none
of which starts with a digit.
-/

set_option autoImplicit false

namespace OpenRom.RomDump

def newline : UInt8 := 0x0a
def space : UInt8 := 0x20
def dot : UInt8 := 0x2e
def dash : UInt8 := 0x2d
def colon : UInt8 := 0x3a

/-! ## Digits -/

/-- The characters are digits of the base. -/
abbrev AllDigits (base : Nat) (ds : List UInt8) : Prop := Numeral.AllDigits UInt8.toNat base ds

/-- No digit comes next. -/
abbrev Stops (base : Nat) (rest : List UInt8) : Prop := Numeral.Stops UInt8.toNat base rest

/-- The number that the digits make, behind one that has been read already. -/
abbrev numberFrom (base v : Nat) (ds : List UInt8) : Nat := Numeral.numberFrom UInt8.toNat base v ds

theorem numberFrom_append (base v : Nat) (ds es : List UInt8) :
    numberFrom base v (ds ++ es) = numberFrom base (numberFrom base v ds) es :=
  Numeral.numberFrom_append v ds es

/-- A digit ends no line and no string, and is none of the characters between the numbers of an
address. -/
theorem ne_of_digit {base : Nat} {c : UInt8} {d : Nat} (hc : digit base c = some d) :
    c ≠ newline ∧ c ≠ 0 ∧ c ≠ colon := by
  have hrange := Numeral.range_of_digit hc
  refine ⟨?_, ?_, ?_⟩ <;> rintro rfl <;> exact absurd hrange (by decide)

/-- What `strtoul` returns for the number. -/
def saturated (v : Nat) : UInt32 := .ofNat (if v ≥ 2 ^ 64 then 2 ^ 64 - 1 else v)

theorem saturated_of_lt {v : Nat} (hv : v < 2 ^ 32) : (saturated v).toNat = v := by
  rw [saturated, if_neg (by omega), UInt32.toNat_ofNat_of_lt' hv]

theorem strtoul_digits {base : Nat} (hpos : 0 < base) {ds rest : List UInt8}
    (hds : AllDigits base ds) (hne : ds ≠ []) (hstop : Stops base rest)
    (hskip : base = 16 → Numeral.skipPrefix UInt8.toNat (ds ++ rest) = none) :
    strtoul base (ds ++ rest) = (saturated (numberFrom base 0 ds), rest) := by
  rw [strtoul, Numeral.scan_digits hpos hds hne hstop hskip]
  rfl

/-! ## Decimal numbers -/

/-- The digit of a number below ten. -/
def decimalDigit (n : Nat) : UInt8 := 0x30 + .ofNat n

/-- A number in decimal. -/
def decimal (n : Nat) : List UInt8 :=
  if n < 10 then [decimalDigit n] else decimal (n / 10) ++ [decimalDigit (n % 10)]

theorem digit_decimalDigit {n : Nat} (hn : n < 10) : digit 10 (decimalDigit n) = some n := by
  have hall : ∀ n < 10, digit 10 (decimalDigit n) = some n := by decide
  exact hall n hn

theorem allDigits_decimal (n : Nat) : AllDigits 10 (decimal n) := by
  induction n using Nat.strongRecOn with
  | ind n ih =>
      rw [decimal]
      by_cases hn : n < 10
      · rw [if_pos hn]
        exact List.forall_mem_singleton.2 ⟨n, digit_decimalDigit hn⟩
      · rw [if_neg hn]
        exact List.forall_mem_append.2 ⟨ih (n / 10) (by omega),
          List.forall_mem_singleton.2 ⟨n % 10, digit_decimalDigit (Nat.mod_lt _ (by decide))⟩⟩

theorem numberFrom_decimal (n : Nat) : numberFrom 10 0 (decimal n) = n := by
  induction n using Nat.strongRecOn with
  | ind n ih =>
      rw [decimal]
      by_cases hn : n < 10
      · rw [if_pos hn]
        simp [numberFrom, Numeral.numberFrom, digit_decimalDigit hn]
      · rw [if_neg hn, numberFrom_append, ih (n / 10) (by omega)]
        simp only [numberFrom, Numeral.numberFrom, List.foldl_cons, List.foldl_nil,
          digit_decimalDigit (Nat.mod_lt n (by decide)), Option.getD_some]
        omega

theorem length_decimal_pos (n : Nat) : 0 < (decimal n).length := by
  rw [decimal]
  split
  · exact Nat.one_pos
  · rw [List.length_append]
    exact Nat.succ_pos _

theorem length_decimal_le {k n : Nat} (hk : 1 ≤ k) (hn : n < 10 ^ k) : (decimal n).length ≤ k := by
  induction k generalizing n with
  | zero => exact absurd hk (by decide)
  | succ k ih =>
      rw [decimal]
      by_cases hsmall : n < 10
      · rw [if_pos hsmall]
        exact hk
      · rw [Nat.pow_succ] at hn
        have hk' : 1 ≤ k := by
          refine Nat.pos_of_ne_zero ?_
          rintro rfl
          omega
        rw [if_neg hsmall, List.length_append]
        exact Nat.succ_le_succ (ih hk' (by omega))

/-- A number in decimal, with any zeros before it. -/
def Padded (n : Nat) (cs : List UInt8) : Prop := ∃ k, cs = List.replicate k 0x30 ++ decimal n

theorem Padded.allDigits {n : Nat} {cs : List UInt8} (h : Padded n cs) : AllDigits 10 cs := by
  obtain ⟨k, rfl⟩ := h
  intro c hc
  rcases List.mem_append.1 hc with hc | hc
  · exact ⟨0, by rw [List.eq_of_mem_replicate hc]; rfl⟩
  · exact allDigits_decimal n c hc

theorem Padded.ne_nil {n : Nat} {cs : List UInt8} (h : Padded n cs) : cs ≠ [] := by
  obtain ⟨k, rfl⟩ := h
  exact List.append_ne_nil_of_right_ne_nil _ (List.length_pos_iff.1 (length_decimal_pos n))

theorem Padded.numberFrom_eq {n : Nat} {cs : List UInt8} (h : Padded n cs) :
    numberFrom 10 0 cs = n := by
  obtain ⟨k, rfl⟩ := h
  have hzeros : numberFrom 10 0 (List.replicate k 0x30) = 0 := by
    induction k with
    | zero => rfl
    | succ k ih => exact ih
  rw [numberFrom_append, hzeros, numberFrom_decimal]

/-- A padded number is read up to what is no digit. -/
theorem Padded.strtoul_eq {n : Nat} {cs : List UInt8} (h : Padded n cs) (hn : n < 2 ^ 32)
    {rest : List UInt8} (hstop : Stops 10 rest) :
    strtoul 10 (cs ++ rest) = (.ofNat n, rest) := by
  rw [strtoul_digits (by decide) h.allDigits h.ne_nil hstop nofun, h.numberFrom_eq, saturated,
    if_neg (by omega)]

end OpenRom.RomDump
